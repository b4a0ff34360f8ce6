/-
  MultiCore.Lib.Bags — what is in a family of bags.

  A bag is a list, `bags i` for every index `i` of a finite set.  The multiset
  `contents` says what they hold together; an operation changes one bag, so it
  is enough to know what becomes of that one.

  Nothing here mentions a concrete program.
-/
import Mathlib.Algebra.BigOperators.Group.Finset.Basic
import Mathlib.Algebra.BigOperators.Intervals
import Mathlib.Data.Multiset.AddSub
import Mathlib.Algebra.Order.Group.Multiset
import Mathlib.Tactic.Abel

namespace MultiCore.Lib

variable {ι α : Type*}

/-- Everything the bags of `r` hold. -/
def contents (r : Finset ι) (bags : ι → List α) : Multiset α := ∑ i ∈ r, (bags i : Multiset α)

section Contents

variable {r : Finset ι} {bags bags' : ι → List α} {i : ι} {a : α} {l : List α}

theorem mem_contents : a ∈ contents r bags ↔ ∃ i ∈ r, a ∈ bags i := by
  unfold contents
  rw [Multiset.mem_sum]
  simp only [Multiset.mem_coe]

/-- Bags that agree hold the same. -/
theorem contents_congr (h : ∀ j ∈ r, bags' j = bags j) : contents r bags' = contents r bags :=
  Finset.sum_congr rfl fun j hj => congrArg _ (h j hj)

theorem contents_empty (h : ∀ j ∈ r, bags j = []) : contents r bags = 0 := by
  refine Finset.sum_eq_zero fun j hj => ?_
  rw [h j hj]
  exact Multiset.coe_nil

/-- **What the bags hold when only one of them has changed.** -/
theorem contents_change [DecidableEq ι] (hi : i ∈ r) (h : ∀ j ∈ r, j ≠ i → bags' j = bags j) :
    contents r bags' + (bags i : Multiset α) = contents r bags + (bags' i : Multiset α) := by
  have hrest : ∑ j ∈ r.erase i, (bags' j : Multiset α) = ∑ j ∈ r.erase i, (bags j : Multiset α) := by
    refine Finset.sum_congr rfl fun j hj => ?_
    rw [h j (Finset.mem_of_mem_erase hj) (Finset.ne_of_mem_erase hj)]
  unfold contents
  rw [← Finset.add_sum_erase r _ hi, ← Finset.add_sum_erase r _ hi, hrest]
  abel

/-- The same when two of them have. -/
theorem contents_change_two [DecidableEq ι] {k : ι} (hik : i ≠ k) (hi : i ∈ r) (hk : k ∈ r)
    (h : ∀ j ∈ r, j ≠ i → j ≠ k → bags' j = bags j) :
    contents r bags' + ((bags i : Multiset α) + (bags k : Multiset α))
      = contents r bags + ((bags' i : Multiset α) + (bags' k : Multiset α)) := by
  have hfirst : contents r (Function.update bags i (bags' i)) + (bags i : Multiset α)
      = contents r bags + (Function.update bags i (bags' i) i : Multiset α) :=
    contents_change hi fun j _ hj => Function.update_of_ne hj _ _
  have hsecond : contents r bags' + (Function.update bags i (bags' i) k : Multiset α)
      = contents r (Function.update bags i (bags' i)) + (bags' k : Multiset α) := by
    refine contents_change hk fun j hj hne => ?_
    by_cases hji : j = i
    · rw [hji, Function.update_self]
    · rw [Function.update_of_ne hji, h j hj hji hne]
  rw [Function.update_self] at hfirst
  rw [Function.update_of_ne (Ne.symm hik)] at hsecond
  calc contents r bags' + ((bags i : Multiset α) + (bags k : Multiset α))
      = contents r bags' + (bags k : Multiset α) + (bags i : Multiset α) := by abel
    _ = contents r (Function.update bags i (bags' i)) + (bags i : Multiset α)
          + (bags' k : Multiset α) := by
        rw [hsecond]
        abel
    _ = contents r bags + ((bags' i : Multiset α) + (bags' k : Multiset α)) := by
        rw [hfirst]
        abel

theorem contents_push [DecidableEq ι] (hi : i ∈ r) (h : ∀ j ∈ r, j ≠ i → bags' j = bags j)
    (hpush : bags' i = a :: bags i) : contents r bags' = a ::ₘ contents r bags := by
  have hsum := contents_change hi h
  rw [hpush, ← Multiset.cons_coe, Multiset.add_cons, ← Multiset.cons_add] at hsum
  exact Multiset.add_right_inj.mp ((add_comm _ _).trans (hsum.trans (add_comm _ _)))

theorem contents_pop [DecidableEq ι] (hi : i ∈ r) (h : ∀ j ∈ r, j ≠ i → bags' j = bags j)
    (hpop : bags i = a :: bags' i) : contents r bags = a ::ₘ contents r bags' :=
  contents_push hi (fun j hj hne => (h j hj hne).symm) hpop

theorem card_contents : Multiset.card (contents r bags) = ∑ i ∈ r, (bags i).length := by
  show Multiset.card (∑ i ∈ r, (bags i : Multiset α)) = _
  rw [Multiset.card_sum]
  rfl

/-- Lists put one behind the other. -/
theorem coe_flatMap_range (n : ℕ) (f : ℕ → List α) :
    (((List.range n).flatMap f : List α) : Multiset α) = ∑ i ∈ Finset.range n, (f i : Multiset α) := by
  induction n with
  | zero => rfl
  | succ n ih =>
      rw [List.range_succ, List.flatMap_append, ← Multiset.coe_add, ih, Finset.sum_range_succ]
      simp

end Contents

end MultiCore.Lib
