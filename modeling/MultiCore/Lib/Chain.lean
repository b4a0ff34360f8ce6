/-
  MultiCore.Lib.Chain — splicing one element into, or out of, a linked chain.

  A chain is a duplicate-free list whose neighbours are related (`List.IsChain`).
  An update that touches the link of one neighbouring pair only leaves every
  other link alone; `isChain_splice_in` and `isChain_splice_out` carry a chain
  across such an update, whatever the relation is.

  Nothing here mentions a concrete program.
-/
import Mathlib.Data.List.Chain
import Mathlib.Data.List.Nodup

namespace MultiCore.Lib

open List

variable {α : Type*} {R R' : α → α → Prop}

/-! ## §1. Neighbours in a duplicate-free list. -/

/-- An element that is not the last one has a successor in the list. -/
theorem exists_split_of_mem {l : List α} {x z : α} (hx : x ∈ l) (hlast : l.getLast? = some z)
    (hne : x ≠ z) : ∃ l₁ y l₂, l = l₁ ++ x :: y :: l₂ := by
  obtain ⟨l₁, r, rfl⟩ := List.append_of_mem hx
  cases r with
  | nil =>
      rw [List.getLast?_append_cons, List.getLast?_singleton, Option.some.injEq] at hlast
      exact absurd hlast hne
  | cons y l₂ => exact ⟨l₁, y, l₂, rfl⟩

/-- An element that is not the first one has a predecessor in the list. -/
theorem exists_split_of_mem' {l : List α} {x z : α} (hx : x ∈ l) (hhead : l.head? = some z)
    (hne : x ≠ z) : ∃ l₁ y l₂, l = l₁ ++ y :: x :: l₂ := by
  obtain ⟨l₁, r, rfl⟩ := List.append_of_mem hx
  rcases List.eq_nil_or_concat l₁ with rfl | ⟨l, y, rfl⟩
  · simp only [List.nil_append, List.head?_cons, Option.some.injEq] at hhead
    exact absurd hhead hne
  · exact ⟨l, y, r, by simp⟩

theorem isChain_pair {l₁ l₂ : List α} {a b : α} (h : IsChain R (l₁ ++ a :: b :: l₂)) : R a b :=
  (List.isChain_append_cons_cons.mp h).2.1

/-! ## §2. Splicing. -/

/-- The part of a chain behind `a` survives an update that changes only the
outgoing link of `a` and the incoming link of its head. -/
theorem isChain_tail_imp {l : List α} {a b : α}
    (h : IsChain R (b :: l)) (hd : (a :: b :: l).Nodup)
    (hR : ∀ x y, R x y → x ≠ a → y ≠ b → R' x y) : IsChain R' (b :: l) := by
  obtain ⟨ha, hbl⟩ := List.nodup_cons.mp hd
  refine List.IsChain.imp_of_mem_tail_imp ?_ h
  intro x y hx hy hxy
  refine hR x y hxy ?_ ?_
  · rintro rfl
    exact ha hx
  · rintro rfl
    exact (List.nodup_cons.mp hbl).1 hy

/-- The first neighbour behind `x`, when `x :: l₁ ++ a :: r` is duplicate-free,
is neither `x` itself nor an element behind `a`. -/
theorem head_ne_of_nodup {l₁ r : List α} {x y a b : α} (hd : (x :: (l₁ ++ a :: r)).Nodup)
    (hb : b ∈ r) (hy : y ∈ (l₁ ++ a :: r).head?) : x ≠ a ∧ y ≠ b := by
  obtain ⟨hx, hrest⟩ := List.nodup_cons.mp hd
  constructor
  · rintro rfl
    exact hx (List.mem_append_right _ List.mem_cons_self)
  · rintro rfl
    cases l₁ with
    | nil =>
        simp only [List.nil_append, List.head?_cons, Option.mem_some_iff] at hy
        subst hy
        exact (List.nodup_cons.mp hrest).1 hb
    | cons z l₁ =>
        simp only [List.cons_append, List.head?_cons, Option.mem_some_iff] at hy
        subst hy
        exact (List.nodup_cons.mp hrest).1 (List.mem_append_right _ (List.mem_cons_of_mem _ hb))

/-- **Splice in**: a chain survives the insertion of `n` between the
neighbours `a` and `b` when every other link is kept. -/
theorem isChain_splice_in {l₁ l₂ : List α} {a b n : α}
    (h : IsChain R (l₁ ++ a :: b :: l₂)) (hd : (l₁ ++ a :: b :: l₂).Nodup)
    (hR : ∀ x y, R x y → x ≠ a → y ≠ b → R' x y)
    (han : R' a n) (hnb : R' n b) : IsChain R' (l₁ ++ a :: n :: b :: l₂) := by
  induction l₁ with
  | nil =>
      have htail := isChain_tail_imp (List.isChain_cons_cons.mp h).2 hd hR
      exact List.isChain_cons_cons.mpr ⟨han, List.isChain_cons_cons.mpr ⟨hnb, htail⟩⟩
  | cons x l₁ ih =>
      rw [List.cons_append, List.isChain_cons] at h ⊢
      refine ⟨?_, ih h.2 (List.nodup_cons.mp hd).2⟩
      intro y hy
      have hy' : y ∈ (l₁ ++ a :: b :: l₂).head? := by
        cases l₁ <;> simpa using hy
      obtain ⟨hxa, hyb⟩ := head_ne_of_nodup hd List.mem_cons_self hy'
      exact hR x y (h.1 y hy') hxa hyb

/-- **Splice out**: a chain survives the removal of `b` between the
neighbours `a` and `c` when every other link is kept. -/
theorem isChain_splice_out {l₁ l₂ : List α} {a b c : α}
    (h : IsChain R (l₁ ++ a :: b :: c :: l₂)) (hd : (l₁ ++ a :: b :: c :: l₂).Nodup)
    (hR : ∀ x y, R x y → x ≠ a → y ≠ c → R' x y)
    (hac : R' a c) : IsChain R' (l₁ ++ a :: c :: l₂) := by
  induction l₁ with
  | nil =>
      have hcl := (List.isChain_cons_cons.mp (List.isChain_cons_cons.mp h).2).2
      have hd' : (a :: c :: l₂).Nodup :=
        List.Nodup.sublist (List.Sublist.cons_cons a (List.sublist_cons_self b (c :: l₂))) hd
      exact List.isChain_cons_cons.mpr ⟨hac, isChain_tail_imp hcl hd' hR⟩
  | cons x l₁ ih =>
      rw [List.cons_append, List.isChain_cons] at h ⊢
      refine ⟨?_, ih h.2 (List.nodup_cons.mp hd).2⟩
      intro y hy
      have hy' : y ∈ (l₁ ++ a :: b :: c :: l₂).head? := by
        cases l₁ <;> simpa using hy
      obtain ⟨hxa, hyc⟩ := head_ne_of_nodup hd (List.mem_cons_of_mem b List.mem_cons_self) hy'
      exact hR x y (h.1 y hy') hxa hyc

end MultiCore.Lib
