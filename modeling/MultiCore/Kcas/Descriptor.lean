/-
  MultiCore.Kcas.Descriptor — building and ordering the entries of a k-CAS
  descriptor (`casword.h`, `kcas_reuse_impl.h` of assignment 6).

  `kcasdesc_sort` orders the entries by address before `execute` locks them.
  It is stable, so of two entries with one address the one added first stays
  first (`firstAt_sort`).
-/
import Mathlib.Data.List.Induction
import MultiCore.Lib.MultiWordCas

namespace MultiCore.Kcas

open MultiCore.Lib

/-! ## §1. Adding entries. -/

/-- A `casword_t`. -/
abbrev Word := Nat

def KCAS_LEFTSHIFT : Nat := 2

variable {α : Type*}

/-- `kcasdesc_t::addPtrAddr`: a pointer is stored as it is. -/
def addPtrAddr (addr : α) (oldval newval : Word) : Entry α Word := ⟨addr, oldval, newval⟩

/-- `kcasdesc_t::addValAddr`: any other value is shifted past the tag bits. -/
def addValAddr (addr : α) (oldval newval : Bool) : Entry α Word :=
  ⟨addr, oldval.toNat <<< KCAS_LEFTSHIFT, newval.toNat <<< KCAS_LEFTSHIFT⟩

/-! ## §2. Sorting. -/

section Sorting

variable {β : Type*} [LT α] [DecidableLT α]

/-- The inner loop of `kcasdesc_sort`: compare `k` neighbours from the front. -/
def bubblePass : Nat → List (Entry α β) → List (Entry α β)
  | 0, es => es
  | k + 1, e₁ :: e₂ :: es =>
      if e₂.addr < e₁.addr then e₂ :: bubblePass k (e₁ :: es) else e₁ :: bubblePass k (e₂ :: es)
  | _ + 1, es => es

/-- `kcasdesc_sort`. -/
def kcasdesc_sort (es : List (Entry α β)) : List (Entry α β) :=
  (List.range es.length).foldl (fun es' i => bubblePass (es.length - i - 1) es') es

theorem bubblePass_perm : ∀ (k : Nat) (es : List (Entry α β)), (bubblePass k es).Perm es
  | 0, _ => List.Perm.refl _
  | _ + 1, [] => List.Perm.refl _
  | _ + 1, [_] => List.Perm.refl _
  | k + 1, e₁ :: e₂ :: es => by
      unfold bubblePass
      split
      · exact ((bubblePass_perm k (e₁ :: es)).cons e₂).trans (List.Perm.swap e₁ e₂ es)
      · exact (bubblePass_perm k (e₂ :: es)).cons e₁

/-- Sorting loses no entry. -/
theorem kcasdesc_sort_perm (es : List (Entry α β)) : (kcasdesc_sort es).Perm es := by
  unfold kcasdesc_sort
  induction List.range es.length using List.reverseRecOn with
  | nil => exact List.Perm.refl es
  | append_singleton is i ih =>
      rw [List.foldl_append]
      exact (bubblePass_perm _ _).trans ih

variable [DecidableEq α] (hirr : ∀ a : α, ¬ a < a)
include hirr

/-- A pass swaps entries of different addresses only. -/
theorem firstAt_bubblePass (a : α) :
    ∀ (k : Nat) (es : List (Entry α β)), firstAt (bubblePass k es) a = firstAt es a
  | 0, _ => rfl
  | _ + 1, [] => rfl
  | _ + 1, [_] => rfl
  | k + 1, e₁ :: e₂ :: es => by
      unfold bubblePass
      split
      · rename_i hlt
        rw [firstAt_cons, firstAt_bubblePass a k, firstAt_cons, firstAt_cons, firstAt_cons]
        by_cases h₁ : e₁.addr = a
        · have h₂ : ¬ e₂.addr = a := by
            intro h₂
            rw [h₁, h₂] at hlt
            exact hirr a hlt
          rw [if_neg h₂, if_pos h₁, if_pos h₁]
        · rw [if_neg h₁, if_neg h₁]
      · rw [firstAt_cons, firstAt_bubblePass a k, ← firstAt_cons]

/-- **Sorting does not change which entry decides about an address.** -/
theorem firstAt_sort (es : List (Entry α β)) (a : α) :
    firstAt (kcasdesc_sort es) a = firstAt es a := by
  unfold kcasdesc_sort
  induction List.range es.length using List.reverseRecOn with
  | nil => rfl
  | append_singleton is i ih =>
      rw [List.foldl_append, List.foldl_cons, List.foldl_nil, firstAt_bubblePass hirr]
      exact ih

/-- Executing sorted entries is executing them in the order they were added. -/
theorem lockCas_sort [DecidableEq β] (m : α → β) (es : List (Entry α β)) :
    lockCas m (kcasdesc_sort es) = lockCas m es := by
  have hiff : FirstMatches m (kcasdesc_sort es) ↔ FirstMatches m es := by
    unfold FirstMatches
    simp only [firstAt_sort hirr]
  by_cases h : FirstMatches m es
  · rw [lockCas_of_first h, lockCas_of_first (hiff.mpr h)]
    simp only [firstAt_sort hirr]
  · rw [lockCas_of_not_first h, lockCas_of_not_first (fun h' => h (hiff.mp h'))]

end Sorting

end MultiCore.Kcas
