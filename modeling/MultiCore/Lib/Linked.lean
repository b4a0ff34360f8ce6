/-
  MultiCore.Lib.Linked — singly linked lists in a memory.

  `Linked next l z` says that the `next` pointers lead from every element of `l`
  to the one behind it, and from the last one to `z`.  Lists are taken apart and
  put together with `linked_append`, and an update of one pointer is either
  outside of the list (`Linked.congr`) or at its end (`Linked.relink`).

    * `Linked.follow` — a loop that follows the pointers visits the list;
    * `Linked.unique` — the pointers determine it.

  Nothing here mentions a concrete program.
-/
import Mathlib.Logic.Function.Basic
import Mathlib.Data.List.Basic
import Mathlib.Data.List.Nodup

namespace MultiCore.Lib

variable {α : Type*}

def Linked (next : α → Option α) : List α → Option α → Prop
  | [], _ => True
  | a :: l, z => next a = l.head?.or z ∧ Linked next l z

/-- Follow the pointers for at most `n` elements. -/
def follow (next : α → Option α) : ℕ → Option α → List α
  | n + 1, some a => a :: follow next n (next a)
  | _, _ => []

section Linked

variable {next next' : α → Option α} {a : α} {l l₁ l₂ : List α} {z : Option α}

theorem linked_append :
    Linked next (l₁ ++ l₂) z ↔ Linked next l₁ (l₂.head?.or z) ∧ Linked next l₂ z := by
  induction l₁ with
  | nil => simp [Linked]
  | cons a l₁ ih =>
      have hhead : (l₁ ++ l₂).head?.or z = l₁.head?.or (l₂.head?.or z) := by
        cases l₁ with
        | nil => rfl
        | cons => rfl
      show next a = (l₁ ++ l₂).head?.or z ∧ Linked next (l₁ ++ l₂) z ↔
        (next a = l₁.head?.or (l₂.head?.or z) ∧ Linked next l₁ _) ∧ Linked next l₂ z
      rw [ih, hhead, and_assoc]

/-- Pointers of other elements do not matter. -/
theorem Linked.congr (h : Linked next l z) (hsame : ∀ a ∈ l, next' a = next a) :
    Linked next' l z := by
  induction l with
  | nil => trivial
  | cons a l ih =>
      refine ⟨?_, ih h.2 fun b hb => hsame b (List.mem_cons_of_mem a hb)⟩
      rw [hsame a List.mem_cons_self]
      exact h.1

/-- **The last pointer of a list is set to `z`.** -/
theorem Linked.relink {z' : Option α} (h : Linked next (l ++ [a]) z')
    (hnext : next' a = z) (hsame : ∀ b ∈ l, next' b = next b) : Linked next' (l ++ [a]) z := by
  rw [linked_append] at h ⊢
  refine ⟨?_, ?_⟩
  · exact h.1.congr hsame
  · exact ⟨by rw [hnext]; rfl, trivial⟩

theorem Linked.next_eq (h : Linked next (l₁ ++ a :: l₂) z) : next a = l₂.head?.or z :=
  (linked_append.mp h).2.1

/-- **A loop that follows the pointers visits the list** and stops. -/
theorem Linked.follow (h : Linked next l none) {n : ℕ} (hn : l.length ≤ n) :
    follow next n l.head? = l := by
  induction l generalizing n with
  | nil => cases n <;> rfl
  | cons a l ih =>
      obtain ⟨n, rfl⟩ : ∃ m, n = m + 1 := Nat.exists_eq_add_one.mpr (Nat.lt_of_lt_of_le (by simp) hn)
      have hnext : next a = l.head? := by
        rw [h.1, Option.or_none]
      show a :: Lib.follow next n (next a) = a :: l
      rw [hnext, ih h.2 (Nat.le_of_succ_le_succ hn)]

theorem Linked.unique (h₁ : Linked next l₁ none) (h₂ : Linked next l₂ none)
    (hhead : l₁.head? = l₂.head?) : l₁ = l₂ := by
  have hl₁ := h₁.follow (Nat.le_max_left l₁.length l₂.length)
  have hl₂ := h₂.follow (Nat.le_max_right l₁.length l₂.length)
  rw [← hl₁, hhead, hl₂]

end Linked

end MultiCore.Lib
