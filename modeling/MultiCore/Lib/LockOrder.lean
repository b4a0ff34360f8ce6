/-
  MultiCore.Lib.LockOrder — locks that are taken in an order.

  A `Locks` says who holds each lock and which lock each thread is about to
  take.  When a thread that holds a lock only ever waits for one of smaller
  `rank`, the wait-for chain from any lock ends at a thread that does not wait.

  Nothing here mentions a concrete program.
-/
import Mathlib.Order.Basic

namespace MultiCore.Lib

structure Locks (L T : Type*) where
  owner : L → Option T
  wants : T → Option L

namespace Locks

variable {L T : Type*} (k : Locks L T)

/-- The lock that thread `t` is about to take is taken. -/
def Waits (t : T) : Prop := ∃ x, k.wants t = some x ∧ k.owner x ≠ none

/-- A holder waits for locks of smaller rank only. -/
def Ordered (rank : L → ℕ) : Prop :=
  ∀ x y t, k.owner x = some t → k.wants t = some y → rank y < rank x

variable {k}

/-- Behind every taken lock there is a holder that does not wait. -/
theorem Ordered.exists_holder {rank : L → ℕ} (h : k.Ordered rank) {x : L} (hx : k.owner x ≠ none) :
    ∃ y t, k.owner y = some t ∧ ¬ k.Waits t := by
  induction hr : rank x using Nat.strongRecOn generalizing x with
  | ind n ih =>
    obtain ⟨t, ht⟩ := Option.ne_none_iff_exists'.mp hx
    by_cases hw : k.Waits t
    · obtain ⟨y, hwants, hy⟩ := hw
      have hlt : rank y < n := by
        have hdec := h x y t ht hwants
        omega
      exact ih _ hlt hy rfl
    · exact ⟨x, t, ht, hw⟩

/-- **The deadlock rule**: when the holders of locks are busy threads, not every
busy thread waits. -/
theorem Ordered.exists_running {rank : L → ℕ} (h : k.Ordered rank) {b : T → Prop}
    (hholder : ∀ x t, k.owner x = some t → b t) (hbusy : ∃ t, b t) :
    ∃ t, b t ∧ ¬ k.Waits t := by
  obtain ⟨t, ht⟩ := hbusy
  by_cases hw : k.Waits t
  · obtain ⟨x, -, hx⟩ := hw
    obtain ⟨y, w, hy, hrun⟩ := h.exists_holder hx
    exact ⟨w, hholder y w hy, hrun⟩
  · exact ⟨t, ht, hw⟩

end Locks

end MultiCore.Lib
