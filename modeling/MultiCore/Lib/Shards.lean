/-
  MultiCore.Lib.Shards — a count that is spread over shards.

  The shards are a function `f : ℕ → ℕ`.  A reader that adds them up one after
  another has the first `k` of them behind it: `below f k` is their sum now, and
  `between f k n` the sum of those that are left.

  Nothing here mentions a concrete program.
-/
import Mathlib.Algebra.BigOperators.Group.Finset.Piecewise
import Mathlib.Algebra.BigOperators.Intervals
import Mathlib.Algebra.Order.BigOperators.Group.Finset

namespace MultiCore.Lib

/-- The sum of the shards before `k`. -/
def below (f : ℕ → ℕ) (k : ℕ) : ℕ := ∑ j ∈ Finset.range k, f j

/-- The sum of the shards from `k` to before `n`. -/
def between (f : ℕ → ℕ) (k n : ℕ) : ℕ := ∑ j ∈ Finset.Ico k n, f j

section Shards

variable {f g : ℕ → ℕ} {k n x v : ℕ}

@[simp] theorem below_zero (f : ℕ → ℕ) : below f 0 = 0 := rfl

theorem below_succ (f : ℕ → ℕ) (k : ℕ) : below f (k + 1) = below f k + f k :=
  Finset.sum_range_succ f k

@[simp] theorem between_self (f : ℕ → ℕ) (n : ℕ) : between f n n = 0 := by
  unfold between
  rw [Finset.Ico_self, Finset.sum_empty]

theorem between_succ (h : k < n) : between f k n = f k + between f (k + 1) n :=
  Finset.sum_eq_sum_Ico_succ_bot h f

theorem below_add_between (h : k ≤ n) : below f k + between f k n = below f n :=
  Finset.sum_range_add_sum_Ico f h

/-- Shards that agree add up to the same. -/
theorem below_congr (h : ∀ j < k, f j = g j) : below f k = below g k :=
  Finset.sum_congr rfl fun j hj => h j (Finset.mem_range.mp hj)

theorem below_le_below (h : ∀ j < k, f j ≤ g j) : below f k ≤ below g k :=
  Finset.sum_le_sum fun j hj => h j (Finset.mem_range.mp hj)

/-- Shards behind `n` that are zero do not count. -/
theorem below_of_zero (h : ∀ j, n ≤ j → f j = 0) (hn : n ≤ k) : below f k = below f n := by
  have hzero : between f n k = 0 := Finset.sum_eq_zero fun j hj => h j (Finset.mem_Ico.mp hj).1
  have hsum := below_add_between (f := f) hn
  omega

/-- Another value in one shard. -/
theorem below_update : below (Function.update f x v) k + (if x < k then f x else 0)
    = below f k + (if x < k then v else 0) := by
  unfold below
  split
  · rename_i hx
    have hmem : x ∈ Finset.range k := Finset.mem_range.mpr hx
    rw [Finset.sum_update_of_mem hmem, ← Finset.add_sum_erase _ f hmem,
      Finset.sdiff_singleton_eq_erase]
    omega
  · rename_i hx
    rw [Finset.sum_update_of_notMem (by simpa using hx)]

theorem between_update : between (Function.update f x v) k n + (if k ≤ x ∧ x < n then f x else 0)
    = between f k n + (if k ≤ x ∧ x < n then v else 0) := by
  unfold between
  split
  · rename_i hx
    have hmem : x ∈ Finset.Ico k n := Finset.mem_Ico.mpr hx
    rw [Finset.sum_update_of_mem hmem, ← Finset.add_sum_erase _ f hmem,
      Finset.sdiff_singleton_eq_erase]
    omega
  · rename_i hx
    rw [Finset.sum_update_of_notMem (by simpa using hx)]

/-- The sum of all shards, when only shard `x` has changed. -/
theorem below_move (h : ∀ j, j ≠ x → g j = f j) (hx : x < n) :
    below g n + f x = below f n + g x := by
  have hg : g = Function.update f x (g x) := by
    funext j
    rw [Function.update_apply]
    split
    · rename_i hj
      rw [hj]
    · rename_i hj
      exact h j hj
  have hsum := below_update (f := f) (x := x) (v := g x) (k := n)
  rw [if_pos hx, if_pos hx, ← hg] at hsum
  exact hsum

/-- Two counts in every shard. -/
theorem below_add : below (fun j => f j + g j) k = below f k + below g k := Finset.sum_add_distrib

/-- No more than `b` in every shard. -/
theorem below_le_mul {b : ℕ} (h : ∀ j < k, f j ≤ b) : below f k ≤ k * b := by
  calc below f k ≤ ∑ _j ∈ Finset.range k, b :=
        Finset.sum_le_sum fun j hj => h j (Finset.mem_range.mp hj)
    _ = k * b := by rw [Finset.sum_const, Finset.card_range, Nat.nsmul_eq_mul]

end Shards

end MultiCore.Lib
