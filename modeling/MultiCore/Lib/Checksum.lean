/-
  MultiCore.Lib.Checksum — checksums that each party keeps for itself.

  Each party of a system adds up what its own steps are worth.  When the worth of
  every step is what it adds to a total of the state, the parties' sums together
  are that total, in every run.

  Nothing here mentions a concrete program.
-/
import MultiCore.Lib.Run
import Mathlib.Algebra.BigOperators.Group.Finset.Piecewise

namespace MultiCore.Lib

namespace Run

variable {σ α G : Type*} [AddCommMonoid G] {M : Sys σ α} (r : Run M) (tid : α → ℕ) (worth : σ → α → G)

/-- What party `p` has added up in the first `n` steps; a step is worth what the
state behind it says. -/
def checksum (p n : ℕ) : G :=
  ∑ i ∈ Finset.range n, if tid (r.act i) = p then worth (r.state (i + 1)) (r.act i) else 0

theorem checksum_succ (p n : ℕ) : r.checksum tid worth p (n + 1)
    = r.checksum tid worth p n
      + if tid (r.act n) = p then worth (r.state (n + 1)) (r.act n) else 0 :=
  Finset.sum_range_succ _ n

variable {tid worth} {total : σ → G}

/-- **The checksums of all parties are the total.** -/
theorem sum_checksum (h0 : total M.init = 0)
    (hs : ∀ i < r.len, total (r.state (i + 1)) = total (r.state i) + worth (r.state (i + 1)) (r.act i))
    {n T : ℕ} (hn : n ≤ r.len) (hT : ∀ i < n, tid (r.act i) < T) :
    ∑ p ∈ Finset.range T, r.checksum tid worth p n = total (r.state n) := by
  induction n with
  | zero =>
      rw [r.start, h0]
      exact Finset.sum_eq_zero fun p _ => Finset.sum_range_zero _
  | succ n ih =>
      have hmem : tid (r.act n) ∈ Finset.range T := Finset.mem_range.mpr (hT n (Nat.lt_succ_self n))
      have hbefore := ih (Nat.le_of_succ_le hn) fun i hi => hT i (Nat.lt_succ_of_lt hi)
      simp only [checksum_succ, Finset.sum_add_distrib]
      rw [hbefore, Finset.sum_ite_eq, if_pos hmem, hs n hn]

end Run

end MultiCore.Lib
