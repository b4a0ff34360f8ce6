/-
  MultiCore.Lib.Loop — `for` loops over a range of indices.

    * `(List.range n).findSome? f` is the loop that leaves at the first index
      whose body produces an exit: `findSome?_range_some` and
      `findSome?_range_none` read off where it leaves;
    * `(List.range n).foldlM f s` is the loop that threads a state and may
      fail: `foldlM_range_inv` is its invariant rule;
    * `forUntil f is s` does both: it threads a state, may fail and may leave.

  Nothing here mentions a concrete program.
-/
import Mathlib.Data.List.Basic

namespace MultiCore.Lib

/-- The loop leaves with `r` at the first index whose body says so. -/
theorem findSome?_range_some {ρ : Type*} (f : ℕ → Option ρ) (n : ℕ) (r : ρ) :
    (List.range n).findSome? f = some r ↔ ∃ i < n, f i = some r ∧ ∀ j < i, f j = none := by
  induction n with
  | zero => simp
  | succ n ih =>
      rw [List.range_succ, List.findSome?_append, List.findSome?_singleton]
      cases hprev : (List.range n).findSome? f with
      | some r' =>
          rw [hprev] at ih
          rw [Option.some_or, ih]
          constructor
          · rintro ⟨i, hi, h⟩
            exact ⟨i, Nat.lt_succ_of_lt hi, h⟩
          · rintro ⟨i, hi, hfi, hj⟩
            rcases Nat.lt_succ_iff_lt_or_eq.mp hi with hlt | heq
            · exact ⟨i, hlt, hfi, hj⟩
            · -- index `n` is not reached: an earlier one has left the loop
              have hnone : (List.range n).findSome? f = none := by
                rw [List.findSome?_eq_none_iff]
                intro j hjn
                exact hj j (heq ▸ List.mem_range.mp hjn)
              rw [hprev] at hnone
              exact absurd hnone (by simp)
      | none =>
          rw [Option.none_or]
          have hall : ∀ j < n, f j = none := fun j hj =>
            (List.findSome?_eq_none_iff.mp hprev) j (List.mem_range.mpr hj)
          constructor
          · intro h
            exact ⟨n, Nat.lt_succ_self n, h, hall⟩
          · rintro ⟨i, hi, hfi, _⟩
            rcases Nat.lt_succ_iff_lt_or_eq.mp hi with hlt | heq
            · rw [hall i hlt] at hfi
              exact absurd hfi (by simp)
            · exact heq ▸ hfi

theorem findSome?_range_none {ρ : Type*} (f : ℕ → Option ρ) (n : ℕ) :
    (List.range n).findSome? f = none ↔ ∀ j < n, f j = none := by
  rw [List.findSome?_eq_none_iff]
  constructor
  · intro h j hj
    exact h j (List.mem_range.mpr hj)
  · intro h j hj
    exact h j (List.mem_range.mp hj)

/-- **The loop rule**: an invariant indexed by the loop counter, kept by every
iteration that succeeds, holds when the loop has succeeded. -/
theorem foldlM_range_inv {ε σ : Type*} {f : σ → ℕ → Except ε σ} (P : ℕ → σ → Prop) (n : ℕ)
    (hstep : ∀ i < n, ∀ s s', P i s → f s i = .ok s' → P (i + 1) s') {s s' : σ} (h0 : P 0 s)
    (h : (List.range n).foldlM f s = .ok s') : P n s' := by
  induction n generalizing s' with
  | zero =>
      obtain rfl : s = s' := by simpa [pure, Except.pure] using h
      exact h0
  | succ n ih =>
      rw [List.range_succ, List.foldlM_append] at h
      cases hm : (List.range n).foldlM f s with
      | error e =>
          rw [hm] at h
          exact absurd h (by simp [bind, Except.bind])
      | ok m =>
          rw [hm] at h
          have hlast : f m n = .ok s' := by
            cases hf : f m n with
            | error e => simp [bind, Except.bind, hf] at h
            | ok m' => simpa [bind, Except.bind, hf, pure, Except.pure] using h
          have hm' := ih (fun i hi => hstep i (Nat.lt_succ_of_lt hi)) hm
          exact hstep n (Nat.lt_succ_self n) m s' hm' hlast

/-- A loop whose iterations all succeed under an invariant succeeds. -/
theorem foldlM_range_ok {ε σ : Type*} {f : σ → ℕ → Except ε σ} (P : ℕ → σ → Prop) (n : ℕ)
    (hstep : ∀ i < n, ∀ s, P i s → ∃ s', f s i = .ok s' ∧ P (i + 1) s') {s : σ} (h0 : P 0 s) :
    ∃ s', (List.range n).foldlM f s = .ok s' ∧ P n s' := by
  induction n with
  | zero => exact ⟨s, rfl, h0⟩
  | succ n ih =>
      obtain ⟨m, hm, hPm⟩ := ih (fun i hi => hstep i (Nat.lt_succ_of_lt hi))
      obtain ⟨s', hf, hP⟩ := hstep n (Nat.lt_succ_self n) m hPm
      refine ⟨s', ?_, hP⟩
      rw [List.range_succ, List.foldlM_append, hm]
      simp [bind, Except.bind, hf, pure, Except.pure]

/-- An error of the loop is one of an iteration. -/
theorem foldlM_range_error {ε σ : Type*} {f : σ → ℕ → Except ε σ} {P : ε → Prop} (n : ℕ)
    (hf : ∀ i s e, f s i = .error e → P e) {s : σ} {e : ε}
    (h : (List.range n).foldlM f s = .error e) : P e := by
  induction n with
  | zero => exact absurd h (by simp [pure, Except.pure])
  | succ n ih =>
      rw [List.range_succ, List.foldlM_append] at h
      cases hm : (List.range n).foldlM f s with
      | error e' =>
          rw [hm] at h ih
          obtain rfl : e' = e := by simpa [bind, Except.bind] using h
          exact ih rfl
      | ok m =>
          rw [hm] at h
          cases hlast : f m n with
          | error e' =>
              obtain rfl : e' = e := by simpa [bind, Except.bind, hlast] using h
              exact hf n m _ hlast
          | ok m' => exact absurd h (by simp [bind, Except.bind, hlast, pure, Except.pure])

/-- The loop over the indices `is` whose body may change the state, leave the
loop with a result, or fail. -/
def forUntil {ε σ ρ : Type*} (f : σ → ℕ → Except ε (σ × Option ρ)) :
    List ℕ → σ → Except ε (σ × Option ρ)
  | [], s => .ok (s, none)
  | i :: is, s =>
      match f s i with
      | .error e => .error e
      | .ok (s', some r) => .ok (s', some r)
      | .ok (s', none) => forUntil f is s'

/-- Iterations that change nothing and do not leave can be skipped. -/
theorem forUntil_skip {ε σ ρ : Type*} {f : σ → ℕ → Except ε (σ × Option ρ)} {s : σ}
    (is js : List ℕ) (h : ∀ i ∈ is, f s i = .ok (s, none)) :
    forUntil f (is ++ js) s = forUntil f js s := by
  induction is with
  | nil => rfl
  | cons i is ih =>
      rw [List.cons_append, forUntil, h i List.mem_cons_self]
      exact ih (fun j hj => h j (List.mem_cons_of_mem i hj))

theorem forUntil_range_none {ε σ ρ : Type*} {f : σ → ℕ → Except ε (σ × Option ρ)} {s : σ} {n : ℕ}
    (h : ∀ i < n, f s i = .ok (s, none)) : forUntil f (List.range n) s = .ok (s, none) := by
  have hskip := forUntil_skip (List.range n) [] (fun i hi => h i (List.mem_range.mp hi))
  rw [List.append_nil] at hskip
  exact hskip

/-- The loop does what its first iteration that leaves or fails does. -/
theorem forUntil_range_stop {ε σ ρ : Type*} {f : σ → ℕ → Except ε (σ × Option ρ)} {s : σ}
    {n i : ℕ} (hi : i < n) (hbefore : ∀ j < i, f s j = .ok (s, none))
    (hstop : ∀ s', f s i ≠ .ok (s', none)) : forUntil f (List.range n) s = f s i := by
  have hsplit : List.range n = List.range i ++ List.range' i (n - i) := by
    have happend := @List.range'_append_1 0 i (n - i)
    rw [Nat.zero_add, Nat.add_sub_cancel' (Nat.le_of_lt hi)] at happend
    rw [List.range_eq_range', List.range_eq_range', happend]
  have hhead : List.range' i (n - i) = i :: List.range' (i + 1) (n - i - 1) := by
    rw [show n - i = (n - i - 1) + 1 by omega, List.range'_succ]
    rfl
  rw [hsplit, forUntil_skip _ _ (fun j hj => hbefore j (List.mem_range.mp hj)), hhead, forUntil]
  cases hf : f s i with
  | error e => rfl
  | ok r =>
      obtain ⟨s', o⟩ := r
      cases o with
      | some r => rfl
      | none => exact absurd hf (hstop s')

end MultiCore.Lib
