/-
  MultiCore.Lib.Atomic — atomic objects, and what it is to implement one.

  An `Object` is given by its sequential specification.  Threads that use it
  (`Object.Step`) call an operation, which then takes effect at one instant, and
  return from it with the result it had.  A run of another system `Follows` the
  object if its calls and returns are those of the object and every other step
  of it is the effect of one call, or nothing.

    * `Follows.instant` — a call that returns has had its effect at an instant
      between the two;
    * `Follows.of_simulation` — a relation that the steps of the system keep gives
      the object's states along any run.

  Nothing here mentions a concrete program.
-/
import MultiCore.Lib.Run
import Mathlib.Logic.Function.Basic

namespace MultiCore.Lib

/-! ## §1. Objects. -/

/-- Objects with states `σ`, operations `ρ` and results `ν`. -/
structure Object (σ ρ ν : Type*) where
  init : σ
  /-- What an operation may do when nothing interferes. -/
  spec : σ → ρ → ν → σ → Prop

variable {σ ρ ν : Type*}

/-- What a thread is at. -/
inductive Status (ρ ν : Type*) where
  | idle
  /-- It has called `q`, which has not taken effect. -/
  | called (q : ρ)
  | done (q : ρ) (v : ν)

/-- What is seen of a step: a call, or a return with its result. -/
inductive Event (ρ ν : Type*) where
  | invoke (tid : ℕ) (q : ρ)
  | ret (tid : ℕ) (v : ν)
  deriving DecidableEq

def Event.tid : Event ρ ν → ℕ
  | .invoke tid _ | .ret tid _ => tid

namespace Object

structure State (σ ρ ν : Type*) where
  obj : σ
  thread : ℕ → Status ρ ν

variable (O : Object σ ρ ν)

def new : State σ ρ ν := ⟨O.init, fun _ => .idle⟩

/-- The call of thread `tid` takes effect. -/
inductive Effect (t : State σ ρ ν) (tid : ℕ) : State σ ρ ν → Prop where
  | mk {q : ρ} {v : ν} {o : σ} (hcalled : t.thread tid = .called q) (hspec : O.spec t.obj q v o) :
      Effect t tid ⟨o, Function.update t.thread tid (.done q v)⟩

inductive Step (t : State σ ρ ν) : Event ρ ν → State σ ρ ν → Prop where
  | invoke {tid : ℕ} {q : ρ} (hidle : t.thread tid = .idle) :
      Step t (.invoke tid q) { t with thread := Function.update t.thread tid (.called q) }
  | ret {tid : ℕ} {q : ρ} {v : ν} (hdone : t.thread tid = .done q v) :
      Step t (.ret tid v) { t with thread := Function.update t.thread tid .idle }

/-- A step of which `e` is seen. -/
inductive Moves (t : State σ ρ ν) : Option (Event ρ ν) → State σ ρ ν → Prop where
  | visible {e : Event ρ ν} {t' : State σ ρ ν} (h : Step t e t') : Moves t (some e) t'
  | effect {tid : ℕ} {t' : State σ ρ ν} (h : O.Effect t tid t') : Moves t none t'
  | nothing : Moves t none t

end Object

/-! ## §2. Runs. -/

variable {τ α : Type*} {M : Sys τ α}

/-- The run follows the object, through the states `t`. -/
structure Follows (O : Object σ ρ ν) (r : Run M) (event : τ → α → Option (Event ρ ν))
    (t : ℕ → Object.State σ ρ ν) : Prop where
  start : t 0 = O.new
  step : ∀ i < r.len, O.Moves (t i) (event (r.state i) (r.act i)) (t (i + 1))

section Follows

variable {O : Object σ ρ ν} {r : Run M} {event : τ → α → Option (Event ρ ν)}
  {t : ℕ → Object.State σ ρ ν}

/-- The thread of a call that has been open from time `a` to time `j`. -/
theorem Follows.open_call (h : Follows O r event t) {a j : ℕ} {tid : ℕ} {q : ρ} (haj : a < j)
    (hj : j ≤ r.len) (hcall : event (r.state a) (r.act a) = some (.invoke tid q))
    (hno : ∀ i, a < i → i < j → ∀ e ∈ event (r.state i) (r.act i), e.tid ≠ tid) :
    (t j).thread tid = .called q
      ∨ ∃ i v, a < i ∧ i < j ∧ O.Effect (t i) tid (t (i + 1)) ∧ O.spec (t i).obj q v (t (i + 1)).obj
        ∧ (t j).thread tid = .done q v := by
  induction j, haj using Nat.le_induction with
  | base =>
      have hmove := h.step a hj
      rw [hcall] at hmove
      generalize t (a + 1) = t' at hmove ⊢
      cases hmove with
      | visible hstep =>
          cases hstep with
          | invoke hidle => exact Or.inl (Function.update_self _ _ _)
  | succ j haj ih =>
      have hprev := ih (Nat.le_of_succ_le hj) fun i hai hij => hno i hai (Nat.lt_succ_of_lt hij)
      have hquiet := hno j haj (Nat.lt_succ_self j)
      have hmove := h.step j hj
      -- a step of another thread leaves this one where it was
      have hkeep : ∀ {t' : Object.State σ ρ ν}, t (j + 1) = t' → t'.thread tid = (t j).thread tid →
          (t (j + 1)).thread tid = .called q ∨ ∃ i v, a < i ∧ i < j + 1
            ∧ O.Effect (t i) tid (t (i + 1)) ∧ O.spec (t i).obj q v (t (i + 1)).obj
            ∧ (t (j + 1)).thread tid = .done q v := by
        rintro t' rfl hsame
        rw [hsame]
        rcases hprev with hcalled | ⟨i, v, hai, hij, heffect, hspec, hdone⟩
        · exact Or.inl hcalled
        · exact Or.inr ⟨i, v, hai, Nat.lt_succ_of_lt hij, heffect, hspec, hdone⟩
      generalize hnext : t (j + 1) = t' at hmove
      cases hmove' : event (r.state j) (r.act j) with
      | some e =>
          rw [hmove'] at hmove
          have htid := hquiet e hmove'
          cases hmove with
          | visible hstep =>
              rw [← hnext]
              refine hkeep hnext ?_
              cases hstep with
              | invoke hidle => exact Function.update_of_ne (Ne.symm htid) _ _
              | ret hdone => exact Function.update_of_ne (Ne.symm htid) _ _
      | none =>
          rw [hmove'] at hmove
          cases hmove with
          | nothing =>
              rw [← hnext]
              exact hkeep hnext rfl
          | @effect u _ heffect =>
              by_cases hu : tid = u
              · subst hu
                have heffect' := heffect
                rw [← hnext] at heffect'
                cases heffect with
                | @mk q' v o hcalled hspec =>
                    rcases hprev with hq | ⟨i, v', -, -, -, -, hdone⟩
                    · rw [hcalled, Status.called.injEq] at hq
                      subst hq
                      refine Or.inr ⟨j, v, haj, Nat.lt_succ_self j, heffect', ?_, ?_⟩
                      · rw [hnext]
                        exact hspec
                      · exact Function.update_self _ _ _
                    · rw [hcalled] at hdone
                      exact absurd hdone (by simp)
              · rw [← hnext]
                refine hkeep hnext ?_
                cases heffect with
                | mk hcalled hspec => exact Function.update_of_ne hu _ _

/-- **A call that returns `v` has had its effect**, and the result `v`, at an
instant between the two. -/
theorem Follows.instant (h : Follows O r event t) {a b : ℕ} {tid : ℕ} {q : ρ} {v : ν} (hab : a < b)
    (hb : b < r.len) (hcall : event (r.state a) (r.act a) = some (.invoke tid q))
    (hret : event (r.state b) (r.act b) = some (.ret tid v))
    (hno : ∀ i, a < i → i < b → ∀ e ∈ event (r.state i) (r.act i), e.tid ≠ tid) :
    ∃ i, a < i ∧ i < b ∧ O.Effect (t i) tid (t (i + 1)) ∧ O.spec (t i).obj q v (t (i + 1)).obj := by
  have hmove := h.step b hb
  rw [hret] at hmove
  generalize t (b + 1) = t' at hmove
  cases hmove with
  | visible hstep =>
      cases hstep with
      | @ret _ q' _ hdone =>
          rcases h.open_call hab (Nat.le_of_lt hb) hcall hno with hcalled
            | ⟨i, v', hai, hib, heffect, hspec, hdone'⟩
          · rw [hdone] at hcalled
            exact absurd hcalled (by simp)
          · rw [hdone, Status.done.injEq] at hdone'
            obtain ⟨-, rfl⟩ := hdone'
            exact ⟨i, hai, hib, heffect, hspec⟩

/-- **The simulation rule.** -/
theorem Follows.of_simulation (r : Run M) {R : ℕ → Object.State σ ρ ν → Prop} (hstart : R 0 O.new)
    (hstep : ∀ i < r.len, ∀ u, R i u →
      ∃ u', O.Moves u (event (r.state i) (r.act i)) u' ∧ R (i + 1) u') :
    ∃ t, Follows O r event t ∧ ∀ n ≤ r.len, R n (t n) := by
  -- the states up to time `n`
  have hprefix : ∀ n ≤ r.len, ∃ t : ℕ → Object.State σ ρ ν, t 0 = O.new ∧ (∀ i ≤ n, R i (t i))
      ∧ ∀ i < n, O.Moves (t i) (event (r.state i) (r.act i)) (t (i + 1)) := by
    intro n
    induction n with
    | zero =>
        intro _
        refine ⟨fun _ => O.new, rfl, fun i hi => ?_, fun i hi => absurd hi (Nat.not_lt_zero i)⟩
        rw [Nat.le_zero.mp hi]
        exact hstart
    | succ n ih =>
        intro hn
        obtain ⟨t, hzero, hR, hmoves⟩ := ih (Nat.le_of_succ_le hn)
        obtain ⟨u, hu, hRu⟩ := hstep n hn (t n) (hR n (Nat.le_refl n))
        have hold : ∀ i ≤ n, Function.update t (n + 1) u i = t i := fun i hi =>
          Function.update_of_ne (Nat.ne_of_lt (Nat.lt_succ_of_le hi)) _ _
        refine ⟨Function.update t (n + 1) u, (hold 0 (Nat.zero_le n)).trans hzero, ?_, ?_⟩
        · intro i hi
          rcases Nat.le_succ_iff.mp hi with hle | rfl
          · rw [hold i hle]
            exact hR i hle
          · rw [Function.update_self]
            exact hRu
        · intro i hi
          rw [hold i (Nat.le_of_lt_succ hi)]
          rcases Nat.lt_succ_iff_lt_or_eq.mp hi with hlt | rfl
          · rw [hold (i + 1) hlt]
            exact hmoves i hlt
          · rw [Function.update_self]
            exact hu
  obtain ⟨t, hzero, hR, hmoves⟩ := hprefix r.len (Nat.le_refl _)
  exact ⟨t, ⟨hzero, hmoves⟩, hR⟩

end Follows

end MultiCore.Lib
