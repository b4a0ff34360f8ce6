/-
  MultiCore.Lib.Calls — threads that perform calls on a shared memory.

  A `Machine` says how one thread executes a request, one step on the shared
  memory at a time; `Machine.sys` lets any number of threads do so, in any
  order.  The proof rule (`Rely`) is rely-guarantee style: an invariant of the
  memory, and an assertion for each thread that its own steps establish and
  the steps of other threads keep.

  The assertion may also say what the thread has *witnessed* since its call:
  it is given a collection `once` of properties that the memory has had at
  some instant of the call.  One set of obligations then yields

    * `Rely.reachable` — the invariant in every reachable state;
    * `Rely.returned`, `Rely.instant` — for a call that returns in a run, the
      instants between call and return that its assertion speaks of.

  Nothing here mentions a concrete program.
-/
import MultiCore.Lib.Run
import Mathlib.Logic.Function.Basic

namespace MultiCore.Lib

/-! ## §1. Machines. -/

/-- Requests `ρ`, program counters (with the locals) `π`, results `ν`, a shared
memory `μ`; `κ` are the choices a step leaves open. -/
structure Machine (μ ρ π ν κ : Type*) where
  init : μ
  start : ρ → π
  step : μ → ℕ → ρ → π → κ → Option (μ × π)
  result : π → Option ν

namespace Machine

variable {μ ρ π ν κ : Type*}

structure State (μ ρ π : Type*) where
  mem : μ
  /-- What each thread executes: `none` between calls. -/
  thread : ℕ → Option (ρ × π)

inductive Act (ρ κ : Type*) where
  | invoke (tid : ℕ) (q : ρ)
  | step (tid : ℕ) (choice : κ)
  | ret (tid : ℕ)
  deriving Repr, DecidableEq

/-- A new call of thread `tid`. -/
def Act.Calls (tid : ℕ) : Act ρ κ → Prop
  | .invoke v _ => v = tid
  | _ => False

instance (tid : ℕ) : DecidablePred (Act.Calls (ρ := ρ) (κ := κ) tid) := fun a =>
  match a with
  | .invoke v _ => inferInstanceAs (Decidable (v = tid))
  | .step _ _ => isFalse id
  | .ret _ => isFalse id

/-- Thread `tid` comes to execute `th`. -/
def State.goto (s : State μ ρ π) (tid : ℕ) (th : Option (ρ × π)) : State μ ρ π :=
  { s with thread := Function.update s.thread tid th }

@[simp] theorem State.goto_mem (s : State μ ρ π) (tid : ℕ) (th : Option (ρ × π)) :
    (s.goto tid th).mem = s.mem := rfl

theorem State.goto_self (s : State μ ρ π) (tid : ℕ) (th : Option (ρ × π)) :
    (s.goto tid th).thread tid = th := Function.update_self ..

theorem State.goto_other (s : State μ ρ π) {tid v : ℕ} (th : Option (ρ × π)) (h : v ≠ tid) :
    (s.goto tid th).thread v = s.thread v := Function.update_of_ne h ..

def next (M : Machine μ ρ π ν κ) (s : State μ ρ π) : Act ρ κ → Option (State μ ρ π)
  | .invoke tid q =>
      match s.thread tid with
      | none => some (s.goto tid (some (q, M.start q)))
      | some _ => none
  | .step tid choice =>
      match s.thread tid with
      | none => none
      | some (q, pc) =>
          (M.step s.mem tid q pc choice).map fun r =>
            { (s.goto tid (some (q, r.2))) with mem := r.1 }
  | .ret tid =>
      match s.thread tid with
      | none => none
      | some (_, pc) => (M.result pc).map fun _ => s.goto tid none

def sys (M : Machine μ ρ π ν κ) : Sys (State μ ρ π) (Act ρ κ) where
  init := { mem := M.init, thread := fun _ => none }
  next := M.next

/-- What an action does. -/
inductive Transition (M : Machine μ ρ π ν κ) (s : State μ ρ π) : Act ρ κ → State μ ρ π → Prop where
  | invoke {tid : ℕ} {q : ρ} (hidle : s.thread tid = none) :
      Transition M s (.invoke tid q) (s.goto tid (some (q, M.start q)))
  | step {tid : ℕ} {choice : κ} {q : ρ} {pc pc' : π} {mem' : μ}
      (hth : s.thread tid = some (q, pc))
      (hstep : M.step s.mem tid q pc choice = some (mem', pc')) :
      Transition M s (.step tid choice) { (s.goto tid (some (q, pc'))) with mem := mem' }
  | ret {tid : ℕ} {q : ρ} {pc : π} {v : ν} (hth : s.thread tid = some (q, pc))
      (hres : M.result pc = some v) : Transition M s (.ret tid) (s.goto tid none)

theorem next_transition {M : Machine μ ρ π ν κ} {s s' : State μ ρ π} {a : Act ρ κ}
    (h : M.next s a = some s') : M.Transition s a s' := by
  cases a with
  | invoke tid q =>
      simp only [next] at h
      split at h
      · rename_i hidle
        obtain rfl := Option.some.inj h
        exact .invoke hidle
      · exact absurd h (by simp)
  | step tid choice =>
      simp only [next] at h
      split at h
      · exact absurd h (by simp)
      · rename_i q pc hth
        obtain ⟨⟨mem', pc'⟩, hstep, rfl⟩ := Option.map_eq_some_iff.mp h
        exact .step hth hstep
  | ret tid =>
      simp only [next] at h
      split at h
      · exact absurd h (by simp)
      · rename_i q pc hth
        obtain ⟨v, hres, rfl⟩ := Option.map_eq_some_iff.mp h
        exact .ret hth hres

/-! ## §2. The proof rule. -/

/-- Properties the memory has had at some instant of a call. -/
abbrev Witnessed (μ : Type*) := (μ → Prop) → Prop

/-- The memory has moved on from `mem` to `mem'`: what was witnessed stays
witnessed, and so is what holds now. -/
structure Later (mem : μ) (once : Witnessed μ) (mem' : μ) (once' : Witnessed μ) : Prop where
  before : ∀ P : μ → Prop, P mem → once P
  keep : ∀ P, once P → once' P
  now : ∀ P : μ → Prop, P mem' → once' P

/-- The obligations: `I` is the invariant of the memory, `L` the assertion of a
thread at its program counter. -/
structure Rely (M : Machine μ ρ π ν κ) (I : μ → Prop)
    (L : μ → Witnessed μ → ℕ → ρ → π → Prop) : Prop where
  init : I M.init
  start : ∀ mem once tid q, I mem → L mem once tid q (M.start q)
  /-- More may be witnessed. -/
  mono : ∀ mem once once' tid q pc, I mem → L mem once tid q pc → (∀ P, once P → once' P) →
    L mem once' tid q pc
  /-- A step of the thread itself. -/
  own : ∀ mem once mem' once' tid q pc choice pc', I mem → L mem once tid q pc →
    M.step mem tid q pc choice = some (mem', pc') → Later mem once mem' once' →
    I mem' ∧ L mem' once' tid q pc'
  /-- A step of another thread `v`. -/
  other : ∀ mem once mem' once' tid q pc v onceV qv pcv choice pcv', I mem →
    L mem once tid q pc → v ≠ tid → L mem onceV v qv pcv →
    M.step mem v qv pcv choice = some (mem', pcv') → Later mem once mem' once' →
    L mem' once' tid q pc

variable {M : Machine μ ρ π ν κ} {I : μ → Prop} {L : μ → Witnessed μ → ℕ → ρ → π → Prop}

/-- The invariant and all assertions, each thread with its own witnesses. -/
def Holds (I : μ → Prop) (L : μ → Witnessed μ → ℕ → ρ → π → Prop) (s : State μ ρ π)
    (once : ℕ → Witnessed μ) : Prop :=
  I s.mem ∧ ∀ tid q pc, s.thread tid = some (q, pc) → L s.mem (once tid) tid q pc

/-- **The step rule**: an action keeps the invariant and all assertions, when
the witnesses of every call it does not start move on with the memory. -/
theorem Rely.step (h : Rely M I L) {s s' : State μ ρ π} {a : Act ρ κ}
    {once once' : ℕ → Witnessed μ} (ht : M.Transition s a s') (hs : Holds I L s once)
    (hl : ∀ tid, ¬ a.Calls tid → Later s.mem (once tid) s'.mem (once' tid)) :
    Holds I L s' once' := by
  obtain ⟨hI, hL⟩ := hs
  cases ht with
  | @invoke v qv hidle =>
      refine ⟨hI, ?_⟩
      intro tid q pc hth
      by_cases hv : tid = v
      · subst hv
        rw [State.goto_self, Option.some.injEq, Prod.mk.injEq] at hth
        obtain ⟨rfl, rfl⟩ := hth
        exact h.start _ _ _ _ hI
      · rw [State.goto_other _ _ hv] at hth
        exact h.mono _ _ _ _ _ _ hI (hL tid q pc hth) (hl tid (fun heq => hv (Eq.symm heq))).keep
  | @step v choice qv pcv pcv' mem' hv hstep =>
      have hown := h.own _ _ _ (once' v) _ _ _ _ _ hI (hL v qv pcv hv) hstep (hl v id)
      refine ⟨hown.1, ?_⟩
      intro tid q pc hth
      by_cases htid : tid = v
      · subst htid
        change (s.goto tid (some (qv, pcv'))).thread tid = some (q, pc) at hth
        rw [State.goto_self, Option.some.injEq, Prod.mk.injEq] at hth
        obtain ⟨rfl, rfl⟩ := hth
        exact hown.2
      · change (s.goto v (some (qv, pcv'))).thread tid = some (q, pc) at hth
        rw [State.goto_other _ _ htid] at hth
        exact h.other _ _ _ _ _ _ _ _ _ _ _ _ _ hI (hL tid q pc hth) (Ne.symm htid)
          (hL v qv pcv hv) hstep (hl tid id)
  | @ret v qv pcv val hv hres =>
      refine ⟨hI, ?_⟩
      intro tid q pc hth
      by_cases htid : tid = v
      · subst htid
        rw [State.goto_self] at hth
        exact absurd hth (by simp)
      · rw [State.goto_other _ _ htid] at hth
        exact h.mono _ _ _ _ _ _ hI (hL tid q pc hth) (hl tid id).keep

theorem Rely.start_holds (h : Rely M I L) (once : ℕ → Witnessed μ) : Holds I L M.sys.init once :=
  ⟨h.init, fun _ _ _ hth => absurd hth (by simp [sys])⟩

/-- **The invariant rule**: the invariant holds in every reachable state, and
so does every assertion that does not ask for witnesses. -/
theorem Rely.reachable (h : Rely M I L) {s : State μ ρ π} (hr : Reachable M.sys s) :
    Holds I L s (fun _ _ => True) := by
  refine Reach.induct (P := fun s => Holds I L s (fun _ _ => True)) (h.start_holds _) ?_ hr
  intro s a s' _ hs _ hn
  refine h.step (next_transition hn) hs ?_
  intro tid _
  exact ⟨fun _ _ => trivial, fun _ _ => trivial, fun _ _ => trivial⟩

/-! ## §3. Calls in a run. -/

/-- The properties the memory has had since the last call of `tid`. -/
def since (r : Run M.sys) (m tid : ℕ) : Witnessed μ :=
  fun P => r.Once (Act.Calls tid) (fun s => P s.mem) m

theorem Rely.along (h : Rely M I L) (r : Run M.sys) (m : ℕ) (hm : m ≤ r.len) :
    Holds I L (r.state m) (since r m) := by
  refine r.invariant (P := fun m s => Holds I L s (since r m)) (h.start_holds _) hm ?_
  intro i _ hi hbefore
  refine h.step (next_transition (r.step i hi)) hbefore ?_
  intro tid hcall
  exact
    { before := fun P hP => Run.Once.now (P := fun s => P s.mem) r hP
      keep := fun P hP => Run.Once.later (P := fun s => P s.mem) r hcall hP
      now := fun P hP => Run.Once.now (P := fun s => P s.mem) r hP }

/-- A thread that makes no call executes none. -/
theorem idle_of_not_called (r : Run M.sys) {tid : ℕ}
    (hno : ∀ j < r.len, ¬ Act.Calls tid (r.act j)) {m : ℕ} (hm : m ≤ r.len) :
    (r.state m).thread tid = none := by
  refine r.invariant (P := fun _ s => s.thread tid = none) rfl hm ?_
  intro j _ hj hidle
  have ht := next_transition (r.step j hj)
  have hnocall := hno j hj
  generalize r.state (j + 1) = s' at ht ⊢
  generalize r.act j = act at ht hnocall
  cases ht with
  | invoke _ => exact (State.goto_other _ _ fun heq => hnocall heq.symm).trans hidle
  | @step w _ _ _ _ _ hth _ | @ret w _ _ _ hth _ =>
      have hw : tid ≠ w := by
        rintro rfl
        rw [hidle] at hth
        exact absurd hth (by simp)
      exact (State.goto_other _ _ hw).trans hidle

/-- Thread `tid` calls `q` at time `a`, and at time `b` that call is about to
return `v`. -/
structure Returns (r : Run M.sys) (tid : ℕ) (q : ρ) (v : ν) (a b : ℕ) : Prop where
  before : a < b
  within : b ≤ r.len
  called : r.act a = .invoke tid q
  same_call : ∀ j, a < j → j < b → ¬ Act.Calls tid (r.act j)
  returns : ∃ pc, (r.state b).thread tid = some (q, pc) ∧ M.result pc = some v

/-- **The call rule**: when a call is about to return, its assertion holds, and
everything it has witnessed was so at an instant between call and return. -/
theorem Rely.returned (h : Rely M I L) {r : Run M.sys} {tid : ℕ} {q : ρ} {v : ν} {a b : ℕ}
    (hret : Returns r tid q v a b) :
    ∃ once pc, M.result pc = some v ∧ I (r.state b).mem ∧ L (r.state b).mem once tid q pc
      ∧ ∀ P, once P → ∃ i, a < i ∧ i ≤ b ∧ P (r.state i).mem := by
  obtain ⟨pc, hth, hres⟩ := hret.returns
  obtain ⟨hI, hL⟩ := h.along r b hret.within
  refine ⟨since r b tid, pc, hres, hI, hL tid q pc hth, ?_⟩
  intro P hP
  have hcalls : Act.Calls tid (r.act a) := by
    rw [hret.called]
    rfl
  exact Run.Once.between (P := fun s => P s.mem) r hret.before hcalls hret.same_call hP

/-- **The instant rule**: a call whose assertion, before it returns `v`, says that
`P` was witnessed, has an instant at which `P` held. -/
theorem Rely.instant (h : Rely M I L) {r : Run M.sys} {tid : ℕ} {q : ρ} {v : ν} {a b : ℕ}
    (hret : Returns r tid q v a b) {P : μ → Prop}
    (hP : ∀ mem once pc, M.result pc = some v → L mem once tid q pc → once P) :
    ∃ i, a < i ∧ i ≤ b ∧ I (r.state i).mem ∧ P (r.state i).mem := by
  obtain ⟨once, pc, hres, -, hL, hbetween⟩ := h.returned hret
  obtain ⟨i, hai, hib, hPi⟩ := hbetween P (hP _ _ _ hres hL)
  have hI := (h.along r i (hib.trans hret.within)).1
  exact ⟨i, hai, hib, hI, hPi⟩

/-- **The induction along a call**, with the time of each step: what the call
starts with, and what its own steps and the steps of other threads keep, holds
when it is about to return. -/
theorem Returns.induct_at {r : Run M.sys} {tid : ℕ} {q : ρ} {v : ν} {a b : ℕ}
    (hret : Returns r tid q v a b) (Q : μ → π → Prop) (start : Q (r.state a).mem (M.start q))
    (own : ∀ j pc choice mem' pc', a < j → j < b → r.act j = .step tid choice →
      (r.state j).thread tid = some (q, pc) → Q (r.state j).mem pc →
      M.step (r.state j).mem tid q pc choice = some (mem', pc') → Q mem' pc')
    (other : ∀ j pc w qw pcw choice mem' pcw', a < j → j < b → r.act j = .step w choice → w ≠ tid →
      (r.state j).thread tid = some (q, pc) → (r.state j).thread w = some (qw, pcw) →
      Q (r.state j).mem pc → M.step (r.state j).mem w qw pcw choice = some (mem', pcw') → Q mem' pc) :
    ∃ pc, M.result pc = some v ∧ Q (r.state b).mem pc := by
  -- until its next call the thread runs this one, or has returned from it
  have hkeep : ∀ j, a < j → j ≤ b →
      (∃ pc, (r.state j).thread tid = some (q, pc) ∧ Q (r.state j).mem pc)
        ∨ (r.state j).thread tid = none := by
    intro j hj
    induction j, hj using Nat.le_induction with
    | base =>
        intro hb
        left
        have ht := next_transition (r.step a (Nat.lt_of_lt_of_le hb hret.within))
        rw [hret.called] at ht
        generalize r.state (a + 1) = s' at ht ⊢
        cases ht with
        | invoke hidle => exact ⟨_, State.goto_self _ _ _, start⟩
    | succ j hj ih =>
        intro hb
        have ht := next_transition (r.step j (Nat.lt_of_lt_of_le hb hret.within))
        have hnocall := hret.same_call j hj hb
        have hprev := ih (Nat.le_of_succ_le hb)
        generalize r.state (j + 1) = s' at ht ⊢
        generalize hact : r.act j = act at ht hnocall
        cases ht with
        | @invoke w qw hidle =>
            have hw : tid ≠ w := fun heq => hnocall heq.symm
            rw [State.goto_other _ _ hw]
            exact hprev
        | @step w choice qw pcw pcw' mem' hth hstep =>
            by_cases hw : tid = w
            · subst hw
              rcases hprev with ⟨pc, hpc, hQ⟩ | hnone
              · left
                rw [hth, Option.some.injEq, Prod.mk.injEq] at hpc
                obtain ⟨rfl, rfl⟩ := hpc
                exact ⟨_, State.goto_self _ _ _, own _ _ _ _ _ hj hb hact hth hQ hstep⟩
              · rw [hnone] at hth
                exact absurd hth (by simp)
            · have hsame : (State.goto (r.state j) w (some (qw, pcw'))).thread tid
                  = (r.state j).thread tid := State.goto_other _ _ hw
              rcases hprev with ⟨pc, hpc, hQ⟩ | hnone
              · left
                exact ⟨pc, hsame.trans hpc,
                  other _ _ _ _ _ _ _ _ hj hb hact (Ne.symm hw) hpc hth hQ hstep⟩
              · exact Or.inr (hsame.trans hnone)
        | @ret w qw pcw val hth hres =>
            by_cases hw : tid = w
            · subst hw
              exact Or.inr (State.goto_self _ _ _)
            · rw [State.goto_other _ _ hw]
              exact hprev
  obtain ⟨pc, hth, hres⟩ := hret.returns
  rcases hkeep b hret.before (Nat.le_refl b) with ⟨pc', hth', hQ⟩ | hnone
  · rw [hth, Option.some.injEq, Prod.mk.injEq] at hth'
    obtain ⟨-, rfl⟩ := hth'
    exact ⟨pc, hres, hQ⟩
  · rw [hth] at hnone
    exact absurd hnone (by simp)

/-- The induction along a call whose steps do not depend on their time. -/
theorem Returns.induct {r : Run M.sys} {tid : ℕ} {q : ρ} {v : ν} {a b : ℕ}
    (hret : Returns r tid q v a b) (Q : μ → π → Prop) (start : Q (r.state a).mem (M.start q))
    (own : ∀ mem pc choice mem' pc', Q mem pc → M.step mem tid q pc choice = some (mem', pc') →
      Q mem' pc')
    (other : ∀ mem pc w qw pcw choice mem' pcw', w ≠ tid → Q mem pc →
      M.step mem w qw pcw choice = some (mem', pcw') → Q mem' pc) :
    ∃ pc, M.result pc = some v ∧ Q (r.state b).mem pc :=
  hret.induct_at Q start (fun _ _ _ _ _ _ _ _ _ hQ hstep => own _ _ _ _ _ hQ hstep)
    fun _ _ _ _ _ _ _ _ _ _ _ hw _ _ hQ hstep => other _ _ _ _ _ _ _ _ hw hQ hstep

end Machine

end MultiCore.Lib
