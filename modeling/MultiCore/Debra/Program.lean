/-
  MultiCore.Debra.Program — programs over the reclaimer.

  A program is what its operations do between the accesses of the record
  manager.  It can run over the record manager of the library (`onManager`),
  which takes back any record that nobody pins, and over the reclaimer
  (`onDebra`), where an operation begins with the steps of `startOp`, ends with
  `endOp`, and records are freed by the thread that rotates its bags.

    * `refines` — if the program keeps its promise over the first, then every
      state that it reaches over the second it also reaches over the first, with
      the same guards, calls and retired records.

  What has been proved of a program over the record manager holds over the
  reclaimer too.
-/
import MultiCore.Debra.GracePeriod

namespace MultiCore.Debra

open MultiCore.Lib MultiCore.Lib.Reclamation

variable {σ β ε α : Type*}

/-! ## §1. Programs. -/

/-- `β` are the operations with their arguments, and `ε` is what a step takes from
the outside, such as the addresses that the allocator returns. -/
structure Program (σ β ε α : Type*) where
  init : σ
  /-- The records that are allocated. -/
  inUse : σ → α → Bool
  setInUse : σ → (α → Bool) → σ
  /-- Thread `t` calls an operation, and has its guard. -/
  call : σ → Tid → β → Option σ
  /-- The next step of thread `t`, the calls of the record manager that it then
  makes, and the records that it has unlinked. -/
  step : σ → Tid → ε → Option (σ × List (Call α) × List α)
  /-- The call of thread `t` has returned. -/
  returned : σ → Tid → Bool
  inUse_setInUse : ∀ s u, inUse (setInUse s u) = u
  setInUse_inUse : ∀ s, setInUse s (inUse s) = s
  call_inUse : ∀ s t b s', call s t b = some s' → inUse s' = inUse s
  step_inUse : ∀ s t e s' cs gone, step s t e = some (s', cs, gone) →
    ∀ a, inUse s a = true → inUse s' a = true

namespace Program

inductive Action (β ε α : Type*) where
  | invoke (t : Tid) (op : β)
  | step (t : Tid) (e : ε)
  | leave (t : Tid)
  /-- The record manager takes `a` back. -/
  | reclaim (a : α)

variable [DecidableEq α] (prog : Program σ β ε α)

def nextManager (s : σ × Manager Tid α) : Action β ε α → Option (σ × Manager Tid α)
  | .invoke t op =>
      if t ∈ s.2.guards then none else (prog.call s.1 t op).map (·, s.2.enter t)
  | .step t e =>
      match s.2.calls t with
      | _ :: _ => (s.2.perform (prog.inUse s.1) t).map fun (m, u) => (prog.setInUse s.1 u, m)
      | [] =>
          if t ∈ s.2.guards then
            (prog.step s.1 t e).map fun (s', cs, gone) => (s', s.2.giveBack t cs gone)
          else none
  | .leave t =>
      if prog.returned s.1 t = true ∧ t ∈ s.2.guards ∧ s.2.calls t = [] then
        some (s.1, s.2.leave t)
      else none
  | .reclaim a => (s.2.reclaim (prog.inUse s.1) a).map fun (m, u) => (prog.setInUse s.1 u, m)

/-- The program over the record manager of the library. -/
def onManager : Sys (σ × Manager Tid α) (Action β ε α) := ⟨(prog.init, .new), nextManager prog⟩

structure OnDebra (σ β α : Type*) where
  state : σ
  debra : State α
  /-- The operation that a thread begins when its `startOp` returns. -/
  wants : Tid → Option β

variable (P : Params)

/-- A step of `startOp`; the operation begins when it returns. -/
def stepStart (s : OnDebra σ β α) (t : Tid) : Option (OnDebra σ β α) :=
  (Debra.step P s.debra (prog.inUse s.state) t).bind fun (d, u) =>
    if d.pc t = .operating then
      (s.wants t).bind fun op =>
        (prog.call (prog.setInUse s.state u) t op).map fun state => { s with state, debra := d }
    else some { s with state := prog.setInUse s.state u, debra := d }

def nextDebra (s : OnDebra σ β α) : Action β ε α → Option (OnDebra σ β α)
  | .invoke t op =>
      if (prog.call s.state t op).isSome = true then
        (startOp P s.debra t false).map fun d =>
          { s with debra := d, wants := Function.update s.wants t (some op) }
      else none
  | .step t e =>
      match s.debra.calls t with
      | _ :: _ =>
          (Debra.step P s.debra (prog.inUse s.state) t).map fun (d, u) =>
            { s with state := prog.setInUse s.state u, debra := d }
      | [] =>
          if s.debra.pc t = .operating then
            (prog.step s.state t e).bind fun (state, cs, _) =>
              (giveBack s.debra t cs).map fun d => { s with state, debra := d }
          else stepStart prog P s t
  | .leave t =>
      if prog.returned s.state t = true then
        (endOp s.debra t).map fun d => { s with debra := d }
      else none
  | .reclaim _ => none

/-- The program over the reclaimer. -/
def onDebra : Sys (OnDebra σ β α) (Action β ε α) :=
  ⟨⟨prog.init, .new, fun _ => none⟩, nextDebra prog P⟩

/-- **What the program promises**, over the record manager: it gives no record
back twice, and unlinks none that it has retired. -/
def Keeps : Prop :=
  ∀ s m, Reachable prog.onManager (s, m) → ∀ t e s' cs gone, t ∈ m.guards → m.calls t = [] →
    prog.step s t e = some (s', cs, gone) →
    (cs.map Call.node).Nodup
      ∧ (∀ c ∈ cs, prog.inUse s' c.node = true ∧ m.retired c.node = false
          ∧ ∀ u, ∀ c' ∈ m.calls u, c'.node ≠ c.node)
      ∧ ∀ a ∈ gone, m.retired a = false

/-! ## §2. The refinement. -/

section Refines

variable {prog P} {s s' : OnDebra σ β α} {g : Ghost α} {t : Tid} {e : ε}

/-- The state over the record manager that a state over the reclaimer stands
for. -/
def abstract (P : Params) (s : OnDebra σ β α) (g : Ghost α) : σ × Manager Tid α :=
  (s.state, manager P s.debra g)

/-- The invariant of the simulation. -/
def Simulates (prog : Program σ β ε α) (P : Params) (s : OnDebra σ β α) : Prop :=
  ∃ g, Inv P s.debra (prog.inUse s.state) g ∧ Reachable prog.onManager (abstract P s g)

theorem Simulates.of_next {a : Action β ε α} (hr : Reachable prog.onManager (abstract P s g))
    {h : Ghost α} (hinv : Inv P s'.debra (prog.inUse s'.state) h)
    (hnext : nextManager prog (abstract P s g) a = some (abstract P s' h)) :
    Simulates prog P s' :=
  ⟨h, hinv, Reach.step hr trivial hnext⟩

/-- A step of `startOp` is nothing to the program, or frees a record, or begins
the operation. -/
theorem stepStart_simulates (hinv : Inv P s.debra (prog.inUse s.state) g)
    (hr : Reachable prog.onManager (abstract P s g)) (hcalls : s.debra.calls t = [])
    (hnot : s.debra.pc t ≠ .operating) (h : stepStart prog P s t = some s') :
    Simulates prog P s' := by
  unfold stepStart at h
  rw [Option.bind_eq_some_iff] at h
  obtain ⟨⟨d, u⟩, hstep, h⟩ := h
  dsimp only at h
  -- what it is to begin the operation
  have hbegin : ∀ {g'}, Inv P d (prog.inUse s.state) g' → u = prog.inUse s.state →
      manager P d g' = (manager P s.debra g).enter t → d.pc t = .operating →
      Simulates prog P s' := by
    intro g' hinv' hu henter hpc
    rw [if_pos hpc, Option.bind_eq_some_iff] at h
    obtain ⟨op, -, h⟩ := h
    rw [hu, prog.setInUse_inUse, Option.map_eq_some_iff] at h
    obtain ⟨state, hcall, rfl⟩ := h
    have hguard : t ∉ (abstract P s g).2.guards := fun ht => hnot (mem_operating.mp ht).2
    refine Simulates.of_next (a := .invoke t op) (h := g') hr ?_ ?_
    · show Inv P d (prog.inUse state) g'
      rw [prog.call_inUse _ _ _ _ hcall]
      exact hinv'
    · show (if t ∈ (abstract P s g).2.guards then none else _) = _
      rw [if_neg hguard]
      show (prog.call s.state t op).map _ = _
      rw [hcall]
      show some (state, (manager P s.debra g).enter t) = some (state, manager P d g')
      rw [henter]
  have heff : Effect P s.debra (prog.inUse s.state) (.step t) d u := next_effect hstep
  cases heff with
  | @move _ pc' d' hm hq =>
      have ht := hinv.lt_of_ne hq
      by_cases hpc' : pc' = .operating
      · refine hbegin (hinv.move hm ht) rfl (hm.manager_enter ht hpc') ?_
        rw [goto_pc, Function.update_self]
        exact hpc'
      · have hpc : ((s.debra.setData t d').goto t pc').pc t ≠ .operating := by
          rw [goto_pc, Function.update_self]
          exact hpc'
        rw [if_neg hpc, prog.setInUse_inUse, Option.some.injEq] at h
        subst h
        refine ⟨g.moved s.debra t, hinv.move hm ht, ?_⟩
        show Reachable prog.onManager (s.state, manager P _ (g.moved s.debra t))
        rw [hm.manager_eq hpc']
        exact hr
  | @free _ ro e' i ptr rest hpc hbag =>
      have hpc' : (s.debra.setData t ((s.debra.threadData t).setBag (freeable i) rest)).pc t
          ≠ .operating := hnot
      rw [if_neg hpc', Option.some.injEq] at h
      subst h
      refine Simulates.of_next (a := .reclaim ptr) (h := g) hr ?_ ?_
      · show Inv P _ (prog.inUse (prog.setInUse s.state _)) g
        rw [prog.inUse_setInUse]
        exact hinv.free hpc hbag rfl
      · show ((manager P s.debra g).reclaim (prog.inUse s.state) ptr).map _ = _
        rw [(hinv.reclaim hpc hbag rfl).2]
        rfl
  | @advance _ e' hpc =>
      have ht := hinv.lt_of_ne (t := t) (by rw [hpc]; exact Pc.noConfusion)
      exact hbegin (hinv.advance hpc) rfl (manager_advance ht) (Function.update_self _ _ _)
  | retire hc | deallocate hc =>
      rw [hcalls] at hc
      exact absurd hc.symm (List.cons_ne_nil _ _)

/-- A call of the record manager. -/
theorem call_simulates (hinv : Inv P s.debra (prog.inUse s.state) g)
    (hr : Reachable prog.onManager (abstract P s g)) {c : Call α} {rest : List (Call α)}
    (hcalls : s.debra.calls t = c :: rest) {d : State α} {u : α → Bool} (e : ε)
    (hstep : Debra.step P s.debra (prog.inUse s.state) t = some (d, u))
    (hs' : s' = { s with state := prog.setInUse s.state u, debra := d }) :
    Simulates prog P s' := by
  subst hs'
  have hhead : (abstract P s g).2.calls t = c :: rest := hcalls
  have hmatch : ∀ {m u'}, (manager P s.debra g).perform (prog.inUse s.state) t = some (m, u') →
      nextManager prog (abstract P s g) (.step t e) = some (prog.setInUse s.state u', m) := by
    intro m u' hp
    simp only [nextManager, hhead]
    show ((manager P s.debra g).perform (prog.inUse s.state) t).map _ = _
    rw [hp]
    rfl
  have hop := (hinv.current hcalls).1
  have heff : Effect P s.debra (prog.inUse s.state) (.step t) d u := next_effect hstep
  cases heff with
  | @retire _ a rest' j hc hbag =>
      refine Simulates.of_next (h := g) hr ?_ (hmatch (hinv.perform_retire hc hbag rfl))
      show Inv P _ (prog.inUse (prog.setInUse s.state _)) g
      rw [prog.inUse_setInUse]
      exact hinv.retire hc hbag rfl
  | @deallocate _ a rest' hc =>
      refine Simulates.of_next (h := g) hr ?_ (hmatch (perform_deallocate hc rfl))
      show Inv P _ (prog.inUse (prog.setInUse s.state _)) g
      rw [prog.inUse_setInUse]
      exact hinv.deallocate hc rfl
  | move hm => exact absurd hop hm.not_operating
  | free hpc | advance hpc => exact absurd (hop.symm.trans hpc) Pc.noConfusion

/-- A step of the program. -/
theorem step_simulates (hkeeps : prog.Keeps) (hinv : Inv P s.debra (prog.inUse s.state) g)
    (hr : Reachable prog.onManager (abstract P s g)) (hcalls : s.debra.calls t = [])
    (hop : s.debra.pc t = .operating) {state : σ} {cs : List (Call α)} {gone : List α}
    (hstep : prog.step s.state t e = some (state, cs, gone)) {d : State α}
    (hgive : giveBack s.debra t cs = some d) (hs' : s' = { s with state, debra := d }) :
    Simulates prog P s' := by
  subst hs'
  unfold giveBack at hgive
  rw [if_pos ⟨hop, hcalls⟩] at hgive
  obtain rfl := Option.some.inj hgive
  have hguard : t ∈ (abstract P s g).2.guards :=
    mem_operating.mpr ⟨hinv.lt_of_ne (by rw [hop]; exact Pc.noConfusion), hop⟩
  have hgrown := hinv.allocate (prog.step_inUse _ _ _ _ _ _ hstep)
  obtain ⟨hnodup, hfresh, hgone⟩ := hkeeps _ _ hr t e state cs gone hguard hcalls hstep
  have hpromise : Promise P (s.debra, prog.inUse state) (.giveBack t cs gone) := by
    refine ⟨hnodup, fun c hc => ?_, fun a ha => of_decide_eq_false (hgone a ha)⟩
    obtain ⟨huse, hret, hother⟩ := hfresh c hc
    exact ⟨huse, of_decide_eq_false hret, fun u _ => hother u⟩
  refine Simulates.of_next (a := .step t e) hr (hgrown.giveBack hop hcalls hpromise rfl) ?_
  have hnil : (abstract P s g).2.calls t = [] := hcalls
  simp only [nextManager, hnil, if_pos hguard]
  show (prog.step s.state t e).map _ = _
  rw [hstep]
  rfl

/-- **Refinement**: a program that keeps its promise reaches no other states over
the reclaimer than over the record manager. -/
theorem refines (hkeeps : prog.Keeps) (h : Reachable (prog.onDebra P) s) :
    Simulates prog P s := by
  induction h with
  | init =>
      refine ⟨.new, new_inv, ?_⟩
      show Reachable prog.onManager (prog.init, manager P .new .new)
      rw [new_manager]
      exact Reach.init
  | @step s s' a _ _ hnext ih =>
      obtain ⟨g, hinv, hr⟩ := ih
      cases a with
      | invoke t op =>
          have hnext' : nextDebra prog P s (.invoke t op) = some s' := hnext
          simp only [nextDebra] at hnext'
          split at hnext'
          · rw [Option.map_eq_some_iff] at hnext'
            obtain ⟨d, hstart, rfl⟩ := hnext'
            have hstep : next P (s.debra, prog.inUse s.state) (.startOp t false)
                = some (d, prog.inUse s.state) := by
              simp only [next, hstart, Option.map_some]
            cases next_effect hstep with
            | @start _ _ pc' d' ht hm hq hro =>
                have hpc' : pc' ≠ .operating := by
                  rcases hro with rfl | ⟨i, rfl⟩ <;> exact Pc.noConfusion
                refine ⟨g.moved s.debra t, hinv.move hm ht, ?_⟩
                show Reachable prog.onManager (s.state, manager P _ (g.moved s.debra t))
                rw [hm.manager_eq hpc']
                exact hr
          · exact absurd hnext' (by simp)
      | step t e =>
          have hnext' : nextDebra prog P s (.step t e) = some s' := hnext
          simp only [nextDebra] at hnext'
          split at hnext'
          · rename_i c rest hcalls
            rw [Option.map_eq_some_iff] at hnext'
            obtain ⟨⟨d, u⟩, hstep, heq⟩ := hnext'
            exact call_simulates hinv hr hcalls e hstep heq.symm
          · rename_i hcalls
            split at hnext'
            · rename_i hop
              rw [Option.bind_eq_some_iff] at hnext'
              obtain ⟨⟨state, cs, gone⟩, hstep, hgive⟩ := hnext'
              rw [Option.map_eq_some_iff] at hgive
              obtain ⟨d, hgive, heq⟩ := hgive
              exact step_simulates hkeeps hinv hr hcalls hop hstep hgive heq.symm
            · rename_i hnot
              exact stepStart_simulates hinv hr hcalls hnot hnext'
      | leave t =>
          have hnext' : nextDebra prog P s (.leave t) = some s' := hnext
          simp only [nextDebra] at hnext'
          split at hnext'
          · rename_i hret
            rw [Option.map_eq_some_iff] at hnext'
            obtain ⟨d, hend, rfl⟩ := hnext'
            have hstep : next P (s.debra, prog.inUse s.state) (.endOp t)
                = some (d, prog.inUse s.state) := by
              simp only [next, hend, Option.map_some]
            cases next_effect hstep with
            | endOp hpc hcalls =>
                have hguard : t ∈ (abstract P s g).2.guards :=
                  mem_operating.mpr ⟨hinv.lt_of_ne (by rw [hpc]; exact Pc.noConfusion), hpc⟩
                refine Simulates.of_next (a := .leave t) hr (hinv.endOp hpc hcalls rfl) ?_
                have hnil : (abstract P s g).2.calls t = [] := hcalls
                have hret' : prog.returned (abstract P s g).1 t = true := hret
                simp only [nextManager, if_pos (And.intro hret' (And.intro hguard hnil))]
                show some (s.state, (manager P s.debra g).leave t) = some (s.state, manager P _ _)
                rw [(manager_endOp rfl).2]
          · exact absurd hnext' (by simp)
      | reclaim a => exact absurd hnext (by simp [onDebra, nextDebra])

end Refines

end Program

end MultiCore.Debra
