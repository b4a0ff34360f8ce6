/-
  MultiCore.ReclaimList.OverDebra — the list over its reclaimer.

  In `doubly_linked_list_kcas_reclaim.h` the record manager is the one of
  `MultiCore.Debra`.  The list is a program over it: it gives no node back
  twice and unlinks none that it has retired (`keeps`), so what has been proved
  of the list over any record manager holds here too.

    * `no_use_after_free` — over any record manager, no step of an operation
      accesses a node that is not in use;
    * `over_debra` — over the reclaimer every state is one of the list over a
      record manager, and no step accesses a node that is not in use.
-/
import MultiCore.ReclaimList.FreedOnce
import MultiCore.Debra.Program

namespace MultiCore.ReclaimList

open MultiCore.Lib MultiCore.Lib.Reclamation MultiCore.Kcas MultiCore.Debra
open MultiCore.DoublyLinkedList (Addr NULL Loc Field Op Pc head tail insertEntries eraseEntries
  Published)

/-! ## §1. Accesses. -/

/-- The nodes that the next step of an operation reads or writes. -/
def accesses : DoublyLinkedList.Pc → List Addr
  | .idle | .returned _ _ _ => []
  | .searchTest _ _ _ succ => [succ, tail]
  | .searchRead _ _ pred => [pred]
  | .searched _ _ _ succ => [succ]
  | .insertExecute _ pred succ n => [pred, succ, n]
  | .eraseRead _ _ succ => [succ]
  | .eraseExecute _ pred succ after => [pred, succ, after]

theorem accesses_cases {pc : DoublyLinkedList.Pc} {a : Addr} (ha : a ∈ accesses pc) :
    a ∈ known pc ∨ a = tail ∨ pc.privateNode = some a := by
  cases pc with
  | idle => exact absurd ha List.not_mem_nil
  | returned op key result => exact absurd ha List.not_mem_nil
  | searchTest op key pred succ =>
      rcases List.mem_pair.mp ha with rfl | rfl
      · exact Or.inl (by simp [known])
      · exact Or.inr (Or.inl rfl)
  | searchRead op key pred => exact Or.inl ha
  | searched op key pred succ =>
      rw [List.mem_singleton.mp ha]
      exact Or.inl (by simp [known])
  | insertExecute key pred succ n =>
      rcases List.mem_cons.mp ha with rfl | ha
      · exact Or.inl (by simp [known])
      · rcases List.mem_pair.mp ha with rfl | rfl
        · exact Or.inl (by simp [known])
        · exact Or.inr (Or.inr rfl)
  | eraseRead key pred succ =>
      rw [List.mem_singleton.mp ha]
      exact Or.inl (by simp [known])
  | eraseExecute key pred succ after => exact Or.inl ha

theorem reachable_inv {P : DoublyLinkedList.Params} {s : State} (h : Reachable (system P) s) :
    ∃ c, Inv P s c := by
  induction h with
  | init => exact ⟨_, init_inv P⟩
  | step _ _ hnext ih =>
      obtain ⟨c, hc⟩ := ih
      exact hc.effect (next_effect hnext)

/-- What an operation accesses is shown. -/
theorem Inv.accesses_shown {P : DoublyLinkedList.Params} {s : State} {c : List Addr}
    (h : Inv P s c) {t : Tid} {a : Addr} (ha : a ∈ accesses (s.list.thread t)) : Shown s a := by
  rcases accesses_cases ha with hknown | rfl | hown
  · exact shadow_allocated.mp (known_published (h.list.pcOk t) a hknown).1
  · exact (h.mem_shown (List.mem_of_getLast? h.list.tail_last)).1
  · exact (h.owned_facts hown).1

/-- **No use after free**: whatever the record manager takes back, and whoever is
handed it out again, a step of an operation accesses nodes in use only, and none
that another thread is about to deallocate. -/
theorem no_use_after_free {P : DoublyLinkedList.Params} {s : State} (h : Reachable (system P) s)
    (t : Tid) : ∀ a ∈ accesses (s.list.thread t), s.list.allocated a = true
      ∧ ∀ u, Call.deallocate a ∉ s.mgr.calls u := by
  obtain ⟨c, hc⟩ := reachable_inv h
  intro a ha
  have hshown := hc.accesses_shown ha
  exact ⟨hshown.1, hshown.2.1⟩

/-- Thread 1 reads the node that thread 0 has just inserted. -/
theorem no_use_after_free_handedOutTwice :
    accesses ((handedOutTwiceRun.state 15).list.thread 1) = [3, 2]
      ∧ ∀ a ∈ accesses ((handedOutTwiceRun.state 15).list.thread 1),
          (handedOutTwiceRun.state 15).list.allocated a = true
            ∧ ∀ u, Call.deallocate a ∉ (handedOutTwiceRun.state 15).mgr.calls u :=
  ⟨by decide +kernel, no_use_after_free (handedOutTwiceRun.reachable 15 (by decide)) 1⟩

/-! ## §2. The list as a program. -/

/-- A step of an operation, the calls of the record manager behind it, and the
node that it has unlinked. -/
def programStep (s : DoublyLinkedList.State) (t : Tid) (fresh : Addr) :
    Option (DoublyLinkedList.State × List (Call Addr) × List Addr) :=
  match s.thread t with
  | .insertExecute key pred succ n =>
      match casN s.word (insertEntries pred succ n) with
      | (true, word) =>
          some ({ s with
            word := word
            inserted := Function.update s.inserted key (s.inserted key + 1) }.goto t
              (.returned .insertIfAbsent key true), [], [])
      | (false, _) =>
          some (s.goto t (.searchTest .insertIfAbsent key head head), [.deallocate n], [])
  | .eraseExecute key pred succ after =>
      match casN s.word (eraseEntries pred succ after) with
      | (true, word) =>
          some ({ s with
            word := word
            erased := Function.update s.erased key (s.erased key + 1) }.goto t
              (.returned .erase key true), [.retire succ], [succ])
      | (false, _) => some (s.goto t (.searchTest .erase key head head), [], [])
  | _ => (DoublyLinkedList.step s t fresh).map (·, [], [])

theorem giveBack_nil {m : Manager Tid Addr} {t : Tid} (hcalls : m.calls t = []) :
    m.giveBack t [] [] = m := by
  have hsame : Function.update m.calls t [] = m.calls := by
    rw [← hcalls]
    exact Function.update_eq_self t m.calls
  unfold Manager.giveBack
  rw [hsame]
  simp

/-- **It is the step of the list**, whatever the record manager. -/
theorem step_eq {s : State} {t : Tid} (fresh : Addr) (hcalls : s.mgr.calls t = []) :
    step s t fresh = (programStep s.list t fresh).map fun (list, cs, gone) =>
      ⟨list, s.mgr.giveBack t cs gone⟩ := by
  have hnil := giveBack_nil hcalls
  unfold step programStep
  rw [hcalls]
  dsimp only
  generalize s.list.thread t = pc
  cases pc with
  | insertExecute key pred succ n =>
      dsimp only
      generalize casN s.list.word (insertEntries pred succ n) = result
      obtain ⟨_ | _, word⟩ := result
      · rfl
      · simp only [Option.map_some, hnil]
  | eraseExecute key pred succ after =>
      dsimp only
      generalize casN s.list.word (eraseEntries pred succ after) = result
      obtain ⟨_ | _, word⟩ := result
      · simp only [Option.map_some, hnil]
      · rfl
  | _ =>
      simp only [Option.map_map, Function.comp_def, hnil]

theorem programStep_effect (P : DoublyLinkedList.Params) {s list : DoublyLinkedList.State}
    {m : Manager Tid Addr} {t : Tid} {fresh : Addr} {cs : List (Call Addr)} {gone : List Addr}
    (hcalls : m.calls t = []) (h : programStep s t fresh = some (list, cs, gone)) :
    Effect P ⟨s, m⟩ (.step t fresh) ⟨list, m.giveBack t cs gone⟩ := by
  apply next_effect
  show step ⟨s, m⟩ t fresh = _
  rw [step_eq (s := ⟨s, m⟩) fresh hcalls, h]
  rfl

theorem programStep_inUse (s : DoublyLinkedList.State) (t : Tid) (fresh : Addr)
    (list : DoublyLinkedList.State) (cs : List (Call Addr)) (gone : List Addr)
    (h : programStep s t fresh = some (list, cs, gone)) (a : Addr)
    (ha : s.allocated a = true) : list.allocated a = true := by
  generalize hs' : (⟨list, Manager.giveBack .new t cs gone⟩ : State) = s'
  have heff : Effect DoublyLinkedList.sampleParams ⟨s, .new⟩ (.step t fresh) s' := by
    rw [← hs']
    exact programStep_effect _ rfl h
  have hlist : s'.list = list := by rw [← hs']
  rw [← hlist]
  cases heff with
  | move | insertRetry | insert | erase => exact ha
  | alloc _ _ _ _ hfree =>
      exact ((holding_handsOut (s := ⟨s, .new⟩) hfree).inUse_iff a).mpr (Or.inl ha)
  | perform hp => exact absurd hp (by simp [Manager.perform, Manager.new])

theorem invoke_inUse (P : DoublyLinkedList.Params) (s : DoublyLinkedList.State) (t : Tid)
    (op : Op × Int) (s' : DoublyLinkedList.State)
    (h : DoublyLinkedList.invoke P s t op.1 op.2 = some s') : s'.allocated = s.allocated := by
  unfold DoublyLinkedList.invoke at h
  split at h
  · split at h
    · rw [← Option.some.inj h]
      rfl
    · exact absurd h (by simp)
  · split at h
    · rw [← Option.some.inj h]
      rfl
    · exact absurd h (by simp)
  · exact absurd h (by simp)

def hasReturned (s : DoublyLinkedList.State) (t : Tid) : Bool :=
  match s.thread t with
  | .returned _ _ _ => true
  | _ => false

theorem hasReturned_cases {s : DoublyLinkedList.State} {t : Tid} (h : hasReturned s t = true) :
    ∃ op key result, s.thread t = .returned op key result := by
  unfold hasReturned at h
  split at h
  · rename_i hpc
    exact ⟨_, _, _, hpc⟩
  · exact absurd h (by simp)

/-- `DoublyLinkedListReclaim` between the accesses of its record manager. -/
def program (P : DoublyLinkedList.Params) :
    Program DoublyLinkedList.State (Op × Int) Addr Addr where
  init := DoublyLinkedList.init P
  inUse s := s.allocated
  setInUse s inUse := { s with allocated := inUse }
  call s t op := DoublyLinkedList.invoke P s t op.1 op.2
  step := programStep
  returned := hasReturned
  inUse_setInUse _ _ := rfl
  setInUse_inUse _ := rfl
  call_inUse := invoke_inUse P
  step_inUse := programStep_inUse

section Program

variable {P : DoublyLinkedList.Params}

/-- Over a record manager the program is the list. -/
theorem onManager_next {s s' : DoublyLinkedList.State} {m m' : Manager Tid Addr}
    {a : Program.Action (Op × Int) Addr Addr}
    (h : Program.nextManager (program P) (s, m) a = some (s', m')) :
    ∃ act, next P ⟨s, m⟩ act = some ⟨s', m'⟩ := by
  cases a with
  | invoke t op =>
      refine ⟨.invoke t op.1 op.2, ?_⟩
      simp only [Program.nextManager] at h
      split at h
      · exact absurd h (by simp)
      · rename_i hguard
        rw [Option.map_eq_some_iff] at h
        obtain ⟨list, hcall, heq⟩ := h
        obtain ⟨rfl, rfl⟩ := Prod.mk.inj heq
        show invoke P ⟨s, m⟩ t op.1 op.2 = _
        unfold invoke
        rw [if_neg hguard]
        show (DoublyLinkedList.invoke P s t op.1 op.2).map _ = _
        have hcall' : DoublyLinkedList.invoke P s t op.1 op.2 = some list := hcall
        rw [hcall']
        rfl
  | step t fresh =>
      refine ⟨.step t fresh, ?_⟩
      simp only [Program.nextManager] at h
      split at h
      · rename_i c rest hcalls
        rw [Option.map_eq_some_iff] at h
        obtain ⟨⟨m₁, u⟩, hp, heq⟩ := h
        obtain ⟨rfl, rfl⟩ := Prod.mk.inj heq
        have hcalls' : m.calls t = c :: rest := hcalls
        have hp' : m.perform s.allocated t = some (m₁, u) := hp
        show step ⟨s, m⟩ t fresh = _
        unfold step
        rw [hcalls']
        show (m.perform s.allocated t).map _ = _
        rw [hp']
        rfl
      · rename_i hcalls
        split at h
        · rw [Option.map_eq_some_iff] at h
          obtain ⟨⟨list, cs, gone⟩, hstep, heq⟩ := h
          obtain ⟨rfl, rfl⟩ := Prod.mk.inj heq
          have hstep' : programStep s t fresh = some (list, cs, gone) := hstep
          show step ⟨s, m⟩ t fresh = _
          rw [step_eq (s := ⟨s, m⟩) fresh hcalls, hstep']
          rfl
        · exact absurd h (by simp)
  | leave t =>
      refine ⟨.leave t, ?_⟩
      simp only [Program.nextManager] at h
      split at h
      · rename_i hcond
        obtain ⟨hret, hguard⟩ := hcond
        obtain ⟨rfl, rfl⟩ := Prod.mk.inj (Option.some.inj h)
        have hret' : hasReturned s t = true := hret
        obtain ⟨op, key, result, hpc⟩ := hasReturned_cases hret'
        show leave ⟨s, m⟩ t = _
        simp only [leave, hpc]
        exact if_pos hguard
      · exact absurd h (by simp)
  | reclaim a =>
      refine ⟨.reclaim a, ?_⟩
      simp only [Program.nextManager] at h
      rw [Option.map_eq_some_iff] at h
      obtain ⟨⟨m₁, u⟩, hr, heq⟩ := h
      obtain ⟨rfl, rfl⟩ := Prod.mk.inj heq
      have hr' : m.reclaim s.allocated a = some (m₁, u) := hr
      show (m.reclaim s.allocated a).map _ = _
      rw [hr']
      rfl

theorem onManager_reachable {s : DoublyLinkedList.State × Manager Tid Addr}
    (h : Reachable (program P).onManager s) : Reachable (system P) ⟨s.1, s.2⟩ := by
  induction h with
  | init => exact Reach.init
  | step _ _ hnext ih =>
      obtain ⟨act, hact⟩ := onManager_next hnext
      exact Reach.step ih trivial hact

/-- The list keeps its promise. -/
theorem keeps : (program P).Keeps := by
  intro s m h t fresh list cs gone _ hcalls hstep
  obtain ⟨c, hc⟩ := reachable_inv (onManager_reachable h)
  have hstep' : programStep s t fresh = some (list, cs, gone) := hstep
  unfold programStep at hstep'
  split at hstep'
  · rename_i key pred succ n hpc
    split at hstep'
    · obtain ⟨-, rfl, rfl⟩ := by simpa using hstep'
      simp
    · obtain ⟨rfl, rfl, rfl⟩ := by simpa using hstep'
      -- the node that an insert has for itself
      obtain ⟨hshown, hun⟩ := hc.owned_facts (t := t) (a := n) (by rw [hpc]; rfl)
      have hheld := hc.agrees.held hshown hun
      refine ⟨by simp, fun c' hc' => ?_, fun a ha => absurd ha List.not_mem_nil⟩
      rw [List.mem_singleton.mp hc']
      exact hheld
  · rename_i key pred succ after hpc
    by_cases hm : Matches s.word (eraseEntries pred succ after)
    · rw [casN_of_matches hm] at hstep'
      obtain ⟨rfl, rfl, rfl⟩ := by simpa using hstep'
      have hheld := hc.mem_held (hc.erasing (s := ⟨s, m⟩) hpc hm).2.1
      refine ⟨by simp, fun c' hc' => ?_, fun a ha => ?_⟩
      · rw [List.mem_singleton.mp hc']
        exact hheld
      · rw [List.mem_singleton.mp ha]
        exact hheld.2.1
    · rw [casN_of_not_matches hm] at hstep'
      obtain ⟨-, rfl, rfl⟩ := by simpa using hstep'
      simp
  · rw [Option.map_eq_some_iff] at hstep'
    obtain ⟨list', -, heq⟩ := hstep'
    obtain ⟨-, rfl, rfl⟩ := by simpa using heq
    simp

end Program

/-- **The list over its reclaimer**: every state is one of the list over a record
manager whose guards are the operations that are open, and no step of an
operation accesses a node that is not in use. -/
theorem over_debra {P : DoublyLinkedList.Params} {D : Debra.Params}
    {s : Program.OnDebra DoublyLinkedList.State (Op × Int) Addr}
    (h : Reachable ((program P).onDebra D) s) :
    (∃ m, Reachable (system P) ⟨s.state, m⟩ ∧ (∀ t, t ∈ m.guards ↔ s.debra.pc t = .operating)
      ∧ m.calls = s.debra.calls ∧ ∀ a, m.retired a = true ↔ a ∈ limbo D s.debra)
      ∧ ∀ t, ∀ a ∈ accesses (s.state.thread t), s.state.allocated a = true := by
  obtain ⟨g, hinv, hr⟩ := Program.refines keeps h
  have hreach := onManager_reachable hr
  refine ⟨⟨manager D s.debra g, hreach, fun t => ?_, rfl, fun a => decide_eq_true_iff⟩, ?_⟩
  · show t ∈ operating D s.debra ↔ _
    rw [mem_operating]
    refine ⟨And.right, fun hpc => ⟨hinv.lt_of_ne ?_, hpc⟩⟩
    rw [hpc]
    exact Pc.noConfusion
  · obtain ⟨c, hc⟩ := reachable_inv hreach
    exact fun t a ha => (hc.accesses_shown (t := t) ha).1

/-- Thread 0 inserts 4.  A `contains(4)` of thread 1 has got as far as its node 3
when thread 0 erases and retires it. -/
def retiredUnderway : List (Program.Action (Op × Int) Addr Addr) :=
  [.invoke 0 (.insertIfAbsent, 4)] ++ List.replicate 8 (.step 0 3)
    ++ [.leave 0, .invoke 1 (.contains, 4)] ++ List.replicate 5 (.step 1 0)
    ++ [.invoke 0 (.erase, 4)] ++ List.replicate 10 (.step 0 0)

theorem over_debra_retiredUnderway :
    ∃ s, ((program DoublyLinkedList.sampleParams).onDebra ⟨2, 1, Nat.one_pos⟩).exec
        ((program DoublyLinkedList.sampleParams).onDebra ⟨2, 1, Nat.one_pos⟩).init
        retiredUnderway = some s
      ∧ accesses (s.state.thread 1) = [3, 2] ∧ 3 ∈ (s.debra.threadData 0).epochbags 1
      ∧ (∃ m, Reachable (system DoublyLinkedList.sampleParams) ⟨s.state, m⟩
          ∧ (∀ t, t ∈ m.guards ↔ s.debra.pc t = .operating) ∧ m.calls = s.debra.calls
          ∧ ∀ a, m.retired a = true ↔ a ∈ limbo ⟨2, 1, Nat.one_pos⟩ s.debra)
      ∧ ∀ t, ∀ a ∈ accesses (s.state.thread t), s.state.allocated a = true := by
  have hsome : (((program DoublyLinkedList.sampleParams).onDebra ⟨2, 1, Nat.one_pos⟩).exec
      ((program DoublyLinkedList.sampleParams).onDebra ⟨2, 1, Nat.one_pos⟩).init
      retiredUnderway).any (fun s => decide (accesses (s.state.thread 1) = [3, 2]
        ∧ 3 ∈ (s.debra.threadData 0).epochbags 1)) = true := by decide +kernel
  obtain ⟨s, hexec, hs⟩ := (Option.any_eq_true _ _).mp hsome
  obtain ⟨haccesses, hbag⟩ := of_decide_eq_true hs
  exact ⟨s, hexec, haccesses, hbag, over_debra (Reach.exec _ Reach.init hexec)⟩

end MultiCore.ReclaimList
