/-
  MultiCore.ReclaimTree.HandsOver — nodes are handed to the record manager
  correctly in every run whose erases capture the sibling.

    * between two calls that give one node back, it has been handed out again;
    * a node that is retired is not reachable, and stays so until it is handed
      out again;
    * a node that is deallocated has not been reachable since it was handed out.

  `relinked` is a run in which an erase links a node that another erase has
  unlinked and retired.
-/
import MultiCore.ReclaimTree.Steps

namespace MultiCore.ReclaimTree

open MultiCore.Lib MultiCore.Lib.Reclamation MultiCore.Kcas
open MultiCore.ExternalTree (Tid Addr NULL Loc Params Op Pc root insertEntries eraseEntries
  Published Internal Leaf Marked PcOk Captures CapturesSibling helpExecute childField KeyOk
  sampleParams capturesSibling_of_pc)

/-! ## §1. Every run. -/

/-- If the action is a k-CAS of an erase that names `p->left` twice and finds
the words it compares unchanged, `p->right` is still `sib`. -/
def Action.Captures (s : State) : Action → Prop
  | .step t _ _ => CapturesSibling s.tree t
  | _ => True

theorem init_unmarked (P : Params) (a : Addr) : ¬ Marked (ExternalTree.init P) a := by
  intro hm
  apply hm
  rw [ExternalTree.init_word]
  split <;> rfl

theorem init_inv (P : Params) : Inv P (init P) := by
  have hshadow : (init P).shadow = ExternalTree.init P := by
    refine shadow_eq rfl ?_
    intro a
    constructor
    · exact fun ha => ⟨ha, fun _ => List.not_mem_nil, fun hm => absurd hm (init_unmarked P a)⟩
    · exact fun hs => hs.1
  exact
    { tree := by rw [hshadow]; exact ExternalTree.init_inv P
      mgr := Manager.new_ok _
      active := fun _ _ => ⟨id, rfl⟩
      pinned_child := fun a _ _ hm => absurd hm (init_unmarked P a)
      known := fun _ a _ _ hm => absurd hm (init_unmarked P a)
      retire_marked := fun _ _ hc => absurd hc List.not_mem_nil
      retired_marked := fun _ hr => absurd hr (by simp [init, Manager.new])
      deallocate_hidden := fun _ _ hc => absurd hc List.not_mem_nil }

/-- One step keeps the invariant. -/
theorem Inv.effect {P : Params} {s s' : State} {a : Action} (h : Inv P s) (hcap : a.Captures s)
    (he : Effect helpExecute P s a s') : Inv P s' := by
  cases he with
  | enter hidle hguard hkey =>
      refine h.goto (.call ?_ hkey) ((Manager.Step.enter _).ok h.mgr) rfl rfl rfl ?_
      · generalize s.tree.thread _ = pc at hidle
        cases pc with
        | idle => rfl
        | returned _ _ _ => rfl
        | _ => exact absurd trivial hidle
      · exact fun u hu => (s.mgr.not_mem_enter _ u).mp hu
  | @move t _ _ _ hactive hcalls hl =>
      refine h.goto hl h.mgr rfl rfl rfl ?_
      intro u hu
      refine ⟨?_, hu⟩
      intro hut
      exact (h.active t (hut ▸ hu)).1 hactive
  | alloc _ hpc hkey hna hn1 hne => exact h.alloc hpc hkey hna hn1 hne
  | insertRetry hcalls hpc => exact h.insertRetry hcalls hpc
  | insert _ hpc hex => exact h.insert hpc hex
  | erase hcalls hpc hex => exact h.erase hcap hcalls hpc hex
  | perform hp => exact h.perform hp
  | leave hcalls hidle => exact h.leave hcalls hidle
  | reclaim hr => exact h.reclaim hr

/-- What a step does to the record manager. -/
theorem Inv.effect_mgr {P : Params} {s s' : State} {a : Action} (h : Inv P s)
    (hcap : a.Captures s) (he : Effect helpExecute P s a s') :
    Manager.Step s.mgr s.tree.allocated s'.mgr s'.tree.allocated := by
  cases he with
  | enter _ _ _ => exact .enter _
  | move _ _ _ => exact .quiet
  | alloc _ _ _ _ _ _ =>
      refine .allocate ?_
      intro a ha
      rw [ExternalTree.goto_allocated, ExternalTree.allocate_allocated]
      split_ifs
      · rfl
      · rfl
      · exact ha
  | insertRetry hcalls hpc => exact h.insertRetry_mgr hcalls hpc
  | insert _ _ _ => exact .quiet
  | erase hcalls hpc hex => exact h.erase_mgr hcap hcalls hpc hex
  | perform hp => exact .perform hp
  | leave _ _ => exact .leave _
  | reclaim hr => exact .reclaim hr

/-- A node that has been given back is not in the tree. -/
theorem Inv.not_reach_returned {s : State} (h : Inv P s) {a : Addr}
    (hret : s.mgr.Returned s.tree.allocated a) : ¬ s.tree.routing.Reach a := by
  intro ha
  obtain ⟨huse, hno, -⟩ := h.reach_held ha
  rcases hret with hret | hret
  · rw [hno] at hret
    exact absurd hret (by simp)
  · rw [huse] at hret
    exact absurd hret (by simp)

/-! ## §2. What is asked of a run. -/

section Events

variable {P : Params} (r : Run (system helpExecute P))

/-- The action at time `i` hands `a` out. -/
def Allocates (i : ℕ) (a : Addr) : Prop :=
  (r.state i).tree.allocated a = false ∧ (r.state (i + 1)).tree.allocated a = true

instance (i : ℕ) (a : Addr) : Decidable (Allocates r i a) :=
  inferInstanceAs (Decidable (_ ∧ _))

/-- The action at time `i` is the call `c` of the record manager. -/
def Makes (i : ℕ) (c : Call Addr) : Prop :=
  i < r.len ∧ ∃ t freshLeaf freshInternal rest, r.act i = .step t freshLeaf freshInternal
    ∧ (r.state i).mgr.calls t = c :: rest

structure HandsOver : Prop where
  once : ∀ i j c c', i < j → Makes r i c → Makes r j c' → c.node = c'.node →
    ∃ k, i < k ∧ k < j ∧ Allocates r k c.node
  retired : ∀ i j a, Makes r i (.retire a) → i ≤ j → j ≤ r.len →
    (∀ k, i ≤ k → k < j → ¬ Allocates r k a) → ¬ (r.state j).tree.routing.Reach a
  deallocated : ∀ i j a, Makes r j (.deallocate a) → i ≤ j →
    (∀ k, i ≤ k → k < j → ¬ Allocates r k a) → ¬ (r.state i).tree.routing.Reach a

variable {r}

/-- The call gives its node back. -/
theorem Makes.returned {i : ℕ} {c : Call Addr} (h : Makes r i c) :
    (r.state (i + 1)).mgr.Returned (r.state (i + 1)).tree.allocated c.node := by
  obtain ⟨hi, t, freshLeaf, freshInternal, rest, hact, hcalls⟩ := h
  have hstep : next helpExecute P (r.state i) (r.act i) = some (r.state (i + 1)) := r.step i hi
  rw [hact] at hstep
  simp only [next, step, hcalls, Option.map_eq_some_iff] at hstep
  obtain ⟨⟨mgr, inUse⟩, hp, heq⟩ := hstep
  rw [← heq]
  exact Manager.perform_returned hcalls hp

variable (hr : ∀ i < r.len, (r.act i).Captures (r.state i))
include hr

theorem run_inv {i : ℕ} (hi : i ≤ r.len) : Inv P (r.state i) :=
  r.invariant (P := fun _ => Inv P) (init_inv P) hi
    fun j _ hj h => h.effect (hr j hj) (next_effect (r.step j hj))

/-- What has been given back stays so until it is handed out again. -/
theorem returned_later {i j : ℕ} {a : Addr} (hij : i ≤ j) (hj : j ≤ r.len)
    (hno : ∀ k, i ≤ k → k < j → ¬ Allocates r k a)
    (h : (r.state i).mgr.Returned (r.state i).tree.allocated a) :
    (r.state j).mgr.Returned (r.state j).tree.allocated a := by
  refine r.persists (P := fun s => s.mgr.Returned s.tree.allocated a) hij hj h ?_
  intro k hik hkj hk hret
  have hstep := (run_inv hr (Nat.le_of_lt hk)).effect_mgr (hr k hk) (next_effect (r.step k hk))
  rcases hstep.returned hret with hret' | halloc
  · exact hret'
  · exact absurd halloc (hno k hik hkj)

end Events

/-! ## §3. What is deallocated was never shared. -/

/-- No insert holds the node for itself, and none is about to deallocate it. -/
def Shared (s : State) (a : Addr) : Prop :=
  (s.tree.allocated a = true → ∀ t, a ∉ (s.tree.thread t).privateNodes)
    ∧ ∀ t, Call.deallocate a ∉ s.mgr.calls t

theorem Inv.shared_of_reach {P : Params} {s : State} (h : Inv P s) {a : Addr}
    (ha : s.tree.routing.Reach a) : Shared s a := by
  refine ⟨fun _ => (h.reach_facts ha).1.2, ?_⟩
  intro t hc
  exact (h.reach_held ha).2.2 t _ hc rfl

/-- A shared node stays shared until it is handed out again. -/
theorem Shared.effect {P : Params} {s s' : State} {act : Action} {a : Addr} (hs : Shared s a)
    (h : Inv P s) (he : Effect helpExecute P s act s') :
    Shared s' a ∨ s.tree.allocated a = false ∧ s'.tree.allocated a = true := by
  -- a thread that moves on without private nodes takes nothing from the others
  have hgoto : ∀ {w : ExternalTree.State} {t : Tid} {pc' : Pc},
      w.thread = s.tree.thread → w.allocated = s.tree.allocated →
      (∀ b, b ∈ pc'.privateNodes → b ∈ (s.tree.thread t).privateNodes) →
      ((w.goto t pc').allocated a = true →
        ∀ u, a ∉ ((w.goto t pc').thread u).privateNodes) := by
    intro w t pc' hthread halloc hsub hin u hu
    rw [ExternalTree.goto_allocated, halloc] at hin
    rw [ExternalTree.goto_thread, hthread] at hu
    split at hu
    · exact hs.1 hin t (hsub a hu)
    · exact hs.1 hin u hu
  cases he with
  | @enter t op key hidle hguard hkey =>
      exact Or.inl ⟨hgoto rfl rfl (fun b hb => absurd hb List.not_mem_nil), hs.2⟩
  | move _ _ hl => exact Or.inl ⟨hgoto rfl rfl (fun b hb => hl.privateNodes ▸ hb), hs.2⟩
  | @alloc t _ _ key gp p n na n1 _ hpc _ hna hn1 _ =>
      have halloc : ∀ b, ((s.tree.allocate key n na n1).goto t
          (.insertRead key p n na n1)).allocated b
          = if b = n1 then true else if b = na then true else s.tree.allocated b :=
        fun b => ExternalTree.allocate_allocated (n := n) b
      by_cases hnew : a = na ∨ a = n1
      · right
        rw [halloc]
        rcases hnew with rfl | rfl
        · refine ⟨hna.2, ?_⟩
          rw [if_pos rfl]
          split <;> rfl
        · exact ⟨hn1.2, if_pos rfl⟩
      · left
        rw [not_or] at hnew
        refine ⟨?_, hs.2⟩
        intro hin u hu
        have hin' := halloc a
        rw [if_neg hnew.2, if_neg hnew.1] at hin'
        rw [ExternalTree.goto_thread] at hu
        split at hu
        · rcases List.mem_pair.mp hu with heq | heq
          · exact hnew.1 heq
          · exact hnew.2 heq
        · exact hs.1 (hin'.symm.trans hin) u hu
  | @insertRetry t _ _ key p n na n1 child hcalls hpc =>
      refine Or.inl ⟨hgoto rfl rfl (fun b hb => absurd hb List.not_mem_nil), ?_⟩
      intro u hc
      have hc' : Call.deallocate a ∈ Function.update s.mgr.calls t
        [.deallocate n1, .deallocate na] u := hc
      rw [Function.update_apply] at hc'
      split at hc'
      · -- the two nodes were private to this insert
        have hmem : a ∈ (s.tree.thread t).privateNodes := by
          rw [hpc]
          simp only [List.mem_cons, Call.deallocate.injEq, List.not_mem_nil, or_false] at hc'
          exact List.mem_pair.mpr hc'.symm
        exact hs.1 (h.private_held hmem).1 t hmem
      · exact hs.2 u hc'
  | insert _ hpc _ =>
      refine Or.inl ⟨?_, hs.2⟩
      exact hgoto (w := { s.tree with word := _, inserted := _ }) rfl rfl
        (fun b hb => absurd hb List.not_mem_nil)
  | @erase t _ _ key gp p n sib parent sibling node word hcalls hpc _ =>
      refine Or.inl ⟨?_, ?_⟩
      · exact hgoto (w := { s.tree with word := _, erased := _ }) rfl rfl
          (fun b hb => absurd hb List.not_mem_nil)
      · intro u hc
        have hc' : Call.deallocate a ∈ Function.update s.mgr.calls t [.retire p, .retire n] u := hc
        rw [Function.update_apply] at hc'
        split at hc'
        · exact absurd hc' (by simp)
        · exact hs.2 u hc'
  | @perform t _ _ mgr inUse hp =>
      obtain ⟨c, rest, hcalls, -, -, hcalls', hor⟩ := Manager.perform_cases hp
      refine Or.inl ⟨?_, ?_⟩
      · intro hin
        refine hs.1 ?_
        have hin' : inUse a = true := hin
        rcases hor with ⟨-, -, rfl⟩ | ⟨-, -, rfl⟩
        · exact hin'
        · rw [Function.update_apply] at hin'
          split at hin'
          · exact absurd hin' (by simp)
          · exact hin'
      · intro u hc
        have hc' : Call.deallocate a ∈ mgr.calls u := hc
        rw [hcalls', Function.update_apply] at hc'
        split at hc'
        · refine hs.2 t ?_
          rw [hcalls]
          exact List.mem_cons_of_mem c hc'
        · exact hs.2 u hc'
  | leave _ _ => exact Or.inl hs
  | @reclaim b mgr inUse hr =>
      obtain ⟨-, -, rfl, rfl⟩ := Manager.reclaim_cases hr
      refine Or.inl ⟨?_, hs.2⟩
      intro hin
      refine hs.1 ?_
      have hin' : Function.update s.tree.allocated b false a = true := hin
      rw [Function.update_apply] at hin'
      split at hin'
      · exact absurd hin' (by simp)
      · exact hin'

theorem shared_later {P : Params} {r : Run (system helpExecute P)}
    (hr : ∀ i < r.len, (r.act i).Captures (r.state i)) {i j : ℕ} {a : Addr} (hij : i ≤ j)
    (hj : j ≤ r.len) (hno : ∀ k, i ≤ k → k < j → ¬ Allocates r k a) (h : Shared (r.state i) a) :
    Shared (r.state j) a := by
  refine r.persists (P := (Shared · a)) hij hj h ?_
  intro k hik hkj hk hs
  rcases hs.effect (run_inv hr (Nat.le_of_lt hk)) (next_effect (r.step k hk)) with hs' | halloc
  · exact hs'
  · exact absurd halloc (hno k hik hkj)

/-! ## §4. Every run. -/

/-- **Nodes are handed over correctly** in every run whose erases capture the
sibling. -/
theorem hands_over (P : Params) (r : Run (system helpExecute P))
    (hr : ∀ i < r.len, (r.act i).Captures (r.state i)) : HandsOver r where
  once i j c c' hij hi hj heq := by
    by_contra hnone
    obtain ⟨hjlen, t, _, _, rest, -, hcalls⟩ := hj
    have hret := returned_later hr (Nat.succ_le_of_lt hij) (Nat.le_of_lt hjlen)
      (fun k h₁ h₂ halloc => hnone ⟨k, h₁, h₂, halloc⟩) (Makes.returned hi)
    rw [heq] at hret
    refine (run_inv hr (Nat.le_of_lt hjlen)).mgr.pending t c' ?_ hret
    rw [hcalls]
    exact List.mem_cons_self
  retired i j a hi hij hj hno := by
    rcases Nat.eq_or_lt_of_le hij with rfl | hlt
    · obtain ⟨-, t, _, _, rest, -, hcalls⟩ := hi
      have hinv := run_inv hr hj
      intro hreach
      refine (hinv.reach_facts hreach).2 (hinv.retire_marked t a ?_)
      rw [hcalls]
      exact List.mem_cons_self
    · have hret := returned_later hr (Nat.succ_le_of_lt hlt) hj
        (fun k h₁ h₂ => hno k (Nat.le_of_succ_le h₁) h₂) (Makes.returned hi)
      exact (run_inv hr hj).not_reach_returned hret
  deallocated i j a hj hij hno := by
    obtain ⟨hjlen, t, _, _, rest, -, hcalls⟩ := hj
    have hj' : j ≤ r.len := Nat.le_of_lt hjlen
    intro hreach
    have hshared := (run_inv hr (hij.trans hj')).shared_of_reach hreach
    refine (shared_later hr hij hj' hno hshared).2 t ?_
    rw [hcalls]
    exact List.mem_cons_self

/-! ## §5. Two runs. -/

/-- `k` steps of thread `t`, whose allocations return `freshLeaf` and
`freshInternal`. -/
def steps (t : Tid) (k : Nat) (freshLeaf freshInternal : Addr) : List Action :=
  List.replicate k (.step t freshLeaf freshInternal)

/-- Thread 0 inserts 5 and erases it, the record manager takes leaf 4 back, and
thread 0 is handed it out again. -/
def reused : List Action :=
  [.invoke 0 .insertIfAbsent 5] ++ steps 0 7 4 5 ++ [.leave 0]
    ++ [.invoke 0 .erase 5] ++ steps 0 15 0 0 ++ [.leave 0, .reclaim 4]
    ++ [.invoke 0 .insertIfAbsent 6] ++ steps 0 7 4 6

def reusedRun : Run (system helpExecute sampleParams) :=
  Run.ofActions (system helpExecute sampleParams) reused (.step 0 0 0) (by decide +kernel)

theorem captures_of_pc {s : State} {a : Action}
    (h : (match a with
      | .step t _ _ => !(s.tree.thread t).namesLeftTwice
      | _ => true) = true) : a.Captures s := by
  cases a with
  | step t _ _ => exact capturesSibling_of_pc h
  | _ => trivial

theorem hands_over_reused : (reusedRun.state 35).tree.key 4 = 6 ∧ HandsOver reusedRun := by
  refine ⟨by decide +kernel, hands_over sampleParams reusedRun ?_⟩
  intro i hi
  have hall : ∀ i < reusedRun.len, (match reusedRun.act i with
      | .step t _ _ => !((reusedRun.state i).tree.thread t).namesLeftTwice
      | _ => true) = true := by decide +kernel
  exact captures_of_pc (hall i hi)

/-- Thread 0 erases 5 while thread 1 inserts 3 next to it before the comparison
for `sibling` and erases it before the one for `node`.  Thread 0 has read `sib`,
the internal node 7 over 8, when thread 1 erases 8 and retires it. -/
def relinked : List Action :=
  [.invoke 0 .insertIfAbsent 5] ++ steps 0 7 4 5 ++ [.leave 0]
    ++ [.invoke 0 .insertIfAbsent 8] ++ steps 0 9 6 7 ++ [.leave 0]
    ++ [.invoke 0 .erase 5] ++ steps 0 8 0 0
    ++ [.invoke 1 .insertIfAbsent 3] ++ steps 1 9 8 9 ++ [.leave 1] ++ steps 0 1 0 0
    ++ [.invoke 1 .erase 3] ++ steps 1 17 0 0 ++ [.leave 1] ++ steps 0 3 0 0
    ++ [.invoke 1 .erase 8] ++ steps 1 17 0 0 ++ [.leave 1] ++ steps 0 1 0 0

def relinkedRun : Run (system helpExecute sampleParams) :=
  Run.ofActions (system helpExecute sampleParams) relinked (.step 0 0 0) (by decide +kernel)

theorem reach_right {s : ExternalTree.State} {a : Addr} (hl : s.word ⟨root, .left⟩ ≠ NULL)
    (ha : s.word ⟨root, .right⟩ = a) : s.routing.Reach a :=
  Relation.ReflTransGen.tail Relation.ReflTransGen.refl ⟨hl, true, ha.symm⟩

/-- The k-CAS of thread 0 links the retired node. -/
theorem hands_over_fails :
    ∃ (P : Params) (r : Run (system helpExecute P)), ¬ HandsOver r := by
  refine ⟨sampleParams, relinkedRun, ?_⟩
  intro h
  have hmakes : Makes relinkedRun 79 (.retire 7) :=
    ⟨by decide +kernel, 1, 0, 0, [.retire 6], by decide +kernel, by decide +kernel⟩
  have hno : ∀ k < 83, 79 ≤ k → ¬ Allocates relinkedRun k 7 := by decide +kernel
  have hlen : 83 ≤ relinkedRun.len := by decide +kernel
  have hunreached := h.retired 79 83 7 hmakes (by decide) hlen (fun k h₁ h₂ => hno k h₂ h₁)
  exact hunreached (reach_right (by decide +kernel) (by decide +kernel))

end MultiCore.ReclaimTree
