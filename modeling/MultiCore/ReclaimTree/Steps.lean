/-
  MultiCore.ReclaimTree.Steps — every step keeps the invariant.

  The steps of the operations are steps of `ExternalTree` on the shadow
  (`Inv.goto`, `Inv.alloc`, `Inv.insertRetry`, `Inv.insert`, `Inv.erase`).  The
  steps of the record manager leave the shadow alone, except that it forgets
  nodes when a guard closes (`Inv.leave`).
-/
import MultiCore.ReclaimTree.Invariant

namespace MultiCore.ReclaimTree

open MultiCore.Lib MultiCore.Lib.Reclamation MultiCore.Kcas
open MultiCore.ExternalTree (Tid Addr NULL Loc Params Op Pc root insertEntries eraseEntries
  Published Internal Leaf Marked PcOk Captures CapturesSibling helpExecute childField KeyOk)

variable {P : Params} {s : State} {t : Tid}

/-! ## §1. Steps that leave the published nodes alone. -/

/-- Where the published nodes are the same, they are pinned as before. -/
theorem Inv.pinned_same (h : Inv P s) {s' : State}
    (hsame : ExternalTree.Same s.shadow s'.shadow) (hpinned : s'.mgr.pinned = s.mgr.pinned)
    (a : Addr) (d : Bool) (ha : Internal s'.shadow a) (hm : Marked s'.tree a)
    (hmc : Marked s'.tree (s'.tree.routing.child a d)) :
    s'.mgr.pinned a ⊆ s'.mgr.pinned (s'.tree.routing.child a d) := by
  have hpub : Published s.shadow a := (hsame.pub a).mp ha.1
  have hold : Internal s.shadow a := ⟨hpub, fun hl => ha.2 ((hsame.leaf hpub).mpr hl)⟩
  have hchild : s'.tree.routing.child a d = s.tree.routing.child a d :=
    hsame.word a (childField d) hpub
  rw [hchild] at hmc ⊢
  rw [hpinned]
  have hm' : Marked s.tree a := (hsame.marked hpub).mp hm
  exact h.pinned_child a d hold hm' ((hsame.marked (h.tree.child_pub a d hold)).mp hmc)

theorem shadow_goto {pc' : Pc} {m : Manager Tid Addr} (hcalls : m.calls = s.mgr.calls)
    (hpinned : m.pinned = s.mgr.pinned) :
    (⟨s.tree.goto t pc', m⟩ : State).shadow = s.shadow.goto t pc' := by
  refine shadow_eq rfl ?_
  intro a
  show s.shadow.allocated a = true ↔ s.tree.allocated a = true ∧ (∀ u, Call.deallocate a ∉ m.calls u)
    ∧ (Marked s.tree a → (m.pinned a).Nonempty)
  rw [shadow_allocated, hcalls, hpinned]
  rfl

/-- A thread moves, and the record manager may open its guard. -/
theorem Inv.goto (h : Inv P s) {pc' : Pc} {m : Manager Tid Addr}
    (hl : ExternalTree.LocalMove P s.tree (s.tree.thread t) pc') (hmgr : m.Ok s.tree.allocated)
    (hcalls : m.calls = s.mgr.calls) (hpinned : m.pinned = s.mgr.pinned)
    (hretired : m.retired = s.mgr.retired)
    (hguards : ∀ u, u ∉ m.guards → u ≠ t ∧ u ∉ s.mgr.guards) :
    Inv P ⟨s.tree.goto t pc', m⟩ := by
  have hshadow : (⟨s.tree.goto t pc', m⟩ : State).shadow = s.shadow.goto t pc' :=
    shadow_goto hcalls hpinned
  have hl' := LocalMove.shadow hl
  have hsame : ExternalTree.Same s.shadow (s.shadow.goto t pc') := ExternalTree.move_same hl'
  refine
    { tree := by rw [hshadow]; exact ExternalTree.move_inv h.tree hl', mgr := hmgr, active := ?_,
      pinned_child := ?_, known := ?_, retire_marked := ?_, retired_marked := ?_,
      deallocate_hidden := ?_ }
  · intro u hu
    obtain ⟨hut, hold⟩ := hguards u hu
    show ¬ Active ((s.tree.goto t pc').thread u) ∧ m.calls u = []
    rw [ExternalTree.goto_thread, if_neg hut, hcalls]
    exact h.active u hold
  · exact h.pinned_same (by rw [hshadow]; exact hsame) hpinned
  · intro u a ha hpub hm
    rw [hshadow, hsame.pub a] at hpub
    show u ∈ m.pinned a
    rw [hpinned]
    have ha' : a ∈ ReclaimTree.known (if u = t then pc' else s.tree.thread u) := by
      rw [← ExternalTree.goto_thread]
      exact ha
    split at ha'
    · rename_i hut
      subst hut
      rcases known_move hl ha' with heq | heq | hold | ⟨op, key, gp, p, hpc, heq⟩
      · exact absurd heq (h.tree.ne_null hpub)
      · exact absurd (heq ▸ hm) h.root_unmarked
      · exact h.known u a hold hpub hm
      · -- the child of a known node
        have hknown := h.tree.pcOk u
        rw [show s.shadow.thread u = s.tree.thread u from rfl, hpc] at hknown
        have hp : Internal s.shadow p := hknown.2.2.1
        subst heq
        by_cases hmp : Marked s.tree p
        · refine h.pinned_child p _ hp hmp hm (h.known u p ?_ hp.1 hmp)
          rw [hpc]
          simp [ReclaimTree.known]
        · exact absurd hm (h.child_unmarked hp hmp)
    · exact h.known u a ha' hpub hm
  · intro u a hc
    rw [hcalls] at hc
    exact h.retire_marked u a hc
  · intro a hr
    rw [hretired] at hr
    exact h.retired_marked a hr
  · intro u a hc
    rw [hcalls] at hc
    obtain ⟨hm, hpriv⟩ := h.deallocate_hidden u a hc
    refine ⟨hm, ?_⟩
    intro v
    show a ∉ ((s.tree.goto t pc').thread v).privateNodes
    rw [ExternalTree.goto_thread]
    split
    · rename_i hvt
      rw [hl.privateNodes, ← hvt]
      exact hpriv v
    · exact hpriv v

/-- A node that is not in use is in no list of the record manager. -/
theorem Inv.not_called (h : Inv P s) {a : Addr} (ha : s.tree.allocated a = false) {u : Tid}
    {c : Call Addr} (hc : c ∈ s.mgr.calls u) : c.node ≠ a :=
  fun heq => h.mgr.pending u c hc (Or.inr (heq ▸ ha))

theorem Inv.alloc (h : Inv P s) {key : Int} {gp p n na n1 : Addr}
    (hpc : s.tree.thread t = .searched .insertIfAbsent key gp p n) (hkey : key ≠ s.tree.key n)
    (hna : na ≠ NULL ∧ s.tree.allocated na = false)
    (hn1 : n1 ≠ NULL ∧ s.tree.allocated n1 = false) (hne : na ≠ n1) :
    Inv P ⟨(s.tree.allocate key n na n1).goto t (.insertRead key p n na n1), s.mgr⟩ := by
  set tree' := (s.tree.allocate key n na n1).goto t (.insertRead key p n na n1) with htree'
  have hfree : ∀ {a}, s.tree.allocated a = true → a ≠ na ∧ a ≠ n1 :=
    ExternalTree.ne_of_allocated hna.2 hn1.2
  have halloc : ∀ a, tree'.allocated a = if a = n1 then true else if a = na then true
      else s.tree.allocated a := fun a => ExternalTree.allocate_allocated (n := n) a
  have hmark : ∀ {a}, a ≠ na ∧ a ≠ n1 → (Marked tree' a ↔ Marked s.tree a) := by
    intro a ha
    show tree'.word ⟨a, .marked⟩ ≠ 0 ↔ s.tree.word ⟨a, .marked⟩ ≠ 0
    rw [show tree'.word ⟨a, .marked⟩ = s.tree.word ⟨a, .marked⟩ from
      ExternalTree.allocate_word ha .marked]
  have hnew : ∀ {a}, a = na ∨ a = n1 → ¬ Marked tree' a := by
    intro a ha hm
    apply hm
    show (s.tree.allocate key n na n1).word ⟨a, .marked⟩ = 0
    unfold ExternalTree.State.allocate ExternalTree.State.createLeaf
    rw [ExternalTree.createInternal_word, ExternalTree.createInternal_word]
    rcases ha with rfl | rfl
    · rw [if_neg hne, if_pos rfl]
    · rw [if_pos rfl]
  have hshadow : (⟨tree', s.mgr⟩ : State).shadow
      = (s.shadow.allocate key n na n1).goto t (.insertRead key p n na n1) := by
    refine shadow_eq rfl ?_
    intro a
    show (s.shadow.allocate key n na n1).allocated a = true ↔ tree'.allocated a = true ∧ _
    rw [ExternalTree.allocate_allocated, halloc]
    by_cases ha : a = na ∨ a = n1
    · have hnot : ∀ u, Call.deallocate a ∉ s.mgr.calls u := by
        intro u hc
        have hne' := hfree (a := a) (by
          have hp := h.mgr.pending u _ hc
          rw [← Bool.not_eq_false]
          exact fun hf => hp (Or.inr hf))
        rcases ha with ha | ha
        · exact hne'.1 ha
        · exact hne'.2 ha
      have hm := hnew ha
      rcases ha with rfl | rfl
      · simp only [if_neg hne, if_pos]
        exact ⟨fun _ => ⟨trivial, hnot, fun hmk => absurd hmk hm⟩, fun _ => trivial⟩
      · simp only [if_pos]
        exact ⟨fun _ => ⟨trivial, hnot, fun hmk => absurd hmk hm⟩, fun _ => trivial⟩
    · rw [not_or] at ha
      rw [if_neg ha.2, if_neg ha.1, if_neg ha.2, if_neg ha.1, shadow_allocated]
      unfold Shown
      show _ ↔ _ ∧ (∀ u, Call.deallocate a ∉ s.mgr.calls u)
        ∧ (Marked tree' a → (s.mgr.pinned a).Nonempty)
      rw [hmark ha]
  have hpc' : s.shadow.thread t = .searched .insertIfAbsent key gp p n := hpc
  have hna' := not_shadow_allocated hna.2
  have hn1' := not_shadow_allocated hn1.2
  have hsame : ExternalTree.Same s.shadow
      ((s.shadow.allocate key n na n1).goto t (.insertRead key p n na n1)) :=
    ExternalTree.alloc_same hpc' hna' hn1'
  refine
    { tree := ?_, mgr := ?_, active := ?_, pinned_child := ?_, known := ?_, retire_marked := ?_,
      retired_marked := ?_, deallocate_hidden := ?_ }
  · rw [hshadow]
    exact ExternalTree.alloc_inv h.tree hpc' hkey ⟨hna.1, hna'⟩ ⟨hn1.1, hn1'⟩ hne
  · refine (Manager.Step.allocate ?_).ok h.mgr
    intro a ha
    rw [halloc]
    split_ifs
    · rfl
    · rfl
    · exact ha
  · intro u hu
    have hold := h.active u hu
    have hut : u ≠ t := by
      intro heq
      rw [heq, hpc] at hold
      exact hold.1 trivial
    refine ⟨?_, hold.2⟩
    show ¬ Active (tree'.thread u)
    rw [htree', ExternalTree.goto_thread, if_neg hut]
    exact hold.1
  · exact h.pinned_same (by rw [hshadow]; exact hsame) rfl
  · intro u a ha hpub hm
    rw [hshadow, hsame.pub a] at hpub
    have hne' := hfree (shadow_allocated.mp hpub.1).1
    have hm' : Marked s.tree a := (hmark hne').mp hm
    have ha' : a ∈ ReclaimTree.known
        (if u = t then .insertRead key p n na n1 else s.tree.thread u) := by
      rw [← ExternalTree.goto_thread]
      exact ha
    split at ha'
    · rename_i hut
      refine h.known u a ?_ hpub hm'
      rw [hut, hpc]
      exact List.mem_cons_of_mem _ ha'
    · exact h.known u a ha' hpub hm'
  · intro u a hc
    have hm := h.retire_marked u a hc
    refine (hmark (hfree ?_)).mpr hm
    rw [← Bool.not_eq_false]
    exact fun hf => h.not_called hf hc rfl
  · intro a hr
    exact (hmark (hfree (h.mgr.retired_inUse a hr))).mpr (h.retired_marked a hr)
  · intro u a hc
    obtain ⟨hm, hpriv⟩ := h.deallocate_hidden u a hc
    have hne' : a ≠ na ∧ a ≠ n1 := by
      refine hfree ?_
      rw [← Bool.not_eq_false]
      exact fun hf => h.not_called hf hc rfl
    refine ⟨fun hmk => hm ((hmark hne').mp hmk), ?_⟩
    intro v
    show a ∉ (tree'.thread v).privateNodes
    rw [htree', ExternalTree.goto_thread]
    split
    · simp [Pc.privateNodes, hne'.1, hne'.2]
    · exact hpriv v

/-- A failed insert gives back the two nodes it has allocated. -/
theorem Inv.insertRetry_mgr (h : Inv P s) {key : Int} {p n na n1 : Addr}
    {child : ExternalTree.Field} (hcalls : s.mgr.calls t = [])
    (hpc : s.tree.thread t = .insertExecute key p n na n1 child) :
    Manager.Step s.mgr s.tree.allocated
      (s.mgr.giveBack t [.deallocate n1, .deallocate na] []) s.tree.allocated := by
  have hfresh : na ≠ n1 := by
    have hknown := h.tree.pcOk t
    rw [show s.shadow.thread t = s.tree.thread t from rfl, hpc] at hknown
    exact hknown.2.2.1.ne
  refine .giveBack t _ _ hcalls ?_ ?_
  · simpa [Call.node] using hfresh.symm
  · intro c hc
    apply h.private_held (t := t)
    rw [hpc]
    simp only [List.mem_cons, List.not_mem_nil, or_false] at hc
    rcases hc with rfl | rfl
    · simp [Pc.privateNodes, Call.node]
    · simp [Pc.privateNodes, Call.node]

theorem Inv.insertRetry (h : Inv P s) {key : Int} {p n na n1 : Addr} {child : ExternalTree.Field}
    (hcalls : s.mgr.calls t = []) (hpc : s.tree.thread t = .insertExecute key p n na n1 child) :
    Inv P ⟨s.tree.goto t (.searchTest .insertIfAbsent key NULL NULL root),
      s.mgr.giveBack t [.deallocate n1, .deallocate na] []⟩ := by
  set m := s.mgr.giveBack t [.deallocate n1, .deallocate na] [] with hm
  set tree' := s.tree.goto t (.searchTest .insertIfAbsent key NULL NULL root) with htree'
  have hmine : ∀ a, a ∈ (s.tree.thread t).privateNodes ↔ a = na ∨ a = n1 := by
    intro a
    rw [hpc]
    exact List.mem_pair
  have hnew : ∀ {a}, a = na ∨ a = n1 → Shown s a ∧ ¬ Marked s.tree a := fun ha =>
    ⟨h.private_shown ((hmine _).mpr ha), h.private_unmarked ((hmine _).mpr ha)⟩
  have hfresh : na ≠ n1 := by
    have hknown := h.tree.pcOk t
    rw [show s.shadow.thread t = s.tree.thread t from rfl, hpc] at hknown
    exact hknown.2.2.1.ne
  have hmcalls : ∀ u, m.calls u = if u = t then [.deallocate n1, .deallocate na]
      else s.mgr.calls u := by
    intro u
    show Function.update s.mgr.calls t _ u = _
    rw [Function.update_apply]
  have hmpinned : m.pinned = s.mgr.pinned := by
    funext a
    show (if a ∈ [] then s.mgr.guards else s.mgr.pinned a) = _
    rw [if_neg List.not_mem_nil]
  have hshadow : (⟨tree', m⟩ : State).shadow = s.shadow.retrying t key na n1 := by
    refine shadow_eq rfl ?_
    intro a
    rw [ExternalTree.retrying_allocated]
    unfold Shown
    show _ ↔ s.tree.allocated a = true ∧ (∀ u, Call.deallocate a ∉ m.calls u)
      ∧ (Marked s.tree a → (m.pinned a).Nonempty)
    rw [hmpinned]
    by_cases ha : a = na ∨ a = n1
    · have hin : Call.deallocate a ∈ m.calls t := by
        rw [hmcalls, if_pos rfl]
        rcases ha with rfl | rfl
        · simp
        · simp
      have hfalse : (if a = na then false else if a = n1 then false else s.shadow.allocated a)
          = false := by
        rcases ha with rfl | rfl
        · rw [if_pos rfl]
        · rw [if_neg hfresh.symm, if_pos rfl]
      rw [hfalse]
      exact ⟨fun hf => absurd hf (by simp), fun hs => absurd hin (hs.2.1 t)⟩
    · rw [not_or] at ha
      rw [if_neg ha.1, if_neg ha.2, shadow_allocated]
      unfold Shown
      have hiff : (∀ u, Call.deallocate a ∉ m.calls u) ↔ ∀ u, Call.deallocate a ∉ s.mgr.calls u := by
        refine forall_congr' fun u => ?_
        rw [hmcalls]
        split
        · rename_i hut
          rw [hut, hcalls]
          simp [ha.1, ha.2]
        · rfl
      rw [hiff]
  have hpc' : s.shadow.thread t = .insertExecute key p n na n1 child := hpc
  have hsame := ExternalTree.retry_same (s := s.shadow) hpc'
  refine
    { tree := by rw [hshadow]; exact ExternalTree.retry_inv h.tree hpc', mgr := ?_, active := ?_,
      pinned_child := h.pinned_same (by rw [hshadow]; exact hsame) hmpinned, known := ?_,
      retire_marked := ?_, retired_marked := h.retired_marked, deallocate_hidden := ?_ }
  · exact (h.insertRetry_mgr hcalls hpc).ok h.mgr
  · intro u hu
    have hold := h.active u hu
    have hut : u ≠ t := by
      intro heq
      rw [heq, hpc] at hold
      exact hold.1 trivial
    show ¬ Active (tree'.thread u) ∧ m.calls u = []
    rw [htree', ExternalTree.goto_thread, if_neg hut, hmcalls, if_neg hut]
    exact hold
  · intro u a ha hpub hmk
    rw [hshadow, hsame.pub a] at hpub
    show u ∈ m.pinned a
    rw [hmpinned]
    have ha' : a ∈ ReclaimTree.known (if u = t then .searchTest .insertIfAbsent key NULL NULL root
        else s.tree.thread u) := by
      rw [← ExternalTree.goto_thread]
      exact ha
    split at ha'
    · simp only [ReclaimTree.known, List.mem_cons, List.not_mem_nil, or_false, or_self_left] at ha'
      rcases ha' with rfl | rfl
      · exact absurd rfl (h.tree.ne_null hpub)
      · exact absurd hmk h.root_unmarked
    · exact h.known u a ha' hpub hmk
  · intro u a hc
    have hc' : Call.retire a ∈ m.calls u := hc
    rw [hmcalls] at hc'
    split at hc'
    · exact absurd hc' (by simp)
    · exact h.retire_marked u a hc'
  · intro u a hc
    have hc' : Call.deallocate a ∈ m.calls u := hc
    have hpriv : ∀ v, a ∈ (tree'.thread v).privateNodes →
        v ≠ t ∧ a ∈ (s.tree.thread v).privateNodes := by
      intro v hv
      rw [htree', ExternalTree.goto_thread] at hv
      split at hv
      · exact absurd hv List.not_mem_nil
      · rename_i hvt
        exact ⟨hvt, hv⟩
    rw [hmcalls] at hc'
    split at hc'
    · have hnode : a = na ∨ a = n1 := by
        simp only [List.mem_cons, Call.deallocate.injEq, List.not_mem_nil, or_false] at hc'
        exact hc'.symm
      refine ⟨(hnew hnode).2, ?_⟩
      intro v hv
      obtain ⟨hvt, hold⟩ := hpriv v hv
      exact hvt (h.tree.private_inj v t a hold ((hmine a).mpr hnode))
    · obtain ⟨hmk, hold⟩ := h.deallocate_hidden u a hc'
      exact ⟨hmk, fun v hv => hold v (hpriv v hv).2⟩

/-! ## §2. Successful inserts and erases. -/

theorem Inv.insert (h : Inv P s) {key : Int} {p n na n1 : Addr} {child : ExternalTree.Field}
    {word : Loc → Word} (hpc : s.tree.thread t = .insertExecute key p n na n1 child)
    (hex : helpExecute s.tree.word (insertEntries p n n1 child) = (true, word)) :
    Inv P ⟨s.tree.inserting t key word, s.mgr⟩ := by
  obtain ⟨d, hi⟩ := ExternalTree.inserts h.tree hpc hex
  have hmarked : ∀ a, Marked (s.tree.inserting t key word) a ↔ Marked s.tree a := hi.marked_iff
  have hshadow : (⟨s.tree.inserting t key word, s.mgr⟩ : State).shadow
      = s.shadow.inserting t key word := by
    refine shadow_eq rfl ?_
    intro a
    show s.shadow.allocated a = true ↔ s.tree.allocated a = true ∧ _
      ∧ (Marked (s.tree.inserting t key word) a → _)
    rw [shadow_allocated, hmarked]
    rfl
  have hthread : ∀ u, (s.tree.inserting t key word).thread u
      = if u = t then .returned .insertIfAbsent key true else s.tree.thread u :=
    ExternalTree.goto_thread _ t _
  refine
    { tree := by rw [hshadow]; exact hi.inv_inserting, mgr := h.mgr, active := ?_,
      pinned_child := ?_, known := ?_, retire_marked := ?_, retired_marked := ?_,
      deallocate_hidden := ?_ }
  · intro u hu
    obtain ⟨hidle, hnil⟩ := h.active u hu
    refine ⟨?_, hnil⟩
    show ¬ Active ((s.tree.inserting t key word).thread u)
    rw [hthread]
    split
    · exact id
    · exact hidle
  · intro a e ha hm hmc
    rw [hshadow] at ha
    obtain ⟨hold, hchild⟩ := (ExternalTree.Outcome.inserted hi).frozen ha hm
    have hchild' : (s.tree.inserting t key word).routing.child a e = s.tree.routing.child a e :=
      hchild e
    show s.mgr.pinned a ⊆ s.mgr.pinned ((s.tree.inserting t key word).routing.child a e)
    have hmc' : Marked (s.tree.inserting t key word)
      ((s.tree.inserting t key word).routing.child a e) := hmc
    rw [hchild'] at hmc' ⊢
    exact h.pinned_child a e hold ((hmarked a).mp hm) ((hmarked _).mp hmc')
  · intro u a ha hpub hm
    rw [hshadow] at hpub
    have hm' : Marked s.tree a := (hmarked a).mp hm
    have hpub' : Published s.shadow a := by
      rcases hi.pub_iff.mp hpub with hold | rfl | rfl
      · exact hold
      · exact absurd hi.fresh.marked.2 hm'
      · exact absurd hi.fresh.marked.1 hm'
    have ha' : a ∈ ReclaimTree.known ((s.tree.inserting t key word).thread u) := ha
    rw [hthread] at ha'
    split at ha'
    · exact absurd ha' List.not_mem_nil
    · exact h.known u a ha' hpub' hm'
  · exact fun u a hc => (hmarked a).mpr (h.retire_marked u a hc)
  · exact fun a hr => (hmarked a).mpr (h.retired_marked a hr)
  · intro u a hc
    obtain ⟨hm, hpriv⟩ := h.deallocate_hidden u a hc
    refine ⟨fun hmk => hm ((hmarked a).mp hmk), ?_⟩
    intro v
    show a ∉ ((s.tree.inserting t key word).thread v).privateNodes
    rw [hthread]
    split
    · exact List.not_mem_nil
    · exact hpriv v

/-- What an erase unlinks was in the tree until now. -/
theorem Erases.reach {key : Int} {gp p n sib : Addr} {dp dn : Bool} {word : Loc → Word}
    (he : ExternalTree.Erases P s.shadow t key gp p n sib dp dn word) {a : Addr}
    (ha : a = p ∨ a = n) : s.tree.routing.Reach a := by
  rcases ha with rfl | rfl
  · exact he.splice.reach_parent
  · have hr := he.splice.reach_parent.child he.victim.parent.2 dn
    rw [he.leaf] at hr
    exact hr

/-- A successful erase gives back the two nodes it has unlinked. -/
theorem Inv.erase_mgr (h : Inv P s) (hcap : CapturesSibling s.tree t) {key : Int}
    {gp p n sib : Addr} {parent sibling node : ExternalTree.Field} {word : Loc → Word}
    (hcalls : s.mgr.calls t = [])
    (hpc : s.tree.thread t = .eraseExecute key gp p n parent sibling node sib)
    (hex : helpExecute s.tree.word (eraseEntries gp p n parent sibling node sib) = (true, word)) :
    Manager.Step s.mgr s.tree.allocated
      (s.mgr.giveBack t [.retire p, .retire n] [p, n]) s.tree.allocated := by
  obtain ⟨dp, dn, he⟩ := ExternalTree.erases h.tree hcap hpc hex
  have hpn : p ≠ n := fun heq => he.victim.parent.2 (heq ▸ he.victim.leaf.2)
  refine .giveBack t _ _ hcalls ?_ ?_
  · simpa [Call.node] using hpn
  · intro c hc
    apply h.reach_held (Erases.reach he _)
    simp only [List.mem_cons, List.not_mem_nil, or_false] at hc
    rcases hc with rfl | rfl
    · exact Or.inl rfl
    · exact Or.inr rfl

theorem Inv.erase (h : Inv P s) (hcap : CapturesSibling s.tree t) {key : Int}
    {gp p n sib : Addr} {parent sibling node : ExternalTree.Field} {word : Loc → Word}
    (hcalls : s.mgr.calls t = [])
    (hpc : s.tree.thread t = .eraseExecute key gp p n parent sibling node sib)
    (hex : helpExecute s.tree.word (eraseEntries gp p n parent sibling node sib) = (true, word)) :
    Inv P ⟨s.tree.erasing t key word, s.mgr.giveBack t [.retire p, .retire n] [p, n]⟩ := by
  set m := s.mgr.giveBack t [.retire p, .retire n] [p, n] with hm
  obtain ⟨dp, dn, he⟩ := ExternalTree.erases h.tree hcap hpc hex
  have hmarked : ∀ a, Marked (s.tree.erasing t key word) a ↔ Marked s.tree a ∨ a = p ∨ a = n :=
    he.marked_iff
  have hopen : t ∈ s.mgr.guards := by
    by_contra hclosed
    have hidle := (h.active t hclosed).1
    rw [hpc] at hidle
    exact hidle trivial
  have hgone : ∀ {a}, a = p ∨ a = n → Shown s a ∧ ¬ Marked s.tree a := by
    intro a ha
    obtain ⟨hpub, hun⟩ := h.reach_facts (Erases.reach he ha)
    exact ⟨shadow_allocated.mp hpub.1, hun⟩
  have hmcalls : ∀ u, m.calls u = if u = t then [.retire p, .retire n] else s.mgr.calls u := by
    intro u
    show Function.update s.mgr.calls t _ u = _
    rw [Function.update_apply]
  have hmpinned : ∀ a, m.pinned a = if a = p ∨ a = n then s.mgr.guards else s.mgr.pinned a := by
    intro a
    show (if a ∈ [p, n] then s.mgr.guards else s.mgr.pinned a) = _
    simp only [List.mem_pair]
  have hthread : ∀ u, (s.tree.erasing t key word).thread u
      = if u = t then .returned .erase key true else s.tree.thread u :=
    ExternalTree.goto_thread _ t _
  have hshadow : (⟨s.tree.erasing t key word, m⟩ : State).shadow = s.shadow.erasing t key word := by
    refine shadow_eq rfl ?_
    intro a
    show s.shadow.allocated a = true ↔ s.tree.allocated a = true
      ∧ (∀ u, Call.deallocate a ∉ m.calls u)
      ∧ (Marked (s.tree.erasing t key word) a → (m.pinned a).Nonempty)
    rw [shadow_allocated, hmarked, hmpinned]
    have hiff : (∀ u, Call.deallocate a ∉ m.calls u) ↔ ∀ u, Call.deallocate a ∉ s.mgr.calls u := by
      refine forall_congr' fun u => ?_
      rw [hmcalls]
      split
      · rename_i hut
        rw [hut, hcalls]
        simp
      · rfl
    rw [hiff]
    by_cases ha : a = p ∨ a = n
    · obtain ⟨hshown, -⟩ := hgone ha
      rw [if_pos ha]
      exact ⟨fun hs => ⟨hs.1, hs.2.1, fun _ => ⟨t, hopen⟩⟩, fun _ => hshown⟩
    · rw [if_neg ha]
      unfold Shown
      simp only [ha, or_false]
  refine
    { tree := by rw [hshadow]; exact he.inv_erasing, mgr := ?_, active := ?_, pinned_child := ?_,
      known := ?_, retire_marked := ?_,
      retired_marked := fun a hr => (hmarked a).mpr (Or.inl (h.retired_marked a hr)),
      deallocate_hidden := ?_ }
  · exact (h.erase_mgr hcap hcalls hpc hex).ok h.mgr
  · intro u hu
    have hut : u ≠ t := fun heq => hu (heq ▸ hopen)
    show ¬ Active ((s.tree.erasing t key word).thread u) ∧ m.calls u = []
    rw [hthread, if_neg hut, hmcalls, if_neg hut]
    exact h.active u hu
  · intro a e ha hmk hmc
    rw [hshadow] at ha
    obtain ⟨hold, hchild⟩ := (ExternalTree.Outcome.erased he).frozen ha hmk
    have hchild' : (s.tree.erasing t key word).routing.child a e = s.tree.routing.child a e :=
      hchild e
    show m.pinned a ⊆ m.pinned ((s.tree.erasing t key word).routing.child a e)
    have hmc' : Marked (s.tree.erasing t key word)
      ((s.tree.erasing t key word).routing.child a e) := hmc
    rw [hchild'] at hmc' ⊢
    rw [hmpinned, hmpinned]
    rcases (hmarked _).mp hmc' with hmc' | hc
    · -- the child was removed before, so the node was too
      have hma : Marked s.tree a := by
        by_contra hun
        exact h.child_unmarked hold hun hmc'
      rw [if_neg (fun ha => (hgone ha).2 hma), if_neg (fun hc => (hgone hc).2 hmc')]
      exact h.pinned_child a e hold hma hmc'
    · rw [if_pos hc]
      split
      · exact Finset.Subset.refl _
      · exact h.mgr.pinned_open a
  · intro u a ha hpub hmk
    rw [hshadow, he.pub_iff] at hpub
    show u ∈ m.pinned a
    rw [hmpinned]
    have ha' : a ∈ ReclaimTree.known ((s.tree.erasing t key word).thread u) := ha
    rw [hthread] at ha'
    split at ha'
    · exact absurd ha' List.not_mem_nil
    · split
      · -- whoever knows a node has an open guard
        by_contra hclosed
        rw [known_of_idle (h.active u hclosed).1] at ha'
        exact absurd ha' List.not_mem_nil
      · rename_i hnot
        exact h.known u a ha' hpub (((hmarked a).mp hmk).resolve_right hnot)
  · intro u a hc
    have hc' : Call.retire a ∈ m.calls u := hc
    rw [hmcalls] at hc'
    refine (hmarked a).mpr ?_
    split at hc'
    · right
      simpa using hc'
    · exact Or.inl (h.retire_marked u a hc')
  · intro u a hc
    have hc' : Call.deallocate a ∈ m.calls u := hc
    rw [hmcalls] at hc'
    split at hc'
    · exact absurd hc' (by simp)
    · obtain ⟨hun, hpriv⟩ := h.deallocate_hidden u a hc'
      refine ⟨?_, ?_⟩
      · intro hmk
        rcases (hmarked a).mp hmk with hmk | hor
        · exact hun hmk
        · exact (hgone hor).1.2.1 u hc'
      · intro v
        show a ∉ ((s.tree.erasing t key word).thread v).privateNodes
        rw [hthread]
        split
        · exact List.not_mem_nil
        · exact hpriv v

/-! ## §3. Steps of the record manager. -/

/-- Where the shadow, the pins and the guards are the same, so is what the
threads know of it. -/
theorem Inv.mgr_step (h : Inv P s) {mgr : Manager Tid Addr} {inUse : Addr → Bool}
    (hmgr : mgr.Ok inUse) (hguards : mgr.guards = s.mgr.guards)
    (hpinned : mgr.pinned = s.mgr.pinned) (hcalls : ∀ u, ∀ c ∈ mgr.calls u, c ∈ s.mgr.calls u)
    (hretired : ∀ a, mgr.retired a = true → Marked s.tree a)
    (hshown : ∀ a, Shown ⟨{ s.tree with allocated := inUse }, mgr⟩ a ↔ Shown s a) :
    Inv P ⟨{ s.tree with allocated := inUse }, mgr⟩ := by
  have hshadow : (⟨{ s.tree with allocated := inUse }, mgr⟩ : State).shadow = s.shadow :=
    shadow_eq rfl (fun a => shadow_allocated.trans (hshown a).symm)
  refine
    { tree := by rw [hshadow]; exact h.tree, mgr := hmgr, active := ?_, pinned_child := ?_,
      known := ?_, retire_marked := fun u a hc => h.retire_marked u a (hcalls u _ hc),
      retired_marked := hretired,
      deallocate_hidden := fun u a hc => h.deallocate_hidden u a (hcalls u _ hc) }
  · intro u hu
    have hold := h.active u (by rw [← hguards]; exact hu)
    refine ⟨hold.1, ?_⟩
    rw [List.eq_nil_iff_forall_not_mem]
    intro c hc
    have hin := hcalls u c hc
    rw [hold.2] at hin
    exact absurd hin List.not_mem_nil
  · intro a d ha hm hmc
    rw [hshadow] at ha
    show mgr.pinned a ⊆ mgr.pinned _
    rw [hpinned]
    exact h.pinned_child a d ha hm hmc
  · intro u a ha hpub hm
    rw [hshadow] at hpub
    show u ∈ mgr.pinned a
    rw [hpinned]
    exact h.known u a ha hpub hm

theorem Inv.perform (h : Inv P s) {mgr : Manager Tid Addr} {inUse : Addr → Bool}
    (hp : s.mgr.perform s.tree.allocated t = some (mgr, inUse)) :
    Inv P ⟨{ s.tree with allocated := inUse }, mgr⟩ := by
  have hmgr := (Manager.Step.perform hp).ok h.mgr
  obtain ⟨c, rest, hhead, hguards, hpinned, hcalls, hor⟩ := Manager.perform_cases hp
  have hmem : c ∈ s.mgr.calls t := by
    rw [hhead]
    exact List.mem_cons_self
  have hnodup := h.mgr.nodup t
  rw [hhead, List.map_cons, List.nodup_cons] at hnodup
  have hsub : ∀ u, ∀ c' ∈ mgr.calls u, c' ∈ s.mgr.calls u := by
    intro u c' hc'
    rw [hcalls, Function.update_apply] at hc'
    split at hc'
    · rename_i hut
      rw [hut, hhead]
      exact List.mem_cons_of_mem c hc'
    · exact hc'
  -- the other deallocations are still to be made
  have hkeep : ∀ u a, a ≠ c.node → Call.deallocate a ∈ s.mgr.calls u →
      Call.deallocate a ∈ mgr.calls u := by
    intro u a hne hin
    rw [hcalls, Function.update_apply]
    split
    · rename_i hut
      rw [hut, hhead] at hin
      rcases List.mem_cons.mp hin with heq | hin
      · exact absurd (by rw [← heq]; rfl) hne
      · exact hin
    · exact hin
  refine h.mgr_step hmgr hguards hpinned hsub ?_ ?_
  · intro a hr
    rcases hor with ⟨hc, hret, -⟩ | ⟨-, hret, -⟩
    · rw [hret, Function.update_apply] at hr
      split at hr
      · rename_i hac
        rw [hac]
        exact h.retire_marked t c.node (hc ▸ hmem)
      · exact h.retired_marked a hr
    · rw [hret] at hr
      exact h.retired_marked a hr
  · intro a
    show inUse a = true ∧ (∀ u, Call.deallocate a ∉ mgr.calls u)
      ∧ (Marked s.tree a → (mgr.pinned a).Nonempty) ↔ Shown s a
    unfold Shown
    rw [hpinned]
    rcases hor with ⟨hc, -, huse⟩ | ⟨hc, -, huse⟩
    · -- a retired node stays in use
      have hiff : (∀ u, Call.deallocate a ∉ mgr.calls u) ↔
          ∀ u, Call.deallocate a ∉ s.mgr.calls u := by
        refine forall_congr' fun u => not_congr ⟨hsub u _, ?_⟩
        intro hin
        by_cases hac : a = c.node
        · exfalso
          have hmk := h.retire_marked t c.node (hc ▸ hmem)
          exact (h.deallocate_hidden u a hin).1 (hac ▸ hmk)
        · exact hkeep u a hac hin
      rw [huse, hiff]
    · by_cases hac : a = c.node
      · rw [huse, hac, Function.update_self]
        constructor
        · intro hs
          exact absurd hs.1 (by simp)
        · intro hs
          exact absurd (hc ▸ hmem) (hs.2.1 t)
      · have hiff : (∀ u, Call.deallocate a ∉ mgr.calls u) ↔
            ∀ u, Call.deallocate a ∉ s.mgr.calls u :=
          forall_congr' fun u => not_congr ⟨hsub u _, hkeep u a hac⟩
        rw [huse, Function.update_of_ne hac, hiff]

theorem Inv.reclaim (h : Inv P s) {b : Addr} {mgr : Manager Tid Addr} {inUse : Addr → Bool}
    (hr : s.mgr.reclaim s.tree.allocated b = some (mgr, inUse)) :
    Inv P ⟨{ s.tree with allocated := inUse }, mgr⟩ := by
  have hmgr := (Manager.Step.reclaim hr).ok h.mgr
  obtain ⟨hret, hpin, rfl, rfl⟩ := Manager.reclaim_cases hr
  refine h.mgr_step hmgr rfl rfl (fun u c hc => hc) ?_ ?_
  · intro a ha
    have ha' : Function.update s.mgr.retired b false a = true := ha
    rw [Function.update_apply] at ha'
    split at ha'
    · exact absurd ha' (by simp)
    · exact h.retired_marked a ha'
  · intro a
    show Function.update s.tree.allocated b false a = true
      ∧ (∀ u, Call.deallocate a ∉ s.mgr.calls u)
      ∧ (Marked s.tree a → (s.mgr.pinned a).Nonempty) ↔ Shown s a
    unfold Shown
    rw [Function.update_apply]
    split
    · -- no guard could reach it, so it was not shown
      rename_i hab
      rw [hab, hpin]
      constructor
      · intro hs
        exact absurd hs.1 (by simp)
      · intro hs
        exact absurd (hs.2.2 (h.retired_marked b hret)) (by simp)
    · rfl

/-- **A guard that closes makes the shadow forget what only it could reach.** -/
theorem Inv.leave (h : Inv P s) (hcalls : s.mgr.calls t = [])
    (hidle : ¬ Active (s.tree.thread t)) : Inv P ⟨s.tree, s.mgr.leave t⟩ := by
  have hshown : ∀ a, Shown ⟨s.tree, s.mgr.leave t⟩ a ↔ Shown s a
      ∧ (Marked s.tree a → ((s.mgr.pinned a).erase t).Nonempty) := by
    intro a
    unfold Shown
    constructor
    · intro hs
      refine ⟨⟨hs.1, hs.2.1, ?_⟩, hs.2.2⟩
      exact fun hm => (hs.2.2 hm).mono (Finset.erase_subset t _)
    · exact fun hs => ⟨hs.1.1, hs.1.2.1, hs.2⟩
  have hkeep : ∀ {a}, Shown s a → ¬ Marked s.tree a → Shown ⟨s.tree, s.mgr.leave t⟩ a :=
    fun hs hun => (hshown _).mpr ⟨hs, fun hm => absurd hm hun⟩
  have hother : ∀ {u}, ReclaimTree.known (s.tree.thread u) ≠ [] → u ≠ t := by
    intro u hne hut
    rw [hut, known_of_idle hidle] at hne
    exact hne rfl
  refine
    { tree := ?_, mgr := (Manager.Step.leave t).ok h.mgr, active := ?_, pinned_child := ?_,
      known := ?_, retire_marked := h.retire_marked, retired_marked := h.retired_marked,
      deallocate_hidden := h.deallocate_hidden }
  · refine forget (s := s.shadow) (A := (⟨s.tree, s.mgr.leave t⟩ : State).shadow.allocated) h.tree
      ?_ ?_ ?_ ?_ ?_
    · intro a ha
      exact shadow_allocated.mpr ((hshown a).mp (shadow_allocated.mp ha)).1
    · intro a ha hun
      exact shadow_allocated.mpr (hkeep (shadow_allocated.mp ha.1) hun)
    · intro a d ha hA
      rw [shadow_allocated, hshown] at hA
      have hc := h.tree.child_pub a d ha
      rw [shadow_allocated, hshown]
      refine ⟨shadow_allocated.mp hc.1, ?_⟩
      intro hmc
      have hma : Marked s.tree a := by
        by_contra hun
        exact h.child_unmarked ha hun hmc
      exact (hA.2 hma).mono (Finset.erase_subset_erase t (h.pinned_child a d ha hma hmc))
    · intro u a ha
      exact shadow_allocated.mpr (hkeep (h.private_shown ha) (h.private_unmarked ha))
    · intro u a ha hpub
      rw [shadow_allocated, hshown]
      refine ⟨shadow_allocated.mp hpub.1, ?_⟩
      intro hm
      have hut : u ≠ t := hother (List.ne_nil_of_mem ha)
      exact ⟨u, Finset.mem_erase.mpr ⟨hut, h.known u a ha hpub hm⟩⟩
  · intro u hu
    by_cases hut : u = t
    · rw [hut]
      exact ⟨hidle, hcalls⟩
    · refine h.active u ?_
      intro hopen
      exact hu (Finset.mem_erase.mpr ⟨hut, hopen⟩)
  · intro a d ha hm hmc
    have hold : Internal s.shadow a := by
      refine ⟨⟨?_, ha.1.2⟩, ha.2⟩
      exact shadow_allocated.mpr ((hshown a).mp (shadow_allocated.mp ha.1.1)).1
    exact Finset.erase_subset_erase t (h.pinned_child a d hold hm hmc)
  · intro u a ha hpub hm
    have hold : Published s.shadow a :=
      ⟨shadow_allocated.mpr ((hshown a).mp (shadow_allocated.mp hpub.1)).1, hpub.2⟩
    have hut : u ≠ t := hother (List.ne_nil_of_mem ha)
    exact Finset.mem_erase.mpr ⟨hut, h.known u a ha hold hm⟩

end MultiCore.ReclaimTree
