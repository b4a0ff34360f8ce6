/-
  MultiCore.ReclaimTree.Invariant — what reclamation leaves of the tree.

  The tree invariant speaks of every published node, removed ones included,
  because a search may still walk through them.  Here removed nodes are taken
  back and handed out again.  `State.shadow` is the tree without the nodes that
  no open guard can reach any more, and it keeps the tree invariant:

    * a step of an operation is a step of `ExternalTree` on the shadow;
    * when a guard closes, the shadow forgets nodes (`forget`).  A removed node
      was unlinked no later than its children, so the nodes that are left do
      not point to forgotten ones (`Inv.pinned_child`);
    * what the record manager takes back is not in the shadow.
-/
import MultiCore.ReclaimTree.Model

namespace MultiCore.ReclaimTree

open MultiCore.Lib MultiCore.Lib.Reclamation MultiCore.Kcas
open MultiCore.ExternalTree (Tid Addr NULL Loc Params Op Pc root insertEntries eraseEntries
  Published Internal Leaf Marked PcOk Captures CapturesSibling helpExecute childField KeyOk)

/-! ## §1. Forgetting nodes. -/

/-- The shared nodes that the locals of a thread point to. -/
def known : Pc → List Addr
  | .idle | .returned _ _ _ => []
  | .searchTest _ _ gp p n => [gp, p, n]
  | .searchAssert _ _ gp p n => [gp, p, n]
  | .searchDescend _ _ gp p => [gp, p]
  | .searched _ _ gp p n => [gp, p, n]
  | .insertRead _ p n _ _ => [p, n]
  | .insertExecute _ p n _ _ _ => [p, n]
  | .eraseParent _ gp p n => [gp, p, n]
  | .eraseSibling _ gp p n _ => [gp, p, n]
  | .eraseNode _ gp p n _ _ => [gp, p, n]
  | .eraseTest _ gp p n _ _ _ => [gp, p, n]
  | .eraseRead _ gp p n _ _ _ _ => [gp, p, n]
  | .eraseExecute _ gp p n _ _ _ _ => [gp, p, n]

theorem known_of_idle {pc : Pc} (h : ¬ Active pc) : known pc = [] := by
  cases pc with
  | idle => rfl
  | returned _ _ _ => rfl
  | _ => exact absurd trivial h

section Forget

variable {P : Params} {s : ExternalTree.State} {A : Addr → Bool}

/-- The known nodes are published. -/
theorem known_published {pc : Pc} (hpc : PcOk P s pc) {a : Addr} (ha : a ∈ known pc)
    (hnull : a ≠ NULL) : Published s a := by
  have hgp : ∀ {gp}, gp = NULL ∨ Internal s gp → a = gp → Published s a := by
    intro gp hor heq
    rw [heq] at hnull ⊢
    exact (hor.resolve_left hnull).1
  have hpair : ∀ {p n}, Internal s p → Leaf s n → a ∈ [p, n] → Published s a := by
    intro p n hp hn hmem
    rcases List.mem_pair.mp hmem with rfl | rfl
    · exact hp.1
    · exact hn.1
  have hthree : ∀ {gp p n}, gp = NULL ∨ Internal s gp → Internal s p → Leaf s n →
      a ∈ [gp, p, n] → Published s a := by
    intro gp p n hg hp hn hmem
    rcases List.mem_cons.mp hmem with heq | hmem
    · exact hgp hg heq
    · exact hpair hp hn hmem
  cases pc with
  | idle => exact absurd ha List.not_mem_nil
  | returned op key result => exact absurd ha List.not_mem_nil
  | searchTest op key gp p n =>
      obtain ⟨-, hg, hn, -, hp⟩ := hpc
      rcases List.mem_cons.mp ha with heq | ha
      · exact hgp hg heq
      · rcases List.mem_pair.mp ha with rfl | rfl
        · rcases hp with ⟨-, hpnull⟩ | hp
          · exact absurd hpnull hnull
          · exact hp.1.1
        · exact hn
  | searchDescend op key gp p =>
      rcases List.mem_pair.mp ha with heq | rfl
      · exact hgp hpc.2.1 heq
      · exact hpc.2.2.1.1
  | searchAssert op key gp p n => exact hthree hpc.1 hpc.2.parent hpc.2.leaf ha
  | searched op key gp p n => exact hthree hpc.1 hpc.2.parent hpc.2.leaf ha
  | insertRead key p n na n1 => exact hpair hpc.1.parent hpc.1.leaf ha
  | insertExecute key p n na n1 child => exact hpair hpc.1.parent hpc.1.leaf ha
  | eraseParent key gp p n => exact hthree hpc.1 hpc.2.parent hpc.2.leaf ha
  | eraseSibling key gp p n parent =>
      exact hthree (Or.inr hpc.1) hpc.2.1.parent hpc.2.1.leaf ha
  | eraseNode key gp p n parent sibling =>
      exact hthree (Or.inr hpc.1) hpc.2.1.parent hpc.2.1.leaf ha
  | eraseTest key gp p n parent sibling node =>
      exact hthree (Or.inr hpc.1) hpc.2.1.parent hpc.2.1.leaf ha
  | eraseRead key gp p n parent sibling node other =>
      exact hthree (Or.inr hpc.1) hpc.2.1.parent hpc.2.1.leaf ha
  | eraseExecute key gp p n parent sibling node sib =>
      exact hthree (Or.inr hpc.1) hpc.2.1.parent hpc.2.1.leaf ha

/-- A private node is new and unmarked. -/
theorem private_unmarked (h : ExternalTree.Inv P s) {t : Tid} {a : Addr}
    (ha : a ∈ (s.thread t).privateNodes) : ¬ Marked s a := by
  have hpc := h.pcOk t
  have hfresh : ∀ {key n na n1}, ExternalTree.Fresh s key n na n1 → a ∈ [na, n1] →
      ¬ Marked s a := by
    intro key n na n1 hf hmem hm
    rcases List.mem_pair.mp hmem with rfl | rfl
    · exact hm hf.marked.1
    · exact hm hf.marked.2
  cases hthread : s.thread t with
  | insertRead key p n na n1 =>
      rw [hthread] at hpc ha
      exact hfresh hpc.2.2 ha
  | insertExecute key p n na n1 child =>
      rw [hthread] at hpc ha
      exact hfresh hpc.2.2.1 ha
  | _ =>
      rw [hthread] at ha
      exact absurd ha List.not_mem_nil

/-- What a thread knows does not depend on the nodes it does not know. -/
theorem pcOk_forget {pc : Pc}
    (hpub : ∀ a ∈ known pc, Published s a → Published { s with allocated := A } a)
    (hnew : ∀ a ∈ pc.privateNodes, A a = true) (hpc : PcOk P s pc) :
    PcOk P { s with allocated := A } pc := by
  have hin : ∀ {a}, a ∈ known pc → Internal s a → Internal { s with allocated := A } a :=
    fun hmem ha => ⟨hpub _ hmem ha.1, ha.2⟩
  have hleads : ∀ {k a}, ExternalTree.Leads s k a →
      ExternalTree.Leads { s with allocated := A } k a := by
    intro k a hl
    induction hl with
    | onPath hp => exact .onPath hp
    | removed hm _ ih => exact .removed hm ih
  have hgp : ∀ {gp}, gp ∈ known pc → gp = NULL ∨ Internal s gp →
      gp = NULL ∨ Internal { s with allocated := A } gp := fun hmem => Or.imp_right (hin hmem)
  have hfound : ∀ {key p n}, p ∈ known pc → n ∈ known pc → ExternalTree.Found P s key p n →
      ExternalTree.Found P { s with allocated := A } key p n := fun hp hn hf =>
    ⟨hf.keyOk, hin hp hf.parent, ⟨hpub _ hn hf.leaf.1, hf.leaf.2⟩, hleads hf.leads, hf.agree⟩
  have hvictim : ∀ {key p n}, p ∈ known pc → n ∈ known pc → ExternalTree.Victim P s key p n →
      ExternalTree.Victim P { s with allocated := A } key p n := fun hp hn hv =>
    ⟨hv.keyOk, hin hp hv.parent, ⟨hpub _ hn hv.leaf.1, hv.leaf.2⟩, hv.key_eq⟩
  have hfresh : ∀ {key n na n1}, na ∈ pc.privateNodes → n1 ∈ pc.privateNodes →
      ExternalTree.Fresh s key n na n1 →
      ExternalTree.Fresh { s with allocated := A } key n na n1 := fun hna hn1 hf =>
    ⟨hf.ne, hf.null, ⟨hnew _ hna, hnew _ hn1⟩, hf.marked, hf.keys, hf.leaf, hf.left, hf.right⟩
  cases pc with
  | idle => trivial
  | returned op key result => trivial
  | searchTest op key gp p n =>
      obtain ⟨hkey, hg, hn, hlead, hor⟩ := hpc
      refine ⟨hkey, hgp (by simp [known]) hg, hpub n (by simp [known]) hn,
        fun hl => hleads (hlead hl), ?_⟩
      rcases hor with hroot | ⟨hp, hpl, hag⟩
      · exact Or.inl hroot
      · exact Or.inr ⟨hin (by simp [known]) hp, hleads hpl, hag⟩
  | searchDescend op key gp p =>
      exact ⟨hpc.1, hgp (by simp [known]) hpc.2.1, hin (by simp [known]) hpc.2.2.1,
        hleads hpc.2.2.2⟩
  | searchAssert op key gp p n =>
      exact ⟨hgp (by simp [known]) hpc.1, hfound (by simp [known]) (by simp [known]) hpc.2⟩
  | searched op key gp p n =>
      exact ⟨hgp (by simp [known]) hpc.1, hfound (by simp [known]) (by simp [known]) hpc.2⟩
  | insertRead key p n na n1 =>
      exact ⟨hfound (by simp [known]) (by simp [known]) hpc.1, hpc.2.1,
        hfresh (by simp [Pc.privateNodes]) (by simp [Pc.privateNodes]) hpc.2.2⟩
  | insertExecute key p n na n1 child =>
      exact ⟨hfound (by simp [known]) (by simp [known]) hpc.1, hpc.2.1,
        hfresh (by simp [Pc.privateNodes]) (by simp [Pc.privateNodes]) hpc.2.2.1, hpc.2.2.2⟩
  | eraseParent key gp p n =>
      exact ⟨hgp (by simp [known]) hpc.1, hvictim (by simp [known]) (by simp [known]) hpc.2⟩
  | eraseSibling key gp p n parent =>
      exact ⟨hin (by simp [known]) hpc.1, hvictim (by simp [known]) (by simp [known]) hpc.2.1,
        hpc.2.2⟩
  | eraseNode key gp p n parent sibling =>
      exact ⟨hin (by simp [known]) hpc.1, hvictim (by simp [known]) (by simp [known]) hpc.2.1,
        hpc.2.2⟩
  | eraseTest key gp p n parent sibling node =>
      exact ⟨hin (by simp [known]) hpc.1, hvictim (by simp [known]) (by simp [known]) hpc.2.1,
        hpc.2.2⟩
  | eraseRead key gp p n parent sibling node other =>
      exact ⟨hin (by simp [known]) hpc.1, hvictim (by simp [known]) (by simp [known]) hpc.2.1,
        hpc.2.2⟩
  | eraseExecute key gp p n parent sibling node sib =>
      exact ⟨hin (by simp [known]) hpc.1, hvictim (by simp [known]) (by simp [known]) hpc.2.1,
        hpc.2.2⟩

/-- **Forgetting**: the invariant holds of a part of the nodes in use that
contains the tree, the children of its nodes and what the threads know. -/
theorem forget (h : ExternalTree.Inv P s) (hsub : ∀ a, A a = true → s.allocated a = true)
    (htree : ∀ a, Published s a → ¬ Marked s a → A a = true)
    (hclosed : ∀ a d, Internal s a → A a = true → A (s.routing.child a d) = true)
    (hnew : ∀ t, ∀ a ∈ (s.thread t).privateNodes, A a = true)
    (hknown : ∀ t, ∀ a ∈ known (s.thread t), Published s a → A a = true) :
    ExternalTree.Inv P { s with allocated := A } := by
  have hpub : ∀ {a}, Published { s with allocated := A } a ↔ Published s a ∧ A a = true :=
    fun {a} => ⟨fun ha => ⟨⟨hsub a ha.1, ha.2⟩, ha.1⟩, fun ha => ⟨ha.2, ha.1.2⟩⟩
  have hroot : ¬ Marked s root :=
    (h.marked root h.root_internal.1).mpr Relation.ReflTransGen.refl
  refine
    { tree := h.tree, root_internal := ?_, null_free := ?_, child_pub := ?_, leaf_right := ?_,
      marked := ?_, low := h.low, high := h.high, count := h.count,
      private_inj := h.private_inj, pcOk := ?_ }
  · exact ⟨hpub.mpr ⟨h.root_internal.1, htree root h.root_internal.1 hroot⟩, h.root_internal.2⟩
  · show A NULL = false
    rw [← Bool.not_eq_true]
    intro hnull
    exact absurd (hsub NULL hnull) (by rw [h.null_free]; simp)
  · intro a d ha
    obtain ⟨hold, hA⟩ := hpub.mp ha.1
    exact hpub.mpr ⟨h.child_pub a d ⟨hold, ha.2⟩, hclosed a d ⟨hold, ha.2⟩ hA⟩
  · exact fun a ha => h.leaf_right a ⟨(hpub.mp ha.1).1, ha.2⟩
  · exact fun a ha => h.marked a (hpub.mp ha).1
  · exact fun t => pcOk_forget
      (fun a hmem ha => hpub.mpr ⟨ha, hknown t a hmem ha⟩) (hnew t) (h.pcOk t)

end Forget

/-! ## §2. The shadow. -/

/-- The node is in use, and it is in the tree or an open guard may reach it. -/
def Shown (s : State) (a : Addr) : Prop :=
  s.tree.allocated a = true ∧ (∀ t, Call.deallocate a ∉ s.mgr.calls t)
    ∧ (Marked s.tree a → (s.mgr.pinned a).Nonempty)

open Classical in
/-- The tree without the nodes that are about to be deallocated and those that
no guard can reach any more. -/
noncomputable def State.shadow (s : State) : ExternalTree.State :=
  { s.tree with allocated := fun a => decide (Shown s a) }

theorem shadow_allocated {s : State} {a : Addr} :
    s.shadow.allocated a = true ↔ Shown s a := by
  simp [State.shadow]

theorem not_shadow_allocated {s : State} {a : Addr} (h : s.tree.allocated a = false) :
    s.shadow.allocated a = false := by
  rw [← Bool.not_eq_true, shadow_allocated]
  intro hs
  rw [hs.1] at h
  exact absurd h (by simp)

/-- A state with the shown nodes of `s` is its shadow. -/
theorem shadow_eq {s : State} {tree : ExternalTree.State}
    (htree : tree = { s.tree with allocated := tree.allocated })
    (hall : ∀ a, tree.allocated a = true ↔ Shown s a) : s.shadow = tree := by
  have halloc : s.shadow.allocated = tree.allocated := by
    funext a
    rw [Bool.eq_iff_iff, shadow_allocated, hall]
  rw [htree, ← halloc]
  rfl

structure Inv (P : Params) (s : State) : Prop where
  tree : ExternalTree.Inv P s.shadow
  mgr : s.mgr.Ok s.tree.allocated
  active : ∀ t, t ∉ s.mgr.guards → ¬ Active (s.tree.thread t) ∧ s.mgr.calls t = []
  /-- A removed node was unlinked no later than its children. -/
  pinned_child : ∀ a d, Internal s.shadow a → Marked s.tree a →
    Marked s.tree (s.tree.routing.child a d) →
    s.mgr.pinned a ⊆ s.mgr.pinned (s.tree.routing.child a d)
  /-- The guard of a thread keeps what it knows. -/
  known : ∀ t, ∀ a ∈ known (s.tree.thread t), Published s.shadow a → Marked s.tree a →
    t ∈ s.mgr.pinned a
  retire_marked : ∀ t a, Call.retire a ∈ s.mgr.calls t → Marked s.tree a
  retired_marked : ∀ a, s.mgr.retired a = true → Marked s.tree a
  deallocate_hidden : ∀ t a, Call.deallocate a ∈ s.mgr.calls t →
    ¬ Marked s.tree a ∧ ∀ u, a ∉ (s.tree.thread u).privateNodes

namespace Inv

variable {P : Params} {s : State} (h : Inv P s)
include h

theorem root_unmarked : ¬ Marked s.tree root :=
  (h.tree.marked root h.tree.root_internal.1).mpr Relation.ReflTransGen.refl

/-- The children of an unmarked node are unmarked. -/
theorem child_unmarked {a : Addr} {d : Bool} (ha : Internal s.shadow a) (hm : ¬ Marked s.tree a) :
    ¬ Marked s.tree (s.tree.routing.child a d) := by
  have hr := h.tree.reach_of_unmarked ha.1 hm
  have hrc := hr.child ha.2 d
  exact (h.tree.marked _ (h.tree.pub_of_reach hrc)).mpr hrc

theorem private_shown {t : Tid} {a : Addr} (ha : a ∈ (s.tree.thread t).privateNodes) : Shown s a :=
  shadow_allocated.mp (h.tree.private_allocated (u := t) ha)

theorem private_unmarked {t : Tid} {a : Addr} (ha : a ∈ (s.tree.thread t).privateNodes) :
    ¬ Marked s.tree a :=
  ReclaimTree.private_unmarked h.tree (t := t) ha

/-- What is in the tree is in use, unmarked and not about to be given back. -/
theorem reach_facts {a : Addr} (ha : s.tree.routing.Reach a) :
    Published s.shadow a ∧ ¬ Marked s.tree a := by
  have hpub := h.tree.pub_of_reach ha
  exact ⟨hpub, (h.tree.marked a hpub).mpr ha⟩

/-- What is in the tree is in use and not being given back. -/
theorem reach_held {a : Addr} (ha : s.tree.routing.Reach a) : s.tree.allocated a = true
    ∧ s.mgr.retired a = false ∧ ∀ u, ∀ c ∈ s.mgr.calls u, c.node ≠ a := by
  obtain ⟨hpub, hun⟩ := h.reach_facts ha
  have hshown := shadow_allocated.mp hpub.1
  refine ⟨hshown.1, ?_, ?_⟩
  · rw [← Bool.not_eq_true]
    exact fun hr => hun (h.retired_marked a hr)
  · intro u c hc heq
    cases c with
    | retire b => exact hun (heq ▸ h.retire_marked u b hc)
    | deallocate b => exact hshown.2.1 u (heq ▸ hc)

/-- What an insert has allocated is in use and not being given back. -/
theorem private_held {t : Tid} {a : Addr} (ha : a ∈ (s.tree.thread t).privateNodes) :
    s.tree.allocated a = true ∧ s.mgr.retired a = false
      ∧ ∀ u, ∀ c ∈ s.mgr.calls u, c.node ≠ a := by
  have hun := h.private_unmarked ha
  refine ⟨(h.private_shown ha).1, ?_, ?_⟩
  · rw [← Bool.not_eq_true]
    exact fun hr => hun (h.retired_marked a hr)
  · intro u c hc heq
    cases c with
    | retire b => exact hun (heq ▸ h.retire_marked u b hc)
    | deallocate b =>
        have heq' : b = a := heq
        exact (h.deallocate_hidden u b hc).2 t (heq' ▸ ha)

end Inv

/-! ## §3. Steps of the operations. -/

/-- The steps of a thread on its own do not depend on the nodes in use. -/
theorem LocalMove.shadow {P : Params} {s : State} {pc pc' : Pc}
    (hl : ExternalTree.LocalMove P s.tree pc pc') : ExternalTree.LocalMove P s.shadow pc pc' := by
  cases hl with
  | call hpc hkey => exact .call hpc hkey
  | testLeaf hn h => exact .testLeaf hn h
  | testInternal hn h => exact .testInternal hn h
  | asserted h => exact .asserted h
  | descend => exact .descend
  | containsReturn => exact .containsReturn
  | insertFound h => exact .insertFound h
  | insertRead => exact .insertRead
  | eraseAbsent h => exact .eraseAbsent h
  | eraseFound h => exact .eraseFound h
  | eraseParent h => exact .eraseParent h
  | eraseSibling => exact .eraseSibling
  | eraseNode => exact .eraseNode
  | eraseTest => exact .eraseTest
  | eraseRead => exact .eraseRead
  | eraseRetry => exact .eraseRetry

/-- A thread that moves knows what it knew, the root, or a child of what it
knew. -/
theorem known_move {P : Params} {s : ExternalTree.State} {pc pc' : Pc}
    (hl : ExternalTree.LocalMove P s pc pc') {a : Addr} (ha : a ∈ known pc') :
    a = NULL ∨ a = root ∨ a ∈ known pc
      ∨ ∃ op key gp p, pc = .searchDescend op key gp p
        ∧ a = s.routing.child p (s.routing.side key p) := by
  cases hl with
  | call hpc hkey =>
      simp only [known, List.mem_cons, List.not_mem_nil, or_false] at ha
      tauto
  | testLeaf _ _ => exact Or.inr (Or.inr (Or.inl ha))
  | testInternal _ _ => exact Or.inr (Or.inr (Or.inl (List.mem_cons_of_mem _ ha)))
  | asserted _ => exact Or.inr (Or.inr (Or.inl ha))
  | @descend op key gp p =>
      simp only [known, List.mem_cons, List.not_mem_nil, or_false] at ha ⊢
      rcases ha with ha | ha | ha
      · tauto
      · tauto
      · exact Or.inr (Or.inr (Or.inr ⟨op, key, gp, p, rfl, ha⟩))
  | containsReturn => exact absurd ha List.not_mem_nil
  | insertFound _ => exact absurd ha List.not_mem_nil
  | insertRead => exact Or.inr (Or.inr (Or.inl ha))
  | eraseAbsent _ => exact absurd ha List.not_mem_nil
  | eraseFound _ => exact Or.inr (Or.inr (Or.inl ha))
  | eraseParent _ => exact Or.inr (Or.inr (Or.inl ha))
  | eraseSibling => exact Or.inr (Or.inr (Or.inl ha))
  | eraseNode => exact Or.inr (Or.inr (Or.inl ha))
  | eraseTest => exact Or.inr (Or.inr (Or.inl ha))
  | eraseRead => exact Or.inr (Or.inr (Or.inl ha))
  | eraseRetry =>
      simp only [known, List.mem_cons, List.not_mem_nil, or_false] at ha
      tauto

end MultiCore.ReclaimTree
