/-
  MultiCore.ExternalTree.Erase — a successful erase keeps the invariant, if its
  k-CAS has captured the sibling.

  When the fields `node` and `sibling` differ, the k-CAS compares all three
  nodes and both children of `p`, and the step splices `p` and `n` out
  (`Erases.splice`).  When both are `p->right`, the k-CAS cannot succeed: `n`
  was seen on the left of `p`.  When both are `p->left`, nothing compares
  `p->right` with `sib`, and `CapturesSibling` has to say that it still holds.
-/
import MultiCore.ExternalTree.Updates

namespace MultiCore.ExternalTree

open MultiCore.Lib MultiCore.Kcas

variable {P : Params} {s : State} {t : Tid} {key : Int} {gp p n sib : Addr} {dp dn : Bool}
  {word : Loc → Word}

/-- The state after the k-CAS of an erase has succeeded. -/
def State.erasing (s : State) (t : Tid) (key : Int) (word : Loc → Word) : State :=
  { s with
    word := word
    erased := Function.update s.erased key (s.erased key + 1) }.goto t
      (.returned .erase key true)

/-- What holds when the k-CAS of an erase succeeds and has captured the
sibling. -/
structure Erases (P : Params) (s : State) (t : Tid) (key : Int) (gp p n sib : Addr)
    (dp dn : Bool) (word : Loc → Word) : Prop where
  inv : Inv P s
  victim : Victim P s key p n
  mine : (s.thread t).privateNodes = []
  grandparent : Internal s gp
  gp_unmarked : ¬ Marked s gp
  parent : s.routing.child gp dp = p
  leaf : s.routing.child p dn = n
  sibling : s.routing.child p (!dn) = sib
  write : ∀ a, word a = if a = ⟨gp, childField dp⟩ then sib
    else if a = ⟨p, .marked⟩ ∨ a = ⟨n, .marked⟩ then 4 else s.word a

namespace Erases

variable (he : Erases P s t key gp p n sib dp dn word)
include he

theorem leaf_iff (a : Addr) : (s.erasing t key word).routing.leaf a ↔ s.routing.leaf a := by
  show word ⟨a, .left⟩ = NULL ↔ s.word ⟨a, .left⟩ = NULL
  rw [he.write]
  split
  · rename_i heq
    rw [Loc.mk.injEq] at heq
    have hsib : sib ≠ NULL := by
      rw [← he.sibling]
      exact he.inv.ne_null (he.inv.child_pub p _ he.victim.parent)
    rw [heq.1]
    exact ⟨fun h => absurd h hsib, fun h => absurd h he.grandparent.2⟩
  · rw [if_neg]
    intro hor
    rcases hor with heq | heq
    · rw [Loc.mk.injEq] at heq
      exact absurd heq.2 (by simp)
    · rw [Loc.mk.injEq] at heq
      exact absurd heq.2 (by simp)

theorem child_eq (a : Addr) (e : Bool) : (s.erasing t key word).routing.child a e
    = if (a, e) = (gp, dp) then sib else s.routing.child a e := by
  show word ⟨a, childField e⟩ = _
  rw [he.write]
  by_cases h : (a, e) = (gp, dp)
  · rw [if_pos h]
    rw [Prod.mk.injEq] at h
    rw [h.1, h.2, if_pos rfl]
  · rw [if_neg h, if_neg, if_neg]
    · rfl
    · intro hor
      rcases hor with heq | heq
      · rw [Loc.mk.injEq] at heq
        exact childField_ne_marked e heq.2
      · rw [Loc.mk.injEq] at heq
        exact childField_ne_marked e heq.2
    · intro heq
      rw [Loc.mk.injEq] at heq
      exact h (by rw [heq.1, childField_inj heq.2])

theorem marked_iff (a : Addr) :
    Marked (s.erasing t key word) a ↔ Marked s a ∨ a = p ∨ a = n := by
  show word ⟨a, .marked⟩ ≠ 0 ↔ s.word ⟨a, .marked⟩ ≠ 0 ∨ a = p ∨ a = n
  have hne : (⟨a, .marked⟩ : Loc) ≠ ⟨gp, childField dp⟩ := by
    intro heq
    rw [Loc.mk.injEq] at heq
    exact childField_ne_marked dp heq.2.symm
  rw [he.write, if_neg hne]
  simp only [Loc.mk.injEq, and_true]
  by_cases hor : a = p ∨ a = n
  · rw [if_pos hor]
    exact ⟨fun _ => Or.inr hor, fun _ => by simp⟩
  · rw [if_neg hor]
    exact ⟨fun h => Or.inl h, fun h => h.resolve_right hor⟩

theorem splice :
    Routing.SpliceOut s.routing (s.erasing t key word).routing gp dp p dn n sib where
  root := rfl
  key _ := rfl
  leaf := he.leaf_iff
  child a e hae := by rw [he.child_eq, if_neg hae]
  parent := he.inv.reach_of_unmarked he.grandparent.1 he.gp_unmarked
  internal := he.grandparent.2
  at_parent := he.parent
  parent_internal := he.victim.parent.2
  at_leaf := he.leaf
  is_leaf := he.victim.leaf.2
  sibling := he.sibling
  linked := by rw [he.child_eq, if_pos rfl]

theorem reach_iff {a : Addr} : (s.erasing t key word).routing.Reach a
    ↔ s.routing.Reach a ∧ a ≠ p ∧ a ≠ n :=
  he.splice.reach_iff he.inv.tree

omit he in
theorem thread_eq (u : Tid) : (s.erasing t key word).thread u
    = if u = t then .returned .erase key true else s.thread u := goto_thread _ t _ u

theorem pub_iff {a : Addr} : Published (s.erasing t key word) a ↔ Published s a := by
  have hpriv : ∀ u, ((s.erasing t key word).thread u).privateNodes = (s.thread u).privateNodes := by
    intro u
    rw [thread_eq]
    split
    · rename_i hut
      rw [hut, he.mine]
      rfl
    · rfl
  unfold Published
  simp only [hpriv]
  rfl

theorem kept : Kept s (s.erasing t key word) where
  pub _ ha := he.pub_iff.mpr ha
  key _ _ := rfl
  leaf a _ := he.leaf_iff a
  marked a _ hm := (he.marked_iff a).mpr (Or.inl hm)
  frozen a e _ hm := by
    rw [he.child_eq, if_neg]
    intro heq
    rw [Prod.mk.injEq] at heq
    rw [heq.1] at hm
    exact he.gp_unmarked hm
  path k a ha hp := by
    have hn : a ≠ n := fun heq => ha.2 (heq ▸ he.victim.leaf.2)
    by_cases hap : a = p
    · -- the removed node leads to its sibling, which is on the path now
      refine .removed ((he.marked_iff a).mpr (Or.inr (Or.inl hap))) ?_
      intro hl
      have hparent := he.splice.parent_ne he.inv.tree
      have hchild : ∀ e, (s.erasing t key word).routing.child a e = s.routing.child p e := by
        intro e
        rw [he.child_eq, if_neg, hap]
        intro heq
        rw [Prod.mk.injEq, hap] at heq
        exact hparent heq.1
      have hstep := hp.descend ha.2
      have hside : (s.erasing t key word).routing.side k a = s.routing.side k a := rfl
      rw [hside, hchild] at hl ⊢
      rw [hap] at hl hstep ⊢
      have hcn : s.routing.child p (s.routing.side k p) ≠ n := by
        intro heq
        rw [heq, he.leaf_iff] at hl
        exact hl he.victim.leaf.2
      have hcp : s.routing.child p (s.routing.side k p) ≠ p :=
        he.inv.tree.child_ne_self he.splice.reach_parent he.victim.parent.2
      exact .onPath ((he.splice.onPath he.inv.tree hstep).2 hcp hcn)
    · exact .onPath ((he.splice.onPath he.inv.tree hp).2 hap hn)

theorem keyInTree_iff (k : Int) :
    KeyInTree (s.erasing t key word) k ↔ KeyInTree s k ∧ k ≠ key := by
  have hreachn : s.routing.Reach n := by
    rw [← he.leaf]
    exact he.splice.reach_parent.child he.victim.parent.2 dn
  constructor
  · intro hk
    obtain ⟨a, ha, hl, hkey⟩ := hk
    obtain ⟨hr, _, han⟩ := he.reach_iff.mp ha
    have hl' := (he.leaf_iff a).mp hl
    have hkey' : s.key a = k := hkey
    refine ⟨⟨a, hr, hl', hkey'⟩, ?_⟩
    intro heq
    apply han
    exact he.inv.leaf_unique hr hreachn hl' he.victim.leaf.2
      (by rw [hkey', heq, he.victim.key_eq])
  · intro hk
    obtain ⟨⟨a, ha, hl, hkey⟩, hne⟩ := hk
    refine ⟨a, he.reach_iff.mpr ⟨ha, ?_, ?_⟩, (he.leaf_iff a).mpr hl, hkey⟩
    · intro heq
      rw [heq] at hl
      exact he.victim.parent.2 hl
    · intro heq
      rw [heq, he.victim.key_eq] at hkey
      exact hne hkey.symm

theorem inv_erasing : Inv P (s.erasing t key word) := by
  have h := he.inv
  have hkept := he.kept
  have hkeyOk := he.victim.keyOk
  refine
    { tree := he.splice.searchTree h.tree, root_internal := hkept.internal h.root_internal,
      null_free := h.null_free, child_pub := ?_, leaf_right := ?_, marked := ?_,
      low := ?_, high := ?_, count := ?_, private_inj := ?_, pcOk := ?_ }
  · intro a e ha
    rw [he.pub_iff, he.child_eq]
    split
    · rw [← he.sibling]
      exact h.child_pub p _ he.victim.parent
    · exact h.child_pub a e ⟨he.pub_iff.mp ha.1, fun hl => ha.2 ((he.leaf_iff a).mpr hl)⟩
  · intro a ha
    have hl : s.routing.leaf a := (he.leaf_iff a).mp ha.2
    show word ⟨a, childField true⟩ = NULL
    have hchild := he.child_eq a true
    rw [if_neg] at hchild
    · exact hchild.trans (h.leaf_right a ⟨he.pub_iff.mp ha.1, hl⟩)
    · intro heq
      rw [Prod.mk.injEq] at heq
      rw [heq.1] at hl
      exact he.grandparent.2 hl
  · intro a ha
    rw [he.marked_iff, he.reach_iff, ← h.marked a (he.pub_iff.mp ha)]
    tauto
  · refine (he.keyInTree_iff _).mpr ⟨h.low, ?_⟩
    have := hkeyOk.1
    omega
  · refine (he.keyInTree_iff _).mpr ⟨h.high, ?_⟩
    have := hkeyOk.2
    omega
  · intro k hk
    rw [he.keyInTree_iff]
    show _ ∧ s.inserted k = Function.update s.erased key (s.erased key + 1) k + 1
      ∨ _ ∧ s.inserted k = Function.update s.erased key (s.erased key + 1) k
    by_cases hkk : k = key
    · subst hkk
      rw [Function.update_self]
      have hin : KeyInTree s k := by
        refine ⟨n, ?_, he.victim.leaf.2, he.victim.key_eq⟩
        rw [← he.leaf]
        exact he.splice.reach_parent.child he.victim.parent.2 dn
      rcases h.count k hk with ⟨_, hc⟩ | ⟨hout, _⟩
      · exact Or.inr ⟨fun hand => hand.2 rfl, hc⟩
      · exact absurd hin hout
    · rw [Function.update_of_ne hkk]
      rcases h.count k hk with ⟨hin, hc⟩ | ⟨hout, hc⟩
      · exact Or.inl ⟨⟨hin, hkk⟩, hc⟩
      · exact Or.inr ⟨fun hand => hout hand.1, hc⟩
  · intro u v a hu hv
    rw [thread_eq] at hu hv
    split_ifs at hu with hut
    · exact absurd hu List.not_mem_nil
    · split_ifs at hv with hvt
      · exact absurd hv List.not_mem_nil
      · exact h.private_inj u v a hu hv
  · apply pcOk_goto h hkept thread_eq
    · intro u hut a ha
      refine ⟨fun f => ?_, rfl, rfl⟩
      have hnot : ∀ {b}, Published s b → a ≠ b := by
        intro b hb heq
        rw [heq] at ha
        exact hb.2 u ha
      show word ⟨a, f⟩ = s.word ⟨a, f⟩
      rw [he.write, if_neg, if_neg]
      · intro hor
        rcases hor with heq | heq
        · rw [Loc.mk.injEq] at heq
          exact hnot he.victim.parent.1 heq.1
        · rw [Loc.mk.injEq] at heq
          exact hnot he.victim.leaf.1 heq.1
      · intro heq
        rw [Loc.mk.injEq] at heq
        exact hnot he.grandparent.1 heq.1
    · trivial

end Erases

/-- If the k-CAS of an erase names `p->left` as `node` and as `sibling`, and all
the words it compares have their old values, then `p->right` is still `sib`. -/
def CapturesSibling (s : State) (t : Tid) : Prop :=
  ∀ key gp p n parent sib, s.thread t = .eraseExecute key gp p n parent .left .left sib →
    s.word ⟨gp, .marked⟩ = 0 → s.word ⟨p, .marked⟩ = 0 → s.word ⟨n, .marked⟩ = 0 →
    s.word ⟨gp, parent⟩ = p → s.word ⟨p, .left⟩ = n → s.word ⟨p, .right⟩ = sib

theorem erases {parent sibling node : Field} (h : Inv P s) (hcap : CapturesSibling s t)
    (hpc : s.thread t = .eraseExecute key gp p n parent sibling node sib)
    (hex : helpExecute s.word (eraseEntries gp p n parent sibling node sib) = (true, word)) :
    ∃ dp dn, Erases P s t key gp p n sib dp dn word := by
  have hknown := h.pcOk t
  rw [hpc] at hknown
  obtain ⟨hgp, hv, ⟨bp, rfl⟩, hsib, bn, rfl⟩ := hknown
  obtain ⟨bs, rfl⟩ : ∃ bs, sibling = pick bs := by
    rcases hsib with hl | hr
    · exact ⟨true, hl⟩
    · exact ⟨false, hr.1⟩
  rw [pick_eq, pick_eq, pick_eq] at hex
  obtain ⟨hgm, hchild, hpm, hnm, hleaf, hother⟩ := erase_compared hex
  -- ===== the three nodes are distinct =====
  have hgu : ¬ Marked s gp := fun hm => hm hgm
  have hgr := h.reach_of_unmarked hgp.1 hgu
  have hgpp : gp ≠ p := by
    intro heq
    have hself := h.tree.child_ne_self (d := !bp) hgr hgp.2
    rw [show s.routing.child gp (!bp) = p from hchild] at hself
    exact hself heq.symm
  have hgn : gp ≠ n := fun heq => hgp.2 (heq ▸ hv.leaf.2)
  have hpn : p ≠ n := fun heq => hv.parent.2 (heq ▸ hv.leaf.2)
  have hpu : ¬ Marked s p := fun hm => hm (hpm hgpp)
  have hn := hleaf hgpp
  -- ===== the other child of `p` is `sib` =====
  have hsibling : s.routing.child p (!(!bn)) = sib := by
    by_cases hsn : bn = bs
    · subst hsn
      cases bn with
      | true =>
          -- both entries name `p->left`
          rw [← pick_eq] at hchild
          exact hcap key gp p n (pick bp) sib hpc hgm (hpm hgpp) (hnm hgn hpn) hchild hn
      | false =>
          -- both name `p->right`, but `n` was routed left
          exfalso
          have hside := (h.side_of_child (d := true) hv.parent hpu hn).1
          rcases hsib with hl | ⟨_, hm | hside'⟩
          · exact absurd hl (by simp [pick])
          · exact hpu hm
          · rw [hside] at hside'
            exact absurd hside' (by simp)
    · have hbs : (!bs) = !(!bn) := by
        revert hsn
        cases bn <;> cases bs <;> simp
      rw [← hbs]
      exact hother hgpp (by
        intro heq
        exact hsn (by simpa using heq))
  exact ⟨!bp, !bn, h, hv, by rw [hpc]; rfl, hgp, hgu, hchild, hn, hsibling,
    erase_word hex hgpp hgn hpn⟩

end MultiCore.ExternalTree
