/-
  MultiCore.SequentialTree.Updates — what the code of both trees does to a heap
  that satisfies the invariant.

  `search` ends at the leaf of its key's path, with the two nodes above it
  (`search_run`).  The two updates are the two splices of `Lib.Routing`:
  `Inv.insert` and `Inv.erase` keep the invariant for the changed set.
-/
import MultiCore.SequentialTree.Invariant

namespace MultiCore.SequentialTree

open MultiCore.Lib

/-! ## §1. Commands on allocated nodes. -/

section Commands

variable {h : Heap} {a : Ptr} (ha : h.allocated a = true)
include ha

theorem run_key : (key a).run h = some ((h.node a).key, h) :=
  (Prog.run_call _ _).trans (if_pos ha)

theorem run_child (d : Bool) : (child a d).run h = some ((h.node a).child d, h) :=
  (Prog.run_call _ _).trans (if_pos ha)

theorem run_left : (left a).run h = some ((h.node a).left, h) := run_child ha false

theorem run_right : (right a).run h = some ((h.node a).right, h) := run_child ha true

theorem run_marked : (marked a).run h = some ((h.node a).marked, h) :=
  (Prog.run_call _ _).trans (if_pos ha)

theorem run_setLeft (v : Ptr) : (setLeft a v).run h = some ((), h.setChild a false v) :=
  (Prog.run_call _ _).trans (if_pos ha)

theorem run_setRight (v : Ptr) : (setRight a v).run h = some ((), h.setChild a true v) :=
  (Prog.run_call _ _).trans (if_pos ha)

theorem run_mark : (mark a).run h = some ((), h.mark a) :=
  (Prog.run_call _ _).trans (if_pos ha)

theorem run_delete : (delete a).run h = some ((), h.delete a) :=
  (Prog.run_call _ _).trans (if_pos ha)

end Commands

theorem run_createInternal (h : Heap) (k : Int) (l r : Ptr) :
    (createInternal k l r).run h = some (h.next, h.new k l r) :=
  Prog.run_call _ _

section Updates

variable {κ : Type} [LinearOrder κ] {Y : Style κ} {P : Params} {h h' : Heap} {S : Finset Int}
  {k : Int} {a p n : Ptr}

/-- `isLeaf` on a node of the tree: its assertion holds. -/
theorem run_isLeaf (hinv : Inv Y P h S) (ha : (Y.routing h).Reach a) :
    (isLeaf a).run h = some (decide ((h.node a).left = NULL), h) := by
  have halloc := hinv.allocated a ha
  unfold isLeaf
  rw [Prog.run_bind, run_left halloc]
  simp only [Option.bind_some]
  split
  · rename_i hl
    have hr := hinv.leaf_right a ha hl
    simp [run_right halloc, hr, hl]
  · rename_i hl
    simp [hl]

/-! ## §2. The search. -/

/-- `gp`, `p` and `n` are the last three nodes that the search has come to. -/
def Trail (Y : Style κ) (h : Heap) (k : Int) (gp : Option Ptr) (p n : Ptr) : Prop :=
  (Y.routing h).OnPath (Y.emb k) p ∧ ¬ (Y.routing h).leaf p
    ∧ n = (Y.routing h).child p ((Y.routing h).side (Y.emb k) p)
    ∧ (p = root ∨ ∃ g, gp = some g ∧ (Y.routing h).OnPath (Y.emb k) g ∧ ¬ (Y.routing h).leaf g
        ∧ p = (Y.routing h).child g ((Y.routing h).side (Y.emb k) g))

/-- What `search` returns. -/
structure Found (Y : Style κ) (h : Heap) (k : Int) (ret : SearchRecord) : Prop where
  trail : Trail Y h k ret.gp ret.p ret.n
  leaf : (Y.routing h).leaf ret.n

theorem Found.onPath {ret : SearchRecord} (hf : Found Y h k ret) :
    (Y.routing h).OnPath (Y.emb k) ret.n := by
  obtain ⟨hp, hl, hn, -⟩ := hf.trail
  rw [hn]
  exact hp.descend hl

/-- The induction is on the rank of the node where the loop stands. -/
theorem searchLoop_run (hinv : Inv Y P h S) (hk : P.minKey ≤ k) (rank : Ptr → ℕ)
    (hrank : ∀ a d, (Y.routing h).Reach a → ¬ (Y.routing h).leaf a →
      rank ((Y.routing h).child a d) < rank a) :
    ∀ (m : ℕ) (gp : Option Ptr) (p n : Ptr), rank n < m → (Y.routing h).OnPath (Y.emb k) n →
      (n = root ∧ p = NULL ∨ Trail Y h k gp p n) →
      ∃ ret, Found Y h k ret ∧
        ∀ fuel ≥ m, (searchLoop Y.goesLeft k fuel gp p n).run h = some (ret, h) := by
  intro m
  induction m with
  | zero =>
      intro gp p n hlt
      exact absurd hlt (Nat.not_lt_zero _)
  | succ m ih =>
      intro gp p n hlt hn htrail
      have halloc := hinv.allocated n hn.reach
      by_cases hl : (Y.routing h).leaf n
      · -- ===== the loop ends =====
        refine ⟨⟨gp, p, n⟩, ⟨?_, hl⟩, ?_⟩
        · rcases htrail with ⟨rfl, -⟩ | htrail
          · exact absurd hl hinv.root_internal
          · exact htrail
        · intro fuel hfuel
          obtain ⟨fuel, rfl⟩ : ∃ f, fuel = f + 1 := ⟨fuel - 1, by omega⟩
          have hleft : (h.node n).left = NULL := hl
          simp [searchLoop, run_isLeaf hinv hn.reach, hleft]
      · -- ===== one level down =====
        have hside := Style.child_side (Y := Y) (h := h) (hinv.ne_rootLeft hk hn) k
        have hnext := hn.descend hl
        have hless := hrank n ((Y.routing h).side (Y.emb k) n) hn.reach hl
        have htrail' : Trail Y h k (some p) n
            ((Y.routing h).child n ((Y.routing h).side (Y.emb k) n)) := by
          refine ⟨hn, hl, rfl, ?_⟩
          rcases htrail with ⟨rfl, -⟩ | ⟨hp, hpl, hpn, -⟩
          · exact Or.inl rfl
          · exact Or.inr ⟨p, rfl, hp, hpl, hpn⟩
        obtain ⟨ret, hfound, hrun⟩ := ih (some p) n _ (by omega) hnext (Or.inr htrail')
        refine ⟨ret, hfound, ?_⟩
        intro fuel hfuel
        obtain ⟨fuel, rfl⟩ : ∃ f, fuel = f + 1 := ⟨fuel - 1, by omega⟩
        have hleft : ¬ (h.node n).left = NULL := hl
        have hrest := hrun fuel (by omega)
        rw [hside] at hrest
        rw [searchLoop, Prog.run_bind, run_isLeaf hinv hn.reach]
        simp only [Option.bind_some, hleft, decide_false, Bool.false_eq_true, if_false,
          Prog.run_bind, run_key halloc]
        cases hg : Y.goesLeft k (h.node n).key with
        | true =>
            rw [hg] at hrest
            rw [if_pos rfl, Prog.run_bind, run_left halloc]
            exact hrest
        | false =>
            rw [hg] at hrest
            rw [if_neg (by simp), Prog.run_bind, run_right halloc]
            exact hrest

/-- **`search` ends at the leaf of the key's path.** -/
theorem search_run (hinv : Inv Y P h S) (hk : P.minKey ≤ k) :
    ∃ ret m, Found Y h k ret ∧
      ∀ fuel ≥ m, (searchLoop Y.goesLeft k fuel none NULL root).run h = some (ret, h) := by
  obtain ⟨rank, hrank⟩ := hinv.tree.ranked
  obtain ⟨ret, hfound, hrun⟩ :=
    searchLoop_run hinv hk rank hrank (rank root + 1) none NULL root (Nat.lt_succ_self _)
      Relation.ReflTransGen.refl (Or.inl ⟨rfl, rfl⟩)
  exact ⟨ret, rank root + 1, hfound, hrun⟩

/-! ## §3. An insert. -/

/-- The heap after an insert of `k` next to the leaf `n`, which hangs at child `f`
of `p`: `na` is the new leaf, `n1` the new internal node. -/
structure Inserted (Y : Style κ) (h h' : Heap) (k : Int) (p n : Ptr) (f : Bool) (na n1 : Ptr) :
    Prop where
  leaf_fresh : h.allocated na = false
  internal_fresh : h.allocated n1 = false
  ne : n1 ≠ na
  null : na ≠ NULL ∧ n1 ≠ NULL
  node : ∀ a, a ≠ na → a ≠ n1 → a ≠ p → h'.node a = h.node a
  parent : h'.node p = (h.node p).setChild f n1
  leaf : h'.node na = ⟨k, NULL, NULL, false⟩
  internal : h'.node n1
    = if k < (h.node n).key then ⟨Y.internalKey k (h.node n).key, na, n, false⟩
      else ⟨Y.internalKey k (h.node n).key, n, na, false⟩
  allocated : ∀ a, h'.allocated a = true ↔ h.allocated a = true ∨ a = na ∨ a = n1
  next : ∀ a, h'.allocated a = true → a < h'.next

theorem Node.child_setChild (b : Node) (f e : Bool) (v : Ptr) :
    (b.setChild f v).child e = if e = f then v else b.child e := by
  cases f <;> cases e <;> rfl

theorem Node.setChild_key (b : Node) (f : Bool) (v : Ptr) : (b.setChild f v).key = b.key := by
  cases f <;> rfl

theorem Node.setChild_marked (b : Node) (f : Bool) (v : Ptr) :
    (b.setChild f v).marked = b.marked := by
  cases f <;> rfl

/-- The insert is a splice. -/
theorem Inserted.spliceIn {f : Bool} {na n1 : Ptr} (hinv : Inv Y P h S)
    (hi : Inserted Y h h' k p n f na n1) (hk : P.minKey ≤ k)
    (hp : (Y.routing h).OnPath (Y.emb k) p) (hpl : ¬ (Y.routing h).leaf p)
    (hf : xor f Y.flip = (Y.routing h).side (Y.emb k) p) (hn : (h.node p).child f = n)
    (hl : (Y.routing h).leaf n) (hne : k ≠ (h.node n).key) :
    Routing.SpliceIn (Y.routing h) (Y.routing h') p (xor f Y.flip) n n1 na := by
  have hreach : ∀ a, h.allocated a = false → ¬ (Y.routing h).Reach a := by
    intro a ha hr
    rw [hinv.allocated a hr] at ha
    exact absurd ha (by simp)
  have hpna : p ≠ na := fun heq => hreach na hi.leaf_fresh (heq ▸ hp.reach)
  have hpn1 : p ≠ n1 := fun heq => hreach n1 hi.internal_fresh (heq ▸ hp.reach)
  have hchild : (Y.routing h).child p (xor f Y.flip) = n := by
    show (h.node p).child (xor (xor f Y.flip) Y.flip) = n
    rw [Bool.xor_assoc, Bool.xor_self, Bool.xor_false]
    exact hn
  have hnpath : (Y.routing h).OnPath (Y.emb k) n := by
    rw [← hchild, hf]
    exact hp.descend hpl
  have hnr := hnpath.reach
  have hnroot := hinv.ne_rootLeft hk hnpath
  have hroot : rootLeft ≠ na ∧ rootLeft ≠ n1 := by
    have hr : (Y.routing h).Reach rootLeft := by
      rw [← hinv.root_left_child]
      exact Routing.Reach.child Inv.reach_root hinv.root_internal _
    constructor
    · intro heq
      exact hreach na hi.leaf_fresh (heq ▸ hr)
    · intro heq
      exact hreach n1 hi.internal_fresh (heq ▸ hr)
  have hkey : ∀ a, a ≠ n1 → a ≠ na → (h'.node a).key = (h.node a).key := by
    intro a h₁ h₂
    by_cases hap : a = p
    · rw [hap, hi.parent, Node.setChild_key]
    · rw [hi.node a h₂ h₁ hap]
  have hkeyOf : ∀ a, a ≠ n1 → a ≠ na → (Y.routing h').key a = (Y.routing h).key a := by
    intro a h₁ h₂
    show Y.emb (Y.keyOf h' a) = Y.emb (Y.keyOf h a)
    unfold Style.keyOf
    rw [hkey a h₁ h₂]
  have hnakey : (Y.routing h').key na = Y.emb k := by
    show Y.emb (Y.keyOf h' na) = _
    rw [Style.keyOf, if_neg (Ne.symm hroot.1), hi.leaf]
  have hnkey : (Y.routing h).key n = Y.emb (h.node n).key := by
    show Y.emb (Y.keyOf h n) = _
    rw [Style.keyOf, if_neg hnroot]
  have hleafp : ¬ (h.node p).left = NULL := hpl
  have hn1key : Y.keyOf h' n1 = Y.internalKey k (h.node n).key := by
    rw [Style.keyOf, if_neg (Ne.symm hroot.2), hi.internal]
    split <;> rfl
  have hn1node : (h'.node n1).key = Y.internalKey k (h.node n).key := by
    rw [hi.internal]
    split <;> rfl
  -- where the keys of the two leaves go below the new internal node
  have hto : ∀ j, (Y.routing h').child n1 ((Y.routing h').side (Y.emb j) n1)
      = (h'.node n1).child (!Y.goesLeft j (Y.internalKey k (h.node n).key)) := by
    intro j
    rw [Style.child_side (Ne.symm hroot.2), hn1node]
  have hsplit : (Y.routing h').child n1 ((Y.routing h').side (Y.emb k) n1) = na
      ∧ (Y.routing h').child n1 ((Y.routing h').side (Y.emb (h.node n).key) n1) = n := by
    rw [hto, hto, hi.internal]
    rcases lt_or_gt_of_ne hne with hlt | hgt
    · obtain ⟨hleft, hright, -⟩ := Y.separates _ _ hlt
      rw [if_pos hlt, hleft, hright]
      exact ⟨rfl, rfl⟩
    · obtain ⟨hleft, hright, hsym⟩ := Y.separates _ _ hgt
      rw [if_neg (by omega), hsym, hleft, hright]
      exact ⟨rfl, rfl⟩
  refine
    { root := rfl, key := hkeyOf, leaf := ?_, child := ?_, parent := by rw [hnakey]; exact hp
      routed := by rw [hnakey, ← hf], internal := hpl, at_leaf := hchild, is_leaf := hl
      fresh := hreach n1 hi.internal_fresh, fresh_leaf := hreach na hi.leaf_fresh, ne := hi.ne
      linked := ?_, new_internal := ?_, new_leaf := ?_, new_key := ?_
      new_child := by rw [hnakey]; exact hsplit.1, old_child := by rw [hnkey]; exact hsplit.2
      apart := ?_ }
  · intro a h₁ h₂
    by_cases hap : a = p
    · subst hap
      refine iff_of_false ?_ hpl
      show ¬ (h'.node a).left = NULL
      rw [hi.parent]
      cases f with
      | false => exact hi.null.2
      | true => exact hleafp
    · show (h'.node a).left = NULL ↔ (h.node a).left = NULL
      rw [hi.node a h₂ h₁ hap]
  · intro a e h₁ h₂ hedge
    show (h'.node a).child (xor e Y.flip) = (h.node a).child (xor e Y.flip)
    by_cases hap : a = p
    · subst hap
      have hef : xor e Y.flip ≠ f := by
        intro heq
        apply hedge
        rw [← heq, Bool.xor_assoc, Bool.xor_self, Bool.xor_false]
      rw [hi.parent, Node.child_setChild, if_neg hef]
    · rw [hi.node a h₂ h₁ hap]
  · show (h'.node p).child (xor (xor f Y.flip) Y.flip) = n1
    rw [Bool.xor_assoc, Bool.xor_self, Bool.xor_false, hi.parent, Node.child_setChild, if_pos rfl]
  · show ¬ (h'.node n1).left = NULL
    rw [hi.internal]
    split
    · exact hi.null.1
    · exact hinv.ne_null hnr
  · show (h'.node na).left = NULL
    rw [hi.leaf]
  · rw [hnakey, hnkey]
    show Y.emb (Y.keyOf h' n1) = _ ∨ Y.emb (Y.keyOf h' n1) = _
    rw [hn1key]
    exact (Y.internalKey_or k (h.node n).key).imp (congrArg Y.emb) (congrArg Y.emb)
  · rw [hnakey, hnkey]
    intro heq
    have hsame := hsplit.1
    rw [heq, hsplit.2] at hsame
    exact hreach na hi.leaf_fresh (hsame ▸ hnr)

/-- **An insert keeps the invariant, and adds its key.** -/
theorem Inv.insert {f : Bool} {na n1 : Ptr} (hinv : Inv Y P h S)
    (hi : Inserted Y h h' k p n f na n1) (hk : P.minKey ≤ k) (hk' : k ≤ P.maxKey)
    (hp : (Y.routing h).OnPath (Y.emb k) p) (hpl : ¬ (Y.routing h).leaf p)
    (hf : xor f Y.flip = (Y.routing h).side (Y.emb k) p) (hn : (h.node p).child f = n)
    (hl : (Y.routing h).leaf n) (hne : k ≠ (h.node n).key) : Inv Y P h' (Insert.insert k S) := by
  have hs := hi.spliceIn hinv hk hp hpl hf hn hl hne
  have hreach : ∀ a, (Y.routing h').Reach a ↔ (Y.routing h).Reach a ∨ a = n1 ∨ a = na :=
    fun a => hs.reach_iff hinv.tree
  have hold : ∀ a, (Y.routing h).Reach a → a ≠ n1 ∧ a ≠ na := fun a ha => hs.ne_of_reach ha
  have hkey : ∀ a, a ≠ n1 → a ≠ na → (h'.node a).key = (h.node a).key := by
    intro a h₁ h₂
    by_cases hap : a = p
    · rw [hap, hi.parent, Node.setChild_key]
    · rw [hi.node a h₂ h₁ hap]
  -- the sentinel is not the leaf that the new internal node replaces
  have hnpath : (Y.routing h).OnPath (Y.emb k) n := by
    have hd := hp.descend hpl
    rw [← hf, hs.at_leaf] at hd
    exact hd
  have hnroot := hinv.ne_rootLeft hk hnpath
  have hleftr : (Y.routing h).Reach rootLeft := by
    rw [← hinv.root_left_child]
    exact Routing.Reach.child Inv.reach_root hinv.root_internal _
  have hhas : ∀ j, Y.HasKey h' j ↔ Y.HasKey h j ∨ j = k := by
    intro j
    constructor
    · intro hh
      obtain ⟨a, ha, hal, haj⟩ := hh
      rcases (hreach a).mp ha with hr | rfl | rfl
      · left
        obtain ⟨h₁, h₂⟩ := hold a hr
        exact ⟨a, hr, (hs.leaf a h₁ h₂).mp hal, by rw [← hkey a h₁ h₂, haj]⟩
      · exact absurd hal hs.new_internal
      · right
        rw [hi.leaf] at haj
        exact haj.symm
    · intro hh
      rcases hh with hh | rfl
      · obtain ⟨a, ha, hal, haj⟩ := hh
        obtain ⟨h₁, h₂⟩ := hold a ha
        exact ⟨a, (hreach a).mpr (Or.inl ha), (hs.leaf a h₁ h₂).mpr hal,
          by rw [hkey a h₁ h₂, haj]⟩
      · exact ⟨na, (hreach na).mpr (Or.inr (Or.inr rfl)), hs.new_leaf, by rw [hi.leaf]⟩
  refine
    { tree := hs.searchTree hinv.tree, allocated := ?_, null := ?_, next := hi.next
      leaf_right := ?_, unmarked := ?_, root_internal := ?_, root_key := ?_, root_left := ?_
      sentinel := ?_, high := ?_, keys := ?_, range := ?_ }
  · intro a ha
    rw [hi.allocated]
    rcases (hreach a).mp ha with hr | rfl | rfl
    · exact Or.inl (hinv.allocated a hr)
    · exact Or.inr (Or.inr rfl)
    · exact Or.inr (Or.inl rfl)
  · by_contra hnull
    rcases (hi.allocated NULL).mp (by simpa using hnull) with hr | heq | heq
    · rw [hinv.null] at hr
      exact absurd hr (by simp)
    · exact hi.null.1 heq.symm
    · exact hi.null.2 heq.symm
  · intro a ha hal
    rcases (hreach a).mp ha with hr | rfl | rfl
    · obtain ⟨h₁, h₂⟩ := hold a hr
      have hal' := (hs.leaf a h₁ h₂).mp hal
      have hap : a ≠ p := fun heq => hpl (heq ▸ hal')
      rw [hi.node a h₂ h₁ hap]
      exact hinv.leaf_right a hr hal'
    · exact absurd hal hs.new_internal
    · rw [hi.leaf]
  · intro a ha
    rcases (hreach a).mp ha with hr | rfl | rfl
    · obtain ⟨h₁, h₂⟩ := hold a hr
      by_cases hap : a = p
      · rw [hap, hi.parent, Node.setChild_marked]
        exact hinv.unmarked p (hap ▸ hr)
      · rw [hi.node a h₂ h₁ hap]
        exact hinv.unmarked a hr
    · rw [hi.internal]
      split <;> rfl
    · rw [hi.leaf]
  · obtain ⟨h₁, h₂⟩ := hold root Inv.reach_root
    exact fun hal => hinv.root_internal ((hs.leaf root h₁ h₂).mp hal)
  · obtain ⟨h₁, h₂⟩ := hold root Inv.reach_root
    rw [hkey root h₁ h₂]
    exact hinv.root_key
  · obtain ⟨h₁, h₂⟩ := hold root Inv.reach_root
    by_cases hrp : root = p
    · subst hrp
      rw [hi.parent]
      cases f with
      | false =>
          exfalso
          apply hnroot
          rw [← hn]
          exact hinv.root_left
      | true => exact hinv.root_left
    · rw [hi.node root h₂ h₁ hrp]
      exact hinv.root_left
  · obtain ⟨h₁, h₂⟩ := hold rootLeft hleftr
    have hrp : rootLeft ≠ p := fun heq => hpl (heq ▸ hinv.sentinel.1)
    rw [hi.node rootLeft h₂ h₁ hrp]
    exact hinv.sentinel
  · exact (hhas _).mpr (Or.inl hinv.high)
  · intro j hj hj'
    rw [hhas, ← hinv.keys j hj hj', Finset.mem_insert, or_comm]
  · intro j hj
    rcases Finset.mem_insert.mp hj with rfl | hj
    · exact ⟨hk, hk'⟩
    · exact hinv.range j hj

/-! ## §4. An erase. -/

/-- The heap after the leaf `n` (child `e` of `p`) and `p` (child `d` of `g`) have
been cut out and deleted. -/
structure Erased (h h' : Heap) (g : Ptr) (d : Bool) (p : Ptr) (e : Bool) (n : Ptr) : Prop where
  key : ∀ a, (h'.node a).key = (h.node a).key
  child : ∀ a f, (a, f) ≠ (g, d) → (h'.node a).child f = (h.node a).child f
  linked : (h'.node g).child d = (h.node p).child (!e)
  marked : ∀ a, a ≠ p → a ≠ n → (h'.node a).marked = (h.node a).marked
  allocated : ∀ a, h'.allocated a = true ↔ h.allocated a = true ∧ a ≠ p ∧ a ≠ n
  next : h'.next = h.next

/-- The erase is a splice. -/
theorem Erased.spliceOut {g : Ptr} {d e : Bool} (hinv : Inv Y P h S) (he : Erased h h' g d p e n)
    (hg : (Y.routing h).Reach g) (hgl : ¬ (Y.routing h).leaf g) (hp : (h.node g).child d = p)
    (hpl : ¬ (Y.routing h).leaf p) (hn : (h.node p).child e = n) (hl : (Y.routing h).leaf n) :
    Routing.SpliceOut (Y.routing h) (Y.routing h') g (xor d Y.flip) p (xor e Y.flip) n
      ((h.node p).child (!e)) := by
  have hback : ∀ f, xor (xor f Y.flip) Y.flip = f := by
    intro f
    rw [Bool.xor_assoc, Bool.xor_self, Bool.xor_false]
  have hnot : ∀ f, xor (!(xor f Y.flip)) Y.flip = !f := by
    intro f
    cases f <;> cases Y.flip <;> rfl
  have hpchild : (Y.routing h).child g (xor d Y.flip) = p := by
    show (h.node g).child (xor (xor d Y.flip) Y.flip) = p
    rw [hback, hp]
  have hpr : (Y.routing h).Reach p := hpchild ▸ Routing.Reach.child hg hgl _
  have hsib : (Y.routing h).child p (!(xor e Y.flip)) = (h.node p).child (!e) := by
    show (h.node p).child (xor (!(xor e Y.flip)) Y.flip) = _
    rw [hnot]
  have hsnull : (h.node p).child (!e) ≠ NULL := by
    rw [← hsib]
    exact hinv.ne_null (Routing.Reach.child hpr hpl _)
  refine
    { root := rfl, key := ?_, leaf := ?_, child := ?_, parent := hg, internal := hgl
      at_parent := hpchild, parent_internal := hpl, at_leaf := ?_, is_leaf := hl
      sibling := hsib, linked := ?_ }
  · intro a
    show Y.emb (Y.keyOf h' a) = Y.emb (Y.keyOf h a)
    unfold Style.keyOf
    rw [he.key]
  · intro a
    show (h'.node a).child false = NULL ↔ (h.node a).child false = NULL
    by_cases hedge : (a, false) = (g, d)
    · rw [Prod.mk.injEq] at hedge
      obtain ⟨rfl, hd⟩ := hedge
      refine iff_of_false ?_ hgl
      rw [hd, he.linked]
      exact hsnull
    · rw [he.child a false hedge]
  · intro a f hedge
    refine he.child a _ ?_
    intro heq
    apply hedge
    rw [Prod.mk.injEq] at heq ⊢
    refine ⟨heq.1, ?_⟩
    rw [← heq.2, hback]
  · show (h.node p).child (xor (xor e Y.flip) Y.flip) = n
    rw [hback, hn]
  · show (h'.node g).child (xor (xor d Y.flip) Y.flip) = _
    rw [hback, he.linked]

/-- **An erase keeps the invariant, and removes its key.** -/
theorem Inv.erase {g : Ptr} {d e : Bool} (hinv : Inv Y P h S) (he : Erased h h' g d p e n)
    (hk : P.minKey ≤ k) (hk' : k ≤ P.maxKey) (hg : (Y.routing h).Reach g)
    (hgl : ¬ (Y.routing h).leaf g) (hp : (h.node g).child d = p) (hpl : ¬ (Y.routing h).leaf p)
    (hn : (h.node p).child e = n) (hl : (Y.routing h).leaf n) (hkey : (h.node n).key = k) :
    Inv Y P h' (S.erase k) := by
  have hs := he.spliceOut hinv hg hgl hp hpl hn hl
  have hreach : ∀ a, (Y.routing h').Reach a ↔ (Y.routing h).Reach a ∧ a ≠ p ∧ a ≠ n :=
    fun a => hs.reach_iff hinv.tree
  have hnr : (Y.routing h).Reach n := by
    rw [← hs.at_leaf]
    exact hs.reach_parent.child hpl _
  have hne : n ≠ rootLeft := by
    intro heq
    rw [heq, hinv.sentinel.2] at hkey
    omega
  have hleftp : rootLeft ≠ p := fun heq => hpl (heq ▸ hinv.sentinel.1)
  have hrootp : root ≠ p := ((hreach root).mp Inv.reach_root).2.1
  have hhas : ∀ j, Y.HasKey h' j ↔ Y.HasKey h j ∧ j ≠ k := by
    intro j
    constructor
    · intro hh
      obtain ⟨a, ha, hal, haj⟩ := hh
      obtain ⟨hr, hap, han⟩ := (hreach a).mp ha
      rw [he.key] at haj
      refine ⟨⟨a, hr, (hs.leaf a).mp hal, haj⟩, ?_⟩
      -- two leaves with one key are one leaf
      intro hjk
      have hal' : a ≠ rootLeft := by
        intro heq
        rw [heq, hinv.sentinel.2] at haj
        omega
      apply han
      apply hinv.tree.leaf_eq_of_key_eq hr hnr ((hs.leaf a).mp hal) hl
      show Y.emb (Y.keyOf h a) = Y.emb (Y.keyOf h n)
      rw [Style.keyOf, Style.keyOf, if_neg hal', if_neg hne, haj, hkey, hjk]
    · intro hh
      obtain ⟨⟨a, ha, hal, haj⟩, hjk⟩ := hh
      refine ⟨a, (hreach a).mpr ⟨ha, ?_, ?_⟩, (hs.leaf a).mpr hal, by rw [he.key, haj]⟩
      · exact fun heq => hpl (heq ▸ hal)
      · intro heq
        rw [heq, hkey] at haj
        exact hjk haj.symm
  refine
    { tree := hs.searchTree hinv.tree, allocated := ?_, null := ?_, next := ?_
      leaf_right := ?_, unmarked := ?_, root_internal := ?_, root_key := ?_, root_left := ?_
      sentinel := ?_, high := ?_, keys := ?_, range := ?_ }
  · intro a ha
    obtain ⟨hr, hap, han⟩ := (hreach a).mp ha
    exact (he.allocated a).mpr ⟨hinv.allocated a hr, hap, han⟩
  · by_contra hnull
    have hold := ((he.allocated NULL).mp (by simpa using hnull)).1
    rw [hinv.null] at hold
    exact absurd hold (by simp)
  · intro a ha
    rw [he.next]
    exact hinv.next a ((he.allocated a).mp ha).1
  · intro a ha hal
    obtain ⟨hr, hap, han⟩ := (hreach a).mp ha
    have hal' := (hs.leaf a).mp hal
    show (h'.node a).child true = NULL
    rw [he.child a true]
    · exact hinv.leaf_right a hr hal'
    · intro heq
      rw [Prod.mk.injEq] at heq
      exact hgl (heq.1 ▸ hal')
  · intro a ha
    obtain ⟨hr, hap, han⟩ := (hreach a).mp ha
    rw [he.marked a hap han]
    exact hinv.unmarked a hr
  · exact fun hal => hinv.root_internal ((hs.leaf root).mp hal)
  · rw [he.key]
    exact hinv.root_key
  · show (h'.node root).child false = rootLeft
    rw [he.child root false]
    · exact hinv.root_left
    · intro heq
      rw [Prod.mk.injEq] at heq
      apply hleftp
      rw [← hp, ← heq.1, ← heq.2]
      exact hinv.root_left.symm
  · rw [he.key]
    refine ⟨?_, hinv.sentinel.2⟩
    show (h'.node rootLeft).child false = NULL
    rw [he.child rootLeft false]
    · exact hinv.sentinel.1
    · intro heq
      rw [Prod.mk.injEq] at heq
      exact hgl (heq.1 ▸ hinv.sentinel.1)
  · refine (hhas _).mpr ⟨hinv.high, ?_⟩
    omega
  · intro j hj hj'
    rw [hhas, ← hinv.keys j hj hj', Finset.mem_erase, and_comm]
  · intro j hj
    exact hinv.range j (Finset.mem_of_mem_erase hj)

end Updates

end MultiCore.SequentialTree
