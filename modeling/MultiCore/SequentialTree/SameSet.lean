/-
  MultiCore.SequentialTree.SameSet — both sequential trees are the reference set.

  Every operation of either tree, executed on a heap that satisfies the
  invariant of its style, returns what the reference set returns and leaves a
  heap that satisfies the invariant for the new set (`seq_perform`,
  `bst_perform`).  That the code runs at all says that it follows no null,
  unset or deleted pointer and fails no assertion.
-/
import MultiCore.SequentialTree.Updates
import Mathlib.Algebra.BigOperators.Group.Finset.Basic

namespace MultiCore.SequentialTree

open MultiCore.Lib

section Common

variable {κ : Type} [LinearOrder κ] {Y : Style κ} {P : Params} {h : Heap} {S : Finset Int}
  {k : Int} {a p n : Ptr}

/-! ## §1. The sum of the keys. -/

/-- What a leaf adds to the sum. -/
def weight (P : Params) (k : Int) : Int := if P.minKey ≤ k ∧ k ≤ P.maxKey then k else 0

theorem Represents.run_sum (hinv : Inv Y P h S) :
    ∀ {t : KeyTree κ} {a : Ptr}, (Y.routing h).Reach a → (Y.routing h).Represents a t →
      ∃ m, ∀ fuel ≥ m, (getSumOfKeysInSubtree P fuel a).run h
        = some ((t.leaves.map fun x => weight P (Y.dec x)).sum, h)
  | .leaf x, a, ha, ht => by
      have halloc := hinv.allocated a ha
      obtain ⟨hl, hx⟩ := ht
      have hleft : (h.node a).left = NULL := hl
      refine ⟨1, ?_⟩
      intro fuel hfuel
      obtain ⟨fuel, rfl⟩ : ∃ f, fuel = f + 1 := ⟨fuel - 1, by omega⟩
      -- the sentinel counts for nothing under either of its keys
      have hweight : weight P (Y.dec x) = weight P (h.node a).key := by
        rw [← hx]
        show weight P (Y.dec (Y.emb (Y.keyOf h a))) = _
        rw [Y.dec_emb]
        unfold Style.keyOf
        split
        · rename_i heq
          have hkey : (h.node a).key = P.minKey - 1 := heq ▸ hinv.sentinel.2
          have hshadow := Y.shadow_le (h.node a).key
          unfold weight
          rw [if_neg (by omega), if_neg (by omega)]
        · rfl
      have hsum : ((KeyTree.leaf x).leaves.map fun x => weight P (Y.dec x)).sum
          = weight P (h.node a).key := by
        simp [KeyTree.leaves, hweight]
      rw [hsum, getSumOfKeysInSubtree, if_neg (hinv.ne_null ha), Prog.run_bind,
        run_isLeaf hinv ha]
      simp only [Option.bind_some, hleft, decide_true, if_true, Prog.run_bind, run_key halloc]
      unfold weight
      by_cases hmin : P.minKey ≤ (h.node a).key
      · rw [if_pos hmin, Prog.run_bind, run_key halloc, Option.bind_some]
        by_cases hmax : (h.node a).key ≤ P.maxKey
        · rw [if_pos hmax, if_pos ⟨hmin, hmax⟩, run_key halloc]
        · rw [if_neg hmax, if_neg (fun hb => hmax hb.2), Prog.run_pure]
      · rw [if_neg hmin, if_neg (fun hb => hmin hb.1), Prog.run_pure]
  | .node x l r, a, ha, ht => by
      have halloc := hinv.allocated a ha
      obtain ⟨hl, -, htl, htr⟩ := ht
      have hleft : ¬ (h.node a).left = NULL := hl
      obtain ⟨m₁, hl₁⟩ := Represents.run_sum hinv (ha.child hl false) htl
      obtain ⟨m₂, hr₂⟩ := Represents.run_sum hinv (ha.child hl true) htr
      refine ⟨m₁ + m₂ + 1, ?_⟩
      intro fuel hfuel
      obtain ⟨fuel, rfl⟩ : ∃ f, fuel = f + 1 := ⟨fuel - 1, by omega⟩
      have h₁ := hl₁ fuel (by omega)
      have h₂ := hr₂ fuel (by omega)
      rw [getSumOfKeysInSubtree, if_neg (hinv.ne_null ha), Prog.run_bind, run_isLeaf hinv ha]
      simp only [Option.bind_some, hleft, decide_false, Bool.false_eq_true, if_false,
        Prog.run_bind, run_left halloc, KeyTree.leaves, List.map_append, List.sum_append]
      -- `left` is the first or the second child of the routing
      cases hf : Y.flip with
      | false =>
          have hc : ∀ d, (Y.routing h).child a d = (h.node a).child d := by
            intro d
            show (h.node a).child (xor d Y.flip) = _
            rw [hf, Bool.xor_false]
          rw [hc] at h₁ h₂
          change (getSumOfKeysInSubtree P fuel (h.node a).left).run h = _ at h₁
          change (getSumOfKeysInSubtree P fuel (h.node a).right).run h = _ at h₂
          simp only [h₁, h₂, Option.bind_some, run_right halloc, Prog.run_pure]
      | true =>
          have hc : ∀ d, (Y.routing h).child a d = (h.node a).child (!d) := by
            intro d
            show (h.node a).child (xor d Y.flip) = _
            rw [hf, Bool.xor_true]
          rw [hc] at h₁ h₂
          change (getSumOfKeysInSubtree P fuel (h.node a).right).run h = _ at h₁
          change (getSumOfKeysInSubtree P fuel (h.node a).left).run h = _ at h₂
          simp only [h₁, h₂, Option.bind_some, run_right halloc, Prog.run_pure]
          rw [add_comm]

/-- The weights of the leaves of an ordered tree add up to the set. -/
theorem Inv.sum_leaves (hinv : Inv Y P h S) {t : KeyTree κ}
    (ht : (Y.routing h).Represents root t) (ho : t.Ordered) :
    (t.leaves.map fun x => weight P (Y.dec x)).sum = ∑ k ∈ S, k := by
  have hmem : ∀ x, x ∈ t.leaves ↔ ∃ b, (Y.routing h).Reach b ∧ (Y.routing h).leaf b
      ∧ (Y.routing h).key b = x := fun x => ht.mem_leaves_iff x
  have hemb : ∀ x ∈ t.leaves, Y.emb (Y.dec x) = x := by
    intro x hx
    obtain ⟨b, -, -, rfl⟩ := (hmem x).mp hx
    show Y.emb (Y.dec (Y.emb (Y.keyOf h b))) = _
    rw [Y.dec_emb]
    rfl
  rw [← List.sum_toFinset (fun x => weight P (Y.dec x)) ho.nodup_leaves]
  unfold weight
  rw [← Finset.sum_filter]
  refine Finset.sum_nbij' Y.dec Y.emb ?_ ?_ ?_ ?_ ?_
  · intro x hx
    rw [Finset.mem_filter, List.mem_toFinset] at hx
    obtain ⟨hxl, hmin, hmax⟩ := hx
    obtain ⟨b, hb, hbl, rfl⟩ := (hmem x).mp hxl
    rw [hinv.keys _ hmin hmax]
    refine ⟨b, hb, hbl, ?_⟩
    change P.minKey ≤ Y.dec (Y.emb (Y.keyOf h b)) at hmin
    show (h.node b).key = Y.dec (Y.emb (Y.keyOf h b))
    rw [Y.dec_emb] at hmin ⊢
    unfold Style.keyOf at hmin ⊢
    split at hmin
    · rename_i heq
      have hkey : (h.node b).key = P.minKey - 1 := heq ▸ hinv.sentinel.2
      have hshadow := Y.shadow_le (h.node b).key
      omega
    · rename_i hne
      rw [if_neg hne]
  · intro k hk
    obtain ⟨hmin, hmax⟩ := hinv.range k hk
    obtain ⟨b, hb, hbl, hbk⟩ := (hinv.keys k hmin hmax).mp hk
    have hne : b ≠ rootLeft := by
      intro heq
      rw [heq, hinv.sentinel.2] at hbk
      omega
    rw [Finset.mem_filter, List.mem_toFinset, Y.dec_emb]
    refine ⟨(hmem _).mpr ⟨b, hb, hbl, ?_⟩, hmin, hmax⟩
    show Y.emb (Y.keyOf h b) = _
    rw [Style.keyOf, if_neg hne, hbk]
  · intro x hx
    rw [Finset.mem_filter, List.mem_toFinset] at hx
    exact hemb x hx.1
  · intro k _
    exact Y.dec_emb k
  · intro x _
    rfl

/-- **`getSumOfKeys` is the sum of the set.** -/
theorem Inv.run_sum (hinv : Inv Y P h S) :
    ∃ m, ∀ fuel ≥ m, (getSumOfKeys P fuel).run h = some (∑ k ∈ S, k, h) := by
  obtain ⟨t, ht, ho⟩ := hinv.tree.exists_tree
  have hsum := hinv.sum_leaves ht ho
  obtain ⟨m, hrun⟩ := Represents.run_sum hinv Inv.reach_root ht
  rw [hsum] at hrun
  exact ⟨m, hrun⟩

/-! ## §2. The heaps that the updates build. -/

@[simp] theorem Heap.new_allocated (h : Heap) (k : Int) (l r b : Ptr) :
    (h.new k l r).allocated b = true ↔ h.allocated b = true ∨ b = h.next := by
  show Function.update h.allocated h.next true b = true ↔ _
  by_cases hb : b = h.next
  · rw [hb, Function.update_self]
    simp
  · rw [Function.update_of_ne hb]
    simp [hb]

theorem Heap.new_node (h : Heap) (k : Int) (l r : Ptr) {b : Ptr} (hb : b ≠ h.next) :
    (h.new k l r).node b = h.node b := Function.update_of_ne hb _ _

theorem Heap.new_node_self (h : Heap) (k : Int) (l r : Ptr) :
    (h.new k l r).node h.next = ⟨k, l, r, false⟩ := Function.update_self ..

theorem Heap.setChild_node (h : Heap) (b : Ptr) (f : Bool) (v : Ptr) {c : Ptr} (hc : c ≠ b) :
    (h.setChild b f v).node c = h.node c := Function.update_of_ne hc _ _

theorem Heap.setChild_node_self (h : Heap) (b : Ptr) (f : Bool) (v : Ptr) :
    (h.setChild b f v).node b = (h.node b).setChild f v := Function.update_self ..

@[simp] theorem Heap.setChild_allocated (h : Heap) (b : Ptr) (f : Bool) (v : Ptr) :
    (h.setChild b f v).allocated = h.allocated := rfl

/-- The heap of an insert that succeeds. -/
def insertHeap (Y : Style κ) (h : Heap) (k : Int) (p n : Ptr) (f : Bool) : Heap :=
  ((h.new k NULL NULL).new (Y.internalKey k (h.node n).key)
    (if k < (h.node n).key then h.next else n)
    (if k < (h.node n).key then n else h.next)).setChild p f (h.next + 1)

theorem insertHeap_inserted (hinv : Inv Y P h S) (hp : (Y.routing h).Reach p) (n : Ptr) (f : Bool) :
    Inserted Y h (insertHeap Y h k p n f) k p n f h.next (h.next + 1) := by
  have hfresh : ∀ b, h.next ≤ b → h.allocated b = false := by
    intro b hb
    by_contra hne
    exact absurd (hinv.next b (by simpa using hne)) (Nat.not_lt.mpr hb)
  have hplt : p < h.next := hinv.lt_next hp
  have hrlt : root < h.next := hinv.lt_next Inv.reach_root
  have hpne : p ≠ h.next ∧ p ≠ h.next + 1 := ⟨Nat.ne_of_lt hplt, Nat.ne_of_lt (Nat.lt_succ_of_lt hplt)⟩
  unfold insertHeap
  refine
    { leaf_fresh := hfresh _ (Nat.le_refl _), internal_fresh := hfresh _ (Nat.le_succ _)
      ne := Nat.succ_ne_self _, null := ⟨?_, Nat.succ_ne_zero _⟩, node := ?_, parent := ?_
      leaf := ?_, internal := ?_, allocated := ?_, next := ?_ }
  · exact Nat.ne_of_gt (Nat.lt_of_le_of_lt (Nat.zero_le _) hrlt)
  · intro b h₁ h₂ h₃
    rw [Heap.setChild_node _ _ _ _ h₃, Heap.new_node _ _ _ _ h₂, Heap.new_node _ _ _ _ h₁]
  · rw [Heap.setChild_node_self, Heap.new_node _ _ _ _ hpne.2, Heap.new_node _ _ _ _ hpne.1]
  · rw [Heap.setChild_node _ _ _ _ (Ne.symm hpne.1),
      Heap.new_node _ _ _ _ (Nat.ne_of_lt (Nat.lt_succ_self _)), Heap.new_node_self]
  · rw [Heap.setChild_node _ _ _ _ (Ne.symm hpne.2)]
    have hself := Heap.new_node_self (h.new k NULL NULL) (Y.internalKey k (h.node n).key)
      (if k < (h.node n).key then h.next else n) (if k < (h.node n).key then n else h.next)
    refine hself.trans ?_
    split <;> rfl
  · intro b
    rw [Heap.setChild_allocated, Heap.new_allocated, Heap.new_allocated, or_assoc]
    rfl
  · intro b hb
    rw [Heap.setChild_allocated, Heap.new_allocated, Heap.new_allocated] at hb
    show b < h.next + 1 + 1
    rcases hb with (hb | hb) | hb
    · exact Nat.lt_succ_of_lt (Nat.lt_succ_of_lt (hinv.next b hb))
    · rw [hb]
      exact Nat.lt_succ_of_lt (Nat.lt_succ_self _)
    · rw [hb]
      exact Nat.lt_succ_self _

/-- The side of `p` that `n` hangs at, as the code names it. -/
def sideOf (h : Heap) (p n : Ptr) : Bool := decide ((h.node p).left ≠ n)

theorem sideOf_child (hinv : Inv Y P h S) (hp : (Y.routing h).OnPath (Y.emb k) p)
    (hl : ¬ (Y.routing h).leaf p)
    (hn : n = (Y.routing h).child p ((Y.routing h).side (Y.emb k) p)) :
    xor (sideOf h p n) Y.flip = (Y.routing h).side (Y.emb k) p
      ∧ (h.node p).child (sideOf h p n) = n := by
  have hne := hinv.child_ne hp.reach hl
  have hn' : n = (h.node p).child (xor ((Y.routing h).side (Y.emb k) p) Y.flip) := hn
  have hside : sideOf h p n = xor ((Y.routing h).side (Y.emb k) p) Y.flip := by
    unfold sideOf
    cases hb : xor ((Y.routing h).side (Y.emb k) p) Y.flip with
    | false =>
        rw [hb] at hn'
        have heq : n = (h.node p).left := hn'
        simp [heq]
    | true =>
        rw [hb] at hn'
        have heq : n = (h.node p).right := hn'
        simp [heq, hne]
  rw [hside]
  refine ⟨?_, hn'.symm⟩
  rw [Bool.xor_assoc, Bool.xor_self, Bool.xor_false]

theorem Found.sideOf {ret : SearchRecord} (hinv : Inv Y P h S) (hf : Found Y h k ret) :
    xor (sideOf h ret.p ret.n) Y.flip = (Y.routing h).side (Y.emb k) ret.p
      ∧ (h.node ret.p).child (sideOf h ret.p ret.n) = ret.n :=
  sideOf_child hinv hf.trail.1 hf.trail.2.1 hf.trail.2.2.1

/-- The leaf that a search has found, and its parent, are nodes of the tree. -/
theorem Found.reach {ret : SearchRecord} (hf : Found Y h k ret) :
    (Y.routing h).Reach ret.p ∧ (Y.routing h).Reach ret.n :=
  ⟨hf.trail.1.reach, hf.onPath.reach⟩

/-- An insert of an absent key, as the heaps of the code show it. -/
theorem Found.insert {ret : SearchRecord} (hinv : Inv Y P h S) (hf : Found Y h k ret)
    (hk : P.minKey ≤ k) (hk' : k ≤ P.maxKey) (hne : k ≠ (h.node ret.n).key) :
    Inv Y P (insertHeap Y h k ret.p ret.n (SequentialTree.sideOf h ret.p ret.n)) (insert k S) := by
  obtain ⟨hside, hchild⟩ := hf.sideOf hinv
  exact hinv.insert (insertHeap_inserted hinv hf.reach.1 _ _) hk hk' hf.trail.1 hf.trail.2.1
    hside hchild hf.leaf hne

/-- **A client's leaf has a grandparent**: the `gp` of its search is set, and not
null. -/
theorem Found.grandparent {ret : SearchRecord} (hinv : Inv Y P h S) (hf : Found Y h k ret)
    (hk : P.minKey ≤ k) (hk' : k ≤ P.maxKey) (hkey : (h.node ret.n).key = k) :
    ∃ g, ret.gp = some g ∧ (Y.routing h).Reach g ∧ ¬ (Y.routing h).leaf g
      ∧ (h.node g).child (SequentialTree.sideOf h g ret.p) = ret.p := by
  obtain ⟨hp, hl, hn, hor⟩ := hf.trail
  rcases hor with hroot | ⟨g, hg, hgp, hgl, hgc⟩
  · exfalso
    rw [hroot] at hn
    exact hinv.parent_ne_root hk hk' hf.leaf hkey hn.symm
  · exact ⟨g, hg, hgp.reach, hgl, (sideOf_child hinv hgp hgl hgc).2⟩

/-- `h₀` is `h`, but for the marks of `p` and `n`. -/
structure Remarked (h h₀ : Heap) (p n : Ptr) : Prop where
  key : ∀ a, (h₀.node a).key = (h.node a).key
  child : ∀ a f, (h₀.node a).child f = (h.node a).child f
  marked : ∀ a, a ≠ p → a ≠ n → (h₀.node a).marked = (h.node a).marked
  allocated : h₀.allocated = h.allocated
  next : h₀.next = h.next

theorem Remarked.refl (h : Heap) (p n : Ptr) : Remarked h h p n :=
  ⟨fun _ => rfl, fun _ _ => rfl, fun _ _ _ => rfl, rfl, rfl⟩

theorem Remarked.mark {h₀ : Heap} (hr : Remarked h h₀ p n) (hb : a = p ∨ a = n) :
    Remarked h (h₀.mark a) p n := by
  have hnode : ∀ b, (h₀.mark a).node b
      = if b = a then { h₀.node a with marked := true } else h₀.node b := by
    intro b
    show Function.update h₀.node a _ b = _
    by_cases hba : b = a
    · rw [if_pos hba, hba, Function.update_self]
    · rw [if_neg hba, Function.update_of_ne hba]
  refine ⟨?_, ?_, ?_, hr.allocated, hr.next⟩
  · intro b
    rw [hnode]
    split
    · rename_i hba
      rw [hba]
      exact hr.key a
    · exact hr.key b
  · intro b f
    rw [hnode]
    split
    · rename_i hba
      rw [hba]
      exact hr.child a f
    · exact hr.child b f
  · intro b hbp hbn
    rw [hnode, if_neg]
    · exact hr.marked b hbp hbn
    · rcases hb with rfl | rfl
      · exact hbp
      · exact hbn

/-- The heap of an erase that succeeds, from the heap with the marks set. -/
def eraseHeap (h₀ : Heap) (g : Ptr) (d : Bool) (p n s : Ptr) : Heap :=
  ((h₀.setChild g d s).delete p).delete n

theorem Remarked.erased {h₀ : Heap} {g : Ptr} {d e : Bool} (hr : Remarked h h₀ p n) :
    Erased h (eraseHeap h₀ g d p n ((h.node p).child (!e))) g d p e n := by
  have hnode : ∀ b, (eraseHeap h₀ g d p n ((h.node p).child (!e))).node b
      = if b = g then (h₀.node g).setChild d ((h.node p).child (!e)) else h₀.node b := by
    intro b
    show Function.update h₀.node g _ b = _
    by_cases hbg : b = g
    · rw [if_pos hbg, hbg, Function.update_self]
    · rw [if_neg hbg, Function.update_of_ne hbg]
  refine ⟨?_, ?_, ?_, ?_, ?_, hr.next⟩
  · intro b
    rw [hnode]
    split
    · rename_i hbg
      rw [hbg, Node.setChild_key]
      exact hr.key g
    · exact hr.key b
  · intro b f hedge
    rw [hnode]
    split
    · rename_i hbg
      have hfd : f ≠ d := fun heq => hedge (by rw [hbg, heq])
      rw [hbg, Node.child_setChild, if_neg hfd]
      exact hr.child g f
    · exact hr.child b f
  · rw [hnode, if_pos rfl, Node.child_setChild, if_pos rfl]
  · intro b hbp hbn
    rw [hnode]
    split
    · rename_i hbg
      rw [Node.setChild_marked, ← hbg]
      exact hr.marked b hbp hbn
    · exact hr.marked b hbp hbn
  · intro b
    show Function.update (Function.update h₀.allocated p false) n false b = true ↔ _
    rw [hr.allocated]
    by_cases hbn : b = n
    · rw [hbn, Function.update_self]
      simp
    · rw [Function.update_of_ne hbn]
      by_cases hbp : b = p
      · rw [hbp, Function.update_self]
        simp
      · rw [Function.update_of_ne hbp]
        simp [hbn, hbp]

/-- The sibling that the code reads. -/
theorem sibling_eq (h : Heap) (p n : Ptr) :
    (h.node p).child (!(sideOf h p n))
      = if (h.node p).left = n then (h.node p).right else (h.node p).left := by
  unfold sideOf
  by_cases hl : (h.node p).left = n
  · simp only [hl, ne_eq, not_true_eq_false, decide_false, Bool.not_false, if_true]
    rfl
  · simp only [hl, ne_eq, not_false_eq_true, decide_true, Bool.not_true, if_false]
    rfl

/-- Deleting the two nodes that have been cut out. -/
theorem run_deletes {α : Type} (h₁ : Heap) (hp : h₁.allocated p = true)
    (hn : h₁.allocated n = true) (hpn : n ≠ p) (rest : Code α) :
    (do
      delete p
      delete n
      rest : Code α).run h₁ = rest.run ((h₁.delete p).delete n) := by
  have hn' : (h₁.delete p).allocated n = true := by
    show Function.update h₁.allocated p false n = true
    rw [Function.update_of_ne hpn, hn]
  rw [Prog.run_bind, run_delete hp, Option.bind_some, Prog.run_bind, run_delete hn',
    Option.bind_some]

theorem Found.parent_ne {ret : SearchRecord} (hf : Found Y h k ret) : ret.n ≠ ret.p := by
  intro heq
  exact hf.trail.2.1 (heq ▸ hf.leaf)

/-- An erase of a key in the set, as the heaps of the code show it. -/
theorem Found.erase {ret : SearchRecord} {h₀ : Heap} {g : Ptr} (hinv : Inv Y P h S)
    (hf : Found Y h k ret) (hk : P.minKey ≤ k) (hk' : k ≤ P.maxKey)
    (hkey : (h.node ret.n).key = k) (hg : (Y.routing h).Reach g) (hgl : ¬ (Y.routing h).leaf g)
    (hgc : (h.node g).child (SequentialTree.sideOf h g ret.p) = ret.p)
    (hr : Remarked h h₀ ret.p ret.n) :
    Inv Y P (eraseHeap h₀ g (SequentialTree.sideOf h g ret.p) ret.p ret.n
      (if (h.node ret.p).left = ret.n then (h.node ret.p).right else (h.node ret.p).left))
      (S.erase k) := by
  rw [← sibling_eq]
  exact hinv.erase hr.erased hk hk' hg hgl hgc hf.trail.2.1 (hf.sideOf hinv).2 hf.leaf hkey

end Common

/-! ## §3. `external_tree_seq.h`. -/

namespace ExternalSequential

variable {P : Params} {h : Heap} {S : Finset Int} {k : Int} {a b p n : Ptr}

theorem run_isParentOf (ha : h.allocated a = true) :
    (isParentOf a b).run h = some (decide ((h.node a).left = b ∨ (h.node a).right = b), h) := by
  unfold isParentOf
  rw [Prog.run_bind, run_left ha]
  simp only [Option.bind_some]
  split
  · rename_i hl
    simp [hl]
  · rename_i hl
    simp [hl, run_right ha]

theorem isParentOf_of_child {d : Bool} (hc : (h.node a).child d = b) :
    (h.node a).left = b ∨ (h.node a).right = b := by
  cases d with
  | false => exact Or.inl hc
  | true => exact Or.inr hc

theorem sideOf_left (hl : (h.node p).left = n) : sideOf h p n = false := by
  unfold sideOf
  simp [hl]

theorem sideOf_right (hl : ¬ (h.node p).left = n) : sideOf h p n = true := by
  unfold sideOf
  simp [hl]

/-- Replacing the child `n` of `p`: the assertion on the right child holds. -/
theorem run_relink {α : Type} (hp : h.allocated p = true) (hc : (h.node p).child (sideOf h p n) = n)
    (v : Ptr) (rest : Code α) :
    (do
      let l ← left p
      if l = n then
        setLeft p v
        rest
      else
        let r ← right p
        Prog.assert (decide (r = n))
        setRight p v
        rest : Code α).run h
      = rest.run (h.setChild p (sideOf h p n) v) := by
  rw [Prog.run_bind, run_left hp, Option.bind_some]
  by_cases hl : (h.node p).left = n
  · rw [if_pos hl, Prog.run_bind, run_setLeft hp, sideOf_left hl]
    rfl
  · have hr : (h.node p).right = n := by
      rw [sideOf_right hl] at hc
      exact hc
    rw [if_neg hl, Prog.run_bind, run_right hp, Option.bind_some, Prog.run_bind, Prog.run_assert,
      if_pos (decide_eq_true hr), Option.bind_some, Prog.run_bind, run_setRight hp, sideOf_right hl]
    rfl

theorem search_found (hinv : Inv seqStyle P h S) (hk : P.minKey ≤ k) :
    ∃ ret m, Found seqStyle h k ret ∧ ∀ fuel ≥ m, (search fuel k).run h = some (ret, h) :=
  search_run hinv hk

/-- **One turn of the loop of `insertIfAbsent` is enough.** -/
theorem insertTurn_run (hinv : Inv seqStyle P h S) (hk : P.minKey ≤ k) (hk' : k ≤ P.maxKey) :
    ∃ h' m, Inv seqStyle P h' (insert k S) ∧
      ∀ fuel ≥ m, (insertTurn fuel k).run h = some (some (decide (k ∉ S)), h') := by
  obtain ⟨ret, m, hf, hsearch⟩ := search_found hinv hk
  have hmem := hinv.mem_iff hk hk' hf.onPath hf.leaf
  have hn := hinv.allocated _ hf.reach.2
  have hp := hinv.allocated _ hf.reach.1
  by_cases heq : (h.node ret.n).key = k
  · -- ===== the key is there =====
    have hin : k ∈ S := hmem.mpr heq
    refine ⟨h, m, ?_, ?_⟩
    · rw [Finset.insert_eq_of_mem hin]
      exact hinv
    · intro fuel hfuel
      have hzero : compareTo k (h.node ret.n).key = 0 := by
        unfold compareTo
        omega
      unfold insertTurn
      rw [Prog.run_bind, hsearch fuel hfuel, Option.bind_some, Prog.run_bind, run_key hn,
        Option.bind_some]
      simp only
      rw [if_pos hzero, Prog.run_pure]
      simp [hin]
  · -- ===== two new nodes =====
    refine ⟨_, m, hf.insert hinv hk hk' (Ne.symm heq), ?_⟩
    intro fuel hfuel
    have hnot : k ∉ S := fun hm => heq (hmem.mp hm)
    have hnz : ¬ compareTo k (h.node ret.n).key = 0 := by
      unfold compareTo
      omega
    have hdir : (compareTo k (h.node ret.n).key ≤ 0) = (k < (h.node ret.n).key) := by
      unfold compareTo
      apply propext
      omega
    set h₁ := h.new k NULL NULL with hh₁
    set h₂ := h₁.new (min k (h.node ret.n).key)
      (if k < (h.node ret.n).key then h.next else ret.n)
      (if k < (h.node ret.n).key then ret.n else h.next) with hh₂
    have hlt := hinv.lt_next hf.reach.1
    have hn₁ : h₁.allocated ret.n = true := (Heap.new_allocated h k NULL NULL _).mpr (Or.inl hn)
    have hnode₁ : h₁.node ret.n = h.node ret.n :=
      Heap.new_node _ _ _ _ (Nat.ne_of_lt (hinv.lt_next hf.reach.2))
    have hp₂ : h₂.allocated ret.p = true := by
      rw [hh₂, Heap.new_allocated, hh₁, Heap.new_allocated]
      exact Or.inl (Or.inl hp)
    have hnode₂ : h₂.node ret.p = h.node ret.p := by
      rw [hh₂, Heap.new_node _ _ _ _ (Nat.ne_of_lt (Nat.lt_succ_of_lt hlt)), hh₁,
        Heap.new_node _ _ _ _ (Nat.ne_of_lt hlt)]
    have hside : sideOf h₂ ret.p ret.n = sideOf h ret.p ret.n := by
      unfold sideOf
      rw [hnode₂]
    have hchild : (h₂.node ret.p).child (sideOf h₂ ret.p ret.n) = ret.n := by
      rw [hside, hnode₂]
      exact (hf.sideOf hinv).2
    have hvalid : (validInsert ret).run h₂ = some (true, h₂) := by
      unfold validInsert
      rw [Prog.run_bind, run_marked hp₂, Option.bind_some, hnode₂,
        hinv.unmarked _ hf.reach.1]
      simp only [Bool.false_eq_true, if_false]
      rw [run_isParentOf hp₂, decide_eq_true (isParentOf_of_child hchild)]
    unfold insertTurn
    rw [Prog.run_bind, hsearch fuel hfuel, Option.bind_some, Prog.run_bind, run_key hn,
      Option.bind_some]
    simp only
    rw [if_neg hnz, Prog.run_bind, createLeaf, run_createInternal, Option.bind_some, Prog.run_bind,
      run_key hn₁, Option.bind_some, Prog.run_bind, run_createInternal, Option.bind_some]
    simp only [hdir, hnode₁]
    rw [Prog.run_bind, hvalid, Option.bind_some]
    simp only [if_true]
    rw [run_relink hp₂ hchild, hside, Prog.run_pure, decide_eq_true hnot]
    rfl

/-- **One turn of the loop of `erase` is enough**, and its `gp` is a node. -/
theorem eraseTurn_run (hinv : Inv seqStyle P h S) (hk : P.minKey ≤ k) (hk' : k ≤ P.maxKey) :
    ∃ h' m, Inv seqStyle P h' (S.erase k) ∧
      ∀ fuel ≥ m, (eraseTurn fuel k).run h = some (some (decide (k ∈ S)), h') := by
  obtain ⟨ret, m, hf, hsearch⟩ := search_found hinv hk
  have hmem := hinv.mem_iff hk hk' hf.onPath hf.leaf
  have hn := hinv.allocated _ hf.reach.2
  have hp := hinv.allocated _ hf.reach.1
  by_cases heq : (h.node ret.n).key = k
  · -- ===== the leaf and its parent go =====
    have hin : k ∈ S := hmem.mpr heq
    obtain ⟨g, hgp, hg, hgl, hgc⟩ := hf.grandparent hinv hk hk' heq
    have hga := hinv.allocated _ hg
    set h₀ := (h.mark ret.n).mark ret.p with hh₀
    have hr : Remarked h h₀ ret.p ret.n :=
      ((Remarked.refl h ret.p ret.n).mark (Or.inr rfl)).mark (Or.inl rfl)
    refine ⟨_, m, hf.erase hinv hk hk' heq hg hgl hgc hr, ?_⟩
    intro fuel hfuel
    have hzero : ¬ compareTo k (h.node ret.n).key ≠ 0 := by
      unfold compareTo
      omega
    have hvalid : (validErase ret).run h = some (true, h) := by
      unfold validErase
      rw [hgp, deref, Prog.run_bind, Prog.run_pure, Option.bind_some, Prog.run_bind,
        run_isParentOf hga, decide_eq_true (isParentOf_of_child hgc), Option.bind_some]
      simp only [if_true]
      rw [Prog.run_bind, run_isParentOf hp,
        decide_eq_true (isParentOf_of_child (hf.sideOf hinv).2), Option.bind_some]
      simp only [if_true]
      rw [Prog.run_bind, run_marked hga, hinv.unmarked _ hg]
      rfl
    have hp₀ : h₀.allocated ret.p = true := hr.allocated ▸ hp
    have hp₁ : (h.mark ret.n).allocated ret.p = true := hp
    have hn₀ : h₀.allocated ret.n = true := hr.allocated ▸ hn
    have hg₀ : h₀.allocated g = true := hr.allocated ▸ hga
    have hleft : ∀ b, (h₀.node b).left = (h.node b).left := fun b => hr.child b false
    have hright : ∀ b, (h₀.node b).right = (h.node b).right := fun b => hr.child b true
    have hside : sideOf h₀ g ret.p = sideOf h g ret.p := by
      unfold sideOf
      rw [hleft]
    have hgc₀ : (h₀.node g).child (sideOf h₀ g ret.p) = ret.p := by
      rw [hside, hr.child, hgc]
    -- what follows once the sibling is known
    have htail : ∀ s, (do
        let gp ← deref ret.gp
        let gl ← left gp
        if gl = ret.p then
          setLeft gp s
          delete ret.p
          delete ret.n
          pure (some true)
        else
          let gr ← right gp
          Prog.assert (decide (gr = ret.p))
          setRight gp s
          delete ret.p
          delete ret.n
          pure (some true) : Code (Option Bool)).run h₀
        = some (some true, eraseHeap h₀ g (sideOf h g ret.p) ret.p ret.n s) := by
      intro s
      rw [hgp, deref, Prog.run_bind, Prog.run_pure, Option.bind_some, run_relink hg₀ hgc₀, hside]
      exact run_deletes (h₀.setChild g (sideOf h g ret.p) s) hp₀ hn₀ hf.parent_ne _
    unfold eraseTurn
    rw [Prog.run_bind, hsearch fuel hfuel, Option.bind_some, Prog.run_bind, run_key hn,
      Option.bind_some]
    simp only
    rw [if_neg hzero, Prog.run_bind, hvalid, Option.bind_some]
    simp only [if_true]
    rw [Prog.run_bind, run_mark hn, Option.bind_some, Prog.run_bind, run_mark hp₁,
      Option.bind_some, Prog.run_bind, run_left hp₀, Option.bind_some, decide_eq_true hin]
    simp only [hleft]
    split
    · rw [Prog.run_bind, run_right hp₀, Option.bind_some, htail, hright]
    · rw [Prog.run_bind, run_left hp₀, Option.bind_some, htail, hleft]
  · -- ===== the key is not there =====
    have hnot : k ∉ S := fun hm => heq (hmem.mp hm)
    refine ⟨h, m, ?_, ?_⟩
    · rw [Finset.erase_eq_of_notMem hnot]
      exact hinv
    · intro fuel hfuel
      have hnz : compareTo k (h.node ret.n).key ≠ 0 := by
        unfold compareTo
        omega
      unfold eraseTurn
      rw [Prog.run_bind, hsearch fuel hfuel, Option.bind_some, Prog.run_bind, run_key hn,
        Option.bind_some]
      simp only
      rw [if_pos hnz, Prog.run_pure]
      simp [hnot]

/-- A loop whose first turn has a result ends there. -/
theorem run_whileTrue {turn : Code (Option Bool)} {h' : Heap} {r : Bool} {tries : Nat}
    (ht : tries ≥ 1) (hturn : turn.run h = some (some r, h')) :
    (whileTrue turn tries).run h = some (r, h') := by
  obtain ⟨tries, rfl⟩ : ∃ t, tries = t + 1 := ⟨tries - 1, by omega⟩
  rw [whileTrue, Prog.run_bind, hturn]
  rfl

/-- **`ExternalSequential` is the reference set, call by call.** -/
theorem seq_perform (hinv : Inv seqStyle P h S) (q : Request) (hk : P.minKey ≤ q.key)
    (hk' : q.key ≤ P.maxKey) :
    ∃ h' m, Inv seqStyle P h' (refStep S q) ∧ ∀ fuel ≥ m, ∀ tries ≥ 1,
      (perform P fuel tries q).run h = some (refResult q S, h') := by
  have hassert : (Prog.assert (E := effects) (decide (q.key ≤ P.maxKey))).run h = some ((), h) := by
    rw [Prog.run_assert, if_pos (decide_eq_true hk')]
  unfold perform refStep refResult
  cases q.op with
  | contains =>
      obtain ⟨ret, m, hf, hsearch⟩ := search_found hinv hk
      refine ⟨h, m, hinv, ?_⟩
      intro fuel hfuel tries _
      show (contains P fuel q.key).run h = _
      unfold contains
      rw [Prog.run_bind, hassert, Option.bind_some, Prog.run_bind, hsearch fuel hfuel,
        Option.bind_some, Prog.run_bind, run_key (hinv.allocated _ hf.reach.2), Option.bind_some,
        Prog.run_pure]
      simp only [hinv.mem_iff hk hk' hf.onPath hf.leaf]
  | insertIfAbsent =>
      obtain ⟨h', m, hinv', hturn⟩ := insertTurn_run hinv hk hk'
      refine ⟨h', m, hinv', ?_⟩
      intro fuel hfuel tries ht
      show (insertIfAbsent P fuel tries q.key).run h = _
      unfold insertIfAbsent
      rw [Prog.run_bind, hassert, Option.bind_some]
      exact run_whileTrue ht (hturn fuel hfuel)
  | erase =>
      obtain ⟨h', m, hinv', hturn⟩ := eraseTurn_run hinv hk hk'
      refine ⟨h', m, hinv', ?_⟩
      intro fuel hfuel tries ht
      show (erase P fuel tries q.key).run h = _
      unfold erase
      rw [Prog.run_bind, hassert, Option.bind_some]
      exact run_whileTrue ht (hturn fuel hfuel)

end ExternalSequential

/-! ## §4. `tree.h`. -/

namespace ExternalBST

variable {P : Params} {h : Heap} {S : Finset Int} {k : Int} {p n : Ptr}

theorem run_assertKey (hk : P.minKey ≤ k) (hk' : k ≤ P.maxKey) :
    (assertKey P k).run h = some ((), h) := by
  unfold assertKey
  rw [Prog.run_assert, if_pos (decide_eq_true ⟨hk, hk'⟩)]

theorem search_found (hinv : Inv bstStyle P h S) (hk : P.minKey ≤ k) :
    ∃ ret m, Found bstStyle h k ret ∧ ∀ fuel ≥ m, (search fuel k).run h = some (ret, h) :=
  search_run hinv hk

/-- Replacing the child `n` of `p`. -/
theorem run_relink {α : Type} (hp : h.allocated p = true) (v : Ptr) (rest : Code α) :
    (do
      let l ← left p
      if l = n then
        setLeft p v
        rest
      else
        setRight p v
        rest : Code α).run h
      = rest.run (h.setChild p (sideOf h p n) v) := by
  rw [Prog.run_bind, run_left hp, Option.bind_some]
  unfold sideOf
  by_cases hl : (h.node p).left = n
  · rw [if_pos hl, Prog.run_bind, run_setLeft hp, Option.bind_some]
    simp [hl]
  · rw [if_neg hl, Prog.run_bind, run_setRight hp, Option.bind_some]
    simp [hl]

theorem contains_run (hinv : Inv bstStyle P h S) (hk : P.minKey ≤ k) (hk' : k ≤ P.maxKey) :
    ∃ m, ∀ fuel ≥ m, (sequentialContains P fuel k).run h = some (decide (k ∈ S), h) := by
  obtain ⟨ret, m, hf, hsearch⟩ := search_found hinv hk
  refine ⟨m, ?_⟩
  intro fuel hfuel
  unfold sequentialContains
  rw [Prog.run_bind, run_assertKey hk hk', Option.bind_some, Prog.run_bind, hsearch fuel hfuel,
    Option.bind_some, Prog.run_bind, run_key (hinv.allocated _ hf.reach.2), Option.bind_some,
    Prog.run_pure]
  simp only [hinv.mem_iff hk hk' hf.onPath hf.leaf]

theorem insert_run (hinv : Inv bstStyle P h S) (hk : P.minKey ≤ k) (hk' : k ≤ P.maxKey) :
    ∃ h' m, Inv bstStyle P h' (insert k S) ∧
      ∀ fuel ≥ m, (sequentialInsertIfAbsent P fuel k).run h = some (decide (k ∉ S), h') := by
  obtain ⟨ret, m, hf, hsearch⟩ := search_found hinv hk
  have hmem := hinv.mem_iff hk hk' hf.onPath hf.leaf
  have hn := hinv.allocated _ hf.reach.2
  have hp := hinv.allocated _ hf.reach.1
  by_cases heq : (h.node ret.n).key = k
  · -- ===== the key is there =====
    have hin : k ∈ S := hmem.mpr heq
    refine ⟨h, m, ?_, ?_⟩
    · rw [Finset.insert_eq_of_mem hin]
      exact hinv
    · intro fuel hfuel
      unfold sequentialInsertIfAbsent
      rw [Prog.run_bind, run_assertKey hk hk', Option.bind_some, Prog.run_bind,
        hsearch fuel hfuel, Option.bind_some, Prog.run_bind, run_key hn, Option.bind_some]
      simp only
      rw [if_pos heq.symm, Prog.run_pure]
      simp [hin]
  · -- ===== two new nodes =====
    refine ⟨_, m, hf.insert hinv hk hk' (Ne.symm heq), ?_⟩
    intro fuel hfuel
    have hnot : k ∉ S := fun hm => heq (hmem.mp hm)
    set h₁ := h.new k NULL NULL with hh₁
    have hlt := hinv.lt_next hf.reach.1
    have hn₁ : h₁.allocated ret.n = true := (Heap.new_allocated h k NULL NULL _).mpr (Or.inl hn)
    have hnode₁ : h₁.node ret.n = h.node ret.n :=
      Heap.new_node _ _ _ _ (Nat.ne_of_lt (hinv.lt_next hf.reach.2))
    have hp₂ : ∀ j l r, (h₁.new j l r).allocated ret.p = true := by
      intro j l r
      rw [Heap.new_allocated, hh₁, Heap.new_allocated]
      exact Or.inl (Or.inl hp)
    have hside : ∀ j l r, sideOf (h₁.new j l r) ret.p ret.n = sideOf h ret.p ret.n := by
      intro j l r
      unfold sideOf
      rw [Heap.new_node _ _ _ _ (Nat.ne_of_lt (Nat.lt_succ_of_lt hlt)), hh₁,
        Heap.new_node _ _ _ _ (Nat.ne_of_lt hlt)]
    unfold sequentialInsertIfAbsent
    rw [Prog.run_bind, run_assertKey hk hk', Option.bind_some, Prog.run_bind,
      hsearch fuel hfuel, Option.bind_some, Prog.run_bind, run_key hn, Option.bind_some]
    simp only
    rw [if_neg (Ne.symm heq), Prog.run_bind, createLeaf, run_createInternal, Option.bind_some,
      Prog.run_bind, run_key hn₁, Option.bind_some]
    simp only [hnode₁]
    unfold insertHeap
    rw [decide_eq_true hnot]
    by_cases hlt' : k < (h.node ret.n).key
    · rw [if_pos hlt', if_pos hlt', if_pos hlt', Prog.run_bind, run_key hn₁, Option.bind_some,
        hnode₁, Prog.run_bind, run_createInternal, Option.bind_some, run_relink (hp₂ _ _ _), hside,
        Prog.run_pure]
      have hmax : bstStyle.internalKey k (h.node ret.n).key = (h.node ret.n).key :=
        max_eq_right hlt'.le
      rw [hmax]
      rfl
    · rw [if_neg hlt', if_neg hlt', if_neg hlt', Prog.run_bind, run_createInternal,
        Option.bind_some, run_relink (hp₂ _ _ _), hside, Prog.run_pure]
      have hmax : bstStyle.internalKey k (h.node ret.n).key = k := max_eq_left (by omega)
      rw [hmax]
      rfl

theorem erase_run (hinv : Inv bstStyle P h S) (hk : P.minKey ≤ k) (hk' : k ≤ P.maxKey) :
    ∃ h' m, Inv bstStyle P h' (S.erase k) ∧
      ∀ fuel ≥ m, (sequentialErase P fuel k).run h = some (decide (k ∈ S), h') := by
  obtain ⟨ret, m, hf, hsearch⟩ := search_found hinv hk
  have hmem := hinv.mem_iff hk hk' hf.onPath hf.leaf
  have hn := hinv.allocated _ hf.reach.2
  have hp := hinv.allocated _ hf.reach.1
  by_cases heq : (h.node ret.n).key = k
  · -- ===== the leaf and its parent go =====
    have hin : k ∈ S := hmem.mpr heq
    obtain ⟨g, hgp, hg, hgl, hgc⟩ := hf.grandparent hinv hk hk' heq
    have hga := hinv.allocated _ hg
    have hr := Remarked.refl h ret.p ret.n
    refine ⟨_, m, hf.erase hinv hk hk' heq hg hgl hgc hr, ?_⟩
    intro fuel hfuel
    -- what follows once the sibling is known
    have htail : ∀ s, (do
        let gp ← deref ret.gp
        let gl ← left gp
        if gl = ret.p then
          setLeft gp s
          delete ret.p
          delete ret.n
          pure true
        else
          setRight gp s
          delete ret.p
          delete ret.n
          pure true : Code Bool).run h
        = some (true, eraseHeap h g (sideOf h g ret.p) ret.p ret.n s) := by
      intro s
      rw [hgp, deref, Prog.run_bind, Prog.run_pure, Option.bind_some, run_relink hga]
      exact run_deletes (h.setChild g (sideOf h g ret.p) s) hp hn hf.parent_ne _
    unfold sequentialErase
    rw [Prog.run_bind, run_assertKey hk hk', Option.bind_some, Prog.run_bind,
      hsearch fuel hfuel, Option.bind_some, Prog.run_bind, run_key hn, Option.bind_some]
    simp only
    rw [if_neg (by simp [heq]), Prog.run_bind, run_left hp, Option.bind_some, decide_eq_true hin]
    simp only
    split
    · rw [Prog.run_bind, run_right hp, Option.bind_some, htail]
    · rw [Prog.run_bind, run_left hp, Option.bind_some, htail]
  · -- ===== the key is not there =====
    have hnot : k ∉ S := fun hm => heq (hmem.mp hm)
    refine ⟨h, m, ?_, ?_⟩
    · rw [Finset.erase_eq_of_notMem hnot]
      exact hinv
    · intro fuel hfuel
      unfold sequentialErase
      rw [Prog.run_bind, run_assertKey hk hk', Option.bind_some, Prog.run_bind,
        hsearch fuel hfuel, Option.bind_some, Prog.run_bind, run_key hn, Option.bind_some]
      simp only
      rw [if_pos (Ne.symm heq), Prog.run_pure]
      simp [hnot]

/-- **`ExternalBST` is the reference set, call by call.** -/
theorem bst_perform (hinv : Inv bstStyle P h S) (q : Request) (hk : P.minKey ≤ q.key)
    (hk' : q.key ≤ P.maxKey) :
    ∃ h' m, Inv bstStyle P h' (refStep S q) ∧ ∀ fuel ≥ m,
      (perform P fuel q).run h = some (refResult q S, h') := by
  unfold perform refStep refResult
  cases q.op with
  | contains =>
      obtain ⟨m, hrun⟩ := contains_run hinv hk hk'
      exact ⟨h, m, hinv, hrun⟩
  | insertIfAbsent => exact insert_run hinv hk hk'
  | erase => exact erase_run hinv hk hk'

end ExternalBST

/-! ## §5. Sessions. -/

/-- A session whose every call is the one of the reference set is the session of
the reference set. -/
theorem session_run {κ : Type} [LinearOrder κ] {Y : Style κ} {P : Params} {σ : Type}
    (ok : σ → Prop) (perform : Nat → σ → Request → Code Bool)
    (hcall : ∀ {h : Heap} {S : Finset Int} (q : Request), Inv Y P h S → P.minKey ≤ q.key →
      q.key ≤ P.maxKey → ∃ h' m, Inv Y P h' (refStep S q) ∧ ∀ fuel ≥ m, ∀ x, ok x →
        (perform fuel x q).run h = some (refResult q S, h')) :
    ∀ (qs : List Request) {h : Heap} {S : Finset Int}, Inv Y P h S →
      (∀ q ∈ qs, P.minKey ≤ q.key ∧ q.key ≤ P.maxKey) →
      ∃ h' m, ∀ fuel ≥ m, ∀ x, ok x →
        (session (perform fuel x) (getSumOfKeys P fuel) qs).run h = some (refSession S qs, h')
  | [], h, S, _, _ => ⟨h, 0, fun _ _ _ _ => rfl⟩
  | q :: qs, h, S, hinv, hrange => by
      obtain ⟨hk, hk'⟩ := hrange q List.mem_cons_self
      obtain ⟨h₁, m₁, hinv₁, hrun₁⟩ := hcall q hinv hk hk'
      obtain ⟨m₂, hsum⟩ := hinv₁.run_sum
      obtain ⟨h', m₃, hrest⟩ := session_run ok perform hcall qs hinv₁
        (fun q' hq' => hrange q' (List.mem_cons_of_mem _ hq'))
      refine ⟨h', m₁ + m₂ + m₃, ?_⟩
      intro fuel hfuel x hx
      unfold session refSession
      rw [Prog.run_bind, hrun₁ fuel (by omega) x hx, Option.bind_some, Prog.run_bind,
        hsum fuel (by omega), Option.bind_some, Prog.run_bind, hrest fuel (by omega) x hx,
        Option.bind_some, Prog.run_pure]

/-- **The two sequential trees are the same set**: every session of calls with
keys in range runs to its end on both trees, however few turns its loops have,
and shows the results and sums of the reference set. -/
theorem same_set (P : Params) (qs : List Request)
    (hrange : ∀ q ∈ qs, P.minKey ≤ q.key ∧ q.key ≤ P.maxKey) :
    ∃ m, ∀ fuel ≥ m,
      (∀ tries ≥ 1, ∃ h', (session (ExternalSequential.perform P fuel tries)
          (getSumOfKeys P fuel) qs).run (init P) = some (refSession ∅ qs, h'))
        ∧ ∃ h', (session (ExternalBST.perform P fuel) (getSumOfKeys P fuel) qs).run (init P)
            = some (refSession ∅ qs, h') := by
  obtain ⟨h₁, m₁, hseq⟩ := session_run (Y := seqStyle) (fun tries => tries ≥ 1)
    (fun fuel tries q => ExternalSequential.perform P fuel tries q)
    (fun q hinv hk hk' => ExternalSequential.seq_perform hinv q hk hk') qs (init_inv P) hrange
  obtain ⟨h₂, m₂, hbst⟩ := session_run (Y := bstStyle) (fun _ : Unit => True)
    (fun fuel _ q => ExternalBST.perform P fuel q)
    (fun q hinv hk hk' => by
      obtain ⟨h', m, hinv', hrun⟩ := ExternalBST.bst_perform hinv q hk hk'
      exact ⟨h', m, hinv', fun fuel hfuel _ _ => hrun fuel hfuel⟩) qs (init_inv P) hrange
  refine ⟨m₁ + m₂, ?_⟩
  intro fuel hfuel
  refine ⟨?_, h₂, hbst fuel (by omega) () trivial⟩
  intro tries ht
  exact ⟨h₁, hseq fuel (by omega) tries ht⟩

/-- Keys 1 to 9: an insert, a second one of the same key, and its erase. -/
theorem same_set_three :
    ∃ m, ∀ fuel ≥ m,
      (∀ tries ≥ 1, ∃ h', (session (ExternalSequential.perform ⟨1, 9, by decide⟩ fuel tries)
          (getSumOfKeys ⟨1, 9, by decide⟩ fuel)
          [⟨.insertIfAbsent, 5⟩, ⟨.insertIfAbsent, 5⟩, ⟨.erase, 5⟩]).run (init ⟨1, 9, by decide⟩)
          = some ([(true, 5), (false, 5), (true, 0)], h'))
        ∧ ∃ h', (session (ExternalBST.perform ⟨1, 9, by decide⟩ fuel)
            (getSumOfKeys ⟨1, 9, by decide⟩ fuel)
            [⟨.insertIfAbsent, 5⟩, ⟨.insertIfAbsent, 5⟩, ⟨.erase, 5⟩]).run (init ⟨1, 9, by decide⟩)
            = some ([(true, 5), (false, 5), (true, 0)], h') :=
  same_set ⟨1, 9, by decide⟩ _ (by decide)

end MultiCore.SequentialTree
