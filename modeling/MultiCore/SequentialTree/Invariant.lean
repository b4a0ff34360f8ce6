/-
  MultiCore.SequentialTree.Invariant — the search-tree invariant of both trees.

  The two trees differ in where a key goes that equals the node key, and in the
  key of a new internal node.  A `Style` captures both: under an order on the
  keys (the reversed one for `ExternalBST`, with the children exchanged) each
  tree is a `Routing` whose equal keys go to the same side, and the invariant
  is that this routing is a search tree.

  The sentinel under `root->left` is the exception of `ExternalBST`: its key
  equals the root key, which routes to the right.  It is given the key it would
  need (`shadow`); no key of a client ever leads to it.
-/
import MultiCore.SequentialTree.Model
import MultiCore.Lib.Routing
import Mathlib.Algebra.BigOperators.Group.List.Basic

namespace MultiCore.SequentialTree

open MultiCore.Lib

/-! ## §1. Styles. -/

/-- A way to route keys, and the order that explains it. -/
structure Style (κ : Type) [LinearOrder κ] where
  goesLeft : Int → Int → Bool
  /-- The key of a new internal node over two leaves. -/
  internalKey : Int → Int → Int
  flip : Bool
  emb : Int → κ
  dec : κ → Int
  dec_emb : ∀ k, dec (emb k) = k
  /-- The key of the sentinel under `root->left`. -/
  shadow : Int → Int
  goes : ∀ k nk, goesLeft k nk = (decide (emb nk < emb k) == flip)
  goes_right : ∀ k nk, nk < k → goesLeft k nk = false
  shadow_left : ∀ k, goesLeft (shadow k) k = true
  shadow_le : ∀ k, shadow k ≤ k
  internalKey_or : ∀ k k', internalKey k k' = k ∨ internalKey k k' = k'
  separates : ∀ k k', k < k' →
    goesLeft k (internalKey k k') = true ∧ goesLeft k' (internalKey k k') = false
      ∧ internalKey k' k = internalKey k k'

/-- `external_tree_seq.h`. -/
def seqStyle : Style Int where
  goesLeft := fun k nk => decide (k ≤ nk)
  internalKey := min
  flip := false
  emb := id
  dec := id
  dec_emb := fun _ => rfl
  shadow := id
  goes := by
    intro k nk
    by_cases h : nk < k
    · simp [h, not_le.mpr h]
    · simp [h, not_lt.mp h]
  goes_right := by
    intro k nk h
    simp [not_le.mpr h]
  shadow_left := by simp
  shadow_le := fun k => le_refl k
  internalKey_or := fun k k' => min_choice k k'
  separates := by
    intro k k' h
    rw [min_eq_left h.le, min_eq_right h.le]
    simp [h]

/-- `tree.h`. -/
def bstStyle : Style Intᵒᵈ where
  goesLeft := fun k nk => decide (k < nk)
  internalKey := max
  flip := true
  emb := OrderDual.toDual
  dec := OrderDual.ofDual
  dec_emb := fun _ => rfl
  shadow := fun k => k - 1
  goes := by
    intro k nk
    simp [OrderDual.toDual_lt_toDual]
  goes_right := by
    intro k nk h
    simp [h.le]
  shadow_left := fun k => decide_eq_true (by omega)
  shadow_le := by
    intro k
    omega
  internalKey_or := fun k k' => max_choice k k'
  separates := by
    intro k k' h
    rw [max_eq_right h.le, max_eq_left h.le]
    simp [h]

section Style

variable {κ : Type} [LinearOrder κ] (Y : Style κ)

/-- The key that a node shows to the routing. -/
def Style.keyOf (Y : Style κ) (h : Heap) (a : Ptr) : Int :=
  if a = rootLeft then Y.shadow (h.node a).key else (h.node a).key

/-- The tree in the heap. -/
def Style.routing (Y : Style κ) (h : Heap) : Routing Ptr κ where
  root := root
  leaf := fun a => (h.node a).left = NULL
  child := fun a d => (h.node a).child (xor d Y.flip)
  key := fun a => Y.emb (Y.keyOf h a)

/-- The child that the code follows for key `k`. -/
theorem Style.child_side {Y : Style κ} {h : Heap} {a : Ptr} (ha : a ≠ rootLeft) (k : Int) :
    (Y.routing h).child a ((Y.routing h).side (Y.emb k) a)
      = (h.node a).child (!Y.goesLeft k (h.node a).key) := by
  have hkey : Y.keyOf h a = (h.node a).key := if_neg ha
  show (h.node a).child (xor (decide (Y.emb (Y.keyOf h a) < Y.emb k)) Y.flip) = _
  rw [hkey, Y.goes]
  cases decide (Y.emb (h.node a).key < Y.emb k) <;> cases Y.flip <;> rfl

/-! ## §2. The invariant. -/

/-- A leaf with key `k` is reachable. -/
def Style.HasKey (Y : Style κ) (h : Heap) (k : Int) : Prop :=
  ∃ a, (Y.routing h).Reach a ∧ (Y.routing h).leaf a ∧ (h.node a).key = k

/-- The heap holds a search tree over the keys `S`. -/
structure Inv (P : Params) (h : Heap) (S : Finset Int) : Prop where
  tree : (Y.routing h).SearchTree
  allocated : ∀ a, (Y.routing h).Reach a → h.allocated a = true
  null : h.allocated NULL = false
  next : ∀ a, h.allocated a = true → a < h.next
  leaf_right : ∀ a, (Y.routing h).Reach a → (Y.routing h).leaf a → (h.node a).right = NULL
  unmarked : ∀ a, (Y.routing h).Reach a → (h.node a).marked = false
  root_internal : ¬ (Y.routing h).leaf root
  root_key : (h.node root).key = P.minKey - 1
  root_left : (h.node root).left = rootLeft
  sentinel : (h.node rootLeft).left = NULL ∧ (h.node rootLeft).key = P.minKey - 1
  high : Y.HasKey h (P.maxKey + 1)
  keys : ∀ k, P.minKey ≤ k → k ≤ P.maxKey → (k ∈ S ↔ Y.HasKey h k)
  range : ∀ k ∈ S, P.minKey ≤ k ∧ k ≤ P.maxKey

variable {Y} {P : Params} {h : Heap} {S : Finset Int}

theorem Inv.reach_root : (Y.routing h).Reach root := Relation.ReflTransGen.refl

/-- The sentinel is where no key of a client leads. -/
theorem Inv.root_side (hinv : Inv Y P h S) {k : Int} (hk : P.minKey ≤ k) :
    (Y.routing h).child root ((Y.routing h).side (Y.emb k) root) = (h.node root).right := by
  rw [Style.child_side (by decide), hinv.root_key, Y.goes_right k _ (by omega)]
  rfl

theorem Inv.root_left_child (hinv : Inv Y P h S) :
    (Y.routing h).child root Y.flip = rootLeft := by
  show (h.node root).child (xor Y.flip Y.flip) = rootLeft
  rw [Bool.xor_self]
  exact hinv.root_left

/-- Both children of a node differ. -/
theorem Inv.child_ne (hinv : Inv Y P h S) {a : Ptr} (ha : (Y.routing h).Reach a)
    (hl : ¬ (Y.routing h).leaf a) : (h.node a).left ≠ (h.node a).right := by
  intro heq
  have hsame : (Y.routing h).child a Y.flip = (Y.routing h).child a (!Y.flip) := by
    show (h.node a).child (xor Y.flip Y.flip) = (h.node a).child (xor (!Y.flip) Y.flip)
    cases Y.flip <;> exact heq
  exact Bool.not_ne_self _ (hinv.tree.unique a a _ _ ha ha hl hl hsame).2.symm

/-- A node on the path of a client's key is not the sentinel. -/
theorem Inv.ne_rootLeft (hinv : Inv Y P h S) {k : Int} {a : Ptr} (hk : P.minKey ≤ k)
    (ha : (Y.routing h).OnPath (Y.emb k) a) : a ≠ rootLeft := by
  intro heq
  have hpath : (Y.routing h).OnPath (Y.emb k) ((Y.routing h).child root Y.flip) := by
    rw [hinv.root_left_child, ← heq]
    exact ha
  have hside := (hinv.tree.parent_onPath Inv.reach_root hinv.root_internal hpath).2
  have hroot := hinv.root_side hk
  rw [hside, hinv.root_left_child] at hroot
  exact hinv.child_ne Inv.reach_root hinv.root_internal (hinv.root_left.trans hroot)

theorem Inv.ne_null (hinv : Inv Y P h S) {a : Ptr} (ha : (Y.routing h).Reach a) : a ≠ NULL := by
  intro heq
  have halloc := hinv.allocated a ha
  rw [heq, hinv.null] at halloc
  exact absurd halloc (by simp)

theorem Inv.lt_next (hinv : Inv Y P h S) {a : Ptr} (ha : (Y.routing h).Reach a) : a < h.next :=
  hinv.next a (hinv.allocated a ha)

/-- The leaf at the end of the path of a client's key decides whether the key is
there. -/
theorem Inv.mem_iff (hinv : Inv Y P h S) {k : Int} (hk : P.minKey ≤ k) (hk' : k ≤ P.maxKey)
    {n : Ptr} (hn : (Y.routing h).OnPath (Y.emb k) n) (hl : (Y.routing h).leaf n) :
    k ∈ S ↔ (h.node n).key = k := by
  rw [hinv.keys k hk hk']
  constructor
  · intro hhas
    obtain ⟨a, ha, hal, hak⟩ := hhas
    have hne : a ≠ rootLeft := by
      intro heq
      rw [heq, hinv.sentinel.2] at hak
      omega
    have hown := hinv.tree.own a ha
    have hkey : (Y.routing h).key a = Y.emb k := by
      show Y.emb (Y.keyOf h a) = Y.emb k
      rw [Style.keyOf, if_neg hne, hak]
    rw [hkey] at hown
    rw [hn.leaf_unique hown hl hal, hak]
  · intro hkey
    exact ⟨n, hn.reach, hl, hkey⟩

/-- A client's leaf does not hang at the root: the largest sentinel would be the
same leaf. -/
theorem Inv.parent_ne_root (hinv : Inv Y P h S) {k : Int} {n : Ptr} (hk : P.minKey ≤ k)
    (hk' : k ≤ P.maxKey) (hl : (Y.routing h).leaf n) (hkey : (h.node n).key = k) :
    (Y.routing h).child root ((Y.routing h).side (Y.emb k) root) ≠ n := by
  intro heq
  obtain ⟨b, hb, hbl, hbk⟩ := hinv.high
  have hle := P.le
  have hmax : P.minKey ≤ P.maxKey + 1 := by omega
  have hbne : b ≠ rootLeft := by
    intro hbeq
    rw [hbeq, hinv.sentinel.2] at hbk
    omega
  have hown := hinv.tree.own b hb
  have hbkey : (Y.routing h).key b = Y.emb (P.maxKey + 1) := by
    show Y.emb (Y.keyOf h b) = _
    rw [Style.keyOf, if_neg hbne, hbk]
  rw [hbkey] at hown
  have hpath : (Y.routing h).OnPath (Y.emb (P.maxKey + 1)) root := Relation.ReflTransGen.refl
  have hn := hpath.descend hinv.root_internal
  rw [hinv.root_side hmax, ← hinv.root_side hk, heq] at hn
  have hsame := hn.leaf_unique hown hl hbl
  rw [hsame, hbk] at hkey
  omega

/-! ## §3. The initial tree. -/

theorem init_root_internal : ¬ (Y.routing (init P)).leaf root := by
  show ¬ rootLeft = NULL
  decide

theorem init_root_child (d : Bool) :
    (Y.routing (init P)).child root d = if xor d Y.flip then rootRight else rootLeft := by
  show (⟨P.minKey - 1, rootLeft, rootRight, false⟩ : Node).child (xor d Y.flip) = _
  cases xor d Y.flip <;> rfl

theorem init_reach {a : Ptr} (ha : (Y.routing (init P)).Reach a) :
    a = root ∨ a = rootLeft ∨ a = rootRight := by
  induction ha with
  | refl => exact Or.inl rfl
  | @tail b c _ hbc ih =>
      obtain ⟨hl, d, rfl⟩ := hbc
      rcases ih with rfl | rfl | rfl
      · right
        rw [init_root_child]
        split
        · exact Or.inr rfl
        · exact Or.inl rfl
      · exact absurd rfl hl
      · exact absurd rfl hl

/-- The child of the root that `goesLeft` chooses. -/
theorem init_child (k : Int) :
    (Y.routing (init P)).OnPath (Y.emb k)
      (if Y.goesLeft k (P.minKey - 1) then rootLeft else rootRight) := by
  have hpath : (Y.routing (init P)).OnPath (Y.emb k) root := Relation.ReflTransGen.refl
  have hnext := hpath.descend init_root_internal
  rw [Style.child_side (by decide)] at hnext
  have hkey : ((init P).node root).key = P.minKey - 1 := rfl
  rw [hkey] at hnext
  cases hg : Y.goesLeft k (P.minKey - 1) with
  | true =>
      rw [hg] at hnext
      exact hnext
  | false =>
      rw [hg] at hnext
      exact hnext

theorem init_inv (P : Params) : Inv Y P (init P) ∅ := by
  have hle := P.le
  have hleft : (Y.routing (init P)).leaf rootLeft := rfl
  have hright : (Y.routing (init P)).leaf rootRight := rfl
  have hroot := @init_root_internal κ _ Y P
  have honly : ∀ a, (Y.routing (init P)).Reach a → ¬ (Y.routing (init P)).leaf a → a = root := by
    intro a ha hl
    rcases init_reach ha with rfl | rfl | rfl
    · rfl
    · exact absurd hleft hl
    · exact absurd hright hl
  refine
    { tree := ?_, allocated := ?_, null := rfl, next := ?_, leaf_right := ?_, unmarked := ?_
      root_internal := hroot, root_key := rfl, root_left := rfl, sentinel := ⟨rfl, rfl⟩
      high := ?_, keys := ?_, range := ?_ }
  · refine ⟨?_, ?_, ?_, ?_⟩
    · intro a b d e ha hb hla hlb heq
      obtain rfl := honly a ha hla
      obtain rfl := honly b hb hlb
      refine ⟨rfl, ?_⟩
      rw [init_root_child, init_root_child] at heq
      cases d <;> cases e <;> cases hf : Y.flip <;> simp_all [rootLeft, rootRight]
    · intro a d ha hl heq
      obtain rfl := honly a ha hl
      rw [init_root_child] at heq
      change (if xor d Y.flip then rootRight else rootLeft) = root at heq
      split at heq
      · exact absurd heq (by decide)
      · exact absurd heq (by decide)
    · intro a ha
      rcases init_reach ha with rfl | rfl | rfl
      · exact Relation.ReflTransGen.refl
      · -- the sentinel, under its shadow key
        have hpath := @init_child κ _ Y P (Y.shadow (P.minKey - 1))
        rw [if_pos (Y.shadow_left _)] at hpath
        exact hpath
      · have hpath := @init_child κ _ Y P (P.maxKey + 1)
        rw [if_neg (by rw [Y.goes_right _ _ (by omega)]; simp)] at hpath
        exact hpath
    · refine ⟨fun a => if a = root then 1 else 0, ?_⟩
      intro a d ha hl
      obtain rfl := honly a ha hl
      rw [init_root_child]
      split
      · decide
      · decide
  · intro a ha
    rcases init_reach ha with rfl | rfl | rfl <;> rfl
  · intro a ha
    have hb : 1 ≤ a ∧ a ≤ 3 := of_decide_eq_true ha
    exact Nat.lt_succ_of_le hb.2
  · intro a ha hl
    rcases init_reach ha with rfl | rfl | rfl
    · exact absurd hl hroot
    · rfl
    · rfl
  · intro a ha
    rcases init_reach ha with rfl | rfl | rfl <;> rfl
  · refine ⟨rootRight, ?_, hright, rfl⟩
    have hpath := @init_child κ _ Y P (P.maxKey + 1)
    rw [if_neg (by rw [Y.goes_right _ _ (by omega)]; simp)] at hpath
    exact hpath.reach
  · intro k hk hk'
    refine ⟨fun hmem => absurd hmem (by simp), ?_⟩
    intro hhas
    obtain ⟨a, ha, hl, hak⟩ := hhas
    rcases init_reach ha with rfl | rfl | rfl
    · exact absurd hl hroot
    · change P.minKey - 1 = k at hak
      omega
    · change P.maxKey + 1 = k at hak
      omega
  · intro k hk
    exact absurd hk (by simp)

end Style

end MultiCore.SequentialTree
