/-
  MultiCore.Lib.Routing — leaf-oriented search trees laid out in a heap.

  A `Routing` is what a search sees: which nodes are leaves, the two child
  pointers and the key of every node; keys up to a node's own key are routed
  to its left.  Whether the nodes behind `root` form a search tree is then a
  property of the paths that searches take:

    * `OnPath k a` — the search for `k` comes to `a`;
    * `SearchTree` — every reachable node lies on the path of its own key, has
      one parent, and a rank below its parent's;
    * `exists_tree` — a `SearchTree` is an ordered binary tree in the usual
      inductive sense;
    * `SpliceIn`, `SpliceOut` — the two ways a leaf-oriented tree changes: a
      leaf is replaced by an internal node over it and a new leaf, a leaf is
      removed together with its parent.  Both keep `SearchTree`, and every path
      to a node that stays.

  Nothing here mentions a concrete program.
-/
import Mathlib.Logic.Relation
import Mathlib.Order.Lattice
import Mathlib.Data.List.Nodup

namespace MultiCore.Lib

open Relation

/-! ## §1. Routing and paths. -/

structure Routing (ν κ : Type*) where
  root : ν
  leaf : ν → Prop
  /-- The left (`false`) and the right (`true`) child. -/
  child : ν → Bool → ν
  key : ν → κ

namespace Routing

variable {ν κ : Type*} {G : Routing ν κ} {k : κ} {a b : ν}

def Edge (G : Routing ν κ) (a b : ν) : Prop := ¬ G.leaf a ∧ ∃ d, b = G.child a d

/-- A node is reached below `a`. -/
def Below (G : Routing ν κ) (a b : ν) : Prop := ReflTransGen G.Edge a b

def Reach (G : Routing ν κ) (a : ν) : Prop := G.Below G.root a

theorem Reach.child (h : G.Reach a) (ha : ¬ G.leaf a) (d : Bool) : G.Reach (G.child a d) :=
  ReflTransGen.tail h ⟨ha, d, rfl⟩

variable [LinearOrder κ]

/-- Where the search for `k` goes from `a`. -/
def side (G : Routing ν κ) (k : κ) (a : ν) : Bool := decide (G.key a < k)

def Descend (G : Routing ν κ) (k : κ) (a b : ν) : Prop := ¬ G.leaf a ∧ b = G.child a (G.side k a)

def OnPath (G : Routing ν κ) (k : κ) (a : ν) : Prop := ReflTransGen (G.Descend k) G.root a

theorem OnPath.reach (h : G.OnPath k a) : G.Reach a := by
  induction h with
  | refl => exact ReflTransGen.refl
  | tail _ hbc ih => exact ReflTransGen.tail ih ⟨hbc.1, _, hbc.2⟩

theorem OnPath.descend (h : G.OnPath k a) (ha : ¬ G.leaf a) :
    G.OnPath k (G.child a (G.side k a)) :=
  ReflTransGen.tail h ⟨ha, rfl⟩

/-- A path ends at its first leaf, so it shows one leaf only. -/
theorem OnPath.leaf_unique (ha : G.OnPath k a) (hb : G.OnPath k b) (hla : G.leaf a)
    (hlb : G.leaf b) : a = b := by
  have hdet : Relator.RightUnique (G.Descend k) := by
    intro x y z hy hz
    rw [hy.2, hz.2]
  have hend : ∀ x y, G.leaf x → ReflTransGen (G.Descend k) x y → x = y := by
    intro x y hx hxy
    rcases hxy.cases_head with heq | ⟨z, hxz, _⟩
    · exact heq
    · exact absurd hx hxz.1
  rcases ReflTransGen.total_of_right_unique hdet ha hb with h | h
  · exact hend a b hla h
  · exact (hend b a hlb h).symm

/-! ## §2. Search trees. -/

/-- The nodes behind the root form a leaf-oriented search tree. -/
structure SearchTree (G : Routing ν κ) : Prop where
  unique : ∀ a b d e, G.Reach a → G.Reach b → ¬ G.leaf a → ¬ G.leaf b →
    G.child a d = G.child b e → a = b ∧ d = e
  top : ∀ a d, G.Reach a → ¬ G.leaf a → G.child a d ≠ G.root
  own : ∀ a, G.Reach a → G.OnPath (G.key a) a
  ranked : ∃ rank : ν → ℕ, ∀ a d, G.Reach a → ¬ G.leaf a → rank (G.child a d) < rank a

namespace SearchTree

variable (h : G.SearchTree)
include h

/-- A path to a child comes from the parent. -/
theorem parent_onPath {p : ν} {d : Bool} (hp : G.Reach p) (hl : ¬ G.leaf p)
    (hc : G.OnPath k (G.child p d)) : G.OnPath k p ∧ G.side k p = d := by
  rcases ReflTransGen.cases_tail hc with heq | ⟨b, hb, hbl, hchild⟩
  · exact absurd heq (h.top p d hp hl)
  · obtain ⟨rfl, rfl⟩ := h.unique p b d _ hp (OnPath.reach hb) hl hbl hchild
    exact ⟨hb, rfl⟩

theorem child_ne_self {p : ν} {d : Bool} (hp : G.Reach p) (hl : ¬ G.leaf p) :
    G.child p d ≠ p := by
  obtain ⟨rank, hrank⟩ := h.ranked
  intro heq
  have := hrank p d hp hl
  rw [heq] at this
  exact lt_irrefl _ this

/-- Two reachable leaves with one key are one leaf. -/
theorem leaf_eq_of_key_eq (ha : G.Reach a) (hb : G.Reach b) (hla : G.leaf a) (hlb : G.leaf b)
    (hk : G.key a = G.key b) : a = b := by
  have hpa := h.own a ha
  have hpb := h.own b hb
  rw [← hk] at hpb
  exact hpa.leaf_unique hpb hla hlb

end SearchTree

/-! ## §3. The same tree in another heap. -/

/-- `G'` and `G` agree on the nodes behind the root of `G`. -/
structure Agrees (G G' : Routing ν κ) : Prop where
  root : G'.root = G.root
  leaf : ∀ a, G.Reach a → (G'.leaf a ↔ G.leaf a)
  child : ∀ a d, G.Reach a → ¬ G.leaf a → G'.child a d = G.child a d
  key : ∀ a, G.Reach a → G'.key a = G.key a

namespace Agrees

variable {G' : Routing ν κ} (hg : Agrees G G')
include hg

omit [LinearOrder κ] in
theorem reach_iff : G'.Reach a ↔ G.Reach a := by
  constructor
  · intro ha
    induction ha with
    | refl =>
        rw [hg.root]
        exact ReflTransGen.refl
    | tail _ hbc ih =>
        obtain ⟨hl, d, rfl⟩ := hbc
        have hl' := fun h => hl ((hg.leaf _ ih).mpr h)
        rw [hg.child _ d ih hl']
        exact ih.child hl' d
  · intro ha
    induction ha with
    | refl =>
        rw [← hg.root]
        exact ReflTransGen.refl
    | tail hb hbc ih =>
        obtain ⟨hl, d, rfl⟩ := hbc
        rw [← hg.child _ d hb hl]
        exact ih.child (fun h => hl ((hg.leaf _ hb).mp h)) d

theorem onPath (ha : G.OnPath k a) : G'.OnPath k a := by
  induction ha with
  | refl =>
      rw [← hg.root]
      exact ReflTransGen.refl
  | @tail b c hb hbc ih =>
      obtain ⟨hl, rfl⟩ := hbc
      have hbr : G.Reach b := OnPath.reach hb
      have hstep := ih.descend (fun h => hl ((hg.leaf b hbr).mp h))
      have hside : G'.side k b = G.side k b := by
        unfold side
        rw [hg.key b hbr]
      rw [hside, hg.child b _ hbr hl] at hstep
      exact hstep

theorem searchTree (h : G.SearchTree) : G'.SearchTree := by
  have hold : ∀ {b}, G'.Reach b → ¬ G'.leaf b → G.Reach b ∧ ¬ G.leaf b := by
    intro b hb hl
    have hb' := hg.reach_iff.mp hb
    exact ⟨hb', fun h => hl ((hg.leaf b hb').mpr h)⟩
  refine ⟨?_, ?_, ?_, ?_⟩
  · intro a b d e ha hb hla hlb heq
    obtain ⟨ha', hla'⟩ := hold ha hla
    obtain ⟨hb', hlb'⟩ := hold hb hlb
    rw [hg.child a d ha' hla', hg.child b e hb' hlb'] at heq
    exact h.unique a b d e ha' hb' hla' hlb' heq
  · intro a d ha hla
    obtain ⟨ha', hla'⟩ := hold ha hla
    rw [hg.child a d ha' hla', hg.root]
    exact h.top a d ha' hla'
  · intro a ha
    have ha' := hg.reach_iff.mp ha
    rw [hg.key a ha']
    exact hg.onPath (h.own a ha')
  · obtain ⟨rank, hrank⟩ := h.ranked
    refine ⟨rank, ?_⟩
    intro a d ha hla
    obtain ⟨ha', hla'⟩ := hold ha hla
    rw [hg.child a d ha' hla']
    exact hrank a d ha' hla'

end Agrees

end Routing

/-! ## §4. The tree itself. -/

/-- A leaf-oriented binary tree. -/
inductive KeyTree (κ : Type*) where
  | leaf (k : κ)
  | node (k : κ) (l r : KeyTree κ)

namespace KeyTree

variable {κ : Type*}

/-- The keys in the leaves, from left to right. -/
def leaves : KeyTree κ → List κ
  | leaf k => [k]
  | node _ l r => l.leaves ++ r.leaves

def keys : KeyTree κ → List κ
  | leaf k => [k]
  | node k l r => k :: (l.keys ++ r.keys)

/-- Left keys `≤` node key `<` right keys, at every node. -/
def Ordered [LinearOrder κ] : KeyTree κ → Prop
  | leaf _ => True
  | node k l r => (∀ x ∈ l.keys, x ≤ k) ∧ (∀ x ∈ r.keys, k < x) ∧ l.Ordered ∧ r.Ordered

theorem leaves_subset_keys (t : KeyTree κ) : t.leaves ⊆ t.keys := by
  induction t with
  | leaf k => exact fun _ hx => hx
  | node k l r ihl ihr =>
      intro x hx
      show x ∈ k :: (l.keys ++ r.keys)
      rcases List.mem_append.mp hx with hl | hr
      · exact List.mem_cons_of_mem _ (List.mem_append_left _ (ihl hl))
      · exact List.mem_cons_of_mem _ (List.mem_append_right _ (ihr hr))

/-- No leaf key occurs twice in an ordered tree. -/
theorem Ordered.nodup_leaves [LinearOrder κ] :
    ∀ {t : KeyTree κ}, t.Ordered → t.leaves.Nodup
  | leaf k, _ => List.nodup_singleton k
  | node k l r, ⟨hl, hr, hol, hor⟩ => by
      show (l.leaves ++ r.leaves).Nodup
      refine List.nodup_append.mpr ⟨hol.nodup_leaves, hor.nodup_leaves, ?_⟩
      intro x hx y hy heq
      have h₁ := hl x (leaves_subset_keys l hx)
      have h₂ := hr y (leaves_subset_keys r hy)
      rw [heq] at h₁
      exact absurd h₂ (not_lt.mpr h₁)

end KeyTree

namespace Routing

variable {ν κ : Type*} {G : Routing ν κ} {k : κ} {a b : ν}

/-- The tree `t` hangs at node `a`. -/
def Represents (G : Routing ν κ) : ν → KeyTree κ → Prop
  | a, .leaf k => G.leaf a ∧ G.key a = k
  | a, .node k l r =>
      ¬ G.leaf a ∧ G.key a = k ∧ G.Represents (G.child a false) l ∧ G.Represents (G.child a true) r

theorem Represents.exists_of_mem_keys :
    ∀ {t : KeyTree κ} {a : ν}, G.Represents a t → ∀ x ∈ t.keys, ∃ b, G.Below a b ∧ G.key b = x
  | .leaf k, a, ht, x, hx => by
      obtain rfl : x = k := by simpa [KeyTree.keys] using hx
      exact ⟨a, ReflTransGen.refl, ht.2⟩
  | .node k l r, a, ht, x, hx => by
      obtain ⟨hl, hk, htl, htr⟩ := ht
      rcases List.mem_cons.mp hx with heq | hmem
      · exact ⟨a, ReflTransGen.refl, by rw [hk, heq]⟩
      · rcases List.mem_append.mp hmem with hm | hm
        · obtain ⟨b, hb, hbx⟩ := Represents.exists_of_mem_keys htl x hm
          exact ⟨b, ReflTransGen.head ⟨hl, false, rfl⟩ hb, hbx⟩
        · obtain ⟨b, hb, hbx⟩ := Represents.exists_of_mem_keys htr x hm
          exact ⟨b, ReflTransGen.head ⟨hl, true, rfl⟩ hb, hbx⟩

/-- The leaves of the tree are the leaves below its node. -/
theorem Represents.mem_leaves_iff :
    ∀ {t : KeyTree κ} {a : ν}, G.Represents a t → ∀ x,
      x ∈ t.leaves ↔ ∃ b, G.Below a b ∧ G.leaf b ∧ G.key b = x
  | .leaf k, a, ht, x => by
      constructor
      · intro hx
        obtain rfl : x = k := by simpa [KeyTree.leaves] using hx
        exact ⟨a, ReflTransGen.refl, ht⟩
      · intro hx
        obtain ⟨b, hab, -, hkey⟩ := hx
        rcases ReflTransGen.cases_head hab with rfl | ⟨c, hac, _⟩
        · rw [ht.2] at hkey
          simp [KeyTree.leaves, hkey]
        · exact absurd ht.1 hac.1
  | .node k l r, a, ht, x => by
      obtain ⟨hl, hk, htl, htr⟩ := ht
      show x ∈ l.leaves ++ r.leaves ↔ _
      rw [List.mem_append, Represents.mem_leaves_iff htl, Represents.mem_leaves_iff htr]
      constructor
      · intro hx
        rcases hx with ⟨b, hb, hbl⟩ | ⟨b, hb, hbl⟩
        · exact ⟨b, ReflTransGen.head ⟨hl, false, rfl⟩ hb, hbl⟩
        · exact ⟨b, ReflTransGen.head ⟨hl, true, rfl⟩ hb, hbl⟩
      · intro hx
        obtain ⟨b, hab, hbl, hkey⟩ := hx
        rcases ReflTransGen.cases_head hab with rfl | ⟨c, ⟨_, d, rfl⟩, hcb⟩
        · exact absurd hbl hl
        · cases d with
          | false => exact Or.inl ⟨b, hcb, hbl, hkey⟩
          | true => exact Or.inr ⟨b, hcb, hbl, hkey⟩

namespace SearchTree

variable [LinearOrder κ] (h : G.SearchTree)
include h

/-- A path to a node below `a` passes through `a`. -/
theorem onPath_of_below (ha : G.Reach a) (hab : G.Below a b) (hb : G.OnPath k b) :
    G.OnPath k a := by
  induction hab with
  | refl => exact hb
  | tail hac hcb ih =>
      obtain ⟨hl, d, rfl⟩ := hcb
      exact ih (h.parent_onPath (ReflTransGen.trans ha hac) hl hb).1

/-- The keys below the child on side `d` are routed to side `d`. -/
theorem side_of_below {d : Bool} (ha : G.Reach a) (hl : ¬ G.leaf a)
    (hb : G.Below (G.child a d) b) : G.side (G.key b) a = d := by
  have hreach : G.Reach (G.child a d) := ha.child hl d
  have hown := h.own b (ReflTransGen.trans hreach hb)
  exact (h.parent_onPath ha hl (h.onPath_of_below hreach hb hown)).2

theorem represents_ordered :
    ∀ {t : KeyTree κ} {a : ν}, G.Reach a → G.Represents a t → t.Ordered
  | .leaf _, _, _, _ => trivial
  | .node k l r, a, ha, ht => by
      obtain ⟨hl, hk, htl, htr⟩ := ht
      refine ⟨?_, ?_, represents_ordered (ha.child hl false) htl,
        represents_ordered (ha.child hl true) htr⟩
      · intro x hx
        obtain ⟨b, hb, rfl⟩ := htl.exists_of_mem_keys x hx
        have hside := h.side_of_below ha hl hb
        unfold side at hside
        rw [decide_eq_false_iff_not, hk] at hside
        exact not_lt.mp hside
      · intro x hx
        obtain ⟨b, hb, rfl⟩ := htr.exists_of_mem_keys x hx
        have hside := h.side_of_below ha hl hb
        unfold side at hside
        rw [decide_eq_true_eq, hk] at hside
        exact hside

/-- **A search tree in the heap is an ordered binary tree.** -/
theorem exists_tree : ∃ t : KeyTree κ, G.Represents G.root t ∧ t.Ordered := by
  obtain ⟨rank, hrank⟩ := h.ranked
  have hbuild : ∀ (n : ℕ) (a : ν), rank a < n → G.Reach a → ∃ t, G.Represents a t := by
    intro n
    induction n with
    | zero =>
        intro a hlt
        exact absurd hlt (Nat.not_lt_zero _)
    | succ n ih =>
        intro a hlt ha
        by_cases hl : G.leaf a
        · exact ⟨.leaf (G.key a), hl, rfl⟩
        · have hless : ∀ d, rank (G.child a d) < n := by
            intro d
            have := hrank a d ha hl
            omega
          obtain ⟨l, htl⟩ := ih _ (hless false) (ha.child hl false)
          obtain ⟨r, htr⟩ := ih _ (hless true) (ha.child hl true)
          exact ⟨.node (G.key a) l r, hl, rfl, htl, htr⟩
  obtain ⟨t, ht⟩ := hbuild _ G.root (Nat.lt_succ_self _) ReflTransGen.refl
  exact ⟨t, ht, h.represents_ordered ReflTransGen.refl ht⟩

end SearchTree

/-! ## §5. Splicing a leaf in. -/

variable [LinearOrder κ]

/-- `G'` has, in the place of leaf `n` (child `d` of `p`), the internal node
`n₁` over `n` and the new leaf `na`, whose key is routed to that place. -/
structure SpliceIn (G G' : Routing ν κ) (p : ν) (d : Bool) (n n₁ na : ν) : Prop where
  root : G'.root = G.root
  key : ∀ a, a ≠ n₁ → a ≠ na → G'.key a = G.key a
  leaf : ∀ a, a ≠ n₁ → a ≠ na → (G'.leaf a ↔ G.leaf a)
  child : ∀ a e, a ≠ n₁ → a ≠ na → (a, e) ≠ (p, d) → G'.child a e = G.child a e
  parent : G.OnPath (G'.key na) p
  routed : G.side (G'.key na) p = d
  internal : ¬ G.leaf p
  at_leaf : G.child p d = n
  is_leaf : G.leaf n
  fresh : ¬ G.Reach n₁
  fresh_leaf : ¬ G.Reach na
  ne : n₁ ≠ na
  linked : G'.child p d = n₁
  new_internal : ¬ G'.leaf n₁
  new_leaf : G'.leaf na
  new_key : G'.key n₁ = G'.key na ∨ G'.key n₁ = G.key n
  new_child : G'.child n₁ (G'.side (G'.key na) n₁) = na
  old_child : G'.child n₁ (G'.side (G.key n) n₁) = n
  apart : G'.side (G'.key na) n₁ ≠ G'.side (G.key n) n₁

namespace SpliceIn

variable {G' : Routing ν κ} {p n n₁ na : ν} {d : Bool} (hs : SpliceIn G G' p d n n₁ na)
include hs

theorem ne_of_reach (ha : G.Reach a) : a ≠ n₁ ∧ a ≠ na := by
  constructor
  · intro heq
    exact hs.fresh (heq ▸ ha)
  · intro heq
    exact hs.fresh_leaf (heq ▸ ha)

theorem side_eq (ha : G.Reach a) (k : κ) : G'.side k a = G.side k a := by
  have hne := hs.ne_of_reach ha
  unfold side
  rw [hs.key a hne.1 hne.2]

/-- Every path keeps its nodes, but for the leaf `n`. -/
theorem onPath (h : G.OnPath k a) (ha : a ≠ n) : G'.OnPath k a := by
  induction h with
  | refl =>
      rw [← hs.root]
      exact ReflTransGen.refl
  | @tail b c hb hbc ih =>
      obtain ⟨hl, rfl⟩ := hbc
      have hreach : G.Reach b := OnPath.reach hb
      have hne := hs.ne_of_reach hreach
      have hbn : b ≠ n := fun heq => hl (heq ▸ hs.is_leaf)
      have hedge : (b, G.side k b) ≠ (p, d) := by
        intro heq
        rw [Prod.mk.injEq] at heq
        rw [heq.2, heq.1] at ha
        exact ha hs.at_leaf
      have hstep := (ih hbn).descend (fun hl' => hl ((hs.leaf b hne.1 hne.2).mp hl'))
      rw [hs.side_eq hreach, hs.child b _ hne.1 hne.2 hedge] at hstep
      exact hstep

theorem reach_parent : G.Reach p := OnPath.reach hs.parent

theorem reach_leaf : G.Reach n := by
  have hr := hs.reach_parent.child hs.internal d
  rw [hs.at_leaf] at hr
  exact hr

/-- The new internal node is on the path of every key routed to its place. -/
theorem onPath_new (hp : G.OnPath k p) (hside : G.side k p = d) : G'.OnPath k n₁ := by
  have hpr := hs.reach_parent
  have hne := hs.ne_of_reach hpr
  have hpn : p ≠ n := fun heq => hs.internal (heq ▸ hs.is_leaf)
  have hstep := (hs.onPath hp hpn).descend
    (fun hl' => hs.internal ((hs.leaf p hne.1 hne.2).mp hl'))
  rw [hs.side_eq hpr, hside, hs.linked] at hstep
  exact hstep

variable (h : G.SearchTree)
include h

theorem leaf_parent : G.OnPath (G.key n) p ∧ G.side (G.key n) p = d := by
  have hown := h.own n hs.reach_leaf
  apply h.parent_onPath hs.reach_parent hs.internal
  rw [hs.at_leaf]
  exact hown

theorem reach_iff : G'.Reach a ↔ G.Reach a ∨ a = n₁ ∨ a = na := by
  have hpath₁ := hs.onPath_new hs.parent hs.routed
  constructor
  · intro ha
    induction ha with
    | refl =>
        rw [hs.root]
        exact Or.inl ReflTransGen.refl
    | @tail b c _ hbc ih =>
        obtain ⟨hl, e, rfl⟩ := hbc
        rcases ih with hb | rfl | rfl
        · have hne := hs.ne_of_reach hb
          by_cases hedge : (b, e) = (p, d)
          · rw [Prod.mk.injEq] at hedge
            rw [hedge.1, hedge.2, hs.linked]
            exact Or.inr (Or.inl rfl)
          · rw [hs.child b e hne.1 hne.2 hedge]
            exact Or.inl (hb.child (fun hl' => hl ((hs.leaf b hne.1 hne.2).mpr hl')) e)
        · -- the two children of the new node
          by_cases he : e = G'.side (G'.key na) b
          · rw [he, hs.new_child]
            exact Or.inr (Or.inr rfl)
          · have he' : e = G'.side (G.key n) b := by
              have hapart := hs.apart
              revert he hapart
              cases e <;> cases G'.side (G'.key na) b <;> cases G'.side (G.key n) b <;> simp
            rw [he', hs.old_child]
            exact Or.inl hs.reach_leaf
        · exact absurd hs.new_leaf hl
  · intro ha
    rcases ha with ha | rfl | rfl
    · by_cases han : a = n
      · rw [han, ← hs.old_child]
        exact (OnPath.reach hpath₁).child hs.new_internal _
      · exact OnPath.reach (hs.onPath (h.own a ha) han)
    · exact OnPath.reach hpath₁
    · have hr := (OnPath.reach hpath₁).child hs.new_internal (G'.side (G'.key a) n₁)
      rw [hs.new_child] at hr
      exact hr

/-- **The result is a search tree.** -/
theorem searchTree : G'.SearchTree := by
  have hpr := hs.reach_parent
  have hnr := hs.reach_leaf
  have hn := hs.ne_of_reach hnr
  have hnn : ¬ G'.leaf n₁ := hs.new_internal
  have hleafpar := hs.leaf_parent h
  -- an old internal node of `G'`
  have hold : ∀ b, G.Reach b → ¬ G'.leaf b → ¬ G.leaf b := by
    intro b hb hl hl'
    have hne := hs.ne_of_reach hb
    exact hl ((hs.leaf b hne.1 hne.2).mpr hl')
  -- where the edges of `G'` lead
  have hedge : ∀ b e, G.Reach b → ¬ G.leaf b →
      (b = p ∧ e = d ∧ G'.child b e = n₁)
        ∨ ((b, e) ≠ (p, d) ∧ G'.child b e = G.child b e ∧ G.child b e ≠ n) := by
    intro b e hb hl
    have hne := hs.ne_of_reach hb
    by_cases hpd : (b, e) = (p, d)
    · rw [Prod.mk.injEq] at hpd
      exact Or.inl ⟨hpd.1, hpd.2, by rw [hpd.1, hpd.2, hs.linked]⟩
    · refine Or.inr ⟨hpd, hs.child b e hne.1 hne.2 hpd, ?_⟩
      intro heq
      rw [← hs.at_leaf] at heq
      obtain ⟨h₁, h₂⟩ := h.unique b p e d hb hpr hl hs.internal heq
      exact hpd (by rw [h₁, h₂])
  have hnew : ∀ e, G'.child n₁ e = na ∧ e = G'.side (G'.key na) n₁
      ∨ G'.child n₁ e = n ∧ e = G'.side (G.key n) n₁ := by
    intro e
    by_cases he : e = G'.side (G'.key na) n₁
    · exact Or.inl ⟨by rw [he, hs.new_child], he⟩
    · have he' : e = G'.side (G.key n) n₁ := by
        have hapart := hs.apart
        revert he hapart
        cases e <;> cases G'.side (G'.key na) n₁ <;> cases G'.side (G.key n) n₁ <;> simp
      exact Or.inr ⟨by rw [he', hs.old_child], he'⟩
  refine ⟨?_, ?_, ?_, ?_⟩
  · -- ===== one parent =====
    intro a b e f ha hb hla hlb heq
    rcases (hs.reach_iff h).mp ha with ha | rfl | rfl
    · rcases (hs.reach_iff h).mp hb with hb | rfl | rfl
      · have hca := (ha.child (hold a ha hla) e)
        have hcb := (hb.child (hold b hb hlb) f)
        rcases hedge a e ha (hold a ha hla) with ⟨h₁, h₂, h₃⟩ | ⟨h₁, h₂, h₃⟩
        · rcases hedge b f hb (hold b hb hlb) with ⟨h₄, h₅, h₆⟩ | ⟨h₄, h₅, h₆⟩
          · exact ⟨by rw [h₁, h₄], by rw [h₂, h₅]⟩
          · rw [h₃, h₅] at heq
            exact absurd (heq ▸ hcb) hs.fresh
        · rcases hedge b f hb (hold b hb hlb) with ⟨h₄, h₅, h₆⟩ | ⟨h₄, h₅, h₆⟩
          · rw [h₂, h₆] at heq
            exact absurd (heq ▸ hca) hs.fresh
          · rw [h₂, h₅] at heq
            exact h.unique a b e f ha hb (hold a ha hla) (hold b hb hlb) heq
      · -- an old parent against the new one
        exfalso
        rcases hedge a e ha (hold a ha hla) with ⟨_, _, h₃⟩ | ⟨_, h₂, h₃⟩
        · rw [h₃] at heq
          rcases hnew f with ⟨h₄, _⟩ | ⟨h₄, _⟩
          · exact hs.ne (heq.trans h₄)
          · exact hn.1 (heq.trans h₄).symm
        · have hca := ha.child (hold a ha hla) e
          rw [h₂] at heq
          rcases hnew f with ⟨h₄, _⟩ | ⟨h₄, _⟩
          · exact hs.fresh_leaf ((heq.trans h₄) ▸ hca)
          · exact h₃ (heq.trans h₄)
      · exact absurd hs.new_leaf hlb
    · rcases (hs.reach_iff h).mp hb with hb | rfl | rfl
      · exfalso
        rcases hedge b f hb (hold b hb hlb) with ⟨_, _, h₃⟩ | ⟨_, h₂, h₃⟩
        · rw [h₃] at heq
          rcases hnew e with ⟨h₄, _⟩ | ⟨h₄, _⟩
          · exact hs.ne (heq.symm.trans h₄)
          · exact hn.1 (heq.symm.trans h₄).symm
        · have hcb := hb.child (hold b hb hlb) f
          rw [h₂] at heq
          rcases hnew e with ⟨h₄, _⟩ | ⟨h₄, _⟩
          · exact hs.fresh_leaf ((heq.symm.trans h₄) ▸ hcb)
          · exact h₃ (heq.symm.trans h₄)
      · refine ⟨rfl, ?_⟩
        rcases hnew e with ⟨h₁, h₂⟩ | ⟨h₁, h₂⟩
        · rcases hnew f with ⟨h₃, h₄⟩ | ⟨h₃, h₄⟩
          · rw [h₂, h₄]
          · exact absurd (h₁.symm.trans (heq.trans h₃)) (Ne.symm hn.2)
        · rcases hnew f with ⟨h₃, h₄⟩ | ⟨h₃, h₄⟩
          · exact absurd (h₁.symm.trans (heq.trans h₃)) hn.2
          · rw [h₂, h₄]
      · exact absurd hs.new_leaf hlb
    · exact absurd hs.new_leaf hla
  · -- ===== the root has none =====
    intro a e ha hla
    rw [hs.root]
    have hrootne := hs.ne_of_reach (ReflTransGen.refl : G.Reach G.root)
    rcases (hs.reach_iff h).mp ha with ha | rfl | rfl
    · rcases hedge a e ha (hold a ha hla) with ⟨_, _, h₃⟩ | ⟨_, h₂, _⟩
      · rw [h₃]
        exact Ne.symm hrootne.1
      · rw [h₂]
        exact h.top a e ha (hold a ha hla)
    · rcases hnew e with ⟨h₁, _⟩ | ⟨h₁, _⟩
      · rw [h₁]
        exact Ne.symm hrootne.2
      · rw [h₁, ← hs.at_leaf]
        exact h.top p d hpr hs.internal
    · exact absurd hs.new_leaf hla
  · -- ===== every node is on the path of its key =====
    intro a ha
    have hnpath : G'.OnPath (G.key n) n₁ := hs.onPath_new hleafpar.1 hleafpar.2
    have hkpath : G'.OnPath (G'.key na) n₁ := hs.onPath_new hs.parent hs.routed
    rcases (hs.reach_iff h).mp ha with ha | rfl | rfl
    · have hne := hs.ne_of_reach ha
      rw [hs.key a hne.1 hne.2]
      by_cases han : a = n
      · have hstep := hnpath.descend hnn
        rw [hs.old_child] at hstep
        rw [han]
        exact hstep
      · exact hs.onPath (h.own a ha) han
    · rcases hs.new_key with hk | hk
      · rw [hk]
        exact hkpath
      · rw [hk]
        exact hnpath
    · have hstep := hkpath.descend hnn
      rw [hs.new_child] at hstep
      exact hstep
  · -- ===== ranks: the new node goes between `p` and `n` =====
    classical
    obtain ⟨rank, hrank⟩ := h.ranked
    have hlt : rank n < rank p := by
      have := hrank p d hpr hs.internal
      rw [hs.at_leaf] at this
      exact this
    refine ⟨fun a => if a = n₁ then 3 * rank n + 1 else if a = na then 0 else 3 * rank a, ?_⟩
    have hrankOld : ∀ a, G.Reach a →
        (if a = n₁ then 3 * rank n + 1 else if a = na then 0 else 3 * rank a) = 3 * rank a := by
      intro a ha
      have hne := hs.ne_of_reach ha
      rw [if_neg hne.1, if_neg hne.2]
    intro a e ha hla
    rcases (hs.reach_iff h).mp ha with ha | rfl | rfl
    · simp only [hrankOld a ha]
      rcases hedge a e ha (hold a ha hla) with ⟨h₁, _, h₃⟩ | ⟨_, h₂, _⟩
      · rw [h₃, h₁, if_pos rfl]
        omega
      · rw [h₂, hrankOld _ (ha.child (hold a ha hla) e)]
        have := hrank a e ha (hold a ha hla)
        omega
    · simp only [if_pos]
      rcases hnew e with ⟨h₁, _⟩ | ⟨h₁, _⟩
      · rw [h₁, if_neg (Ne.symm hs.ne), if_pos rfl]
        omega
      · rw [h₁, hrankOld n hnr]
        omega
    · exact absurd hs.new_leaf hla

end SpliceIn

/-! ## §6. Splicing a leaf out. -/

/-- `G'` has, in the place of `p` (child `d` of `g`), the node `s`: the child of
`p` that is not the leaf `n`. -/
structure SpliceOut (G G' : Routing ν κ) (g : ν) (d : Bool) (p : ν) (e : Bool) (n s : ν) : Prop where
  root : G'.root = G.root
  key : ∀ a, G'.key a = G.key a
  leaf : ∀ a, G'.leaf a ↔ G.leaf a
  child : ∀ a f, (a, f) ≠ (g, d) → G'.child a f = G.child a f
  parent : G.Reach g
  internal : ¬ G.leaf g
  at_parent : G.child g d = p
  parent_internal : ¬ G.leaf p
  at_leaf : G.child p e = n
  is_leaf : G.leaf n
  sibling : G.child p (!e) = s
  linked : G'.child g d = s

namespace SpliceOut

variable {G' : Routing ν κ} {g p n s : ν} {d e : Bool} (hs : SpliceOut G G' g d p e n s)
include hs

theorem side_eq (k : κ) (a : ν) : G'.side k a = G.side k a := by
  unfold side
  rw [hs.key a]

omit [LinearOrder κ] in
theorem reach_parent : G.Reach p := by
  have hr := hs.parent.child hs.internal d
  rw [hs.at_parent] at hr
  exact hr

variable (h : G.SearchTree)
include h

theorem parent_ne : p ≠ g := by
  have hne := h.child_ne_self (d := d) hs.parent hs.internal
  rw [hs.at_parent] at hne
  exact hne

/-- The only edges to `p` and to `n` are the ones of the splice. -/
theorem edge_to_parent {a : ν} {f : Bool} (ha : G.Reach a) (hl : ¬ G.leaf a)
    (heq : G.child a f = p) : (a, f) = (g, d) := by
  rw [← hs.at_parent] at heq
  obtain ⟨h₁, h₂⟩ := h.unique a g f d ha hs.parent hl hs.internal heq
  rw [h₁, h₂]

theorem edge_to_leaf {a : ν} {f : Bool} (ha : G.Reach a) (hl : ¬ G.leaf a)
    (heq : G.child a f = n) : (a, f) = (p, e) := by
  rw [← hs.at_leaf] at heq
  obtain ⟨h₁, h₂⟩ := h.unique a p f e ha hs.reach_parent hl hs.parent_internal heq
  rw [h₁, h₂]

theorem sibling_ne : s ≠ p ∧ s ≠ n := by
  constructor
  · intro heq
    rw [← hs.sibling] at heq
    have hedge := hs.edge_to_parent h hs.reach_parent hs.parent_internal heq
    rw [Prod.mk.injEq] at hedge
    exact hs.parent_ne h hedge.1
  · intro heq
    rw [← hs.sibling] at heq
    have hedge := hs.edge_to_leaf h hs.reach_parent hs.parent_internal heq
    rw [Prod.mk.injEq] at hedge
    exact Bool.not_ne_self e hedge.2

/-- Every path keeps its nodes, but for `p` and `n`; a path through `p` comes
from `g`. -/
theorem onPath (ha : G.OnPath k a) :
    (a = p → G'.OnPath k g ∧ G.side k g = d) ∧ (a ≠ p → a ≠ n → G'.OnPath k a) := by
  induction ha with
  | refl =>
      constructor
      · intro heq
        have htop := h.top g d hs.parent hs.internal
        rw [hs.at_parent] at htop
        exact absurd heq.symm htop
      · intro _ _
        rw [← hs.root]
        exact ReflTransGen.refl
  | @tail b c hb hbc ih =>
      obtain ⟨hl, rfl⟩ := hbc
      have hbr : G.Reach b := OnPath.reach hb
      have hbn : b ≠ n := fun heq => hl (heq ▸ hs.is_leaf)
      constructor
      · intro heq
        have hedge := hs.edge_to_parent h hbr hl heq
        rw [Prod.mk.injEq] at hedge
        obtain ⟨rfl, hside⟩ := hedge
        exact ⟨ih.2 (Ne.symm (hs.parent_ne h)) hbn, hside⟩
      · intro hcp hcn
        by_cases hbp : b = p
        · -- below `p` the path went to the sibling, which now hangs under `g`
          obtain ⟨hg, hgside⟩ := ih.1 hbp
          have hside : G.side k b = !e := by
            by_contra hne
            apply hcn
            rw [hbp] at hne ⊢
            rw [← hs.at_leaf]
            congr 1
            revert hne
            cases G.side k p <;> cases e <;> simp
          have hstep := hg.descend (fun hl' => hs.internal ((hs.leaf g).mp hl'))
          rw [hs.side_eq, hgside, hs.linked] at hstep
          rw [hside, hbp, hs.sibling]
          exact hstep
        · have hedge : (b, G.side k b) ≠ (g, d) := by
            intro heq
            rw [Prod.mk.injEq] at heq
            apply hcp
            rw [heq.2, heq.1, hs.at_parent]
          have hstep := (ih.2 hbp hbn).descend (fun hl' => hl ((hs.leaf b).mp hl'))
          rw [hs.side_eq, hs.child b _ hedge] at hstep
          exact hstep

theorem reach_iff : G'.Reach a ↔ G.Reach a ∧ a ≠ p ∧ a ≠ n := by
  constructor
  · intro ha
    induction ha with
    | refl =>
        rw [hs.root]
        refine ⟨ReflTransGen.refl, ?_, ?_⟩
        · intro heq
          have htop := h.top g d hs.parent hs.internal
          rw [hs.at_parent] at htop
          exact htop heq.symm
        · intro heq
          have htop := h.top p e hs.reach_parent hs.parent_internal
          rw [hs.at_leaf] at htop
          exact htop heq.symm
    | @tail b c _ hbc ih =>
        obtain ⟨hl, f, rfl⟩ := hbc
        obtain ⟨hb, hbp, _⟩ := ih
        have hbl : ¬ G.leaf b := fun hl' => hl ((hs.leaf b).mpr hl')
        by_cases hedge : (b, f) = (g, d)
        · rw [Prod.mk.injEq] at hedge
          rw [hedge.1, hedge.2, hs.linked]
          refine ⟨?_, hs.sibling_ne h⟩
          rw [← hs.sibling]
          exact hs.reach_parent.child hs.parent_internal _
        · rw [hs.child b f hedge]
          refine ⟨hb.child hbl f, fun heq => hedge (hs.edge_to_parent h hb hbl heq), ?_⟩
          intro heq
          have := hs.edge_to_leaf h hb hbl heq
          rw [Prod.mk.injEq] at this
          exact hbp this.1
  · intro ha
    exact OnPath.reach ((hs.onPath h (h.own a ha.1)).2 ha.2.1 ha.2.2)

/-- **The result is a search tree.** -/
theorem searchTree : G'.SearchTree := by
  have hold : ∀ b, ¬ G'.leaf b → ¬ G.leaf b := fun b hl hl' => hl ((hs.leaf b).mpr hl')
  have hsib := hs.reach_parent.child hs.parent_internal (!e)
  -- an edge of `G'` is an edge of `G`, or the new one to the sibling of a removed edge
  have hedge : ∀ b f, G'.Reach b → ¬ G'.leaf b →
      (b = g ∧ f = d ∧ G'.child b f = G.child p (!e))
        ∨ ((b, f) ≠ (g, d) ∧ G'.child b f = G.child b f ∧ G.child b f ≠ G.child p (!e)) := by
    intro b f hb hl
    obtain ⟨hbr, hbp, _⟩ := (hs.reach_iff h).mp hb
    by_cases hgd : (b, f) = (g, d)
    · rw [Prod.mk.injEq] at hgd
      exact Or.inl ⟨hgd.1, hgd.2, by rw [hgd.1, hgd.2, hs.linked, hs.sibling]⟩
    · refine Or.inr ⟨hgd, hs.child b f hgd, ?_⟩
      intro heq
      exact hbp (h.unique b p f _ hbr hs.reach_parent (hold b hl) hs.parent_internal heq).1
  refine ⟨?_, ?_, ?_, ?_⟩
  · intro a b f f' ha hb hla hlb heq
    have har := ((hs.reach_iff h).mp ha).1
    have hbr := ((hs.reach_iff h).mp hb).1
    rcases hedge a f ha hla with ⟨h₁, h₂, h₃⟩ | ⟨_, h₂, h₃⟩
    · rcases hedge b f' hb hlb with ⟨h₄, h₅, _⟩ | ⟨_, h₅, h₆⟩
      · exact ⟨by rw [h₁, h₄], by rw [h₂, h₅]⟩
      · rw [h₃, h₅] at heq
        exact absurd heq.symm h₆
    · rcases hedge b f' hb hlb with ⟨_, _, h₆⟩ | ⟨_, h₅, _⟩
      · rw [h₂, h₆] at heq
        exact absurd heq h₃
      · rw [h₂, h₅] at heq
        exact h.unique a b f f' har hbr (hold a hla) (hold b hlb) heq
  · intro a f ha hla
    rw [hs.root]
    have har := ((hs.reach_iff h).mp ha).1
    rcases hedge a f ha hla with ⟨_, _, h₃⟩ | ⟨_, h₂, _⟩
    · rw [h₃]
      exact h.top p _ hs.reach_parent hs.parent_internal
    · rw [h₂]
      exact h.top a f har (hold a hla)
  · intro a ha
    obtain ⟨har, hap, han⟩ := (hs.reach_iff h).mp ha
    rw [hs.key a]
    exact (hs.onPath h (h.own a har)).2 hap han
  · obtain ⟨rank, hrank⟩ := h.ranked
    refine ⟨rank, ?_⟩
    intro a f ha hla
    have har := ((hs.reach_iff h).mp ha).1
    rcases hedge a f ha hla with ⟨h₁, _, h₃⟩ | ⟨_, h₂, _⟩
    · have hp := hrank p (!e) hs.reach_parent hs.parent_internal
      have hg := hrank g d hs.parent hs.internal
      rw [hs.at_parent] at hg
      rw [h₃, h₁]
      exact hp.trans hg
    · rw [h₂]
      exact hrank a f har (hold a hla)

end SpliceOut

end Routing

end MultiCore.Lib
