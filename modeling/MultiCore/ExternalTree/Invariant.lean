/-
  MultiCore.ExternalTree.Invariant — the tree invariant.

  The nodes behind `root` are a search tree (`Lib.Routing.SearchTree`), a
  published node is unmarked exactly when it is reachable, and the nodes that
  have been spliced out keep the child pointers they had.  A search that is
  overtaken may walk through such nodes; `Leads` is what it keeps: the route of
  its key from where it stands runs back into the tree.  An insert then splices
  its leaf in at the right place, because its k-CAS succeeds on an unmarked
  parent only.

  An erase chooses the fields `sibling` and `node` by two reads of `p->left`.
  When both name `p->left`, the descriptor does not contain `p->right`, and
  `help` accepts the second entry without comparing.  `CapturesSibling` is the
  condition that such a k-CAS still finds `sib` in `p->right`; every run that
  meets it keeps the invariant.
-/
import MultiCore.ExternalTree.Model

namespace MultiCore.ExternalTree

open MultiCore.Lib MultiCore.Kcas

/-! ## §1. What a thread knows. -/

def KeyOk (P : Params) (key : Int) : Prop := P.minKey ≤ key ∧ key ≤ P.maxKey

def Internal (s : State) (a : Addr) : Prop := Published s a ∧ ¬ s.routing.leaf a

def Leaf (s : State) (a : Addr) : Prop := Published s a ∧ s.routing.leaf a

def Marked (s : State) (a : Addr) : Prop := s.word ⟨a, .marked⟩ ≠ 0

/-- From `a`, the route of `k` leads through removed nodes to the path of `k`
in the tree, or to a removed leaf. -/
inductive Leads (s : State) (k : Int) : Addr → Prop where
  | onPath {a : Addr} (h : s.routing.OnPath k a) : Leads s k a
  | removed {a : Addr} (hm : Marked s a)
      (h : ¬ s.routing.leaf (s.routing.child a (s.routing.side k a)) →
        Leads s k (s.routing.child a (s.routing.side k a))) : Leads s k a

/-- An unmarked node with a route for `k` is on the path of `k`. -/
theorem Leads.onPath_of_unmarked {s : State} {k : Int} {a : Addr} (hl : Leads s k a)
    (hm : ¬ Marked s a) : s.routing.OnPath k a := by
  cases hl with
  | onPath hp => exact hp
  | removed hm' _ => exact absurd hm' hm

/-- The next node of a search still has a route. -/
theorem Leads.child {s : State} {k : Int} {p : Addr} (hl : Leads s k p) (hp : Internal s p)
    (hc : ¬ s.routing.leaf (s.routing.child p (s.routing.side k p))) :
    Leads s k (s.routing.child p (s.routing.side k p)) := by
  cases hl with
  | onPath hpath => exact .onPath (hpath.descend hp.2)
  | removed _ hnext => exact hnext hc

/-- While `p` is in the tree, `k` is routed to the side of `p` where `n` was
found. -/
def Agree (s : State) (k : Int) (p n : Addr) : Prop :=
  Marked s p ∨ s.routing.side k p = s.routing.side (s.key n) p

/-- What `search` returns for `key`. -/
structure Found (P : Params) (s : State) (key : Int) (p n : Addr) : Prop where
  keyOk : KeyOk P key
  parent : Internal s p
  leaf : Leaf s n
  leads : Leads s key p
  agree : Agree s key p n

/-- The two nodes an insert holds before its k-CAS. -/
structure Fresh (s : State) (key : Int) (n na n1 : Addr) : Prop where
  ne : na ≠ n1
  null : na ≠ NULL ∧ n1 ≠ NULL
  allocated : s.allocated na = true ∧ s.allocated n1 = true
  marked : s.word ⟨na, .marked⟩ = 0 ∧ s.word ⟨n1, .marked⟩ = 0
  keys : s.key na = key ∧ s.key n1 = min key (s.key n)
  leaf : s.word ⟨na, .left⟩ = NULL ∧ s.word ⟨na, .right⟩ = NULL
  left : s.word ⟨n1, .left⟩ = if key ≤ s.key n then na else n
  right : s.word ⟨n1, .right⟩ = if key ≤ s.key n then n else na

/-- What an erase knows after its search. -/
structure Victim (P : Params) (s : State) (key : Int) (p n : Addr) : Prop where
  keyOk : KeyOk P key
  parent : Internal s p
  leaf : Leaf s n
  key_eq : s.key n = key

/-- The k-CAS of an erase names the right child of `p` as the sibling only after
`p->left` has been seen to be `n`. -/
def SiblingOk (s : State) (p n : Addr) (sibling : Field) : Prop :=
  sibling = .left ∨ sibling = .right ∧ (Marked s p ∨ s.routing.side (s.key n) p = false)

/-- What a thread knows of its locals. -/
def PcOk (P : Params) (s : State) : Pc → Prop
  | .idle | .returned _ _ _ => True
  | .searchTest _ key gp p n =>
      KeyOk P key ∧ (gp = NULL ∨ Internal s gp) ∧ Published s n
        ∧ (¬ s.routing.leaf n → Leads s key n)
        ∧ (n = root ∧ p = NULL ∨ Internal s p ∧ Leads s key p ∧ Agree s key p n)
  | .searchAssert _ key gp p n => (gp = NULL ∨ Internal s gp) ∧ Found P s key p n
  | .searchDescend _ key gp p =>
      KeyOk P key ∧ (gp = NULL ∨ Internal s gp) ∧ Internal s p ∧ Leads s key p
  | .searched _ key gp p n => (gp = NULL ∨ Internal s gp) ∧ Found P s key p n
  | .insertRead key p n na n1 =>
      Found P s key p n ∧ key ≠ s.key n ∧ Fresh s key n na n1
  | .insertExecute key p n na n1 child =>
      Found P s key p n ∧ key ≠ s.key n ∧ Fresh s key n na n1 ∧ ∃ b, child = pick b
  | .eraseParent key gp p n => (gp = NULL ∨ Internal s gp) ∧ Victim P s key p n
  | .eraseSibling key gp p n parent =>
      Internal s gp ∧ Victim P s key p n ∧ ∃ b, parent = pick b
  | .eraseNode key gp p n parent sibling =>
      Internal s gp ∧ Victim P s key p n ∧ (∃ b, parent = pick b) ∧ SiblingOk s p n sibling
  | .eraseTest key gp p n parent sibling node =>
      Internal s gp ∧ Victim P s key p n ∧ (∃ b, parent = pick b) ∧ SiblingOk s p n sibling
        ∧ ∃ b, node = pick b
  | .eraseRead key gp p n parent sibling node _ =>
      Internal s gp ∧ Victim P s key p n ∧ (∃ b, parent = pick b) ∧ SiblingOk s p n sibling
        ∧ ∃ b, node = pick b
  | .eraseExecute key gp p n parent sibling node _ =>
      Internal s gp ∧ Victim P s key p n ∧ (∃ b, parent = pick b) ∧ SiblingOk s p n sibling
        ∧ ∃ b, node = pick b

/-! ## §2. The invariant. -/

/-- A leaf with key `k` is reachable from the root. -/
def KeyInTree (s : State) (k : Int) : Prop :=
  ∃ a, s.routing.Reach a ∧ s.routing.leaf a ∧ s.key a = k

structure Inv (P : Params) (s : State) : Prop where
  tree : s.routing.SearchTree
  root_internal : Internal s root
  null_free : s.allocated NULL = false
  child_pub : ∀ a d, Internal s a → Published s (s.routing.child a d)
  leaf_right : ∀ a, Leaf s a → s.word ⟨a, .right⟩ = NULL
  marked : ∀ a, Published s a → (¬ Marked s a ↔ s.routing.Reach a)
  low : KeyInTree s (P.minKey - 1)
  high : KeyInTree s (P.maxKey + 1)
  count : ∀ k, KeyOk P k → KeyInTree s k ∧ s.inserted k = s.erased k + 1
    ∨ ¬ KeyInTree s k ∧ s.inserted k = s.erased k
  private_inj : ∀ t u a, a ∈ (s.thread t).privateNodes → a ∈ (s.thread u).privateNodes → t = u
  pcOk : ∀ t, PcOk P s (s.thread t)

namespace Inv

variable {P : Params} {s : State} (h : Inv P s)
include h

theorem ne_null {a : Addr} (ha : Published s a) : a ≠ NULL := by
  intro heq
  have halloc := ha.1
  rw [heq, h.null_free] at halloc
  exact absurd halloc (by simp)

theorem pub_of_reach {a : Addr} (ha : s.routing.Reach a) : Published s a := by
  induction ha with
  | refl => exact h.root_internal.1
  | tail _ hbc ih =>
      obtain ⟨hl, d, rfl⟩ := hbc
      exact h.child_pub _ d ⟨ih, hl⟩

theorem internal_of_reach {a : Addr} (ha : s.routing.Reach a) (hl : ¬ s.routing.leaf a) :
    Internal s a :=
  ⟨h.pub_of_reach ha, hl⟩

theorem reach_of_unmarked {a : Addr} (ha : Published s a) (hm : ¬ Marked s a) :
    s.routing.Reach a :=
  (h.marked a ha).mp hm

/-- A child of a node in the tree is found on the side of its key. -/
theorem side_of_child {p n : Addr} {d : Bool} (hp : Internal s p) (hm : ¬ Marked s p)
    (hn : s.routing.child p d = n) :
    s.routing.side (s.key n) p = d ∧ s.routing.OnPath (s.key n) p := by
  have hr := h.reach_of_unmarked hp.1 hm
  have hown := h.tree.own _ (hr.child hp.2 d)
  rw [hn] at hown
  have hpath := h.tree.parent_onPath (k := s.key n) (d := d) hr hp.2 (by rw [hn]; exact hown)
  exact ⟨hpath.2, hpath.1⟩

theorem agree_child {k : Int} {p : Addr} (hp : Internal s p) :
    Agree s k p (s.routing.child p (s.routing.side k p)) := by
  by_cases hm : Marked s p
  · exact Or.inl hm
  · exact Or.inr (h.side_of_child hp hm rfl).1.symm

/-- In the tree, two leaves with one key are one leaf. -/
theorem leaf_unique {a b : Addr} (ha : s.routing.Reach a) (hb : s.routing.Reach b)
    (hla : s.routing.leaf a) (hlb : s.routing.leaf b) (hk : s.key a = s.key b) : a = b :=
  h.tree.leaf_eq_of_key_eq ha hb hla hlb hk

end Inv

/-! ## §3. What a step keeps for the other threads. -/

/-- What holds of the published nodes from before a step to after it. -/
structure Kept (s s' : State) : Prop where
  pub : ∀ a, Published s a → Published s' a
  key : ∀ a, Published s a → s'.key a = s.key a
  leaf : ∀ a, Published s a → (s'.routing.leaf a ↔ s.routing.leaf a)
  marked : ∀ a, Published s a → Marked s a → Marked s' a
  frozen : ∀ a d, Published s a → Marked s a → s'.routing.child a d = s.routing.child a d
  path : ∀ k a, Internal s a → s.routing.OnPath k a → Leads s' k a

namespace Kept

variable {P : Params} {s s' : State} (hk : Kept s s')
include hk

theorem side {a : Addr} (ha : Published s a) (k : Int) :
    s'.routing.side k a = s.routing.side k a := by
  show decide (s'.key a < k) = decide (s.key a < k)
  rw [hk.key a ha]

theorem internal {a : Addr} (ha : Internal s a) : Internal s' a :=
  ⟨hk.pub a ha.1, fun hl => ha.2 ((hk.leaf a ha.1).mp hl)⟩

theorem leafNode {a : Addr} (ha : Leaf s a) : Leaf s' a :=
  ⟨hk.pub a ha.1, (hk.leaf a ha.1).mpr ha.2⟩

theorem leads (h : Inv P s) {k : Int} {a : Addr} (ha : Internal s a) (hl : Leads s k a) :
    Leads s' k a := by
  induction hl with
  | onPath hp => exact hk.path k _ ha hp
  | @removed a hm hnext ih =>
      have hside := hk.side ha.1 k
      have hchild := hk.frozen a (s.routing.side k a) ha.1 hm
      have hcpub := h.child_pub a (s.routing.side k a) ha
      refine .removed (hk.marked a ha.1 hm) ?_
      rw [hside, hchild]
      intro hl'
      have hl := fun hl => hl' ((hk.leaf _ hcpub).mpr hl)
      exact ih hl ⟨hcpub, hl⟩

theorem agree {k : Int} {p n : Addr} (hp : Published s p) (hn : Published s n)
    (ha : Agree s k p n) : Agree s' k p n := by
  rcases ha with hm | hside
  · exact Or.inl (hk.marked p hp hm)
  · refine Or.inr ?_
    rw [hk.side hp, hk.side hp, hk.key n hn]
    exact hside

theorem found (h : Inv P s) {key : Int} {p n : Addr} (hf : Found P s key p n) :
    Found P s' key p n :=
  ⟨hf.keyOk, hk.internal hf.parent, hk.leafNode hf.leaf, hk.leads h hf.parent hf.leads,
    hk.agree hf.parent.1 hf.leaf.1 hf.agree⟩

theorem victim {key : Int} {p n : Addr} (hv : Victim P s key p n) : Victim P s' key p n :=
  ⟨hv.keyOk, hk.internal hv.parent, hk.leafNode hv.leaf, by rw [hk.key n hv.leaf.1]; exact hv.key_eq⟩

theorem siblingOk {p n : Addr} {sibling : Field} (hp : Published s p) (hn : Published s n)
    (ho : SiblingOk s p n sibling) : SiblingOk s' p n sibling := by
  rcases ho with hl | ⟨hr, hm | hside⟩
  · exact Or.inl hl
  · exact Or.inr ⟨hr, Or.inl (hk.marked p hp hm)⟩
  · refine Or.inr ⟨hr, Or.inr ?_⟩
    rw [hk.side hp, hk.key n hn]
    exact hside

theorem fresh {key : Int} {n na n1 : Addr} (hn : Published s n)
    (hpriv : ∀ a, a = na ∨ a = n1 → (∀ f, s'.word ⟨a, f⟩ = s.word ⟨a, f⟩) ∧ s'.key a = s.key a
      ∧ s'.allocated a = s.allocated a)
    (hf : Fresh s key n na n1) : Fresh s' key n na n1 := by
  obtain ⟨hw, hkna, hana⟩ := hpriv na (Or.inl rfl)
  obtain ⟨hw1, hkn1, han1⟩ := hpriv n1 (Or.inr rfl)
  have hkn := hk.key n hn
  refine ⟨hf.ne, hf.null, ?_, ?_, ?_, ?_, ?_, ?_⟩
  · rw [hana, han1]
    exact hf.allocated
  · rw [hw, hw1]
    exact hf.marked
  · rw [hkna, hkn1, hkn]
    exact hf.keys
  · rw [hw, hw]
    exact hf.leaf
  · rw [hw1, hkn]
    exact hf.left
  · rw [hw1, hkn]
    exact hf.right

/-- A thread that does not move keeps what it knows. -/
theorem pcOk (h : Inv P s) {pc : Pc}
    (hpriv : ∀ a, a ∈ pc.privateNodes → (∀ f, s'.word ⟨a, f⟩ = s.word ⟨a, f⟩)
      ∧ s'.key a = s.key a ∧ s'.allocated a = s.allocated a)
    (hpc : PcOk P s pc) : PcOk P s' pc := by
  have hgp : ∀ {gp}, gp = NULL ∨ Internal s gp → gp = NULL ∨ Internal s' gp := by
    intro gp hor
    rcases hor with heq | hi
    · exact Or.inl heq
    · exact Or.inr (hk.internal hi)
  cases pc with
  | idle => trivial
  | returned op key result => trivial
  | searchTest op key gp p n =>
      obtain ⟨hkey, hg, hn, hlead, hor⟩ := hpc
      refine ⟨hkey, hgp hg, hk.pub n hn, ?_, ?_⟩
      · intro hl'
        have hl := fun hl => hl' ((hk.leaf n hn).mpr hl)
        exact hk.leads h ⟨hn, hl⟩ (hlead hl)
      · rcases hor with hroot | ⟨hp, hpl, hag⟩
        · exact Or.inl hroot
        · exact Or.inr ⟨hk.internal hp, hk.leads h hp hpl, hk.agree hp.1 hn hag⟩
  | searchAssert op key gp p n => exact ⟨hgp hpc.1, hk.found h hpc.2⟩
  | searchDescend op key gp p =>
      exact ⟨hpc.1, hgp hpc.2.1, hk.internal hpc.2.2.1, hk.leads h hpc.2.2.1 hpc.2.2.2⟩
  | searched op key gp p n => exact ⟨hgp hpc.1, hk.found h hpc.2⟩
  | insertRead key p n na n1 =>
      obtain ⟨hf, hne, hfr⟩ := hpc
      refine ⟨hk.found h hf, by rw [hk.key n hf.leaf.1]; exact hne, hk.fresh hf.leaf.1 ?_ hfr⟩
      intro a ha
      exact hpriv a (by simpa [Pc.privateNodes] using ha)
  | insertExecute key p n na n1 child =>
      obtain ⟨hf, hne, hfr, hc⟩ := hpc
      refine ⟨hk.found h hf, by rw [hk.key n hf.leaf.1]; exact hne, hk.fresh hf.leaf.1 ?_ hfr, hc⟩
      intro a ha
      exact hpriv a (by simpa [Pc.privateNodes] using ha)
  | eraseParent key gp p n => exact ⟨hgp hpc.1, hk.victim hpc.2⟩
  | eraseSibling key gp p n parent => exact ⟨hk.internal hpc.1, hk.victim hpc.2.1, hpc.2.2⟩
  | eraseNode key gp p n parent sibling =>
      obtain ⟨hg, hv, hpar, hsib⟩ := hpc
      exact ⟨hk.internal hg, hk.victim hv, hpar, hk.siblingOk hv.parent.1 hv.leaf.1 hsib⟩
  | eraseTest key gp p n parent sibling node =>
      obtain ⟨hg, hv, hpar, hsib, hnode⟩ := hpc
      exact ⟨hk.internal hg, hk.victim hv, hpar, hk.siblingOk hv.parent.1 hv.leaf.1 hsib, hnode⟩
  | eraseRead key gp p n parent sibling node other =>
      obtain ⟨hg, hv, hpar, hsib, hnode⟩ := hpc
      exact ⟨hk.internal hg, hk.victim hv, hpar, hk.siblingOk hv.parent.1 hv.leaf.1 hsib, hnode⟩
  | eraseExecute key gp p n parent sibling node sib =>
      obtain ⟨hg, hv, hpar, hsib, hnode⟩ := hpc
      exact ⟨hk.internal hg, hk.victim hv, hpar, hk.siblingOk hv.parent.1 hv.leaf.1 hsib, hnode⟩

end Kept

/-! ## §4. Steps that leave the published nodes alone. -/

/-- The published nodes, their words and keys are the same in `s'` as in `s`. -/
structure Same (s s' : State) : Prop where
  pub : ∀ a, Published s' a ↔ Published s a
  word : ∀ a f, Published s a → s'.word ⟨a, f⟩ = s.word ⟨a, f⟩
  key : ∀ a, Published s a → s'.key a = s.key a

namespace Same

variable {P : Params} {s s' : State} (hsame : Same s s')
include hsame

theorem leaf {a : Addr} (ha : Published s a) : s'.routing.leaf a ↔ s.routing.leaf a := by
  show s'.word ⟨a, .left⟩ = NULL ↔ s.word ⟨a, .left⟩ = NULL
  rw [hsame.word a .left ha]

theorem marked {a : Addr} (ha : Published s a) : Marked s' a ↔ Marked s a := by
  unfold Marked
  rw [hsame.word a .marked ha]

theorem agrees (h : Inv P s) : Routing.Agrees s.routing s'.routing where
  root := rfl
  leaf _ ha := hsame.leaf (h.pub_of_reach ha)
  child a d ha _ := hsame.word a (childField d) (h.pub_of_reach ha)
  key a ha := hsame.key a (h.pub_of_reach ha)

theorem kept (h : Inv P s) : Kept s s' where
  pub a ha := (hsame.pub a).mpr ha
  key := hsame.key
  leaf _ ha := hsame.leaf ha
  marked _ ha := (hsame.marked ha).mpr
  frozen a d ha _ := hsame.word a (childField d) ha
  path _ _ _ hp := .onPath ((hsame.agrees h).onPath hp)

theorem keyInTree (h : Inv P s) (k : Int) : KeyInTree s' k ↔ KeyInTree s k := by
  have hreach : ∀ a, s'.routing.Reach a ↔ s.routing.Reach a := fun a => (hsame.agrees h).reach_iff
  constructor
  · intro hk
    obtain ⟨a, ha, hl, hkey⟩ := hk
    have har := (hreach a).mp ha
    have hpub := h.pub_of_reach har
    exact ⟨a, har, (hsame.leaf hpub).mp hl, by rw [← hsame.key a hpub]; exact hkey⟩
  · intro hk
    obtain ⟨a, ha, hl, hkey⟩ := hk
    have hpub := h.pub_of_reach ha
    exact ⟨a, (hreach a).mpr ha, (hsame.leaf hpub).mpr hl, by rw [hsame.key a hpub]; exact hkey⟩

theorem inv (h : Inv P s) (hnull : s'.allocated NULL = false) (hins : s'.inserted = s.inserted)
    (hers : s'.erased = s.erased)
    (hinj : ∀ t u a, a ∈ (s'.thread t).privateNodes → a ∈ (s'.thread u).privateNodes → t = u)
    (hpc : ∀ t, PcOk P s' (s'.thread t)) : Inv P s' := by
  have hinternal : ∀ a, Internal s' a → Internal s a := by
    intro a ha
    have hpub := (hsame.pub a).mp ha.1
    exact ⟨hpub, fun hl => ha.2 ((hsame.leaf hpub).mpr hl)⟩
  refine
    { tree := (hsame.agrees h).searchTree h.tree, root_internal := ?_, null_free := hnull,
      child_pub := ?_, leaf_right := ?_, marked := ?_, low := (hsame.keyInTree h _).mpr h.low,
      high := (hsame.keyInTree h _).mpr h.high, count := ?_, private_inj := hinj, pcOk := hpc }
  · exact (hsame.kept h).internal h.root_internal
  · intro a d ha
    have ha' := hinternal a ha
    show Published s' (s'.word ⟨a, childField d⟩)
    rw [hsame.word a _ ha'.1]
    exact (hsame.pub _).mpr (h.child_pub a d ha')
  · intro a ha
    have hpub := (hsame.pub a).mp ha.1
    rw [hsame.word a .right hpub]
    exact h.leaf_right a ⟨hpub, (hsame.leaf hpub).mp ha.2⟩
  · intro a ha
    have hpub := (hsame.pub a).mp ha
    rw [hsame.marked hpub, h.marked a hpub, (hsame.agrees h).reach_iff]
  · intro k hk
    rw [hins, hers, hsame.keyInTree h k]
    exact h.count k hk

end Same

theorem LocalMove.privateNodes {P : Params} {s : State} {pc pc' : Pc} (hl : LocalMove P s pc pc') :
    pc'.privateNodes = pc.privateNodes := by
  cases hl with
  | call hpc hkey => exact hpc.symm
  | _ => rfl

/-- A thread that moves knows what its new place asks for. -/
theorem LocalMove.pcOk {P : Params} {s : State} (h : Inv P s) {pc pc' : Pc}
    (hl : LocalMove P s pc pc') (hpc : PcOk P s pc) : PcOk P s pc' := by
  have hstart : ∀ {op key}, KeyOk P key → PcOk P s (.searchTest op key NULL NULL root) := by
    intro op key hk
    exact ⟨hk, Or.inl rfl, h.root_internal.1, fun _ => .onPath Relation.ReflTransGen.refl,
      Or.inl ⟨rfl, rfl⟩⟩
  cases hl with
  | call _ hkey => exact hstart hkey
  | testLeaf _ hleaf =>
      obtain ⟨hkey, hgp, hn, -, hor⟩ := hpc
      rcases hor with ⟨hroot, -⟩ | ⟨hp, hpl, hag⟩
      · rw [hroot] at hleaf
        exact absurd hleaf h.root_internal.2
      · exact ⟨hgp, hkey, hp, ⟨hn, hleaf⟩, hpl, hag⟩
  | testInternal _ hint =>
      obtain ⟨hkey, -, hn, hlead, hor⟩ := hpc
      refine ⟨hkey, ?_, ⟨hn, hint⟩, hlead hint⟩
      rcases hor with ⟨-, hnull⟩ | ⟨hp, -, -⟩
      · exact Or.inl hnull
      · exact Or.inr hp
  | asserted _ => exact hpc
  | descend =>
      obtain ⟨hkey, hgp, hp, hlead⟩ := hpc
      exact ⟨hkey, hgp, h.child_pub _ _ hp, fun hc => hlead.child hp hc,
        Or.inr ⟨hp, hlead, h.agree_child hp⟩⟩
  | containsReturn => trivial
  | insertFound _ => trivial
  | insertRead =>
      obtain ⟨hf, hne, hfr⟩ := hpc
      exact ⟨hf, hne, hfr, _, rfl⟩
  | eraseAbsent _ => trivial
  | eraseFound hk => exact ⟨hpc.1, hpc.2.keyOk, hpc.2.parent, hpc.2.leaf, hk.symm⟩
  | eraseParent hgp => exact ⟨hpc.1.resolve_left hgp, hpc.2, _, rfl⟩
  | @eraseSibling key gp p n parent =>
      obtain ⟨hg, hv, hpar⟩ := hpc
      refine ⟨hg, hv, hpar, ?_⟩
      by_cases hleft : s.word ⟨p, .left⟩ = n
      · refine Or.inr ⟨by simp [pick, hleft], ?_⟩
        by_cases hm : Marked s p
        · exact Or.inl hm
        · exact Or.inr (h.side_of_child (d := false) hv.parent hm hleft).1
      · exact Or.inl (by simp [pick, hleft])
  | eraseNode =>
      obtain ⟨hg, hv, hpar, hsib⟩ := hpc
      exact ⟨hg, hv, hpar, hsib, _, rfl⟩
  | eraseTest => exact hpc
  | eraseRead => exact hpc
  | eraseRetry => exact hstart hpc.2.1.keyOk

/-- Only the thread that moves changes its place. -/
theorem pcOk_goto {P : Params} {s s' : State} {t : Tid} {pc' : Pc} (h : Inv P s)
    (hk : Kept s s') (hthread : ∀ u, s'.thread u = if u = t then pc' else s.thread u)
    (hpriv : ∀ u, u ≠ t → ∀ a, a ∈ (s.thread u).privateNodes →
      (∀ f, s'.word ⟨a, f⟩ = s.word ⟨a, f⟩) ∧ s'.key a = s.key a ∧ s'.allocated a = s.allocated a)
    (hpc : PcOk P s' pc') (u : Tid) : PcOk P s' (s'.thread u) := by
  rw [hthread u]
  by_cases hu : u = t
  · rw [if_pos hu]
    exact hpc
  · rw [if_neg hu]
    exact hk.pcOk h (hpriv u hu) (h.pcOk u)

/-- A move publishes nothing and hides nothing. -/
theorem move_same {P : Params} {s : State} {t : Tid} {pc' : Pc}
    (hl : LocalMove P s (s.thread t) pc') : Same s (s.goto t pc') := by
  have hpriv : ∀ u, ((s.goto t pc').thread u).privateNodes = (s.thread u).privateNodes := by
    intro u
    rw [goto_thread]
    split
    · rename_i hu
      rw [hu, hl.privateNodes]
    · rfl
  refine ⟨?_, fun _ _ _ => rfl, fun _ _ => rfl⟩
  intro a
  unfold Published
  simp only [hpriv, goto_allocated]

theorem move_inv {P : Params} {s : State} {t : Tid} {pc' : Pc} (h : Inv P s)
    (hl : LocalMove P s (s.thread t) pc') : Inv P (s.goto t pc') := by
  have hsame : Same s (s.goto t pc') := move_same hl
  refine hsame.inv h h.null_free rfl rfl ?_ ?_
  · intro u v a hu hv
    rw [goto_thread] at hu hv
    have hpriv : ∀ {w}, a ∈ (if w = t then pc' else s.thread w).privateNodes →
        a ∈ (s.thread w).privateNodes := by
      intro w hw
      split at hw
      · rename_i heq
        rw [heq, ← hl.privateNodes]
        exact hw
      · exact hw
    exact h.private_inj u v a (hpriv hu) (hpriv hv)
  · apply pcOk_goto h (hsame.kept h) (goto_thread s t pc')
    · exact fun _ _ _ _ => ⟨fun _ => rfl, rfl, rfl⟩
    · exact (hsame.kept h).pcOk h (fun _ _ => ⟨fun _ => rfl, rfl, rfl⟩) (hl.pcOk h (h.pcOk t))

end MultiCore.ExternalTree
