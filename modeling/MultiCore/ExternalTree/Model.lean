/-
  MultiCore.ExternalTree.Model — the external binary search tree of
  assignment 6 (`external_tree_kcas.h`), as a step machine.

  Every read of a child pointer is one step of the calling thread: the test
  and the assertion of `isLeaf`, the descent of `search`, and each of the
  reads with which `insertIfAbsent` and `erase` choose the fields of their
  k-CAS.  `kcas::execute` is one atomic step; its effect on the words is the
  parameter `execute`, and `helpExecute` is what `help` does when nothing
  interferes.  Keys are plain `int`s, written before a node is published.

  The allocator is free to return any addresses that are not in use: the ones
  that `createLeaf` and `createInternal` return are part of the action.
  `inserted` and `erased` count, per key, the inserts and erases whose k-CAS
  has succeeded; no step reads them.  A dereference of `NULL` and a failed
  assertion have no successor.
-/
import MultiCore.Kcas.Descriptor
import MultiCore.Lib.Routing
import MultiCore.Lib.Run

namespace MultiCore.ExternalTree

open MultiCore.Lib MultiCore.Kcas

/-! ## §1. Words. -/

abbrev Tid := Nat

/-- The address of a node; `NULL` is `0`. -/
abbrev Addr := Nat

def NULL : Addr := 0

/-- The `casword` fields of `struct Node`, in the order of their addresses. -/
inductive Field where
  | left
  | right
  | marked
  deriving Repr, DecidableEq

def Field.offset : Field → Nat
  | left => 0
  | right => 1
  | marked => 2

/-- The address of one shared word. -/
structure Loc where
  node : Addr
  field : Field
  deriving Repr, DecidableEq

/-- Nodes do not overlap, so addresses are ordered by node, then by field. -/
instance : LT Loc :=
  ⟨fun a b => a.node < b.node ∨ a.node = b.node ∧ a.field.offset < b.field.offset⟩

instance : DecidableLT Loc := fun a b =>
  inferInstanceAs
    (Decidable (a.node < b.node ∨ a.node = b.node ∧ a.field.offset < b.field.offset))

theorem Loc.lt_irrefl (a : Loc) : ¬ a < a := by
  intro h
  rcases h with h | ⟨_, h⟩
  · exact Nat.lt_irrefl _ h
  · exact Nat.lt_irrefl _ h

/-! ## §2. States. -/

/-- The constructor's key bounds. -/
structure Params where
  minKey : Int
  maxKey : Int
  le : minKey ≤ maxKey

/-- The three nodes allocated by the constructor. -/
def rootLeft : Addr := 1

def rootRight : Addr := 2

def root : Addr := 3

inductive Op where
  | contains
  | insertIfAbsent
  | erase
  deriving Repr, DecidableEq

/-- Where a thread is in its call, with the locals it holds there. -/
inductive Pc where
  | idle
  /-- The call has returned `result`. -/
  | returned (op : Op) (key : Int) (result : Bool)
  /-- `search`, about to read `n->left` in `isLeaf`. -/
  | searchTest (op : Op) (key : Int) (gp p n : Addr)
  /-- `search`, about to read `n->right` in the assertion of `isLeaf`. -/
  | searchAssert (op : Op) (key : Int) (gp p n : Addr)
  /-- `search`, about to read the child of `p` into `n`. -/
  | searchDescend (op : Op) (key : Int) (gp p : Addr)
  /-- `search` has returned the record. -/
  | searched (op : Op) (key : Int) (gp p n : Addr)
  /-- `insertIfAbsent`, about to read `p->left`. -/
  | insertRead (key : Int) (p n na n1 : Addr)
  /-- `insertIfAbsent`, about to execute on the chosen field. -/
  | insertExecute (key : Int) (p n na n1 : Addr) (child : Field)
  /-- `erase`, about to read `gp->left` for `parent`. -/
  | eraseParent (key : Int) (gp p n : Addr)
  /-- `erase`, about to read `p->left` for `sibling`. -/
  | eraseSibling (key : Int) (gp p n : Addr) (parent : Field)
  /-- `erase`, about to read `p->left` for `node`. -/
  | eraseNode (key : Int) (gp p n : Addr) (parent sibling : Field)
  /-- `erase`, about to read `p->left` for `sib`. -/
  | eraseTest (key : Int) (gp p n : Addr) (parent sibling node : Field)
  /-- `erase`, about to read `sib` from `p`. -/
  | eraseRead (key : Int) (gp p n : Addr) (parent sibling node other : Field)
  /-- `erase`, about to execute. -/
  | eraseExecute (key : Int) (gp p n : Addr) (parent sibling node : Field) (sib : Addr)
  deriving Repr, DecidableEq

structure State where
  word : Loc → Word
  key : Addr → Int
  allocated : Addr → Bool
  thread : Tid → Pc
  inserted : Int → Nat
  erased : Int → Nat

/-- `createInternal`, on a freshly allocated node. -/
def State.createInternal (s : State) (node : Addr) (key : Int) (left right : Addr) : State :=
  { s with
    word := Function.update (Function.update (Function.update s.word
      ⟨node, .left⟩ left) ⟨node, .right⟩ right) ⟨node, .marked⟩ (false.toNat <<< KCAS_LEFTSHIFT)
    key := Function.update s.key node key
    allocated := Function.update s.allocated node true }

/-- `createLeaf`. -/
def State.createLeaf (s : State) (node : Addr) (key : Int) : State :=
  s.createInternal node key NULL NULL

def State.goto (s : State) (p : Tid) (pc : Pc) : State :=
  { s with thread := Function.update s.thread p pc }

/-- The constructor. -/
def init (P : Params) : State :=
  let blank : State :=
    { word := fun _ => 0, key := fun _ => 0, allocated := fun _ => false,
      thread := fun _ => .idle, inserted := fun _ => 0, erased := fun _ => 0 }
  ((blank.createLeaf rootLeft (P.minKey - 1)).createLeaf rootRight (P.maxKey + 1)).createInternal
    root (P.minKey - 1) rootLeft rootRight

/-! ## §3. Steps. -/

/-- The descriptor `insertIfAbsent` builds. -/
def insertEntries (p n n1 : Addr) (child : Field) : List (Entry Loc Word) :=
  [addValAddr ⟨p, .marked⟩ false false,
   addPtrAddr ⟨p, child⟩ n n1]

/-- The descriptor `erase` builds. -/
def eraseEntries (gp p n : Addr) (parent sibling node : Field) (sib : Addr) :
    List (Entry Loc Word) :=
  [addValAddr ⟨gp, .marked⟩ false false,
   addValAddr ⟨p, .marked⟩ false true,
   addValAddr ⟨n, .marked⟩ false true,
   addPtrAddr ⟨gp, parent⟩ p sib,
   addPtrAddr ⟨p, node⟩ n n,
   addPtrAddr ⟨p, sibling⟩ sib sib]

/-- `kcas::execute` without interference: sort the entries, then lock, decide
and unlock as `help` does. -/
def helpExecute (word : Loc → Word) (es : List (Entry Loc Word)) : Bool × (Loc → Word) :=
  lockCas word (kcasdesc_sort es)

inductive Action where
  /-- Thread `p` calls `op(key)`. -/
  | invoke (p : Tid) (op : Op) (key : Int)
  /-- Thread `p` takes its next step; `freshLeaf` and `freshInternal` are the
  addresses that the allocations of the step return. -/
  | step (p : Tid) (freshLeaf freshInternal : Addr)
  deriving Repr, DecidableEq

/-- The first step of a call: the assertion on the key, and the locals of
`search`. -/
def invoke (P : Params) (s : State) (p : Tid) (op : Op) (key : Int) : Option State :=
  match s.thread p with
  | .idle | .returned _ _ _ =>
      if P.minKey ≤ key ∧ key ≤ P.maxKey then some (s.goto p (.searchTest op key NULL NULL root))
      else none
  | _ => none

/-- The next step of thread `t`. -/
def step (execute : (Loc → Word) → List (Entry Loc Word) → Bool × (Loc → Word)) (s : State)
    (t : Tid) (freshLeaf freshInternal : Addr) : Option State :=
  match s.thread t with
  | .idle | .returned _ _ _ => none
  | .searchTest op key gp p n =>
      if n = NULL then none
      else if s.word ⟨n, .left⟩ = NULL then some (s.goto t (.searchAssert op key gp p n))
      else some (s.goto t (.searchDescend op key p n))
  | .searchAssert op key gp p n =>
      if s.word ⟨n, .right⟩ = NULL then some (s.goto t (.searched op key gp p n)) else none
  | .searchDescend op key gp p =>
      let n := if key ≤ s.key p then s.word ⟨p, .left⟩ else s.word ⟨p, .right⟩
      some (s.goto t (.searchTest op key gp p n))
  | .searched .contains key _ _ n =>
      some (s.goto t (.returned .contains key (decide (s.key n = key))))
  | .searched .insertIfAbsent key _ p n =>
      if key = s.key n then some (s.goto t (.returned .insertIfAbsent key false))
      else if freshLeaf = NULL ∨ s.allocated freshLeaf = true ∨ freshInternal = NULL
          ∨ s.allocated freshInternal = true ∨ freshLeaf = freshInternal then none
      else
        let leftChild := if key ≤ s.key n then freshLeaf else n
        let rightChild := if key ≤ s.key n then n else freshLeaf
        some (((s.createLeaf freshLeaf key).createInternal freshInternal (min key (s.key n))
          leftChild rightChild).goto t (.insertRead key p n freshLeaf freshInternal))
  | .insertRead key p n na n1 =>
      let child : Field := if s.word ⟨p, .left⟩ = n then .left else .right
      some (s.goto t (.insertExecute key p n na n1 child))
  | .insertExecute key p n na n1 child =>
      match execute s.word (insertEntries p n n1 child) with
      | (true, word) =>
          some ({ s with
            word := word
            inserted := Function.update s.inserted key (s.inserted key + 1) }.goto t
              (.returned .insertIfAbsent key true))
      | (false, _) =>
          -- `delete n1; delete na`, and the loop starts a new search
          some ({ s with
            allocated := Function.update (Function.update s.allocated n1 false) na false }.goto t
              (.searchTest .insertIfAbsent key NULL NULL root))
  | .searched .erase key gp p n =>
      if key ≠ s.key n then some (s.goto t (.returned .erase key false))
      else some (s.goto t (.eraseParent key gp p n))
  | .eraseParent key gp p n =>
      if gp = NULL then none
      else
        let parent : Field := if s.word ⟨gp, .left⟩ = p then .left else .right
        some (s.goto t (.eraseSibling key gp p n parent))
  | .eraseSibling key gp p n parent =>
      let sibling : Field := if s.word ⟨p, .left⟩ = n then .right else .left
      some (s.goto t (.eraseNode key gp p n parent sibling))
  | .eraseNode key gp p n parent sibling =>
      let node : Field := if s.word ⟨p, .left⟩ = n then .left else .right
      some (s.goto t (.eraseTest key gp p n parent sibling node))
  | .eraseTest key gp p n parent sibling node =>
      let other : Field := if s.word ⟨p, .left⟩ = n then .right else .left
      some (s.goto t (.eraseRead key gp p n parent sibling node other))
  | .eraseRead key gp p n parent sibling node other =>
      some (s.goto t (.eraseExecute key gp p n parent sibling node (s.word ⟨p, other⟩)))
  | .eraseExecute key gp p n parent sibling node sib =>
      match execute s.word (eraseEntries gp p n parent sibling node sib) with
      | (true, word) =>
          some ({ s with
            word := word
            erased := Function.update s.erased key (s.erased key + 1) }.goto t
              (.returned .erase key true))
      | (false, _) => some (s.goto t (.searchTest .erase key NULL NULL root))

def next (execute : (Loc → Word) → List (Entry Loc Word) → Bool × (Loc → Word)) (P : Params)
    (s : State) : Action → Option State
  | .invoke p op key => invoke P s p op key
  | .step p freshLeaf freshInternal => step execute s p freshLeaf freshInternal

/-- The tree as a transition system: any number of threads, any interleaving. -/
def system (execute : (Loc → Word) → List (Entry Loc Word) → Bool × (Loc → Word)) (P : Params) :
    Sys State Action := ⟨init P, next execute P⟩

/-! ## §4. What a state shows. -/

/-- The nodes an insert holds before its k-CAS. -/
def Pc.privateNodes : Pc → List Addr
  | .insertRead _ _ _ na n1 => [na, n1]
  | .insertExecute _ _ _ na n1 _ => [na, n1]
  | _ => []

/-- A node that has been linked into the tree at some time: allocated, and not
private to an insert. -/
def Published (s : State) (a : Addr) : Prop :=
  s.allocated a = true ∧ ∀ t, a ∉ (s.thread t).privateNodes

/-- The field of a child: left (`false`) or right (`true`). -/
def childField : Bool → Field
  | false => .left
  | true => .right

/-- What a search sees of a state. -/
def State.routing (s : State) : Routing Addr Int where
  root := root
  leaf a := s.word ⟨a, .left⟩ = NULL
  child a d := s.word ⟨a, childField d⟩
  key := s.key

/-! ## §5. What one step can do. -/

section Goto

variable (s : State) (t : Tid) (pc : Pc)

@[simp] theorem goto_word : (s.goto t pc).word = s.word := rfl
@[simp] theorem goto_key : (s.goto t pc).key = s.key := rfl
@[simp] theorem goto_allocated : (s.goto t pc).allocated = s.allocated := rfl
@[simp] theorem goto_inserted : (s.goto t pc).inserted = s.inserted := rfl
@[simp] theorem goto_erased : (s.goto t pc).erased = s.erased := rfl
@[simp] theorem goto_routing : (s.goto t pc).routing = s.routing := rfl

theorem goto_thread (u : Tid) : (s.goto t pc).thread u = if u = t then pc else s.thread u := by
  unfold State.goto
  simp only [Function.update_apply]

end Goto

/-- The field on side `d`, chosen as the code does from a comparison with the
left child. -/
def pick (b : Bool) : Field := if b then .left else .right

/-- The steps that change no shared word: a thread moves from `pc` to `pc'`. -/
inductive LocalMove (P : Params) (s : State) : Pc → Pc → Prop where
  | call {pc : Pc} {op : Op} {key : Int} (hpc : pc.privateNodes = [])
      (hkey : P.minKey ≤ key ∧ key ≤ P.maxKey) :
      LocalMove P s pc (.searchTest op key NULL NULL root)
  | testLeaf {op : Op} {key : Int} {gp p n : Addr} (hn : n ≠ NULL)
      (h : s.word ⟨n, .left⟩ = NULL) :
      LocalMove P s (.searchTest op key gp p n) (.searchAssert op key gp p n)
  | testInternal {op : Op} {key : Int} {gp p n : Addr} (hn : n ≠ NULL)
      (h : s.word ⟨n, .left⟩ ≠ NULL) :
      LocalMove P s (.searchTest op key gp p n) (.searchDescend op key p n)
  | asserted {op : Op} {key : Int} {gp p n : Addr} (h : s.word ⟨n, .right⟩ = NULL) :
      LocalMove P s (.searchAssert op key gp p n) (.searched op key gp p n)
  | descend {op : Op} {key : Int} {gp p : Addr} :
      LocalMove P s (.searchDescend op key gp p)
        (.searchTest op key gp p (s.routing.child p (s.routing.side key p)))
  | containsReturn {key : Int} {gp p n : Addr} :
      LocalMove P s (.searched .contains key gp p n)
        (.returned .contains key (decide (s.key n = key)))
  | insertFound {key : Int} {gp p n : Addr} (h : key = s.key n) :
      LocalMove P s (.searched .insertIfAbsent key gp p n) (.returned .insertIfAbsent key false)
  | insertRead {key : Int} {p n na n1 : Addr} :
      LocalMove P s (.insertRead key p n na n1)
        (.insertExecute key p n na n1 (pick (decide (s.word ⟨p, .left⟩ = n))))
  | eraseAbsent {key : Int} {gp p n : Addr} (h : key ≠ s.key n) :
      LocalMove P s (.searched .erase key gp p n) (.returned .erase key false)
  | eraseFound {key : Int} {gp p n : Addr} (h : key = s.key n) :
      LocalMove P s (.searched .erase key gp p n) (.eraseParent key gp p n)
  | eraseParent {key : Int} {gp p n : Addr} (h : gp ≠ NULL) :
      LocalMove P s (.eraseParent key gp p n)
        (.eraseSibling key gp p n (pick (decide (s.word ⟨gp, .left⟩ = p))))
  | eraseSibling {key : Int} {gp p n : Addr} {parent : Field} :
      LocalMove P s (.eraseSibling key gp p n parent)
        (.eraseNode key gp p n parent (pick (!decide (s.word ⟨p, .left⟩ = n))))
  | eraseNode {key : Int} {gp p n : Addr} {parent sibling : Field} :
      LocalMove P s (.eraseNode key gp p n parent sibling)
        (.eraseTest key gp p n parent sibling (pick (decide (s.word ⟨p, .left⟩ = n))))
  | eraseTest {key : Int} {gp p n : Addr} {parent sibling node : Field} :
      LocalMove P s (.eraseTest key gp p n parent sibling node)
        (.eraseRead key gp p n parent sibling node (pick (!decide (s.word ⟨p, .left⟩ = n))))
  | eraseRead {key : Int} {gp p n : Addr} {parent sibling node other : Field} :
      LocalMove P s (.eraseRead key gp p n parent sibling node other)
        (.eraseExecute key gp p n parent sibling node (s.word ⟨p, other⟩))
  | eraseRetry {key : Int} {gp p n sib : Addr} {parent sibling node : Field} :
      LocalMove P s (.eraseExecute key gp p n parent sibling node sib)
        (.searchTest .erase key NULL NULL root)

/-- The state after the allocations of `insertIfAbsent`. -/
def State.allocate (s : State) (key : Int) (n na n1 : Addr) : State :=
  (s.createLeaf na key).createInternal n1 (min key (s.key n))
    (if key ≤ s.key n then na else n) (if key ≤ s.key n then n else na)

/-- Everything an action of thread `t` can do. -/
inductive Effect (execute : (Loc → Word) → List (Entry Loc Word) → Bool × (Loc → Word))
    (P : Params) (s : State) (t : Tid) : State → Prop where
  | move {pc' : Pc} (h : LocalMove P s (s.thread t) pc') : Effect execute P s t (s.goto t pc')
  | alloc {key : Int} {gp p n na n1 : Addr}
      (hpc : s.thread t = .searched .insertIfAbsent key gp p n) (hkey : key ≠ s.key n)
      (hna : na ≠ NULL ∧ s.allocated na = false) (hn1 : n1 ≠ NULL ∧ s.allocated n1 = false)
      (hne : na ≠ n1) :
      Effect execute P s t ((s.allocate key n na n1).goto t (.insertRead key p n na n1))
  | insertRetry {key : Int} {p n na n1 : Addr} {child : Field}
      (hpc : s.thread t = .insertExecute key p n na n1 child) :
      Effect execute P s t ({ s with
        allocated := Function.update (Function.update s.allocated n1 false) na false }.goto t
          (.searchTest .insertIfAbsent key NULL NULL root))
  | insert {key : Int} {p n na n1 : Addr} {child : Field} {word : Loc → Word}
      (hpc : s.thread t = .insertExecute key p n na n1 child)
      (hex : execute s.word (insertEntries p n n1 child) = (true, word)) :
      Effect execute P s t ({ s with
        word := word
        inserted := Function.update s.inserted key (s.inserted key + 1) }.goto t
          (.returned .insertIfAbsent key true))
  | erase {key : Int} {gp p n sib : Addr} {parent sibling node : Field} {word : Loc → Word}
      (hpc : s.thread t = .eraseExecute key gp p n parent sibling node sib)
      (hex : execute s.word (eraseEntries gp p n parent sibling node sib) = (true, word)) :
      Effect execute P s t ({ s with
        word := word
        erased := Function.update s.erased key (s.erased key + 1) }.goto t
          (.returned .erase key true))

def Action.tid : Action → Tid
  | .invoke p _ _ => p
  | .step p _ _ => p

theorem child_side (s : State) (key : Int) (p : Addr) :
    s.routing.child p (s.routing.side key p)
      = if key ≤ s.key p then s.word ⟨p, .left⟩ else s.word ⟨p, .right⟩ := by
  show s.word ⟨p, childField (decide (s.key p < key))⟩ = _
  by_cases h : key ≤ s.key p
  · rw [if_pos h, decide_eq_false (not_lt.mpr h)]
    rfl
  · rw [if_neg h, decide_eq_true (not_le.mp h)]
    rfl

/-- **Inversion**: every enabled action is one of the listed effects. -/
theorem next_effect {execute : (Loc → Word) → List (Entry Loc Word) → Bool × (Loc → Word)}
    {P : Params} {s s' : State} {a : Action} (h : next execute P s a = some s') :
    Effect execute P s a.tid s' := by
  cases a with
  | invoke t op key =>
      simp only [next, invoke] at h
      split at h
      · split at h
        · next heq hk =>
          obtain rfl := Option.some.inj h
          exact .move (.call (by rw [Action.tid, heq]; rfl) hk)
        · exact absurd h (by simp)
      · split at h
        · next heq hk =>
          obtain rfl := Option.some.inj h
          exact .move (.call (by rw [Action.tid, heq]; rfl) hk)
        · exact absurd h (by simp)
      · exact absurd h (by simp)
  | step t freshLeaf freshInternal =>
      simp only [next, step] at h
      have hmove : ∀ {pc pc'}, s.thread t = pc → LocalMove P s pc pc' →
          Effect execute P s t (s.goto t pc') := by
        intro pc pc' hpc hl
        exact .move (hpc ▸ hl)
      have hpick : ∀ (q : Prop) [Decidable q],
          (if q then Field.left else Field.right) = pick (decide q) := by
        intro q _
        by_cases hq : q <;> simp [pick, hq]
      have hpick' : ∀ (q : Prop) [Decidable q],
          (if q then Field.right else Field.left) = pick (!decide q) := by
        intro q _
        by_cases hq : q <;> simp [pick, hq]
      split at h
      · exact absurd h (by simp)
      · exact absurd h (by simp)
      · -- searchTest
        next heq =>
        split at h
        · exact absurd h (by simp)
        · next hn =>
          split at h
          · next hl =>
            obtain rfl := Option.some.inj h
            exact hmove heq (.testLeaf hn hl)
          · next hl =>
            obtain rfl := Option.some.inj h
            exact hmove heq (.testInternal hn hl)
      · -- searchAssert
        next heq =>
        split at h
        · next hr =>
          obtain rfl := Option.some.inj h
          exact hmove heq (.asserted hr)
        · exact absurd h (by simp)
      · -- searchDescend
        next heq =>
        obtain rfl := Option.some.inj h
        rw [← child_side]
        exact hmove heq .descend
      · next heq =>
        obtain rfl := Option.some.inj h
        exact hmove heq .containsReturn
      · -- searched, for an insert
        next heq =>
        split at h
        · next hk =>
          obtain rfl := Option.some.inj h
          exact hmove heq (.insertFound hk)
        · next hk =>
          split at h
          · exact absurd h (by simp)
          · next hf =>
            obtain rfl := Option.some.inj h
            simp only [not_or, Bool.not_eq_true] at hf
            exact .alloc heq hk ⟨hf.1, hf.2.1⟩ ⟨hf.2.2.1, hf.2.2.2.1⟩ hf.2.2.2.2
      · next heq =>
        obtain rfl := Option.some.inj h
        rw [hpick]
        exact hmove heq .insertRead
      · -- insertExecute
        next heq =>
        split at h
        · next hex =>
          obtain rfl := Option.some.inj h
          exact .insert heq hex
        · obtain rfl := Option.some.inj h
          exact .insertRetry heq
      · -- searched, for an erase
        next heq =>
        split at h
        · next hk =>
          obtain rfl := Option.some.inj h
          exact hmove heq (.eraseAbsent hk)
        · next hk =>
          obtain rfl := Option.some.inj h
          exact hmove heq (.eraseFound (not_not.mp hk))
      · next heq =>
        split at h
        · exact absurd h (by simp)
        · next hgp =>
          obtain rfl := Option.some.inj h
          rw [hpick]
          exact hmove heq (.eraseParent hgp)
      · next heq =>
        obtain rfl := Option.some.inj h
        rw [hpick']
        exact hmove heq .eraseSibling
      · next heq =>
        obtain rfl := Option.some.inj h
        rw [hpick]
        exact hmove heq .eraseNode
      · next heq =>
        obtain rfl := Option.some.inj h
        rw [hpick']
        exact hmove heq .eraseTest
      · next heq =>
        obtain rfl := Option.some.inj h
        exact hmove heq .eraseRead
      · -- eraseExecute
        next heq =>
        split at h
        · next hex =>
          obtain rfl := Option.some.inj h
          exact .erase heq hex
        · obtain rfl := Option.some.inj h
          exact hmove heq .eraseRetry

/-- The other threads stay where they are. -/
theorem Effect.thread {execute : (Loc → Word) → List (Entry Loc Word) → Bool × (Loc → Word)}
    {P : Params} {s s' : State} {t u : Tid} (he : Effect execute P s t s') (hu : u ≠ t) :
    s'.thread u = s.thread u := by
  cases he <;> rw [goto_thread, if_neg hu]
  rfl

end MultiCore.ExternalTree
