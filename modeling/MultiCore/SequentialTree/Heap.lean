/-
  MultiCore.SequentialTree.Heap — the nodes of the sequential external search
  trees (`external_tree_seq.h` of assignment 6, `tree.h` of assignment 7), and
  the code that both have.

  A command on a node that is not allocated (never was, has been deleted, or is
  NULL) faults, and so does a second `delete`.
-/
import MultiCore.Lib.Program
import Mathlib.Algebra.Order.Group.Int
import Mathlib.Algebra.Ring.Int.Defs
import Mathlib.Logic.Function.Basic

namespace MultiCore.SequentialTree

open MultiCore.Lib

/-! ## §1. Nodes. -/

abbrev Ptr := Nat

def NULL : Ptr := 0

/-- `struct Node`; only `ExternalSequential` has `marked`. -/
structure Node where
  key : Int
  left : Ptr
  right : Ptr
  marked : Bool
  deriving Repr, DecidableEq

/-- The left (`false`) and the right (`true`) child. -/
def Node.child (n : Node) (d : Bool) : Ptr := if d then n.right else n.left

def Node.setChild (n : Node) (d : Bool) (v : Ptr) : Node :=
  if d then { n with right := v } else { n with left := v }

structure Heap where
  node : Ptr → Node
  allocated : Ptr → Bool
  next : Ptr

/-- The bounds of the keys. -/
structure Params where
  minKey : Int
  maxKey : Int
  le : minKey ≤ maxKey
  deriving Repr

/-- The nodes the constructors allocate, in this order. -/
def rootLeft : Ptr := 1
def rootRight : Ptr := 2
def root : Ptr := 3

/-- The constructors. -/
def init (P : Params) : Heap where
  node := fun a =>
    if a = root then ⟨P.minKey - 1, rootLeft, rootRight, false⟩
    else if a = rootRight then ⟨P.maxKey + 1, NULL, NULL, false⟩
    else ⟨P.minKey - 1, NULL, NULL, false⟩
  allocated := fun a => decide (1 ≤ a ∧ a ≤ 3)
  next := 4

/-! ## §2. Commands. -/

inductive Cmd where
  /-- Read `a->key`. -/
  | key (a : Ptr)
  /-- Read `a->left` or `a->right`. -/
  | child (a : Ptr) (d : Bool)
  /-- Read `a->marked`. -/
  | marked (a : Ptr)
  /-- Write `a->left` or `a->right`. -/
  | setChild (a : Ptr) (d : Bool) (v : Ptr)
  /-- `a->marked = true`. -/
  | mark (a : Ptr)
  /-- `createInternal(key, left, right)`. -/
  | new (key : Int) (left right : Ptr)
  | delete (a : Ptr)
  deriving Repr, DecidableEq

def Reply : Cmd → Type
  | .key _ => Int
  | .child _ _ => Ptr
  | .marked _ => Bool
  | .new _ _ _ => Ptr
  | _ => Unit

def Heap.setChild (h : Heap) (a : Ptr) (d : Bool) (v : Ptr) : Heap :=
  { h with node := Function.update h.node a ((h.node a).setChild d v) }

def Heap.mark (h : Heap) (a : Ptr) : Heap :=
  { h with node := Function.update h.node a { h.node a with marked := true } }

def Heap.new (h : Heap) (key : Int) (left right : Ptr) : Heap :=
  { node := Function.update h.node h.next ⟨key, left, right, false⟩
    allocated := Function.update h.allocated h.next true
    next := h.next + 1 }

def Heap.delete (h : Heap) (a : Ptr) : Heap :=
  { h with allocated := Function.update h.allocated a false }

def execCmd (c : Cmd) (h : Heap) : Option (Reply c × Heap) :=
  match c with
  | .key a => if h.allocated a then some ((h.node a).key, h) else none
  | .child a d => if h.allocated a then some ((h.node a).child d, h) else none
  | .marked a => if h.allocated a then some ((h.node a).marked, h) else none
  | .setChild a d v => if h.allocated a then some ((), h.setChild a d v) else none
  | .mark a => if h.allocated a then some ((), h.mark a) else none
  | .new k l r => some (h.next, h.new k l r)
  | .delete a => if h.allocated a then some ((), h.delete a) else none

def effects : Effects Heap := ⟨Cmd, Reply, execCmd⟩

/-- Code on the nodes. -/
abbrev Code (α : Type) := Prog effects α

def key (a : Ptr) : Code Int := Prog.call (E := effects) (.key a)

def child (a : Ptr) (d : Bool) : Code Ptr := Prog.call (E := effects) (.child a d)

def left (a : Ptr) : Code Ptr := child a false

def right (a : Ptr) : Code Ptr := child a true

def marked (a : Ptr) : Code Bool := Prog.call (E := effects) (.marked a)

def setLeft (a v : Ptr) : Code Unit := Prog.call (E := effects) (.setChild a false v)

def setRight (a v : Ptr) : Code Unit := Prog.call (E := effects) (.setChild a true v)

def mark (a : Ptr) : Code Unit := Prog.call (E := effects) (.mark a)

def createInternal (k : Int) (l r : Ptr) : Code Ptr := Prog.call (E := effects) (.new k l r)

def createLeaf (k : Int) : Code Ptr := createInternal k NULL NULL

def delete (a : Ptr) : Code Unit := Prog.call (E := effects) (.delete a)

/-- `gp->`: a pointer that was never set cannot be followed. -/
def deref (gp : Option Ptr) : Code Ptr :=
  match gp with
  | some a => pure a
  | none => .fail

/-! ## §3. The code of both trees. -/

/-- `isLeaf`, with its assertion. -/
def isLeaf (a : Ptr) : Code Bool := do
  let l ← left a
  if l = NULL then
    let r ← right a
    Prog.assert (decide (r = NULL))
    pure true
  else pure false

structure SearchRecord where
  /-- Unset when the loop of `search` has not run. -/
  gp : Option Ptr
  p : Ptr
  n : Ptr
  deriving Repr, DecidableEq

/-- The loop of `search`; `goesLeft key (n->key)` is its routing test, and `fuel`
bounds its iterations. -/
def searchLoop (goesLeft : Int → Int → Bool) (k : Int) :
    Nat → Option Ptr → Ptr → Ptr → Code SearchRecord
  | 0, _, _, _ => .fail
  | fuel + 1, gp, p, n => do
      if ← isLeaf n then pure ⟨gp, p, n⟩
      else
        let nk ← key n
        let n' ← if goesLeft k nk then left n else right n
        searchLoop goesLeft k fuel (some p) n n'

/-- `getSumOfKeysInSubtree`. -/
def getSumOfKeysInSubtree (P : Params) : Nat → Ptr → Code Int
  | 0, _ => .fail
  | fuel + 1, a =>
      if a = NULL then pure 0
      else do
        if ← isLeaf a then
          let k ← key a
          if k ≥ P.minKey then
            let k ← key a
            if k ≤ P.maxKey then key a else pure 0
          else pure 0
        else
          let l ← left a
          let sumLeft ← getSumOfKeysInSubtree P fuel l
          let r ← right a
          let sumRight ← getSumOfKeysInSubtree P fuel r
          pure (sumLeft + sumRight)

/-- `getSumOfKeys`. -/
def getSumOfKeys (P : Params) (fuel : Nat) : Code Int := getSumOfKeysInSubtree P fuel root

end MultiCore.SequentialTree
