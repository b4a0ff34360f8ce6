/-
  MultiCore.SequentialTree.Model — the operations of `ExternalSequential` and of
  `ExternalBST`.

  `ExternalSequential` routes a key that equals the node key to the left and
  gives a new internal node the smaller of the two leaf keys; its updates are
  `while (true)` loops behind a validation, of which `tries` counts the turns.
  `ExternalBST` routes an equal key to the right and takes the larger key.
-/
import MultiCore.SequentialTree.Heap
import Mathlib.Data.Finset.Basic
import Mathlib.Algebra.BigOperators.Group.Finset.Basic

namespace MultiCore.SequentialTree

open MultiCore.Lib

/-! ## §1. Calls. -/

inductive Op where
  | contains
  | insertIfAbsent
  | erase
  deriving Repr, DecidableEq

structure Request where
  op : Op
  key : Int
  deriving Repr, DecidableEq

/-! ## §2. `external_tree_seq.h`. -/

namespace ExternalSequential

def compareTo (a b : Int) : Int := a - b

def search (fuel : Nat) (k : Int) : Code SearchRecord :=
  searchLoop (fun k nk => decide (k ≤ nk)) k fuel none NULL root

/-- `node->isParentOf(other)`. -/
def isParentOf (a other : Ptr) : Code Bool := do
  let l ← left a
  if l = other then pure true
  else
    let r ← right a
    pure (decide (r = other))

def contains (P : Params) (fuel : Nat) (k : Int) : Code Bool := do
  Prog.assert (decide (k ≤ P.maxKey))
  let rec_ ← search fuel k
  let nk ← key rec_.n
  pure (decide (nk = k))

/-- `!ret.p->marked && ret.p->isParentOf(ret.n)`. -/
def validInsert (ret : SearchRecord) : Code Bool := do
  if ← marked ret.p then pure false else isParentOf ret.p ret.n

/-- One turn of the loop of `insertIfAbsent`; `none` goes round again. -/
def insertTurn (fuel : Nat) (k : Int) : Code (Option Bool) := do
  let ret ← search fuel k
  let nk ← key ret.n
  let dir := compareTo k nk
  if dir = 0 then pure (some false)
  else
    let na ← createLeaf k
    let leftChild := if dir ≤ 0 then na else ret.n
    let rightChild := if dir ≤ 0 then ret.n else na
    let nk ← key ret.n
    let n1 ← createInternal (min k nk) leftChild rightChild
    if ← validInsert ret then
      let l ← left ret.p
      if l = ret.n then
        setLeft ret.p n1
        pure (some true)
      else
        let r ← right ret.p
        Prog.assert (decide (r = ret.n))
        setRight ret.p n1
        pure (some true)
    else
      delete n1
      delete na
      pure none

/-- A `while (true)` loop, of at most `tries` turns. -/
def whileTrue (turn : Code (Option Bool)) : Nat → Code Bool
  | 0 => .fail
  | tries + 1 => do
      match ← turn with
      | some result => pure result
      | none => whileTrue turn tries

def insertIfAbsent (P : Params) (fuel tries : Nat) (k : Int) : Code Bool := do
  Prog.assert (decide (k ≤ P.maxKey))
  whileTrue (insertTurn fuel k) tries

/-- `ret.gp->isParentOf(ret.p) && ret.p->isParentOf(ret.n) && !ret.gp->marked`. -/
def validErase (ret : SearchRecord) : Code Bool := do
  let gp ← deref ret.gp
  if ← isParentOf gp ret.p then
    if ← isParentOf ret.p ret.n then
      let m ← marked gp
      pure (!m)
    else pure false
  else pure false

/-- One turn of the loop of `erase`. -/
def eraseTurn (fuel : Nat) (k : Int) : Code (Option Bool) := do
  let ret ← search fuel k
  let nk ← key ret.n
  let dir := compareTo k nk
  if dir ≠ 0 then pure (some false)
  else
    if ← validErase ret then
      mark ret.n
      mark ret.p
      let l ← left ret.p
      let sibling ← if l = ret.n then right ret.p else left ret.p
      let gp ← deref ret.gp
      let gl ← left gp
      if gl = ret.p then setLeft gp sibling
      else
        let gr ← right gp
        Prog.assert (decide (gr = ret.p))
        setRight gp sibling
      delete ret.p
      delete ret.n
      pure (some true)
    else pure none

def erase (P : Params) (fuel tries : Nat) (k : Int) : Code Bool := do
  Prog.assert (decide (k ≤ P.maxKey))
  whileTrue (eraseTurn fuel k) tries

def perform (P : Params) (fuel tries : Nat) (q : Request) : Code Bool :=
  match q.op with
  | .contains => contains P fuel q.key
  | .insertIfAbsent => insertIfAbsent P fuel tries q.key
  | .erase => erase P fuel tries q.key

end ExternalSequential

/-! ## §3. `tree.h`. -/

namespace ExternalBST

def search (fuel : Nat) (k : Int) : Code SearchRecord :=
  searchLoop (fun k nk => decide (k < nk)) k fuel none NULL root

/-- `assert(key >= minKey && key <= maxKey)`. -/
def assertKey (P : Params) (k : Int) : Code Unit :=
  Prog.assert (decide (k ≥ P.minKey ∧ k ≤ P.maxKey))

def sequentialContains (P : Params) (fuel : Nat) (k : Int) : Code Bool := do
  assertKey P k
  let rec_ ← search fuel k
  let nk ← key rec_.n
  pure (decide (nk = k))

def sequentialInsertIfAbsent (P : Params) (fuel : Nat) (k : Int) : Code Bool := do
  assertKey P k
  let ret ← search fuel k
  let nk ← key ret.n
  if k = nk then pure false
  else
    let newLeaf ← createLeaf k
    let nk ← key ret.n
    let newInternal ←
      if k < nk then do
        let nk ← key ret.n
        createInternal nk newLeaf ret.n
      else createInternal k ret.n newLeaf
    let l ← left ret.p
    if l = ret.n then setLeft ret.p newInternal else setRight ret.p newInternal
    pure true

def sequentialErase (P : Params) (fuel : Nat) (k : Int) : Code Bool := do
  assertKey P k
  let ret ← search fuel k
  let nk ← key ret.n
  if k ≠ nk then pure false
  else
    let l ← left ret.p
    let sibling ← if l = ret.n then right ret.p else left ret.p
    let gp ← deref ret.gp
    let gl ← left gp
    if gl = ret.p then setLeft gp sibling else setRight gp sibling
    delete ret.p
    delete ret.n
    pure true

def perform (P : Params) (fuel : Nat) (q : Request) : Code Bool :=
  match q.op with
  | .contains => sequentialContains P fuel q.key
  | .insertIfAbsent => sequentialInsertIfAbsent P fuel q.key
  | .erase => sequentialErase P fuel q.key

end ExternalBST

/-! ## §4. Sessions, and the reference set. -/

/-- A sequence of calls, with `getSumOfKeys` after each. -/
def session (perform : Request → Code Bool) (sum : Code Int) :
    List Request → Code (List (Bool × Int))
  | [] => pure []
  | q :: qs => do
      let result ← perform q
      let total ← sum
      let rest ← session perform sum qs
      pure ((result, total) :: rest)

/-- The result of a call on a set of keys. -/
def refResult (q : Request) (S : Finset Int) : Bool :=
  match q.op with
  | .contains => decide (q.key ∈ S)
  | .insertIfAbsent => decide (q.key ∉ S)
  | .erase => decide (q.key ∈ S)

/-- The set after a call. -/
def refStep (S : Finset Int) (q : Request) : Finset Int :=
  match q.op with
  | .contains => S
  | .insertIfAbsent => insert q.key S
  | .erase => S.erase q.key

/-- The session on the reference set. -/
def refSession : Finset Int → List Request → List (Bool × Int)
  | _, [] => []
  | S, q :: qs =>
      (refResult q S, ∑ k ∈ refStep S q, k) :: refSession (refStep S q) qs

end MultiCore.SequentialTree
