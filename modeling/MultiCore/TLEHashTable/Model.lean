/-
  MultiCore.TLEHashTable.Model — the expanding hash table of assignment 7
  (`hashtable.h`), whose calls are atomic under lock elision.

  Calls run one at a time, so each is a function of the state.  A call ends
  with a result or with a `Fault`: an `assert(false)` reached, a probe loop
  that never ends (its `uint32_t` index wraps before it reaches a capacity of
  `2^32` or more), an `int` loop index that overflows, or a negative array
  size.  A probe loop is the first index at which its body leaves the loop.

  The restarts of `sequentialInsert` after an expansion are counted by `fuel`.
-/
import MultiCore.Lib.Run
import MultiCore.Util.Bucket

namespace MultiCore.TLEHashTable

open MultiCore.Lib MultiCore.Util

/-! ## §1. State. -/

structure Table where
  data : Nat → Nat
  capacity : Nat
  old : Nat → Nat
  oldCapacity : Nat
  approxInserts : Counter
  approxDeletes : Counter

inductive Fault where
  /-- `assert(false)` behind the probe loop of `sequentialInsert`. -/
  | assertFalse
  | diverges
  | overflow
  | badAlloc
  | outOfFuel
  deriving Repr, DecidableEq

/-- The constructor. -/
def init (numThreads capacity : Nat) : Table :=
  { data := fun _ => EMPTY, capacity := capacity, old := fun _ => EMPTY, oldCapacity := 0
    approxInserts := Counter.new numThreads, approxDeletes := Counter.new numThreads }

/-- `getAccurateSize`. -/
def Table.getAccurateSize (t : Table) : Int :=
  let accurateInserts := t.approxInserts.getAccurate
  let accurateDeletes := t.approxDeletes.getAccurate
  accurateInserts - accurateDeletes

/-- `isExpandNeeded`. -/
def Table.isExpandNeeded (t : Table) (probeCount : Nat) : Bool :=
  decide (t.approxInserts.get > (t.capacity / 2 : Nat))
    || (decide (probeCount > 100) && decide (t.approxInserts.getAccurate > (t.capacity / 2 : Nat)))

/-! ## §2. The probe loops. -/

/-- What leaves the probe loop of `sequentialInsert`. -/
inductive InsertExit where
  | expand
  | found
  | empty (index : Nat)
  deriving Repr, DecidableEq

/-- One iteration of the loop of `sequentialInsert`. -/
def insertBody (t : Table) (key : Nat) (disableExpansion : Bool) (i : Nat) : Option InsertExit :=
  if !disableExpansion && t.isExpandNeeded i then some .expand
  else
    let index := path t.capacity key i
    let found := t.data index
    if found = key then some .found
    else if found = EMPTY then some (.empty index)
    else none

/-- How often a `uint32_t` loop up to `capacity` can run its body on a fixed
state before it ends or repeats itself. -/
def probes (capacity : Nat) : List Nat := List.range (min capacity (2 ^ 32))

/-- What follows a probe loop that no iteration has left: its end, or, when
the index cannot reach `capacity`, nothing. -/
def afterLoop {α : Type} (capacity : Nat) (atEnd : Except Fault α) : Except Fault α :=
  if capacity < 2 ^ 32 then atEnd else .error .diverges

/-- `data[index] = key; approxInserts->inc(tid)`. -/
def Table.put (t : Table) (tid index key : Nat) : Table :=
  { t with
    data := Function.update t.data index key
    approxInserts := t.approxInserts.inc tid }

/-- `sequentialInsert(tid, key, true, NULL)`: no expansion. -/
def sequentialReinsert (t : Table) (tid key : Nat) : Except Fault (Bool × Table) :=
  match (probes t.capacity).findSome? (insertBody t key true) with
  | some (.empty index) => .ok (true, t.put tid index key)
  | some _ => .ok (false, t)
  | none => afterLoop t.capacity (.error .assertFalse)

/-! ## §3. Expansion. -/

/-- The body of the loop of `expand`: move `old[i]` if it holds a key. -/
def expandBody (tid : Nat) (t : Table) (i : Nat) : Except Fault Table :=
  let key := t.old i
  if key ≠ TOMBSTONE ∧ key ≠ EMPTY then (sequentialReinsert t tid key).map Prod.snd
  else .ok t

/-- `expand`.  The loop index is an `int`: it overflows on a capacity of `2^31`. -/
def expand (tid : Nat) (t : Table) : Except Fault Table :=
  let size := t.getAccurateSize * 4
  if size < 0 then .error .badAlloc
  else if t.capacity ≥ 2 ^ 31 then .error .overflow
  else do
    let fresh : Table := { t with
      old := t.data, oldCapacity := t.capacity, capacity := size.toNat, data := fun _ => EMPTY }
    let moved ← (List.range fresh.oldCapacity).foldlM (expandBody tid) fresh
    let counted := { moved with approxInserts := moved.approxInserts.set moved.getAccurateSize }
    .ok { counted with approxDeletes := counted.approxDeletes.set 0 }

/-! ## §4. Calls. -/

/-- `sequentialInsert(tid, key)`, restarted at most `fuel` times. -/
def sequentialInsert : Nat → Table → Nat → Nat → Except Fault (Bool × Table)
  | fuel, t, tid, key =>
      match (probes t.capacity).findSome? (insertBody t key false) with
      | some .expand =>
          match fuel with
          | 0 => .error .outOfFuel
          | fuel + 1 => (expand tid t).bind fun t' => sequentialInsert fuel t' tid key
      | some .found => .ok (false, t)
      | some (.empty index) => .ok (true, t.put tid index key)
      | none => afterLoop t.capacity (.error .assertFalse)

/-- One iteration of the loop of `sequentialErase`: `none` goes on, `some none`
has met an empty bucket, `some (some index)` the key. -/
def eraseBody (t : Table) (key : Nat) (i : Nat) : Option (Option Nat) :=
  let index := path t.capacity key i
  let found := t.data index
  if found = EMPTY then some none
  else if found = key then some (some index)
  else none

/-- `sequentialErase`. -/
def sequentialErase (t : Table) (tid key : Nat) : Except Fault (Bool × Table) :=
  match (probes t.capacity).findSome? (eraseBody t key) with
  | some (some index) =>
      .ok (true, { t with
        data := Function.update t.data index TOMBSTONE
        approxDeletes := t.approxDeletes.inc tid })
  | some none => .ok (false, t)
  | none => afterLoop t.capacity (.ok (false, t))

/-- One call; `fuel` bounds the expansions it may make. -/
def perform (fuel : Nat) (t : Table) (call : Call) : Except Fault (Bool × Table) :=
  match call.op with
  | .insertIfAbsent => sequentialInsert fuel t call.tid call.key.val
  | .erase => sequentialErase t call.tid call.key.val

/-- The table, call after call; a call that faults has no successor. -/
def system (numThreads capacity : Nat) : Sys Table (Nat × Call) where
  init := init numThreads capacity
  next t a := (perform a.1 t a.2).toOption.map Prod.snd

/-- `getSumOfKeys`. -/
def Table.getSumOfKeys (t : Table) : Nat :=
  ∑ i ∈ Finset.range t.capacity, if t.data i ≠ TOMBSTONE ∧ t.data i ≠ EMPTY then t.data i else 0

end MultiCore.TLEHashTable
