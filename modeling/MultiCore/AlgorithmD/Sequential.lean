/-
  MultiCore.AlgorithmD.Sequential — the calls of `alg_d.h` executed one after
  another.

  Without interference every CAS succeeds, `currentTable == t` throughout a
  call, and the table that an expansion replaces is not used again, so the
  state is the current table.  A call ends with a result or with a `Fault`: an
  `assert(false)` reached, an allocation of a negative size (`exit(3)`), or a
  wait for chunks that nobody migrates.  The restarts of a call after an
  expansion are counted by `fuel`.
-/
import MultiCore.AlgorithmD.Bucket
import MultiCore.Lib.Loop

namespace MultiCore.AlgorithmD.Sequential

open MultiCore.Lib MultiCore.Util

/-! ## §1. State. -/

/-- `struct table`. -/
structure Table where
  oldData : Nat → Bucket
  currData : Nat → Bucket
  currCapacity : Nat
  oldCapacity : Nat
  insertAC : Counter
  deleteAC : Counter
  chunksClaimed : Nat
  chunksDone : Nat

inductive Fault where
  | assertFalse
  | badAlloc
  /-- `while (t->chunksDone != totalOldChunks)` with nobody left to migrate. -/
  | waitsForever
  | outOfFuel
  deriving Repr, DecidableEq

/-- The constructor of `table`. -/
def Table.new (oldC : Nat) (oldD : Nat → Bucket) (currC nThreads : Nat) : Table :=
  { oldData := oldD, currData := fun _ => Bucket.plain EMPTY
    currCapacity := currC, oldCapacity := oldC
    insertAC := Counter.new nThreads, deleteAC := Counter.new nThreads
    chunksClaimed := 0, chunksDone := 0 }

/-- The constructor of `AlgorithmD`. -/
def init (numThreads capacity : Nat) : Table :=
  Table.new 0 (fun _ => Bucket.plain EMPTY) capacity numThreads

/-- `data[index].key = key; insertAC->inc(tid)`. -/
def Table.put (t : Table) (tid index key : Nat) : Table :=
  { t with
    currData := Function.update t.currData index (Bucket.plain key)
    insertAC := t.insertAC.inc tid }

/-! ## §2. Migration. -/

/-- One iteration of the probe loop of `insertIfAbsent(tid, key, true)`:
`some none` has found the key, `some (some index)` an empty bucket. -/
def reinsertBody (t : Table) (key i : Nat) : Option (Option Nat) :=
  let index := path t.currCapacity key i
  let found := t.currData index
  if found = Bucket.plain key then some none
  else if found = Bucket.plain EMPTY then some (some index)
  else none

/-- `insertIfAbsent(tid, key, true)`: the insert of a migrating thread, with its
assertions. -/
def reinsert (tid : Nat) (t : Table) (key : Nat) : Except Fault Table :=
  if ¬ (key > 0 ∧ key ≠ TOMBSTONE) then .error .assertFalse
  else
    match (List.range t.currCapacity).findSome? (reinsertBody t key) with
    | some (some index) => .ok (t.put tid index key)
    | some none => .error .assertFalse
    | none => .error .assertFalse

/-- The body of the loop of `migrate`: mark bucket `i`, then move its key. -/
def migrateBody (tid : Nat) (t : Table) (i : Nat) : Except Fault Table :=
  let found := t.oldData i
  let t := { t with oldData := Function.update t.oldData i found.mark }
  let key := (t.oldData i).getKey
  if key ≠ TOMBSTONE ∧ key ≠ EMPTY then reinsert tid t key else .ok t

/-- `migrate`. -/
def migrate (tid : Nat) (t : Table) (myChunk : Nat) : Except Fault Table :=
  let start_index := startIndex myChunk
  let end_index := endIndex myChunk t.oldCapacity
  (List.range (end_index - start_index)).foldlM (fun t k => migrateBody tid t (start_index + k)) t

/-- One turn of the claiming loop of `helpExpansion`. -/
def claimBody (tid : Nat) (t : Table) (_ : Nat) : Except Fault Table :=
  let myChunk := t.chunksClaimed
  let t := { t with chunksClaimed := t.chunksClaimed + 1 }
  (migrate tid t myChunk).map fun t => { t with chunksDone := t.chunksDone + 1 }

/-- `helpExpansion`. -/
def helpExpansion (tid : Nat) (t : Table) : Except Fault Table :=
  (List.range (totalOldChunks t.oldCapacity - t.chunksClaimed)).foldlM (claimBody tid) t |>.bind
    fun t =>
      if t.chunksDone = totalOldChunks t.oldCapacity then .ok t else .error .waitsForever

/-! ## §3. Expansion. -/

/-- The test of `expandAsNeeded`. -/
def Table.isExpandNeeded (t : Table) (i : Nat) : Bool :=
  decide (t.insertAC.get > (t.currCapacity / 2 : Nat))
    || (decide (i > 50) && decide (t.insertAC.getAccurate > (t.currCapacity / 2 : Nat)))

/-- `noOfKeys` of `startExpansion`. -/
def Table.noOfKeys (t : Table) : Int := toInt (t.insertAC.getAccurate - t.deleteAC.getAccurate)

/-- `startExpansion`. -/
def startExpansion (tid : Nat) (t : Table) : Except Fault Table :=
  let newCap := toInt (4 * t.noOfKeys)
  if newCap = 0 then .error .assertFalse
  else if newCap < 0 then .error .badAlloc
  else
    helpExpansion tid
      (Table.new t.currCapacity t.currData newCap.toNat t.insertAC.numThreads)

/-- `expandAsNeeded`. -/
def expandAsNeeded (tid : Nat) (t : Table) (i : Nat) : Except Fault (Table × Bool) :=
  (helpExpansion tid t).bind fun t =>
    if t.isExpandNeeded i then (startExpansion tid t).map fun t => (t, true) else .ok (t, false)

/-! ## §4. Calls. -/

/-- What leaves a probe loop. -/
inductive Exit where
  | restart
  | found (index : Nat)
  | empty (index : Nat)
  deriving Repr, DecidableEq

/-- One iteration of the probe loop of `insertIfAbsent` or `erase`, up to the
CAS.  The three tests exclude each other, so the order in which `erase` makes
them is the same. -/
def probeBody (tid key : Nat) (t : Table) (i : Nat) : Except Fault (Table × Option Exit) :=
  (expandAsNeeded tid t i).map fun r =>
    let t := r.1
    if r.2 then (t, some .restart)
    else
      let index := path t.currCapacity key i
      let found := t.currData index
      if found.isMarked then (t, some .restart)
      else if found = Bucket.plain key then (t, some (.found index))
      else if found = Bucket.plain EMPTY then (t, some (.empty index))
      else (t, none)

/-- `insertIfAbsent(tid, key)`, restarted at most `fuel` times. -/
def insertIfAbsent : Nat → Table → Nat → Nat → Except Fault (Bool × Table)
  | fuel, t, tid, key =>
      (forUntil (probeBody tid key) (List.range t.currCapacity) t).bind fun r =>
        match r.2 with
        | some .restart =>
            match fuel with
            | 0 => .error .outOfFuel
            | fuel + 1 => insertIfAbsent fuel r.1 tid key
        | some (.found _) => .ok (false, r.1)
        | some (.empty index) => .ok (true, r.1.put tid index key)
        | none => .error .assertFalse

/-- `erase(tid, key)`, restarted at most `fuel` times. -/
def erase : Nat → Table → Nat → Nat → Except Fault (Bool × Table)
  | fuel, t, tid, key =>
      (forUntil (probeBody tid key) (List.range t.currCapacity) t).bind fun r =>
        match r.2 with
        | some .restart =>
            match fuel with
            | 0 => .error .outOfFuel
            | fuel + 1 => erase fuel r.1 tid key
        | some (.found index) =>
            .ok (true, { r.1 with
              currData := Function.update r.1.currData index (Bucket.plain TOMBSTONE)
              deleteAC := r.1.deleteAC.inc tid })
        | some (.empty _) => .ok (false, r.1)
        | none => .ok (false, r.1)

def perform (fuel : Nat) (t : Table) (call : Call) : Except Fault (Bool × Table) :=
  match call.op with
  | .insertIfAbsent => insertIfAbsent fuel t call.tid call.key.val
  | .erase => erase fuel t call.tid call.key.val

/-- The call returns `r` and leaves the table `t'`. -/
def Returns (t : Table) (call : Call) (r : Bool) (t' : Table) : Prop :=
  ∃ fuel, perform fuel t call = .ok (r, t')

/-- Every call of a sequence meets `C` in the table it starts from. -/
def Along (C : Table → Call → Prop) : Table → List Call → Prop
  | _, [] => True
  | t, call :: calls => C t call ∧ ∀ r t', Returns t call r t' → Along C t' calls

end MultiCore.AlgorithmD.Sequential
