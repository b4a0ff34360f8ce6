/-
  MultiCore.AlgorithmD.Concurrent — the concurrent hash table of assignment 4
  (`alg_d.h`), as a step machine.

  Every load, CAS and fetch-and-add of a shared word is one step of the thread
  that executes it.  Table `t` is the `t`-th table that `startExpansion`
  published (tables are never freed while the structure is in use, so a table
  pointer is its number); its fields that never change are in `table t`, its
  shared words in `data t`, `counter op t`, `chunksClaimed t` and
  `chunksDone t`.

  A failed assertion, and `exit(3)` on a negative size, end the process: such a
  step is an error and has no successor.  `casWins` and `returned` record what
  the clients' CASes and calls have done; no step reads them.
-/
import MultiCore.AlgorithmD.Bucket
import MultiCore.Lib.Run
import Mathlib.Algebra.Ring.Int.Defs

namespace MultiCore.AlgorithmD.Concurrent

open MultiCore.Lib MultiCore.Util

/-! ## §1. States. -/

/-- A thread id: an index into the subcounters. -/
abbrev Tid := Fin MAX_THREADS

instance : NeZero MAX_THREADS := ⟨by decide⟩

/-- The fields of `struct table` that its constructor sets for good. -/
structure Table where
  /-- The table whose `currData` this `oldData` is. -/
  oldData : Nat
  currCapacity : Nat
  oldCapacity : Nat
  deriving Repr, DecidableEq

/-- Where a thread is in `counter::inc`. -/
inductive Inc where
  /-- About to execute `++subcounters[tid].v`. -/
  | bump
  /-- About to execute `globalCounter.fetch_add(val)`. -/
  | publish (val : Nat)
  /-- About to execute `subcounters[tid].v = 0`. -/
  | reset
  deriving Repr, DecidableEq

/-- Where a thread is in iteration `i` of a probe loop over table `t`. -/
inductive Probe where
  /-- About to read `data[index].key` into `found`. -/
  | read (t i : Nat)
  /-- About to CAS `data[index].key` from `found`. -/
  | cas (t i : Nat)
  /-- The CAS has failed; about to read `data[index].key` again. -/
  | reread (t i : Nat)
  /-- The CAS has succeeded; in `inc` of the counter. -/
  | inc (t : Nat) (step : Inc)
  deriving Repr, DecidableEq

/-- Where a thread is in `helpExpansion`; `c` is `myChunk`, `i` the index of
the loop of `migrate`. -/
inductive Help where
  /-- At `while (t->chunksClaimed < totalOldChunks)`. -/
  | test
  /-- About to execute `t->chunksClaimed.fetch_add(1)`. -/
  | claim
  /-- About to read `oldData[i].key` into `found`. -/
  | read (c i : Nat)
  /-- About to CAS `oldData[i].key` from `found` to `found | MARKED_MASK`. -/
  | mark (c i : Nat) (found : Bucket)
  /-- About to read `oldData[i].key` into `key`. -/
  | getKey (c i : Nat)
  /-- `insertIfAbsent(tid, key, true)`, about to load `currentTable`. -/
  | load (c i key : Nat)
  /-- `insertIfAbsent(tid, key, true)`, in its loop. -/
  | insert (c i key : Nat) (p : Probe)
  /-- About to execute `t->chunksDone.fetch_add(1)`. -/
  | done (c : Nat)
  /-- At `while (t->chunksDone != totalOldChunks)`. -/
  | wait
  deriving Repr, DecidableEq

/-- What follows a call of `helpExpansion`. -/
inductive After where
  /-- The tests of `expandAsNeeded` in iteration `i`. -/
  | test (i : Nat)
  /-- `startExpansion` and `expandAsNeeded` return, and the call starts again. -/
  | restart
  deriving Repr, DecidableEq

/-- Where a thread is in a call of `insertIfAbsent` or `erase`, with the locals
it holds there. -/
inductive Pc where
  /-- About to load `currentTable`. -/
  | load
  | help (k : After) (t : Nat) (h : Help)
  /-- `expandAsNeeded`, about to evaluate `t->insertAC->get()`. -/
  | get (t i : Nat)
  /-- `expandAsNeeded`, in `t->insertAC->getAccurate()`. -/
  | getAccurate (t i n : Nat) (ret : Int)
  /-- `startExpansion`, at `if (currentTable.load() == t)`. -/
  | current (t : Nat)
  /-- `startExpansion`, in `t->insertAC->getAccurate()`. -/
  | inserts (t n : Nat) (ret : Int)
  /-- `startExpansion`, in `t->deleteAC->getAccurate()`. -/
  | deletes (t : Nat) (inserts : Int) (n : Nat) (ret : Int)
  /-- `startExpansion`, about to CAS `currentTable` from `t` to a new table. -/
  | publish (t newCap : Nat)
  /-- `startExpansion`, about to load the argument of `helpExpansion`. -/
  | reload
  | probe (p : Probe)
  /-- The call is about to return `result`. -/
  | ret (result : Bool)
  deriving Repr, DecidableEq

inductive Thread where
  | idle
  | running (op : Op) (key : Key) (pc : Pc)
  deriving Repr, DecidableEq

/-- A finished call. -/
structure Return where
  tid : Tid
  op : Op
  key : Key
  result : Bool
  deriving Repr, DecidableEq

structure State where
  numThreads : Nat
  currentTable : Nat
  table : Nat → Table
  data : Nat → Nat → Bucket
  /-- The counter that a successful CAS of the operation increments: `insertAC`
  of the inserts, `deleteAC` of the erases. -/
  counter : Op → Nat → Counter
  chunksClaimed : Nat → Nat
  chunksDone : Nat → Nat
  thread : Tid → Thread
  /-- The client CASes that have succeeded, per operation and key. -/
  casWins : Op → Nat → Nat
  /-- The calls that have returned. -/
  returned : List Return

inductive Fault where
  /-- `assert(false)` behind the loop of `insertIfAbsent`. -/
  | insertFull
  /-- The same assertion, in an insert of a migrating thread. -/
  | migrateFull
  /-- `assert(false)`: a migrating thread has found its key in the new table. -/
  | migrateFound
  /-- `assert(key > 0)` or `assert(key != TOMBSTONE)`. -/
  | migrateKey
  /-- `assert(false)` in `startExpansion`. -/
  | noKeys
  /-- `exit(3)` in the constructor of `table`. -/
  | badAlloc
  deriving Repr, DecidableEq

/-! ## §2. Accesses. -/

namespace State

def goto (s : State) (tid : Tid) (th : Thread) : State :=
  { s with thread := Function.update s.thread tid th }

def currCapacity (s : State) (t : Nat) : Nat := (s.table t).currCapacity

def oldCapacity (s : State) (t : Nat) : Nat := (s.table t).oldCapacity

/-- `totalOldChunks` of table `t`. -/
def total (s : State) (t : Nat) : Nat := totalOldChunks (s.oldCapacity t)

/-- `index` of probe `i` for `key` in table `t`. -/
def index (s : State) (t key i : Nat) : Nat := path (s.currCapacity t) key i

/-- `oldData[i]` of table `t`. -/
def old (s : State) (t i : Nat) : Bucket := s.data (s.table t).oldData i

/-- Store `b` in bucket `x` of `currData` of table `t`. -/
def write (s : State) (t x : Nat) (b : Bucket) : State :=
  { s with data := fun u y => if u = t ∧ y = x then b else s.data u y }

def insertAC (s : State) (t : Nat) : Counter := s.counter .insertIfAbsent t

def deleteAC (s : State) (t : Nat) : Counter := s.counter .erase t

def setCounter (s : State) (op : Op) (t : Nat) (c : Counter) : State :=
  { s with counter := Function.update s.counter op (Function.update (s.counter op) t c) }

/-- Record that a client's CAS of `op` on `key` has succeeded. -/
def win (s : State) (op : Op) (key : Nat) : State :=
  { s with
    casWins := Function.update s.casWins op
      (Function.update (s.casWins op) key (s.casWins op key + 1)) }

/-- Publish a table as the successor of `t`. -/
def publish (s : State) (t newCap : Nat) : State :=
  { s with
    currentTable := s.currentTable + 1
    table := Function.update s.table (s.currentTable + 1)
      { oldData := t, currCapacity := newCap, oldCapacity := s.currCapacity t }
    data := Function.update s.data (s.currentTable + 1) (fun _ => Bucket.plain EMPTY)
    counter := fun op =>
      Function.update (s.counter op) (s.currentTable + 1) (Counter.new s.numThreads)
    chunksClaimed := Function.update s.chunksClaimed (s.currentTable + 1) 0
    chunksDone := Function.update s.chunksDone (s.currentTable + 1) 0 }

end State

/-- The constructor of `AlgorithmD`. -/
def init (numThreads capacity : Nat) : State :=
  { numThreads := numThreads, currentTable := 0
    table := fun _ => { oldData := 0, currCapacity := capacity, oldCapacity := 0 }
    data := fun _ _ => Bucket.plain EMPTY
    counter := fun _ _ => Counter.new numThreads
    chunksClaimed := fun _ => 0, chunksDone := fun _ => 0
    thread := fun _ => .idle
    casWins := fun _ _ => 0, returned := [] }

/-! ## §3. The probe loops. -/

/-- What a step of a probe loop leads to. -/
inductive Outcome where
  | goto (p : Probe)
  /-- The next iteration, with index `i`. -/
  | next (t i : Nat)
  /-- The call starts again. -/
  | restart
  | ret (result : Bool)
  deriving Repr, DecidableEq

/-- One access of `counter::inc`; `none` when `inc` returns. -/
def incStep (c : Counter) (tid : Nat) : Inc → Counter × Option Inc
  | .bump =>
      let c := c.bump tid
      let val := c.subcounters tid
      (c, if val ≥ c.threshold then some (.publish val) else none)
  | .publish val => (c.publish val, some .reset)
  | .reset => (c.reset tid, none)

/-- One access of `inc`, at the end of a successful operation. -/
def countStep (s : State) (tid : Tid) (op : Op) (t : Nat) (step : Inc) : State × Outcome :=
  match incStep (s.counter op t) tid step with
  | (c, some step) => (s.setCounter op t c, .goto (.inc t step))
  | (c, none) => (s.setCounter op t c, .ret true)

/-- What `insertIfAbsent` does with a word `found` that it does not CAS. -/
def insertFound (disableExpansion : Bool) (key : Nat) (found : Bucket) (t i : Nat) :
    Except Fault Outcome :=
  if !disableExpansion && found.isMarked then .ok .restart
  else if found = Bucket.plain key then
    if disableExpansion then .error .migrateFound else .ok (.ret false)
  else .ok (.next t (i + 1))

/-- One access of the loop of `insertIfAbsent`.  An `EMPTY` word is not marked
and not the key, so it does not matter that its test comes last in the source. -/
def insertStep (s : State) (tid : Tid) (disableExpansion : Bool) (key : Nat) :
    Probe → Except Fault (State × Outcome)
  | .read t i =>
      let found := s.data t (s.index t key i)
      if found = Bucket.plain EMPTY then .ok (s, .goto (.cas t i))
      else (insertFound disableExpansion key found t i).map fun o => (s, o)
  | .cas t i =>
      if s.data t (s.index t key i) = Bucket.plain EMPTY then
        let s := s.write t (s.index t key i) (Bucket.plain key)
        let s := if disableExpansion then s else s.win .insertIfAbsent key
        .ok (s, .goto (.inc t .bump))
      else .ok (s, .goto (.reread t i))
  | .reread t i =>
      (insertFound disableExpansion key (s.data t (s.index t key i)) t i).map fun o => (s, o)
  | .inc t step => .ok (countStep s tid .insertIfAbsent t step)

/-- One access of the loop of `erase`. -/
def eraseStep (s : State) (tid : Tid) (key : Nat) : Probe → State × Outcome
  | .read t i =>
      let found := s.data t (s.index t key i)
      if found = Bucket.plain EMPTY then (s, .ret false)
      else if found.isMarked then (s, .restart)
      else if found = Bucket.plain key then (s, .goto (.cas t i))
      else (s, .next t (i + 1))
  | .cas t i =>
      if s.data t (s.index t key i) = Bucket.plain key then
        let s := s.write t (s.index t key i) (Bucket.plain TOMBSTONE)
        (s.win .erase key, .goto (.inc t .bump))
      else (s, .goto (.reread t i))
  | .reread t i =>
      let found := s.data t (s.index t key i)
      if found.isMarked then (s, .restart)
      else if found = Bucket.plain TOMBSTONE then (s, .ret false)
      else (s, .next t (i + 1))
  | .inc t step => countStep s tid .erase t step

/-! ## §4. Expansion. -/

/-- The loop of `migrate`, at index `i`. -/
def migrateAt (s : State) (t c i : Nat) : Help :=
  if i < endIndex c (s.oldCapacity t) then .read c i else .done c

/-- The loop of `insertIfAbsent(tid, key, true)`, at iteration `j`. -/
def reinsertAt (s : State) (c i key t j : Nat) : Except Fault Help :=
  if j < s.currCapacity t then
    if key > 0 ∧ key ≠ TOMBSTONE then .ok (.insert c i key (.read t j)) else .error .migrateKey
  else .error .migrateFull

/-- One access of `helpExpansion(tid, t)`; `none` when it returns. -/
def helpStep (s : State) (tid : Tid) (t : Nat) : Help → Except Fault (State × Option Help)
  | .test => .ok (s, some (if s.chunksClaimed t < s.total t then .claim else .wait))
  | .claim =>
      let myChunk := s.chunksClaimed t
      let s := { s with chunksClaimed := Function.update s.chunksClaimed t (myChunk + 1) }
      .ok (s, some (if myChunk < s.total t then migrateAt s t myChunk (startIndex myChunk)
        else .test))
  | .read c i => .ok (s, some (.mark c i (s.old t i)))
  | .mark c i found =>
      if s.old t i = found then
        .ok (s.write (s.table t).oldData i found.mark, some (.getKey c i))
      else .ok (s, some (.read c i))
  | .getKey c i =>
      let key := (s.old t i).getKey
      .ok (s, some (if key ≠ TOMBSTONE ∧ key ≠ EMPTY then .load c i key
        else migrateAt s t c (i + 1)))
  | .load c i key => (reinsertAt s c i key s.currentTable 0).map fun h => (s, some h)
  | .insert c i key p =>
      match insertStep s tid true key p with
      | .error e => .error e
      | .ok (s, .goto p) => .ok (s, some (.insert c i key p))
      | .ok (s, .next t' j) => (reinsertAt s c i key t' j).map fun h => (s, some h)
      | .ok (s, .restart) => .ok (s, some (.load c i key))
      | .ok (s, .ret _) => .ok (s, some (migrateAt s t c (i + 1)))
  | .done _ =>
      .ok ({ s with chunksDone := Function.update s.chunksDone t (s.chunksDone t + 1) }, some .test)
  | .wait => .ok (s, if s.chunksDone t = s.total t then none else some .wait)

/-! ## §5. Calls. -/

/-- The loop of a call, at iteration `i` over table `t`. -/
def iterate (s : State) (op : Op) (t i : Nat) : Except Fault Pc :=
  if i < s.currCapacity t then .ok (.help (.test i) t .test)
  else
    match op with
    | .insertIfAbsent => .error .insertFull
    | .erase => .ok (.ret false)

/-- `newCap` of `startExpansion`, or how it fails. -/
def newCapacity (inserts deletes : Int) : Except Fault Nat :=
  let noOfKeys := toInt (inserts - deletes)
  let newCap := toInt (4 * noOfKeys)
  if newCap = 0 then .error .noKeys
  else if newCap < 0 then .error .badAlloc
  else .ok newCap.toNat

/-- One access of a call. -/
def callStep (s : State) (tid : Tid) (op : Op) (key : Key) : Pc → Except Fault (State × Pc)
  | .load => (iterate s op s.currentTable 0).map fun pc => (s, pc)
  | .help k t h =>
      match helpStep s tid t h with
      | .error e => .error e
      | .ok (s, some h) => .ok (s, .help k t h)
      | .ok (s, none) =>
          match k with
          | .test i => .ok (s, .get t i)
          | .restart => .ok (s, .load)
  | .get t i =>
      if (s.insertAC t).get > (s.currCapacity t / 2 : Nat) then .ok (s, .current t)
      else if i > 50 then .ok (s, .getAccurate t i 0 0)
      else .ok (s, .probe (.read t i))
  | .getAccurate t i n ret =>
      if n < MAX_THREADS then
        .ok (s, .getAccurate t i (n + 1) (ret + (s.insertAC t).subcounters n))
      else if ret + (s.insertAC t).globalCounter > (s.currCapacity t / 2 : Nat) then
        .ok (s, .current t)
      else .ok (s, .probe (.read t i))
  | .current t => .ok (s, if s.currentTable = t then .inserts t 0 0 else .reload)
  | .inserts t n ret =>
      if n < MAX_THREADS then
        .ok (s, .inserts t (n + 1) (ret + (s.insertAC t).subcounters n))
      else .ok (s, .deletes t (ret + (s.insertAC t).globalCounter) 0 0)
  | .deletes t inserts n ret =>
      if n < MAX_THREADS then
        .ok (s, .deletes t inserts (n + 1) (ret + (s.deleteAC t).subcounters n))
      else
        (newCapacity inserts (ret + (s.deleteAC t).globalCounter)).map fun newCap =>
          (s, .publish t newCap)
  | .publish t newCap =>
      -- a new table whose CAS fails is deleted before anyone has seen it
      .ok (if s.currentTable = t then s.publish t newCap else s, .reload)
  | .reload => .ok (s, .help .restart s.currentTable .test)
  | .probe p =>
      match (match op with
        | .insertIfAbsent => insertStep s tid false key.val p
        | .erase => .ok (eraseStep s tid key.val p)) with
      | .error e => .error e
      | .ok (s, .goto p) => .ok (s, .probe p)
      | .ok (s, .next t i) => (iterate s op t i).map fun pc => (s, pc)
      | .ok (s, .restart) => .ok (s, .load)
      | .ok (s, .ret result) => .ok (s, .ret result)
  | .ret result => .ok (s, .ret result)

inductive Action where
  /-- Thread `tid` calls `op(tid, key)`. -/
  | invoke (tid : Tid) (op : Op) (key : Key)
  /-- Thread `tid` takes its next step. -/
  | step (tid : Tid)
  deriving Repr, DecidableEq

/-- The next step of thread `tid`, which is in a call. -/
def step (s : State) (tid : Tid) (op : Op) (key : Key) : Pc → Except Fault State
  | .ret result =>
      .ok ({ s with returned := ⟨tid, op, key, result⟩ :: s.returned }.goto tid .idle)
  | pc => (callStep s tid op key pc).map fun r => r.1.goto tid (.running op key r.2)

def next (s : State) : Action → Option State
  | .invoke tid op key =>
      match s.thread tid with
      | .idle => some (s.goto tid (.running op key .load))
      | .running _ _ _ => none
  | .step tid =>
      match s.thread tid with
      | .idle => none
      | .running op key pc => (step s tid op key pc).toOption

/-- The hash table as a transition system: any number of threads, any
interleaving. -/
def system (numThreads capacity : Nat) : Sys State Action := ⟨init numThreads capacity, next⟩

/-- No call is in progress. -/
def Quiescent (s : State) : Prop := ∀ tid, s.thread tid = .idle

/-- The calls of `op(key)` that have returned true. -/
def State.trueReturns (s : State) (op : Op) (key : Nat) : Nat :=
  s.returned.countP fun r => r.op = op ∧ r.key.val = key ∧ r.result = true

/-- `getSumOfKeys`. -/
def State.getSumOfKeys (s : State) : Int :=
  let t := s.currentTable
  ∑ index ∈ Finset.range (s.currCapacity t),
    let currKey := (s.data t index).getKey
    if currKey ≠ EMPTY ∧ currKey ≠ TOMBSTONE then (currKey : Int) else 0

/-- What `g->keyChecksum` of the benchmark holds for thread `tid`: the keys
whose inserts returned true, less those whose erases did. -/
def State.keyChecksum (s : State) (tid : Tid) : Int :=
  (s.returned.map fun r =>
    if r.tid = tid ∧ r.result = true then
      match r.op with
      | .insertIfAbsent => (r.key.val : Int)
      | .erase => -(r.key.val : Int)
    else 0).sum

end MultiCore.AlgorithmD.Concurrent
