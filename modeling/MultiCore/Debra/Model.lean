/-
  MultiCore.Debra.Model — epoch-based reclamation (`recordmgr/reclaimer_debra.h`
  over `pool_none.h` and `allocator_new.h`), as a step machine.

  A thread opens an operation with `startOp` and closes it with `endOp`; between
  the two it may retire records.  What it retires goes into the current one of
  its nine epoch bags.  When `startOp` sees a new epoch it rotates the bags and
  frees everything in one of the old ones.  Now and then it also looks at the
  announcement of one other thread, and the thread that has found all of them
  quiescent or up to date advances the epoch.

  One step is one access to shared memory (the epoch, an announcement, a `delete`)
  with the private work around it.  Memory is sequentially consistent, and the
  epoch does not overflow.  A bag is the list of its records, the last one added
  first: `add` and `remove` of `blockbag.h` are a stack (`MultiCore.BlockBag`).

  The rest of a program is its calls: which records a thread gets from the
  allocator and which calls it makes inside an operation.  They are actions too,
  so the machine is every program that uses the reclaimer.  What such a program
  has to promise is `Promise`.
-/
import MultiCore.Lib.Run
import MultiCore.Lib.Reclamation
import MultiCore.Lib.Bags
import Mathlib.Data.Finset.Prod

namespace MultiCore.Debra

open MultiCore.Lib MultiCore.Lib.Reclamation

/-! ## §1. Epochs and announcements. -/

abbrev Tid := ℕ

def EPOCH_INCREMENT : ℕ := 2
def NUMBER_OF_EPOCH_BAGS : ℕ := 9
def NUMBER_OF_ALWAYS_EMPTY_EPOCH_BAGS : ℕ := 3

/-- `ann & ~(EPOCH_INCREMENT-1)` -/
def bitsEpoch (ann : ℕ) : ℕ := ann - ann % EPOCH_INCREMENT

/-- `ann & 1` -/
def isQuiescent (ann : ℕ) : Bool := ann &&& 1 ≠ 0

/-- `ann | 1` -/
def getWithQuiescent (ann : ℕ) : ℕ := ann ||| 1

structure Params where
  NUM_PROCESSES : ℕ
  /-- `20`, and `1` with `RAPID_RECLAMATION`. -/
  MIN_OPS_BEFORE_READ : ℕ
  pos : 0 < MIN_OPS_BEFORE_READ

/-! ## §2. The state. -/

structure ThreadData (α : Type*) where
  announcedEpoch : ℕ
  localvarAnnouncedEpoch : ℕ
  epochbags : ℕ → List α
  index : ℕ
  /-- The slot of `epochbags` it points to; `none` is `NULL`. -/
  currentBag : Option ℕ
  checked : ℕ
  opsSinceRead : ℕ

/-- Where a thread is in `startOp`. -/
inductive Pc where
  /-- It is in no operation. -/
  | quiescent
  /-- It frees the bag that `rotateEpochBags` has chosen. -/
  | rotating (readOnly : Bool) (readEpoch nextIndex : ℕ)
  /-- `threadData[tid].announcedEpoch.store(readEpoch)` is next. -/
  | announcing (readOnly : Bool) (readEpoch : ℕ)
  /-- The load of the announcement of thread `checked` is next. -/
  | scanning (readEpoch : ℕ)
  /-- The compare-and-swap of the epoch is next. -/
  | advancing (readEpoch : ℕ)
  /-- `startOp` has returned, `endOp` has not been called. -/
  | operating
  deriving Repr, DecidableEq

structure State (α : Type*) where
  epoch : ℕ
  threadData : Tid → ThreadData α
  pc : Tid → Pc
  /-- The calls that a thread makes before it goes on. -/
  calls : Tid → List (Call α)

variable {α : Type*}

/-- What the constructor and `initThread` leave: `currentBag` is copied from
`epochbags[0]` before there is a bag. -/
def ThreadData.new : ThreadData α where
  announcedEpoch := getWithQuiescent 0
  localvarAnnouncedEpoch := getWithQuiescent 0
  epochbags _ := []
  index := 0
  currentBag := none
  checked := 0
  opsSinceRead := 0

def State.new : State α := ⟨0, fun _ => .new, fun _ => .quiescent, fun _ => []⟩

def State.setData (s : State α) (t : Tid) (d : ThreadData α) : State α :=
  { s with threadData := Function.update s.threadData t d }

def State.goto (s : State α) (t : Tid) (pc : Pc) : State α :=
  { s with pc := Function.update s.pc t pc }

section State

variable (s : State α) (t : Tid) (d : ThreadData α) (pc : Pc)

@[simp] theorem setData_epoch : (s.setData t d).epoch = s.epoch := rfl
@[simp] theorem setData_pc : (s.setData t d).pc = s.pc := rfl
@[simp] theorem setData_calls : (s.setData t d).calls = s.calls := rfl
@[simp] theorem setData_data : (s.setData t d).threadData = Function.update s.threadData t d := rfl
@[simp] theorem goto_epoch : (s.goto t pc).epoch = s.epoch := rfl
@[simp] theorem goto_data : (s.goto t pc).threadData = s.threadData := rfl
@[simp] theorem goto_calls : (s.goto t pc).calls = s.calls := rfl
@[simp] theorem goto_pc : (s.goto t pc).pc = Function.update s.pc t pc := rfl

end State

def ThreadData.setBag (d : ThreadData α) (j : ℕ) (bag : List α) : ThreadData α :=
  { d with epochbags := Function.update d.epochbags j bag }

/-- `epochbags[(ix+NUMBER_OF_EPOCH_BAGS-k)%NUMBER_OF_EPOCH_BAGS]`: the bag that was
the current one `k` rotations ago. -/
def ThreadData.bagOfAge (d : ThreadData α) (k : ℕ) : List α :=
  d.epochbags ((d.index + NUMBER_OF_EPOCH_BAGS - k) % NUMBER_OF_EPOCH_BAGS)

/-- `freeable` of `rotateEpochBags`. -/
def freeable (nextIndex : ℕ) : ℕ :=
  (nextIndex + NUMBER_OF_ALWAYS_EMPTY_EPOCH_BAGS) % NUMBER_OF_EPOCH_BAGS

/-! ## §3. The steps. -/

section Steps

variable (P : Params) (s : State α)

/-- `startOp` up to the first access after the load of the epoch. -/
def startOp (t : Tid) (readOnly : Bool) : Option (State α) :=
  if t < P.NUM_PROCESSES ∧ s.pc t = .quiescent then
    let readEpoch := s.epoch
    let ann := (s.threadData t).localvarAnnouncedEpoch
    let d := { s.threadData t with localvarAnnouncedEpoch := readEpoch }
    if readEpoch ≠ ann then
      some ((s.setData t { d with checked := 0 }).goto t
        (.rotating readOnly readEpoch ((d.index + 1) % NUMBER_OF_EPOCH_BAGS)))
    else
      some ((s.setData t d).goto t (.announcing readOnly readEpoch))
  else none

/-- The store of the announcement, and `++opsSinceRead` unless `readOnly`. -/
def announce (t : Tid) (readOnly : Bool) (readEpoch : ℕ) : State α :=
  let d := { s.threadData t with announcedEpoch := readEpoch }
  if readOnly = true then (s.setData t d).goto t .operating
  else if d.opsSinceRead + 1 = P.MIN_OPS_BEFORE_READ then
    (s.setData t { d with opsSinceRead := 0 }).goto t (.scanning readEpoch)
  else (s.setData t { d with opsSinceRead := d.opsSinceRead + 1 }).goto t .operating

/-- The load of one announcement. -/
def scan (t : Tid) (readEpoch : ℕ) : State α :=
  let d := s.threadData t
  let otherAnnounce := (s.threadData d.checked).announcedEpoch
  if bitsEpoch otherAnnounce = readEpoch ∨ isQuiescent otherAnnounce = true then
    let c := d.checked + 1
    (s.setData t { d with checked := c }).goto t
      (if P.NUM_PROCESSES ≤ c then .advancing readEpoch else .operating)
  else s.goto t .operating

/-- `__sync_bool_compare_and_swap(&epoch, readEpoch, readEpoch+EPOCH_INCREMENT)` -/
def advance (t : Tid) (readEpoch : ℕ) : State α :=
  { s with epoch := if s.epoch = readEpoch then readEpoch + EPOCH_INCREMENT else s.epoch }.goto t
    .operating

/-- `rotateEpochBags` behind the loop that empties `freeable`. -/
def rotate (t : Tid) (nextIndex : ℕ) : State α :=
  s.setData t { s.threadData t with index := nextIndex, currentBag := some nextIndex }

/-- `endOp` -/
def endOp (t : Tid) : Option (State α) :=
  if s.pc t = .operating ∧ s.calls t = [] then
    let d := s.threadData t
    some ((s.setData t
      { d with announcedEpoch := getWithQuiescent d.localvarAnnouncedEpoch }).goto t .quiescent)
  else none

/-- The operation of thread `t` is about to make the calls `cs`. -/
def giveBack (t : Tid) (cs : List (Call α)) : Option (State α) :=
  if s.pc t = .operating ∧ s.calls t = [] then
    some { s with calls := Function.update s.calls t cs }
  else none

variable [DecidableEq α] (inUse : α → Bool)

/-- `retire` and `deallocate`; `none` when `currentBag` is `NULL`. -/
def call (t : Tid) : Call α → Option (State α × (α → Bool))
  | .retire a =>
      let d := s.threadData t
      d.currentBag.map fun j => (s.setData t (d.setBag j (a :: d.epochbags j)), inUse)
  | .deallocate a => some (s, Function.update inUse a false)

/-- The next step of thread `t`: its next call, or else its next step in
`startOp`. -/
def step (t : Tid) : Option (State α × (α → Bool)) :=
  match s.calls t with
  | c :: rest => call { s with calls := Function.update s.calls t rest } inUse t c
  | [] =>
      match s.pc t with
      | .rotating readOnly readEpoch nextIndex =>
          let d := s.threadData t
          -- `while (!bag->isEmpty()) { ptr = bag->remove(); deallocate(tid, ptr); }`
          match d.epochbags (freeable nextIndex) with
          | ptr :: rest =>
              some (s.setData t (d.setBag (freeable nextIndex) rest),
                Function.update inUse ptr false)
          | [] => some ((rotate s t nextIndex).goto t (.announcing readOnly readEpoch), inUse)
      | .announcing readOnly readEpoch => some (announce P s t readOnly readEpoch, inUse)
      | .scanning readEpoch => some (scan P s t readEpoch, inUse)
      | .advancing readEpoch => some (advance s t readEpoch, inUse)
      | _ => none

end Steps

/-! ## §4. The machine. -/

inductive Action (α : Type*) where
  | startOp (t : Tid) (readOnly : Bool)
  | step (t : Tid)
  | endOp (t : Tid)
  /-- The allocator hands `a` out. -/
  | allocate (a : α)
  /-- Thread `t` is about to make the calls `cs`; it has unlinked the records of
  `gone`, so that no operation opened later can get to them. -/
  | giveBack (t : Tid) (cs : List (Call α)) (gone : List α)
  deriving Repr, DecidableEq

variable [DecidableEq α] (P : Params)

def next (s : State α × (α → Bool)) : Action α → Option (State α × (α → Bool))
  | .startOp t readOnly => (startOp P s.1 t readOnly).map (·, s.2)
  | .step t => step P s.1 s.2 t
  | .endOp t => (endOp s.1 t).map (·, s.2)
  | .allocate a => if s.2 a = true then none else some (s.1, Function.update s.2 a true)
  | .giveBack t cs _ => (giveBack s.1 t cs).map (·, s.2)

/-- Any number of threads and any program over them; `inUse` are the records
there are at the start. -/
def system (inUse : α → Bool) : Sys (State α × (α → Bool)) (Action α) := ⟨(.new, inUse), next P⟩

/-- The epoch bags, of all threads. -/
def slots : Finset (Tid × ℕ) :=
  Finset.range P.NUM_PROCESSES ×ˢ Finset.range NUMBER_OF_EPOCH_BAGS

/-- The records in the epoch bags. -/
def limbo (s : State α) : Multiset α :=
  contents (slots P) fun p => (s.threadData p.1).epochbags p.2

/-- **What a program has to promise**: it gives no record back twice, and
unlinks none that it has retired. -/
def Promise (s : State α × (α → Bool)) : Action α → Prop
  | .giveBack _ cs gone =>
      (cs.map Call.node).Nodup
        ∧ (∀ c ∈ cs, s.2 c.node = true ∧ c.node ∉ limbo P s.1
            ∧ ∀ u < P.NUM_PROCESSES, ∀ c' ∈ s.1.calls u, c'.node ≠ c.node)
        ∧ ∀ a ∈ gone, a ∉ limbo P s.1
  | _ => True

instance (s : State α × (α → Bool)) : DecidablePred (Promise P s) := fun a =>
  match a with
  | .giveBack _ _ _ => inferInstanceAs (Decidable (_ ∧ _ ∧ _))
  | .startOp _ _ | .step _ | .endOp _ | .allocate _ => inferInstanceAs (Decidable True)

end MultiCore.Debra
