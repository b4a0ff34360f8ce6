/-
  MultiCore.LockFreeBlockBag.Model — the bag that threads pass full blocks
  through (`recordmgr/lockfreeblockbag.h`).

  A stack of blocks, linked through their `next` pointers.  `head` is a pointer
  with a tag that every update increments, and is read and written as one word.
  The bag allocates nothing and frees nothing: a block that is neither in the
  bag nor in the hands of a call is its caller's, who may write to it what he
  likes (`write`).  He does not free it here: a `getBlock` that comes late reads
  `next` of a block that has left the bag, and of a freed one it must not.

  Memory is sequentially consistent.  `tag` is a natural number here and a
  `long` in the code, which is the same up to 2^63 updates.  `compare_exchange_weak`
  may fail for no reason.  `size`, `sizeInBlocks`, the destructor and the
  constructor's `assert(head.is_lock_free())` are left out.
-/
import MultiCore.Lib.Atomic
import MultiCore.Lib.Linked

namespace MultiCore.LockFreeBlockBag

open MultiCore.Lib

abbrev Tid := ℕ

/-- The address of a block; `NULL` is `none`. -/
abbrev Addr := ℕ

/-- `tagged_ptr` -/
structure TaggedPtr where
  ptr : Option Addr
  tag : ℕ
  deriving Repr, DecidableEq

inductive Request where
  | getBlock
  | addBlock (b : Addr)
  deriving Repr, DecidableEq

/-- What a thread does next, and its local variables. -/
inductive Pc where
  | idle
  /-- `expHead = head.load()` -/
  | getLoad
  /-- `expHead.ptr->next`; `expHead` is `⟨a, tag⟩`, with `a` not `NULL`. -/
  | getNext (a : Addr) (tag : ℕ)
  /-- `head.compare_exchange_weak(expHead, {next, expHead.tag+1})` -/
  | getCas (a : Addr) (tag : ℕ) (next : Option Addr)
  /-- `result->next = NULL` -/
  | getClear (result : Addr)
  | got (result : Option Addr)
  | addLoad (b : Addr)
  /-- `b->next = expHead.ptr` -/
  | addNext (b : Addr) (expHead : TaggedPtr)
  | addCas (b : Addr) (expHead : TaggedPtr)
  | added (b : Addr)
  deriving Repr, DecidableEq

/-- Who has a block.  The code does not know; it is what callers go by. -/
inductive Owner where
  | caller
  /-- A call of `getBlock` or `addBlock` of this thread. -/
  | call (tid : Tid)
  | bag
  deriving Repr, DecidableEq

structure State where
  head : TaggedPtr
  next : Addr → Option Addr
  thread : Tid → Pc
  owner : Addr → Owner

def State.new (next : Addr → Option Addr) : State :=
  ⟨⟨none, 0⟩, next, fun _ => .idle, fun _ => .caller⟩

inductive Action where
  | invoke (tid : Tid) (q : Request)
  /-- With `spurious`, a `compare_exchange_weak` fails in any case. -/
  | step (tid : Tid) (spurious : Bool)
  | ret (tid : Tid)
  /-- The caller sets `b->next`. -/
  | write (b : Addr) (next : Option Addr)
  deriving Repr, DecidableEq

namespace State

variable (s : State)

def goto (tid : Tid) (pc : Pc) : State := { s with thread := Function.update s.thread tid pc }

def setHead (head : TaggedPtr) : State := { s with head }

def setNext (b : Addr) (next : Option Addr) : State :=
  { s with next := Function.update s.next b next }

def give (b : Addr) (o : Owner) : State := { s with owner := Function.update s.owner b o }

end State

def Request.start : Request → Pc
  | .getBlock => .getLoad
  | .addBlock b => .addLoad b

/-- A call takes its block. -/
def Request.takes (q : Request) (tid : Tid) (s : State) : State :=
  match q with
  | .getBlock => s
  | .addBlock b => s.give b (.call tid)

def step (s : State) (tid : Tid) (spurious : Bool) : Option State :=
  match s.thread tid with
  | .idle | .got _ | .added _ => none
  | .getLoad =>
      match s.head.ptr with
      | none => some (s.goto tid (.got none))
      | some a => some (s.goto tid (.getNext a s.head.tag))
  | .getNext a tag => some (s.goto tid (.getCas a tag (s.next a)))
  | .getCas a tag next =>
      if s.head = ⟨some a, tag⟩ ∧ spurious = false then
        some (((s.setHead ⟨next, tag + 1⟩).give a (.call tid)).goto tid (.getClear a))
      else some (s.goto tid .getLoad)
  | .getClear result => some ((s.setNext result none).goto tid (.got (some result)))
  | .addLoad b => some (s.goto tid (.addNext b s.head))
  | .addNext b expHead => some ((s.setNext b expHead.ptr).goto tid (.addCas b expHead))
  | .addCas b expHead =>
      if s.head = expHead ∧ spurious = false then
        some (((s.setHead ⟨some b, expHead.tag + 1⟩).give b .bag).goto tid (.added b))
      else some (s.goto tid (.addLoad b))

def perform (s : State) : Action → Option State
  | .invoke tid q =>
      match s.thread tid with
      | .idle => some ((q.takes tid s).goto tid q.start)
      | _ => none
  | .step tid spurious => step s tid spurious
  | .ret tid =>
      match s.thread tid with
      | .got (some result) => some ((s.give result .caller).goto tid .idle)
      | .got none | .added _ => some (s.goto tid .idle)
      | _ => none
  | .write b next => some (s.setNext b next)

/-- **What callers promise**: a block that is added, or written to, is theirs. -/
def Promise (s : State) : Action → Prop
  | .invoke _ (.addBlock b) | .write b _ => s.owner b = .caller
  | _ => True

instance (s : State) (a : Action) : Decidable (Promise s a) :=
  match a with
  | .invoke _ (.addBlock b) | .write b _ => inferInstanceAs (Decidable (s.owner b = .caller))
  | .invoke _ .getBlock | .step _ _ | .ret _ => inferInstanceAs (Decidable True)

def system (next : Addr → Option Addr) : Sys State Action := ⟨.new next, perform⟩

/-! ## The stack. -/

/-- A stack of blocks: `getBlock` returns the last one that was added. -/
inductive Stack : List Addr → Request → Option Addr → List Addr → Prop where
  | getBlock {b : Addr} {l : List Addr} : Stack (b :: l) .getBlock (some b) l
  | empty : Stack [] .getBlock none []
  | addBlock {b : Addr} {l : List Addr} : Stack l (.addBlock b) none (b :: l)

def stack : Object (List Addr) Request (Option Addr) := ⟨[], Stack⟩

/-- Whether the call has taken effect. -/
def Pc.status : Pc → Status Request (Option Addr)
  | .idle => .idle
  | .getLoad | .getNext _ _ | .getCas _ _ _ => .called .getBlock
  | .getClear result => .done .getBlock (some result)
  | .got result => .done .getBlock result
  | .addLoad b | .addNext b _ | .addCas b _ => .called (.addBlock b)
  | .added b => .done (.addBlock b) none

/-- The calls and returns. -/
def event (s : State) : Action → Option (Event Request (Option Addr))
  | .invoke tid q => some (.invoke tid q)
  | .ret tid =>
      match s.thread tid with
      | .got result => some (.ret tid result)
      | .added _ => some (.ret tid none)
      | _ => none
  | _ => none

end MultiCore.LockFreeBlockBag
