/-
  MultiCore.BlockBag.Model — bags of records in blocks (`recordmgr/blockbag.h`
  and `blockpool.h`).

  A block is an array of `BLOCK_SIZE` records and a `next` pointer.  A bag is a
  linked list of blocks of which only the first one may be less than full; it
  takes its blocks from a pool and gives them back to it.  A bag and its pool
  belong to one thread, so that an operation is one step.

  Memory maps the addresses of the blocks to their contents, and `malloc` returns an
  address of its choice that is not in use.  What the code would do wrong is an
  `Error`: an assertion that fails, or a pointer that leads to no block.  The
  assertions under `DEBUG2`, the statistics and `reclaimCount` are left out, and
  so is the `assert(obj)` of `replace`: a record is never `NULL`.

  A loop over the blocks of a bag takes as its fuel the number of blocks there
  are, and is in error when that is not enough.
-/
import Mathlib.Data.Finmap
import MultiCore.Lib.Run

namespace MultiCore.BlockBag

open MultiCore.Lib

/-! ## §1. Blocks. -/

/-- The address of a block; `NULL` is `none` where a pointer may be `NULL`. -/
abbrev Addr := ℕ

inductive Error where
  /-- An `assert` fails. -/
  | assertion
  /-- A pointer is followed that leads to no block. -/
  | invalidPointer
  /-- A loop has not ended. -/
  | outOfFuel
  deriving Repr, DecidableEq

structure Params where
  BLOCK_SIZE : ℕ
  MAX_BLOCK_POOL_SIZE : ℕ
  pos : 0 < BLOCK_SIZE

variable {α : Type}

structure Block (α : Type) where
  /-- `data[0]`, ..., `data[size-1]`. -/
  data : List α
  next : Option Addr
  deriving Repr, DecidableEq

def assert (b : Bool) : Except Error Unit := if b = true then .ok () else .error .assertion

namespace Block

variable (P : Params) (b : Block α)

def size : ℕ := b.data.length
def isFull : Bool := b.size = P.BLOCK_SIZE
def isEmpty : Bool := b.size = 0

def push (obj : α) : Except Error (Block α) := do
  assert (b.size < P.BLOCK_SIZE)
  return { b with data := b.data ++ [obj] }

def pop : Except Error (α × Block α) :=
  match b.data.getLast? with
  | some obj => .ok (obj, { b with data := b.data.dropLast })
  | none => .error .assertion

/-- `erase(ix)`: the last record takes the place of record `ix`. -/
def erase (ix : ℕ) : Block α :=
  match b.data.getLast? with
  | some obj => { b with data := (b.data.set ix obj).dropLast }
  | none => b

def replace (ix : ℕ) (obj : α) : Except Error (Block α) := do
  assert (ix < b.size)
  return { b with data := b.data.set ix obj }

end Block

/-! ## §2. Memory and the pool. -/

abbrev Memory (α : Type) := Finmap fun _ : Addr => Block α

/-- The blocks, and those of them that `blockpool` keeps, the last one first. -/
structure Heap (α : Type) where
  memory : Memory α
  pool : List Addr

namespace Heap

variable (P : Params) (malloc : Finset Addr → Addr) (h : Heap α)

def load (a : Addr) : Except Error (Block α) :=
  match h.memory.lookup a with
  | some b => .ok b
  | none => .error .invalidPointer

def store (a : Addr) (b : Block α) : Heap α := { h with memory := h.memory.insert a b }

/-- Follow a pointer that must not be `NULL`. -/
def deref : Option Addr → Except Error Addr
  | some a => .ok a
  | none => .error .invalidPointer

def allocateBlock (next : Option Addr) : Except Error (Addr × Heap α) :=
  match h.pool with
  | result :: pool => do
      let _ ← h.load result
      return (result, { (h.store result ⟨[], next⟩) with pool := pool })
  | [] =>
      let result := malloc h.memory.keys
      .ok (result, h.store result ⟨[], next⟩)

def deallocateBlock (a : Addr) : Except Error (Heap α) := do
  let b ← h.load a
  assert b.isEmpty
  if h.pool.length = P.MAX_BLOCK_POOL_SIZE then return { h with memory := h.memory.erase a }
  else return { h with pool := a :: h.pool }

/-- The number of blocks that are allocated. -/
def fuel : ℕ := h.memory.keys.card

/-- The loop `while (curr) { result += f(curr); curr = curr->next; }`. -/
def sum (f : Block α → ℕ) : ℕ → Option Addr → ℕ → Except Error ℕ
  | _, none, result => .ok result
  | 0, some _, _ => .error .outOfFuel
  | n + 1, some curr, result => do
      let b ← h.load curr
      sum f n b.next (result + f b)

end Heap

/-! ## §3. Bags. -/

structure Bag where
  head : Addr
  tail : Addr
  sizeInBlocks : ℕ
  deriving Repr, DecidableEq

section Bags

variable (P : Params) (malloc : Finset Addr → Addr)

/-- The constructor. -/
def Bag.new (h : Heap α) : Except Error (Bag × Heap α) := do
  let (head, h) ← h.allocateBlock malloc none
  return (⟨head, head, 1⟩, h)

namespace Bag

variable (bag : Bag) (h : Heap α)

def computeSize : Except Error ℕ := h.sum Block.size h.fuel bag.head 0

def computeSizeInBlocks : Except Error ℕ := h.sum (fun _ => 1) h.fuel bag.head 0

def isEmpty : Except Error Bool := do
  let b ← h.load bag.head
  return b.next = none && b.isEmpty

def add (obj : α) : Except Error (Bag × Heap α) := do
  let b ← h.load bag.head
  let b ← b.push P obj
  let h := h.store bag.head b
  if b.isFull P then
    let (newblock, h) ← h.allocateBlock malloc (some bag.head)
    return ({ bag with head := newblock, sizeInBlocks := bag.sizeInBlocks + 1 }, h)
  else return (bag, h)

/-- `temp = head; head = head->next; pool->deallocateBlock(temp); --sizeInBlocks;` -/
def dropHead : Except Error (Bag × Heap α) := do
  let temp ← h.load bag.head
  let head ← Heap.deref temp.next
  let h ← h.deallocateBlock P bag.head
  return ({ bag with head, sizeInBlocks := bag.sizeInBlocks - 1 }, h)

def remove : Except Error (α × Bag × Heap α) := do
  let empty ← bag.isEmpty h
  assert !empty
  let b ← h.load bag.head
  if b.isEmpty then
    let next ← Heap.deref b.next
    let second ← h.load next
    let (result, second) ← second.pop
    let (bag, h) ← bag.dropHead P (h.store next second)
    return (result, bag, h)
  else
    let (result, b) ← b.pop
    return (result, bag, h.store bag.head b)

/-- `erase(curr, ix)` when an empty head has been eliminated. -/
def eraseFrom (curr : Addr) (ix : ℕ) : Except Error (Bool × Bag × Heap α) := do
  let b ← h.load bag.head
  assert !b.isEmpty
  if curr = bag.head then return (false, bag, h.store bag.head (b.erase ix))
  else
    let (obj, b) ← b.pop
    let h := h.store bag.head b
    let c ← h.load curr
    let c ← c.replace ix obj
    return (true, bag, h.store curr c)

/-- `erase(curr, ix)` -/
def erase (curr : Addr) (ix : ℕ) : Except Error (Bool × Bag × Heap α) := do
  let empty ← bag.isEmpty h
  assert !empty
  let c ← h.load curr
  assert !c.isEmpty
  let b ← h.load bag.head
  if b.isEmpty then
    assert (curr ≠ bag.head)
    let (bag, h) ← bag.dropHead P h
    bag.eraseFrom h curr ix
  else bag.eraseFrom h curr ix

/-- A full block behind the head, if there are two. -/
def removeFullBlock : Except Error (Option Addr × Bag × Heap α) := do
  let head ← h.load bag.head
  match head.next with
  | none => return (none, bag, h)
  | some second =>
      let s ← h.load second
      match s.next with
      | none => return (none, bag, h)
      | some third =>
          assert (s.size = P.BLOCK_SIZE)
          let h := h.store bag.head { head with next := some third }
          let h := h.store second { s with next := none }
          return (some second, { bag with sizeInBlocks := bag.sizeInBlocks - 1 }, h)

def addFullBlock (a : Addr) : Except Error (Bag × Heap α) := do
  let b ← h.load a
  assert (b.size = P.BLOCK_SIZE)
  assert (b.next = none)
  let t ← h.load bag.tail
  return ({ bag with tail := a, sizeInBlocks := bag.sizeInBlocks + 1 },
    h.store bag.tail { t with next := some a })

/-- `appendMoveFullBlocks(other, predecessor)` -/
def appendMoveFullBlocks (other : Bag) (predecessor : Addr) :
    Except Error (Bag × Bag × Heap α) := do
  let p ← h.load predecessor
  match p.next with
  | none => return (bag, other, h)
  | some first =>
      let f ← h.load first
      assert (f.isFull P)
      let t ← h.load bag.tail
      let h := h.store bag.tail { t with next := some first }
      let sizeInBlocks ← ({ bag with tail := other.tail } : Bag).computeSizeInBlocks h
      let bag : Bag := { bag with tail := other.tail, sizeInBlocks }
      let p ← h.load predecessor
      let h := h.store predecessor { p with next := none }
      let sizeInBlocks ← ({ other with tail := predecessor } : Bag).computeSizeInBlocks h
      return (bag, { other with tail := predecessor, sizeInBlocks }, h)

/-- `while (!other->isEmpty()) add(other->remove());` for at most `n` records. -/
def moveRest : ℕ → Bag → Bag → Heap α → Except Error (Bag × Bag × Heap α)
  | n, bag, other, h => do
      let empty ← other.isEmpty h
      if empty then return (bag, other, h)
      else match n with
        | 0 => .error .outOfFuel
        | n + 1 =>
            let (obj, other, h) ← other.remove P h
            let (bag, h) ← bag.add P malloc h obj
            moveRest n bag other h

def appendMoveAll (other : Bag) : Except Error (Bag × Bag × Heap α) := do
  let (bag, other, h) ← bag.appendMoveFullBlocks P h other other.head
  let size ← other.computeSize h
  let (bag, other, h) ← moveRest P malloc size bag other h
  let sizeInBlocks ← bag.computeSizeInBlocks h
  return ({ bag with sizeInBlocks }, other, h)

/-- `while (curr) { temp = curr; curr = curr->next; temp->clearWithoutFreeingElements();
pool->deallocateBlock(temp); }` -/
def clearBlocks (P : Params) : ℕ → Option Addr → Heap α → Except Error (Heap α)
  | _, none, h => .ok h
  | 0, some _, _ => .error .outOfFuel
  | n + 1, some curr, h => do
      let b ← h.load curr
      let h ← (h.store curr { b with data := [] }).deallocateBlock P curr
      clearBlocks P n b.next h

def clearWithoutFreeingElements : Except Error (Bag × Heap α) := do
  let b ← h.load bag.head
  let h ← clearBlocks P h.fuel b.next h
  let b ← h.load bag.head
  return ({ bag with tail := bag.head, sizeInBlocks := 1 },
    h.store bag.head { b with data := [], next := none })

/-- `while (head) { temp = head; head = head->next; pool->deallocateBlock(temp); }` -/
def freeBlocks (P : Params) : ℕ → Option Addr → Heap α → Except Error (Heap α)
  | _, none, h => .ok h
  | 0, some _, _ => .error .outOfFuel
  | n + 1, some head, h => do
      let b ← h.load head
      let h ← h.deallocateBlock P head
      freeBlocks P n b.next h

/-- The destructor. -/
def delete : Except Error (Heap α) := do
  let empty ← bag.isEmpty h
  assert empty
  freeBlocks P h.fuel bag.head h

end Bag

end Bags

/-! ## §4. The bags of a thread. -/

/-- `held` are the full blocks that a `removeFullBlock` has returned and that are
in no bag since. -/
structure State (α : Type) where
  heap : Heap α
  bags : ℕ → Option Bag
  held : List Addr

def State.new : State α := ⟨⟨∅, []⟩, fun _ => none, []⟩

inductive Action (α : Type) where
  | new (i : ℕ)
  | delete (i : ℕ)
  | add (i : ℕ) (obj : α)
  | remove (i : ℕ)
  | erase (i : ℕ) (curr : Addr) (ix : ℕ)
  | removeFullBlock (i : ℕ)
  | addFullBlock (i : ℕ) (a : Addr)
  | appendMoveFullBlocks (i j : ℕ) (predecessor : Addr)
  | appendMoveAll (i j : ℕ)
  | clearWithoutFreeingElements (i : ℕ)
  deriving Repr, DecidableEq

/-- What an operation returns. -/
inductive Result (α : Type) where
  | void
  /-- `remove` -/
  | record (obj : α)
  /-- `erase` -/
  | bool (b : Bool)
  /-- `removeFullBlock` -/
  | block (r : Option Addr)
  deriving Repr, DecidableEq

section System

variable (P : Params) (malloc : Finset Addr → Addr)

/-- The bag with the number `i`. -/
def State.bag (s : State α) (i : ℕ) : Except Error Bag :=
  match s.bags i with
  | some bag => .ok bag
  | none => .error .invalidPointer

def State.set (s : State α) (i : ℕ) (bag : Bag) (h : Heap α) : State α :=
  { s with heap := h, bags := Function.update s.bags i (some bag) }

def perform (s : State α) : Action α → Except Error (Result α × State α)
  | .new i => do
      let (bag, h) ← Bag.new malloc s.heap
      return (.void, s.set i bag h)
  | .delete i => do
      let bag ← s.bag i
      let h ← bag.delete P s.heap
      return (.void, { s with heap := h, bags := Function.update s.bags i none })
  | .add i obj => do
      let bag ← s.bag i
      let (bag, h) ← bag.add P malloc s.heap obj
      return (.void, s.set i bag h)
  | .remove i => do
      let bag ← s.bag i
      let (obj, bag, h) ← bag.remove P s.heap
      return (.record obj, s.set i bag h)
  | .erase i curr ix => do
      let bag ← s.bag i
      let (b, bag, h) ← bag.erase P s.heap curr ix
      return (.bool b, s.set i bag h)
  | .removeFullBlock i => do
      let bag ← s.bag i
      let (r, bag, h) ← bag.removeFullBlock P s.heap
      return (.block r, { s.set i bag h with held := r.toList ++ s.held })
  | .addFullBlock i a => do
      let bag ← s.bag i
      let (bag, h) ← bag.addFullBlock P s.heap a
      return (.void, { s.set i bag h with held := s.held.erase a })
  | .appendMoveFullBlocks i j predecessor => do
      let bag ← s.bag i
      let other ← s.bag j
      let (bag, other, h) ← bag.appendMoveFullBlocks P s.heap other predecessor
      return (.void, (s.set i bag h).set j other h)
  | .appendMoveAll i j => do
      let bag ← s.bag i
      let other ← s.bag j
      let (bag, other, h) ← bag.appendMoveAll P malloc s.heap other
      return (.void, (s.set i bag h).set j other h)
  | .clearWithoutFreeingElements i => do
      let bag ← s.bag i
      let (bag, h) ← bag.clearWithoutFreeingElements P s.heap
      return (.void, s.set i bag h)

/-- Any calls of a thread, on any number of bags over its pool. -/
def system : Sys (State α) (Action α) :=
  ⟨.new, fun s a => (perform P malloc s a).toOption.map Prod.snd⟩

end System

end MultiCore.BlockBag
