/-
  MultiCore.FixedTable.AlgorithmA — the table of `alg_a.h`, with a lock per
  bucket around every access.

  An update locks one bucket of its probe path after another: it reads the
  bucket, writes it if it has come to the right one, and unlocks it.
-/
import MultiCore.FixedTable.AlgorithmB

namespace MultiCore.FixedTable.AlgorithmA

open MultiCore.Lib MultiCore.Util AlgorithmB

/-- Where a thread is in iteration `i` of its loop. -/
inductive Pc where
  /-- About to execute `data[index].m.lock()`. -/
  | lock (i : Nat)
  /-- About to read `data[index].key` into `found`. -/
  | check (i : Nat)
  /-- About to write `data[index].key`. -/
  | write (i : Nat)
  /-- About to execute `data[index].m.unlock()`, and then return `result` or go
  on with the next index. -/
  | unlock (i : Nat) (result : Option Bool)
  /-- About to return. -/
  | ret (result : Bool)
  deriving Repr, DecidableEq

/-- The test of the loop. -/
def iterate (c i : Nat) : Pc := if i < c then .lock i else .ret false

/-- After `unlock`. -/
def afterUnlock (c i : Nat) : Option Bool → Pc
  | some result => .ret result
  | none => iterate c (i + 1)

/-- `insertIfAbsent`. -/
def insertIfAbsent (c : Nat) (s : Mem) (tid : Nat) (key : Int) : Pc → Option (Mem × Pc)
  | .lock i => (s.acquire (path c key i) tid).map fun s' => (s', .check i)
  | .check i =>
      let found := s.board.data (path c key i)
      if found = key then some (s, .unlock i (some false))
      else if found = EMPTY then some (s, .write i)
      else some (s, .unlock i none)
  | .write i =>
      some ({ s with board := s.board.put (path c key i) key }, .unlock i (some true))
  | .unlock i result => some (s.release (path c key i), afterUnlock c i result)
  | .ret _ => none

/-- `erase`. -/
def erase (c : Nat) (s : Mem) (tid : Nat) (key : Int) : Pc → Option (Mem × Pc)
  | .lock i => (s.acquire (path c key i) tid).map fun s' => (s', .check i)
  | .check i =>
      let found := s.board.data (path c key i)
      if found = EMPTY then some (s, .unlock i (some false))
      else if found = key then some (s, .write i)
      else some (s, .unlock i none)
  | .write i =>
      some ({ s with board := s.board.bury (path c key i) key TOMBSTONE }, .unlock i (some true))
  | .unlock i result => some (s.release (path c key i), afterUnlock c i result)
  | .ret _ => none

end MultiCore.FixedTable.AlgorithmA
