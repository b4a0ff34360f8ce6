/-
  MultiCore.ReclaimList.Model — the doubly-linked list with memory
  reclamation (`doubly_linked_list_kcas_reclaim.h`), as a step machine.

  The class is `DoublyLinkedList` with a record manager: an operation opens a
  guard and closes it when it returns, an insert whose k-CAS has failed
  deallocates its node, and an erase whose k-CAS has succeeded retires `succ`.
  Each of these calls is a step of its own.  All other steps are those of
  `DoublyLinkedList.step`.

  The record manager is not under verification.  `allocate` may return any
  address that is not in use, `deallocate` frees at once, and a retired node
  may be taken back when no guard that could reach it is open (`reclaim`).

  The destructor runs when all calls have returned.  It is a function of the
  state, which faults when it reads or frees a node that is not in use.
-/
import MultiCore.DoublyLinkedList.Invariant
import MultiCore.Lib.Reclamation

namespace MultiCore.ReclaimList

open MultiCore.Lib MultiCore.Lib.Reclamation MultiCore.Kcas
open MultiCore.DoublyLinkedList (Tid Addr NULL Loc Field Params Op Pc head tail insertEntries
  eraseEntries)

/-! ## §1. States and steps. -/

/-- `list.allocated` are the nodes in use. -/
structure State where
  list : DoublyLinkedList.State
  mgr : Manager Tid Addr

def init (P : Params) : State := ⟨DoublyLinkedList.init P, .new⟩

inductive Action where
  /-- Thread `t` calls `op(key)` and opens its guard. -/
  | invoke (t : Tid) (op : Op) (key : Int)
  /-- Thread `t` takes its next step; `fresh` is the address
  `recmgr->allocate` returns if the step allocates. -/
  | step (t : Tid) (fresh : Addr)
  /-- The guard of thread `t` goes out of scope. -/
  | leave (t : Tid)
  /-- The record manager takes `a` back. -/
  | reclaim (a : Addr)
  deriving Repr, DecidableEq

def invoke (P : Params) (s : State) (t : Tid) (op : Op) (key : Int) : Option State :=
  if t ∈ s.mgr.guards then none
  else (DoublyLinkedList.invoke P s.list t op key).map fun list => ⟨list, s.mgr.enter t⟩

/-- The next step of thread `t`: the call of the record manager it is about to
make, or else a step of its operation. -/
def step (s : State) (t : Tid) (fresh : Addr) : Option State :=
  match s.mgr.calls t with
  | _ :: _ =>
      (s.mgr.perform s.list.allocated t).map fun (mgr, inUse) =>
        ⟨{ s.list with allocated := inUse }, mgr⟩
  | [] =>
      match s.list.thread t with
      | .insertExecute key pred succ n =>
          match casN s.list.word (insertEntries pred succ n) with
          | (true, word) =>
              some ⟨{ s.list with
                word := word
                inserted := Function.update s.list.inserted key (s.list.inserted key + 1) }.goto t
                  (.returned .insertIfAbsent key true), s.mgr⟩
          | (false, _) =>
              some ⟨s.list.goto t (.searchTest .insertIfAbsent key head head),
                s.mgr.giveBack t [.deallocate n] []⟩
      | .eraseExecute key pred succ after =>
          match casN s.list.word (eraseEntries pred succ after) with
          | (true, word) =>
              some ⟨{ s.list with
                word := word
                erased := Function.update s.list.erased key (s.list.erased key + 1) }.goto t
                  (.returned .erase key true), s.mgr.giveBack t [.retire succ] [succ]⟩
          | (false, _) => some ⟨s.list.goto t (.searchTest .erase key head head), s.mgr⟩
      | _ => (DoublyLinkedList.step s.list t fresh).map fun list => ⟨list, s.mgr⟩

/-- A call has returned when its guard is closed. -/
def leave (s : State) (t : Tid) : Option State :=
  match s.list.thread t with
  | .returned _ _ _ =>
      if t ∈ s.mgr.guards ∧ s.mgr.calls t = [] then some ⟨s.list, s.mgr.leave t⟩ else none
  | _ => none

def next (P : Params) (s : State) : Action → Option State
  | .invoke t op key => invoke P s t op key
  | .step t fresh => step s t fresh
  | .leave t => leave s t
  | .reclaim a =>
      (s.mgr.reclaim s.list.allocated a).map fun (mgr, inUse) =>
        ⟨{ s.list with allocated := inUse }, mgr⟩

/-- The list with its record manager: any number of threads, any interleaving. -/
def system (P : Params) : Sys State Action := ⟨init P, next P⟩

/-! ## §2. The destructor. -/

section Destructor

variable (word : Loc → Word)

/-- `kcas.readPtr`; `none` when the node is not in use. -/
def readPtr (inUse : Addr → Bool) (node : Addr) (f : Field) : Option Addr :=
  if inUse node = true then some (word (node, f)) else none

/-- `recmgr->deallocate`; `none` when the node is not in use. -/
def deallocate (inUse : Addr → Bool) (node : Addr) : Option (Addr → Bool) :=
  if inUse node = true then some (Function.update inUse node false) else none

/-- The loop of the destructor and the call behind it.  The result is the list
of the nodes that are deallocated, in that order; `none` is a fault, or a loop
of more than `fuel` iterations. -/
def destroyFrom : ℕ → (Addr → Bool) → Addr → Addr → Option (List Addr)
  | 0, _, _, _ => none
  | fuel + 1, inUse, prev, curr =>
      if curr ≠ NULL then do
        let prev := curr
        let curr ← readPtr word inUse curr .next
        let node ← readPtr word inUse prev .prev
        let inUse ← deallocate inUse node
        let nodes ← destroyFrom fuel inUse prev curr
        return node :: nodes
      else do
        let _ ← deallocate inUse prev
        return [prev]

end Destructor

/-- `~DoublyLinkedListReclaim`. -/
def destroy (s : State) (fuel : ℕ) : Option (List Addr) := do
  let curr ← readPtr s.list.word s.list.allocated head .next
  destroyFrom s.list.word fuel s.list.allocated head curr

/-! ## §3. What one step can do. -/

def Active : Pc → Prop
  | .idle | .returned _ _ _ => False
  | _ => True

def inserting (s : DoublyLinkedList.State) (t : Tid) (key : Int) (pred succ n : Addr) :
    DoublyLinkedList.State :=
  { s with
    word := commit s.word (insertEntries pred succ n)
    inserted := Function.update s.inserted key (s.inserted key + 1) }.goto t
      (.returned .insertIfAbsent key true)

def erasing (s : DoublyLinkedList.State) (t : Tid) (key : Int) (pred succ after : Addr) :
    DoublyLinkedList.State :=
  { s with
    word := commit s.word (eraseEntries pred succ after)
    erased := Function.update s.erased key (s.erased key + 1) }.goto t (.returned .erase key true)

/-- Everything an action can do. -/
inductive Effect (P : Params) (s : State) : Action → State → Prop where
  | enter {t : Tid} {op : Op} {key : Int} (hidle : ¬ Active (s.list.thread t))
      (hguard : t ∉ s.mgr.guards) (hkey : P.minKey ≤ key ∧ key ≤ P.maxKey) :
      Effect P s (.invoke t op key) ⟨s.list.goto t (.searchTest op key head head), s.mgr.enter t⟩
  | move {t : Tid} {fresh : Addr} {pc' : Pc} (hactive : Active (s.list.thread t))
      (hcalls : s.mgr.calls t = [])
      (h : DoublyLinkedList.LocalMove P s.list (s.list.thread t) pc') :
      Effect P s (.step t fresh) ⟨s.list.goto t pc', s.mgr⟩
  | alloc {t : Tid} {key : Int} {pred succ n : Addr} (hcalls : s.mgr.calls t = [])
      (hpc : s.list.thread t = .searched .insertIfAbsent key pred succ)
      (hval : s.list.val succ ≠ key) (hnull : n ≠ NULL) (hfree : s.list.allocated n = false) :
      Effect P s (.step t n)
        ⟨(s.list.initNode n pred succ key false).goto t (.insertExecute key pred succ n), s.mgr⟩
  | insertRetry {t : Tid} {fresh : Addr} {key : Int} {pred succ n : Addr}
      (hcalls : s.mgr.calls t = []) (hpc : s.list.thread t = .insertExecute key pred succ n)
      (hm : ¬ Matches s.list.word (insertEntries pred succ n)) :
      Effect P s (.step t fresh) ⟨s.list.goto t (.searchTest .insertIfAbsent key head head),
        s.mgr.giveBack t [.deallocate n] []⟩
  | insert {t : Tid} {fresh : Addr} {key : Int} {pred succ n : Addr}
      (hcalls : s.mgr.calls t = []) (hpc : s.list.thread t = .insertExecute key pred succ n)
      (hm : Matches s.list.word (insertEntries pred succ n)) :
      Effect P s (.step t fresh) ⟨inserting s.list t key pred succ n, s.mgr⟩
  | erase {t : Tid} {fresh : Addr} {key : Int} {pred succ after : Addr}
      (hcalls : s.mgr.calls t = []) (hpc : s.list.thread t = .eraseExecute key pred succ after)
      (hm : Matches s.list.word (eraseEntries pred succ after)) :
      Effect P s (.step t fresh) ⟨erasing s.list t key pred succ after,
        s.mgr.giveBack t [.retire succ] [succ]⟩
  | perform {t : Tid} {fresh : Addr} {mgr : Manager Tid Addr} {inUse : Addr → Bool}
      (h : s.mgr.perform s.list.allocated t = some (mgr, inUse)) :
      Effect P s (.step t fresh) ⟨{ s.list with allocated := inUse }, mgr⟩
  | leave {t : Tid} (hcalls : s.mgr.calls t = []) (hidle : ¬ Active (s.list.thread t)) :
      Effect P s (.leave t) ⟨s.list, s.mgr.leave t⟩
  | reclaim {a : Addr} {mgr : Manager Tid Addr} {inUse : Addr → Bool}
      (h : s.mgr.reclaim s.list.allocated a = some (mgr, inUse)) :
      Effect P s (.reclaim a) ⟨{ s.list with allocated := inUse }, mgr⟩

/-- The steps that are those of `DoublyLinkedList`. -/
theorem step_effect {P : Params} {s : State} {list : DoublyLinkedList.State} {t : Tid}
    {fresh : Addr} (hcalls : s.mgr.calls t = [])
    (hinsert : ∀ key pred succ n, s.list.thread t ≠ .insertExecute key pred succ n)
    (herase : ∀ key pred succ after, s.list.thread t ≠ .eraseExecute key pred succ after)
    (h : DoublyLinkedList.step s.list t fresh = some list) :
    Effect P s (.step t fresh) ⟨list, s.mgr⟩ := by
  have hactive : Active (s.list.thread t) := by
    unfold DoublyLinkedList.step at h
    generalize s.list.thread t = pc at h
    cases pc with
    | idle => exact absurd h (by simp)
    | returned _ _ _ => exact absurd h (by simp)
    | _ => trivial
  have hfresh : ∀ key pred succ, s.list.thread t = .searched .insertIfAbsent key pred succ →
      s.list.val succ ≠ key → fresh ≠ NULL ∧ s.list.allocated fresh = false
        ∧ list = (s.list.initNode fresh pred succ key false).goto t
            (.insertExecute key pred succ fresh) := by
    intro key pred succ hpc hval
    unfold DoublyLinkedList.step at h
    rw [hpc] at h
    simp only [if_neg hval] at h
    split at h
    · exact absurd h (by simp)
    · next hor =>
      rw [not_or, Bool.not_eq_true] at hor
      exact ⟨hor.1, hor.2, (Option.some.inj h).symm⟩
  have heff : DoublyLinkedList.Effect P s.list t list :=
    DoublyLinkedList.next_effect (a := .step t fresh) h
  cases heff with
  | move hl => exact .move hactive hcalls hl
  | alloc hpc hval hnull hfree =>
      -- the node that is handed out is `fresh`
      obtain ⟨hnull', hfree', heq⟩ := hfresh _ _ _ hpc hval
      rw [heq]
      exact .alloc hcalls hpc hval hnull' hfree'
  | insertRetry hpc => exact absurd hpc (hinsert _ _ _ _)
  | insert hpc _ => exact absurd hpc (hinsert _ _ _ _)
  | erase hpc _ => exact absurd hpc (herase _ _ _ _)

/-- **Inversion**: every enabled action is one of the listed effects. -/
theorem next_effect {P : Params} {s s' : State} {a : Action} (h : next P s a = some s') :
    Effect P s a s' := by
  cases a with
  | invoke t op key =>
      simp only [next, invoke] at h
      split at h
      · exact absurd h (by simp)
      · next hguard =>
        rw [Option.map_eq_some_iff] at h
        obtain ⟨list, hlist, rfl⟩ := h
        unfold DoublyLinkedList.invoke at hlist
        split at hlist
        · next heq =>
          split at hlist
          · next hkey =>
            obtain rfl := Option.some.inj hlist
            exact .enter (by rw [heq]; exact id) hguard hkey
          · exact absurd hlist (by simp)
        · next heq =>
          split at hlist
          · next hkey =>
            obtain rfl := Option.some.inj hlist
            exact .enter (by rw [heq]; exact id) hguard hkey
          · exact absurd hlist (by simp)
        · exact absurd hlist (by simp)
  | step t fresh =>
      simp only [next, step] at h
      split at h
      · rw [Option.map_eq_some_iff] at h
        obtain ⟨⟨mgr, inUse⟩, hp, rfl⟩ := h
        exact .perform hp
      · next hcalls =>
        split at h
        · -- insertExecute
          next key pred succ n hpc =>
          by_cases hm : Matches s.list.word (insertEntries pred succ n)
          · rw [casN_of_matches hm] at h
            obtain rfl := Option.some.inj h
            exact .insert hcalls hpc hm
          · rw [casN_of_not_matches hm] at h
            obtain rfl := Option.some.inj h
            exact .insertRetry hcalls hpc hm
        · -- eraseExecute
          next key pred succ after hpc =>
          by_cases hm : Matches s.list.word (eraseEntries pred succ after)
          · rw [casN_of_matches hm] at h
            obtain rfl := Option.some.inj h
            exact .erase hcalls hpc hm
          · rw [casN_of_not_matches hm] at h
            obtain rfl := Option.some.inj h
            refine .move ?_ hcalls ?_
            · rw [hpc]
              trivial
            · rw [hpc]
              exact .eraseRetry
        · next hinsert herase =>
          rw [Option.map_eq_some_iff] at h
          obtain ⟨list, hlist, rfl⟩ := h
          exact step_effect hcalls hinsert herase hlist
  | leave t =>
      simp only [next, leave] at h
      split at h
      · next hpc =>
        split at h
        · next hcond =>
          obtain rfl := Option.some.inj h
          exact .leave hcond.2 (by rw [hpc]; exact id)
        · exact absurd h (by simp)
      · exact absurd h (by simp)
  | reclaim a =>
      simp only [next, Option.map_eq_some_iff] at h
      obtain ⟨⟨mgr, inUse⟩, hr, rfl⟩ := h
      exact .reclaim hr

end MultiCore.ReclaimList
