/-
  MultiCore.ReclaimTree.Model — the external tree with memory reclamation
  (`external_tree_kcas_reclaim.h`), as a step machine.

  The class is `ExternalKCAS` with a record manager: an operation opens a guard
  and closes it when it returns, an insert whose k-CAS has failed deallocates
  its two nodes, and an erase whose k-CAS has succeeded retires `p` and `n`.
  Each of these calls is a step of its own.  All other steps are those of
  `ExternalTree.step`.

  The record manager is not under verification.  `allocate` may return any
  address that is not in use, `deallocate` frees at once, and a retired node
  may be taken back when no guard that could reach it is open (`reclaim`).
-/
import MultiCore.ExternalTree.Correct
import MultiCore.Lib.Reclamation

namespace MultiCore.ReclaimTree

open MultiCore.Lib MultiCore.Lib.Reclamation MultiCore.Kcas
open MultiCore.ExternalTree (Tid Addr NULL Loc Params Op Pc root insertEntries eraseEntries)

/-! ## §1. States and steps. -/

/-- `tree.allocated` are the nodes in use. -/
structure State where
  tree : ExternalTree.State
  mgr : Manager Tid Addr

def init (P : Params) : State := ⟨ExternalTree.init P, .new⟩

inductive Action where
  /-- Thread `t` calls `op(key)` and opens its guard. -/
  | invoke (t : Tid) (op : Op) (key : Int)
  | step (t : Tid) (freshLeaf freshInternal : Addr)
  /-- The guard of thread `t` goes out of scope. -/
  | leave (t : Tid)
  /-- The record manager takes `a` back. -/
  | reclaim (a : Addr)
  deriving Repr, DecidableEq

def invoke (P : Params) (s : State) (t : Tid) (op : Op) (key : Int) : Option State :=
  if t ∈ s.mgr.guards then none
  else (ExternalTree.invoke P s.tree t op key).map fun tree => ⟨tree, s.mgr.enter t⟩

/-- The next step of thread `t`: the call of the record manager it is about to
make, or else a step of its operation. -/
def step (execute : (Loc → Word) → List (Entry Loc Word) → Bool × (Loc → Word)) (s : State)
    (t : Tid) (freshLeaf freshInternal : Addr) : Option State :=
  match s.mgr.calls t with
  | _ :: _ =>
      (s.mgr.perform s.tree.allocated t).map fun (mgr, inUse) =>
        ⟨{ s.tree with allocated := inUse }, mgr⟩
  | [] =>
      match s.tree.thread t with
      | .insertExecute key p n na n1 child =>
          match execute s.tree.word (insertEntries p n n1 child) with
          | (true, word) =>
              some ⟨{ s.tree with
                word := word
                inserted := Function.update s.tree.inserted key (s.tree.inserted key + 1) }.goto t
                  (.returned .insertIfAbsent key true), s.mgr⟩
          | (false, _) =>
              some ⟨s.tree.goto t (.searchTest .insertIfAbsent key NULL NULL root),
                s.mgr.giveBack t [.deallocate n1, .deallocate na] []⟩
      | .eraseExecute key gp p n parent sibling node sib =>
          match execute s.tree.word (eraseEntries gp p n parent sibling node sib) with
          | (true, word) =>
              some ⟨{ s.tree with
                word := word
                erased := Function.update s.tree.erased key (s.tree.erased key + 1) }.goto t
                  (.returned .erase key true), s.mgr.giveBack t [.retire p, .retire n] [p, n]⟩
          | (false, _) => some ⟨s.tree.goto t (.searchTest .erase key NULL NULL root), s.mgr⟩
      | _ =>
          (ExternalTree.step execute s.tree t freshLeaf freshInternal).map fun tree =>
            ⟨tree, s.mgr⟩

/-- A call has returned when its guard is closed. -/
def leave (s : State) (t : Tid) : Option State :=
  match s.tree.thread t with
  | .returned _ _ _ =>
      if t ∈ s.mgr.guards ∧ s.mgr.calls t = [] then some ⟨s.tree, s.mgr.leave t⟩ else none
  | _ => none

def next (execute : (Loc → Word) → List (Entry Loc Word) → Bool × (Loc → Word)) (P : Params)
    (s : State) : Action → Option State
  | .invoke t op key => invoke P s t op key
  | .step t freshLeaf freshInternal => step execute s t freshLeaf freshInternal
  | .leave t => leave s t
  | .reclaim a =>
      (s.mgr.reclaim s.tree.allocated a).map fun (mgr, inUse) =>
        ⟨{ s.tree with allocated := inUse }, mgr⟩

/-- The tree with its record manager: any number of threads, any interleaving. -/
def system (execute : (Loc → Word) → List (Entry Loc Word) → Bool × (Loc → Word)) (P : Params) :
    Sys State Action := ⟨init P, next execute P⟩

/-! ## §2. What one step can do. -/

def Active : Pc → Prop
  | .idle | .returned _ _ _ => False
  | _ => True

/-- Everything an action can do. -/
inductive Effect (execute : (Loc → Word) → List (Entry Loc Word) → Bool × (Loc → Word))
    (P : Params) (s : State) : Action → State → Prop where
  | enter {t : Tid} {op : Op} {key : Int} (hidle : ¬ Active (s.tree.thread t))
      (hguard : t ∉ s.mgr.guards) (hkey : P.minKey ≤ key ∧ key ≤ P.maxKey) :
      Effect execute P s (.invoke t op key)
        ⟨s.tree.goto t (.searchTest op key NULL NULL root), s.mgr.enter t⟩
  | move {t : Tid} {freshLeaf freshInternal : Addr} {pc' : Pc} (hactive : Active (s.tree.thread t))
      (hcalls : s.mgr.calls t = []) (h : ExternalTree.LocalMove P s.tree (s.tree.thread t) pc') :
      Effect execute P s (.step t freshLeaf freshInternal) ⟨s.tree.goto t pc', s.mgr⟩
  | alloc {t : Tid} {freshLeaf freshInternal : Addr} {key : Int} {gp p n na n1 : Addr} (hcalls : s.mgr.calls t = [])
      (hpc : s.tree.thread t = .searched .insertIfAbsent key gp p n) (hkey : key ≠ s.tree.key n)
      (hna : na ≠ NULL ∧ s.tree.allocated na = false)
      (hn1 : n1 ≠ NULL ∧ s.tree.allocated n1 = false) (hne : na ≠ n1) :
      Effect execute P s (.step t freshLeaf freshInternal)
        ⟨(s.tree.allocate key n na n1).goto t (.insertRead key p n na n1), s.mgr⟩
  | insertRetry {t : Tid} {freshLeaf freshInternal : Addr} {key : Int} {p n na n1 : Addr} {child : ExternalTree.Field}
      (hcalls : s.mgr.calls t = [])
      (hpc : s.tree.thread t = .insertExecute key p n na n1 child) :
      Effect execute P s (.step t freshLeaf freshInternal)
        ⟨s.tree.goto t (.searchTest .insertIfAbsent key NULL NULL root),
        s.mgr.giveBack t [.deallocate n1, .deallocate na] []⟩
  | insert {t : Tid} {freshLeaf freshInternal : Addr} {key : Int} {p n na n1 : Addr} {child : ExternalTree.Field}
      {word : Loc → Word} (hcalls : s.mgr.calls t = [])
      (hpc : s.tree.thread t = .insertExecute key p n na n1 child)
      (hex : execute s.tree.word (insertEntries p n n1 child) = (true, word)) :
      Effect execute P s (.step t freshLeaf freshInternal) ⟨s.tree.inserting t key word, s.mgr⟩
  | erase {t : Tid} {freshLeaf freshInternal : Addr} {key : Int} {gp p n sib : Addr} {parent sibling node : ExternalTree.Field}
      {word : Loc → Word} (hcalls : s.mgr.calls t = [])
      (hpc : s.tree.thread t = .eraseExecute key gp p n parent sibling node sib)
      (hex : execute s.tree.word (eraseEntries gp p n parent sibling node sib) = (true, word)) :
      Effect execute P s (.step t freshLeaf freshInternal) ⟨s.tree.erasing t key word,
        s.mgr.giveBack t [.retire p, .retire n] [p, n]⟩
  | perform {t : Tid} {freshLeaf freshInternal : Addr} {mgr : Manager Tid Addr} {inUse : Addr → Bool}
      (h : s.mgr.perform s.tree.allocated t = some (mgr, inUse)) :
      Effect execute P s (.step t freshLeaf freshInternal) ⟨{ s.tree with allocated := inUse }, mgr⟩
  | leave {t : Tid} (hcalls : s.mgr.calls t = []) (hidle : ¬ Active (s.tree.thread t)) :
      Effect execute P s (.leave t) ⟨s.tree, s.mgr.leave t⟩
  | reclaim {a : Addr} {mgr : Manager Tid Addr} {inUse : Addr → Bool}
      (h : s.mgr.reclaim s.tree.allocated a = some (mgr, inUse)) :
      Effect execute P s (.reclaim a) ⟨{ s.tree with allocated := inUse }, mgr⟩

/-- The steps that are those of `ExternalKCAS`. -/
theorem step_effect {execute : (Loc → Word) → List (Entry Loc Word) → Bool × (Loc → Word)}
    {P : Params} {s : State} {tree : ExternalTree.State} {t : Tid} {freshLeaf freshInternal : Addr}
    (hcalls : s.mgr.calls t = [])
    (hinsert : ∀ key p n na n1 child, s.tree.thread t ≠ .insertExecute key p n na n1 child)
    (herase : ∀ key gp p n parent sibling node sib,
      s.tree.thread t ≠ .eraseExecute key gp p n parent sibling node sib)
    (h : ExternalTree.step execute s.tree t freshLeaf freshInternal = some tree) :
    Effect execute P s (.step t freshLeaf freshInternal) ⟨tree, s.mgr⟩ := by
  have hactive : Active (s.tree.thread t) := by
    unfold ExternalTree.step at h
    generalize s.tree.thread t = pc at h
    cases pc with
    | idle => exact absurd h (by simp)
    | returned _ _ _ => exact absurd h (by simp)
    | _ => trivial
  have heff : ExternalTree.Effect execute P s.tree t tree :=
    ExternalTree.next_effect (a := .step t freshLeaf freshInternal) h
  cases heff with
  | move hl => exact .move hactive hcalls hl
  | alloc hpc hkey hna hn1 hne => exact .alloc hcalls hpc hkey hna hn1 hne
  | insertRetry hpc => exact absurd hpc (hinsert _ _ _ _ _ _)
  | insert hpc _ => exact absurd hpc (hinsert _ _ _ _ _ _)
  | erase hpc _ => exact absurd hpc (herase _ _ _ _ _ _ _ _)

/-- **Inversion**: every enabled action is one of the listed effects. -/
theorem next_effect {execute : (Loc → Word) → List (Entry Loc Word) → Bool × (Loc → Word)}
    {P : Params} {s s' : State} {a : Action} (h : next execute P s a = some s') :
    Effect execute P s a s' := by
  cases a with
  | invoke t op key =>
      simp only [next, invoke] at h
      split at h
      · exact absurd h (by simp)
      · next hguard =>
        rw [Option.map_eq_some_iff] at h
        obtain ⟨tree, htree, rfl⟩ := h
        unfold ExternalTree.invoke at htree
        split at htree
        · next heq =>
          split at htree
          · next hkey =>
            obtain rfl := Option.some.inj htree
            exact .enter (by rw [heq]; exact id) hguard hkey
          · exact absurd htree (by simp)
        · next heq =>
          split at htree
          · next hkey =>
            obtain rfl := Option.some.inj htree
            exact .enter (by rw [heq]; exact id) hguard hkey
          · exact absurd htree (by simp)
        · exact absurd htree (by simp)
  | step t freshLeaf freshInternal =>
      simp only [next, step] at h
      split at h
      · rw [Option.map_eq_some_iff] at h
        obtain ⟨⟨mgr, inUse⟩, hp, rfl⟩ := h
        exact .perform hp
      · next hcalls =>
        split at h
        · -- insertExecute
          next hpc =>
          split at h
          · next hex =>
            obtain rfl := Option.some.inj h
            exact .insert hcalls hpc hex
          · obtain rfl := Option.some.inj h
            exact .insertRetry hcalls hpc
        · -- eraseExecute
          next hpc =>
          split at h
          · next hex =>
            obtain rfl := Option.some.inj h
            exact .erase hcalls hpc hex
          · obtain rfl := Option.some.inj h
            refine .move ?_ hcalls ?_
            · rw [hpc]
              trivial
            · rw [hpc]
              exact .eraseRetry
        · next hinsert herase =>
          rw [Option.map_eq_some_iff] at h
          obtain ⟨tree, htree, rfl⟩ := h
          exact step_effect hcalls hinsert herase htree
  | leave t =>
      simp only [next, leave] at h
      split at h
      · next hpc =>
        split at h
        · next hcond =>
          obtain rfl := Option.some.inj h
          exact .leave hcond.2 (by rw [hpc]; exact id)
        · exact absurd h (by simp)
      · exact absurd h (by simp)
  | reclaim a =>
      simp only [next, Option.map_eq_some_iff] at h
      obtain ⟨⟨mgr, inUse⟩, hr, rfl⟩ := h
      exact .reclaim hr

end MultiCore.ReclaimTree
