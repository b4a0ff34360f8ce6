/-
  MultiCore.FixedTable.SumOfKeys — `getSumOfKeys` of `alg_a.h` and `alg_b.h`,
  with the updates.

  `getSumOfKeys` locks the buckets in the order of their indices, adds each one
  up when it has locked it, and unlocks them when it has locked them all.  The
  updates of either table hold at most one bucket lock and wait for none while
  they hold it (`Updates`), and that is all that the results need of them: a
  bucket under a lock changes by its holder only, and a holder waits for higher
  indices only.
-/
import MultiCore.FixedTable.AlgorithmA
import MultiCore.Lib.LockOrder
import Mathlib.Algebra.BigOperators.Group.Finset.Basic

namespace MultiCore.FixedTable

open MultiCore.Lib MultiCore.Util
open AlgorithmB (Mem)

/-! ## §1. Updates that lock one bucket at a time. -/

/-- What a step of thread `tid` may do to the table, when it takes the thread
from the locks `H` to the locks `H'`. -/
inductive Moves (tid : ℕ) (s s' : Mem) (H H' : ℕ → Prop) : Prop where
  | stay (hmem : s' = s) (hheld : ∀ y, H' y ↔ H y)
  | lock (x : ℕ) (hfree : s.m x = none) (hmem : s' = ⟨s.board, Function.update s.m x (some tid)⟩)
      (hheld : ∀ y, H' y ↔ H y ∨ y = x)
  | write (x : ℕ) (b : Board Int) (hx : H x) (hdata : ∀ y, y ≠ x → b.data y = s.board.data y)
      (hmem : s' = ⟨b, s.m⟩) (hheld : ∀ y, H' y ↔ H y)
  | unlock (x : ℕ) (hx : H x) (hmem : s' = s.release x) (hheld : ∀ y, H' y ↔ H y ∧ y ≠ x)

/-- Who holds a lock after a step of thread `tid`. -/
theorem Moves.owner {tid : ℕ} {s s' : Mem} {H H' : ℕ → Prop} (h : Moves tid s s' H H')
    (hown : ∀ x, s.m x = some tid ↔ H x) (x v : ℕ) :
    s'.m x = some v ↔ if v = tid then H' x else s.m x = some v := by
  by_cases hv : v = tid
  · subst hv
    rw [if_pos rfl]
    cases h with
    | stay hmem hheld =>
        subst hmem
        exact (hown x).trans (hheld x).symm
    | lock y hfree hmem hheld =>
        subst hmem
        show Function.update s.m y (some v) x = some v ↔ _
        rw [Function.update_apply, hheld]
        split
        · rename_i hx
          simp [hx]
        · rename_i hx
          rw [hown, or_iff_left hx]
    | write y b hy hdata hmem hheld =>
        subst hmem
        exact (hown x).trans (hheld x).symm
    | unlock y hy hmem hheld =>
        subst hmem
        show Function.update s.m y none x = some v ↔ _
        rw [Function.update_apply, hheld]
        split
        · rename_i hx
          simp [hx]
        · rename_i hx
          rw [hown, and_iff_left hx]
  · rw [if_neg hv]
    cases h with
    | stay hmem hheld => rw [hmem]
    | lock y hfree hmem hheld =>
        subst hmem
        show Function.update s.m y (some tid) x = some v ↔ _
        rw [Function.update_apply]
        split
        · rename_i hx
          rw [hx, hfree]
          simp [Ne.symm hv]
        · exact Iff.rfl
    | write y b hy hdata hmem hheld => rw [hmem]
    | unlock y hy hmem hheld =>
        subst hmem
        show Function.update s.m y none x = some v ↔ _
        rw [Function.update_apply]
        split
        · rename_i hx
          rw [hx, (hown y).mpr hy]
          simp [Ne.symm hv]
        · exact Iff.rfl

/-- A bucket changes by the step of its holder only. -/
theorem Moves.data {tid : ℕ} {s s' : Mem} {H H' : ℕ → Prop} (h : Moves tid s s' H H') {x : ℕ}
    (hx : ¬ H x) : s'.board.data x = s.board.data x := by
  cases h with
  | stay hmem hheld => rw [hmem]
  | lock y hfree hmem hheld => rw [hmem]
  | write y b hy hdata hmem hheld =>
      rw [hmem]
      refine hdata x ?_
      intro heq
      rw [heq] at hx
      exact hx hy
  | unlock y hy hmem hheld =>
      rw [hmem]
      rfl

/-- The updates of a table, as programs over the program counters `π`: which
lock they hold and which one they are about to take. -/
structure Updates (π : Type) where
  start : Request → π
  step : Mem → ℕ → Request → π → Option (Mem × π)
  result : π → Option Bool
  held : Request → π → Option ℕ
  wanted : Request → π → Option ℕ
  start_held : ∀ q, held q (start q) = none
  result_held : ∀ q pc result', result pc = some result' → held q pc = none
  wanted_held : ∀ q pc x, wanted q pc = some x → held q pc = none
  moves : ∀ s tid q pc s' pc', step s tid q pc = some (s', pc') →
    Moves tid s s' (held q pc = some ·) (held q pc' = some ·)
  enabled : ∀ s tid q pc, (∀ x, wanted q pc = some x → s.m x = none) →
    (step s tid q pc).isSome = true ∨ (result pc).isSome = true

section Steps

variable {s s' : Mem} {x tid : ℕ} {h h' : Option ℕ}

theorem acquire_moves (hacq : s.acquire x tid = some s') (hh : h = none) (hh' : h' = some x) :
    Moves tid s s' (h = some ·) (h' = some ·) := by
  unfold AlgorithmB.Mem.acquire at hacq
  split at hacq
  · refine .lock x ‹_› (Option.some.inj hacq).symm fun y => ?_
    rw [hh, hh', Option.some.injEq]
    constructor
    · exact fun heq => Or.inr heq.symm
    · rintro (habs | heq)
      · exact absurd habs (by simp)
      · exact heq.symm
  · exact absurd hacq (by simp)

theorem release_moves (hh : h = some x) (hh' : h' = none) :
    Moves tid s (s.release x) (h = some ·) (h' = some ·) := by
  refine .unlock x hh rfl fun y => ?_
  rw [hh, hh', Option.some.injEq]
  constructor
  · exact fun habs => absurd habs (by simp)
  · exact fun ⟨heq, hne⟩ => absurd heq.symm hne

theorem put_moves {key : Int} (hh : h = some x) (hh' : h' = h) :
    Moves tid s { s with board := s.board.put x key } (h = some ·) (h' = some ·) := by
  refine .write x _ hh (fun y hy => Function.update_of_ne hy _ _) rfl fun y => ?_
  rw [hh']

theorem bury_moves {key : Int} (hh : h = some x) (hh' : h' = h) :
    Moves tid s { s with board := s.board.bury x key TOMBSTONE } (h = some ·) (h' = some ·) := by
  refine .write x _ hh (fun y hy => Function.update_of_ne hy _ _) rfl fun y => ?_
  rw [hh']

theorem stay_moves (hh : h' = h) : Moves tid s s (h = some ·) (h' = some ·) :=
  .stay rfl fun y => by rw [hh]

theorem acquire_isSome (hfree : s.m x = none) : (s.acquire x tid).isSome = true := by
  unfold AlgorithmB.Mem.acquire
  rw [hfree]
  rfl

end Steps

namespace AlgorithmA

/-- The lock a thread holds. -/
def held (c : ℕ) (q : Request) : Pc → Option ℕ
  | .check i | .write i | .unlock i _ => some (path c q.key.val i)
  | _ => none

/-- The lock a thread is about to take. -/
def wanted (c : ℕ) (q : Request) : Pc → Option ℕ
  | .lock i => some (path c q.key.val i)
  | _ => none

def step (c : ℕ) (s : Mem) (tid : ℕ) (q : Request) (pc : Pc) : Option (Mem × Pc) :=
  match q.op with
  | .insertIfAbsent => insertIfAbsent c s tid q.key.val pc
  | .erase => erase c s tid q.key.val pc

def result : Pc → Option Bool
  | .ret result => some result
  | _ => none

theorem held_iterate (c : ℕ) (q : Request) (i : ℕ) : held c q (iterate c i) = none := by
  unfold iterate
  split <;> rfl

theorem held_afterUnlock (c : ℕ) (q : Request) (i : ℕ) (result : Option Bool) :
    held c q (afterUnlock c i result) = none := by
  cases result with
  | some result => rfl
  | none => exact held_iterate c q (i + 1)

section Steps

variable {c tid : ℕ} {q : Request} {s s' : Mem} {pc pc' : Pc}

theorem insert_moves (h : insertIfAbsent c s tid q.key.val pc = some (s', pc')) :
    Moves tid s s' (held c q pc = some ·) (held c q pc' = some ·) := by
  cases pc with
  | lock i =>
      obtain ⟨s₁, hacq, heq⟩ := Option.map_eq_some_iff.mp h
      obtain ⟨rfl, rfl⟩ := Prod.mk.inj heq
      exact acquire_moves hacq rfl rfl
  | check i =>
      simp only [insertIfAbsent] at h
      split_ifs at h
      all_goals
        obtain ⟨rfl, rfl⟩ := Prod.mk.inj (Option.some.inj h)
        exact stay_moves rfl
  | write i =>
      obtain ⟨rfl, rfl⟩ := Prod.mk.inj (Option.some.inj h)
      exact put_moves rfl rfl
  | unlock i result =>
      obtain ⟨rfl, rfl⟩ := Prod.mk.inj (Option.some.inj h)
      exact release_moves rfl (held_afterUnlock c q i result)
  | ret result => exact absurd h (by simp [insertIfAbsent])

theorem erase_moves (h : erase c s tid q.key.val pc = some (s', pc')) :
    Moves tid s s' (held c q pc = some ·) (held c q pc' = some ·) := by
  cases pc with
  | lock i =>
      obtain ⟨s₁, hacq, heq⟩ := Option.map_eq_some_iff.mp h
      obtain ⟨rfl, rfl⟩ := Prod.mk.inj heq
      exact acquire_moves hacq rfl rfl
  | check i =>
      simp only [erase] at h
      split_ifs at h
      all_goals
        obtain ⟨rfl, rfl⟩ := Prod.mk.inj (Option.some.inj h)
        exact stay_moves rfl
  | write i =>
      obtain ⟨rfl, rfl⟩ := Prod.mk.inj (Option.some.inj h)
      exact bury_moves rfl rfl
  | unlock i result =>
      obtain ⟨rfl, rfl⟩ := Prod.mk.inj (Option.some.inj h)
      exact release_moves rfl (held_afterUnlock c q i result)
  | ret result => exact absurd h (by simp [erase])

/-- A thread can go on unless it waits. -/
theorem step_enabled (h : ∀ x, wanted c q pc = some x → s.m x = none) :
    (step c s tid q pc).isSome = true ∨ (result pc).isSome = true := by
  cases pc with
  | lock i =>
      left
      unfold step
      cases q.op with
      | insertIfAbsent => exact (Option.isSome_map ..).trans (acquire_isSome (h _ rfl))
      | erase => exact (Option.isSome_map ..).trans (acquire_isSome (h _ rfl))
  | check i =>
      left
      unfold step insertIfAbsent erase
      split
      · simp only
        split_ifs <;> rfl
      · simp only
        split_ifs <;> rfl
  | write i =>
      left
      unfold step
      cases q.op <;> rfl
  | unlock i result =>
      left
      unfold step
      cases q.op <;> rfl
  | ret result => exact Or.inr rfl

end Steps

/-- The updates of `alg_a.h`, with capacity `c`. -/
def updates (c : ℕ) : Updates Pc where
  start := fun _ => iterate c 0
  step := step c
  result := result
  held := held c
  wanted := wanted c
  start_held := fun q => held_iterate c q 0
  result_held := fun q pc result' h => by
    cases pc with
    | ret r => rfl
    | _ => exact absurd h (by simp [result])
  wanted_held := fun q pc x h => by
    cases pc with
    | lock i => rfl
    | _ => exact absurd h (by simp [wanted])
  moves := fun s tid q pc s' pc' h => by
    unfold step at h
    split at h
    · exact insert_moves h
    · exact erase_moves h
  enabled := fun _ _ _ _ => step_enabled

end AlgorithmA

namespace AlgorithmB

/-- The lock a thread holds. -/
def held (c : ℕ) (q : Request) : Pc → Option ℕ
  | .check i | .write i | .unlock i _ => some (path c q.key.val i)
  | _ => none

/-- The lock a thread is about to take. -/
def wanted (c : ℕ) (q : Request) : Pc → Option ℕ
  | .lock i => some (path c q.key.val i)
  | _ => none

theorem held_iterate (c : ℕ) (q : Request) (i : ℕ) : held c q (iterate c i) = none := by
  unfold iterate
  split <;> rfl

theorem held_afterUnlock (c : ℕ) (q : Request) (i : ℕ) (result : Option Bool) :
    held c q (afterUnlock c i result) = none := by
  cases result with
  | some result => rfl
  | none => exact held_iterate c q (i + 1)

section Steps

variable {c tid : ℕ} {q : Request} {s s' : Mem} {pc pc' : Pc}

theorem insert_moves (h : insertIfAbsent c s tid q.key.val pc = some (s', pc')) :
    Moves tid s s' (held c q pc = some ·) (held c q pc' = some ·) := by
  cases pc with
  | read i =>
      simp only [insertIfAbsent] at h
      split_ifs at h
      · obtain ⟨rfl, rfl⟩ := Prod.mk.inj (Option.some.inj h)
        exact stay_moves rfl
      · obtain ⟨rfl, rfl⟩ := Prod.mk.inj (Option.some.inj h)
        exact stay_moves rfl
      · obtain ⟨rfl, rfl⟩ := Prod.mk.inj (Option.some.inj h)
        exact stay_moves (held_iterate c q (i + 1))
  | lock i =>
      obtain ⟨s₁, hacq, heq⟩ := Option.map_eq_some_iff.mp h
      obtain ⟨rfl, rfl⟩ := Prod.mk.inj heq
      exact acquire_moves hacq rfl rfl
  | check i =>
      simp only [insertIfAbsent] at h
      split_ifs at h
      all_goals
        obtain ⟨rfl, rfl⟩ := Prod.mk.inj (Option.some.inj h)
        exact stay_moves rfl
  | write i =>
      obtain ⟨rfl, rfl⟩ := Prod.mk.inj (Option.some.inj h)
      exact put_moves rfl rfl
  | unlock i result =>
      obtain ⟨rfl, rfl⟩ := Prod.mk.inj (Option.some.inj h)
      exact release_moves rfl (held_afterUnlock c q i result)
  | ret result => exact absurd h (by simp [insertIfAbsent])

theorem erase_moves (h : erase c s tid q.key.val pc = some (s', pc')) :
    Moves tid s s' (held c q pc = some ·) (held c q pc' = some ·) := by
  cases pc with
  | read i =>
      simp only [erase] at h
      split_ifs at h
      · obtain ⟨rfl, rfl⟩ := Prod.mk.inj (Option.some.inj h)
        exact stay_moves rfl
      · obtain ⟨rfl, rfl⟩ := Prod.mk.inj (Option.some.inj h)
        exact stay_moves rfl
      · obtain ⟨rfl, rfl⟩ := Prod.mk.inj (Option.some.inj h)
        exact stay_moves (held_iterate c q (i + 1))
  | lock i =>
      obtain ⟨s₁, hacq, heq⟩ := Option.map_eq_some_iff.mp h
      obtain ⟨rfl, rfl⟩ := Prod.mk.inj heq
      exact acquire_moves hacq rfl rfl
  | check i =>
      simp only [erase] at h
      split_ifs at h
      all_goals
        obtain ⟨rfl, rfl⟩ := Prod.mk.inj (Option.some.inj h)
        exact stay_moves rfl
  | write i =>
      obtain ⟨rfl, rfl⟩ := Prod.mk.inj (Option.some.inj h)
      exact bury_moves rfl rfl
  | unlock i result =>
      obtain ⟨rfl, rfl⟩ := Prod.mk.inj (Option.some.inj h)
      exact release_moves rfl (held_afterUnlock c q i result)
  | ret result => exact absurd h (by simp [erase])

/-- A thread can go on unless it waits. -/
theorem step_enabled (h : ∀ x, wanted c q pc = some x → s.m x = none) :
    ((machine c).step s tid q pc ()).isSome = true ∨ ((machine c).result pc).isSome = true := by
  obtain ⟨op, key⟩ := q
  cases pc with
  | lock i =>
      left
      cases op with
      | insertIfAbsent => exact (Option.isSome_map ..).trans (acquire_isSome (h _ rfl))
      | erase => exact (Option.isSome_map ..).trans (acquire_isSome (h _ rfl))
  | ret result => exact Or.inr rfl
  | write i =>
      left
      cases op <;> rfl
  | unlock i result =>
      left
      cases op <;> rfl
  | _ =>
      left
      cases op
      · simp only [machine, insertIfAbsent]
        split_ifs <;> rfl
      · simp only [machine, erase]
        split_ifs <;> rfl

end Steps

/-- The updates of `alg_b.h`, with capacity `c`. -/
def updates (c : ℕ) : Updates Pc where
  start := (machine c).start
  step := fun s tid q pc => (machine c).step s tid q pc ()
  result := (machine c).result
  held := held c
  wanted := wanted c
  start_held := fun q => held_iterate c q 0
  result_held := fun q pc result' h => by
    obtain rfl := ret_of_result h
    rfl
  wanted_held := fun q pc x h => by
    cases pc with
    | lock i => rfl
    | _ => exact absurd h (by simp [wanted])
  moves := fun s tid q pc s' pc' h => by
    unfold machine at h
    simp only at h
    split at h
    · exact insert_moves h
    · exact erase_moves h
  enabled := fun _ _ _ _ => step_enabled

end AlgorithmB

/-! ## §2. The table with `getSumOfKeys`. -/

namespace SumOfKeys

inductive Call where
  | update (q : Request)
  | getSumOfKeys
  deriving Repr, DecidableEq

inductive Result where
  | answer (result : Bool)
  | sum (v : Int)
  deriving Repr, DecidableEq

inductive Pc (π : Type) where
  | update (pc : π)
  /-- At the test of the first loop, and then about to lock `data[index]`. -/
  | lockBucket (index : ℕ) (sum : Int)
  /-- About to read `data[index].key`. -/
  | addBucket (index : ℕ) (sum : Int)
  /-- At the test of the second loop, and then about to unlock `data[index]`. -/
  | unlockBucket (index : ℕ) (sum : Int)
  | ret (sum : Int)
  deriving Repr, DecidableEq

variable {π : Type}

/-- `getSumOfKeys`. -/
def getSumOfKeys (c : ℕ) (s : Mem) (tid : ℕ) : Pc π → Option (Mem × Pc π)
  | .lockBucket index sum =>
      if index < c then (s.acquire index tid).map fun s' => (s', .addBucket index sum)
      else some (s, .unlockBucket 0 sum)
  | .addBucket index sum =>
      let found := s.board.data index
      some (s, .lockBucket (index + 1) (if found > 0 then sum + found else sum))
  | .unlockBucket index sum =>
      if index < c then some (s.release index, .unlockBucket (index + 1) sum) else some (s, .ret sum)
  | _ => none

/-- A table of capacity `c`. -/
def machine (u : Updates π) (c : ℕ) : Machine Mem Call (Pc π) Result Unit where
  init := ⟨Board.blank EMPTY, fun _ => none⟩
  start := fun call =>
    match call with
    | .update q => .update (u.start q)
    | .getSumOfKeys => .lockBucket 0 0
  step := fun s tid call pc _ =>
    match call with
    | .update q =>
        match pc with
        | .update pc => (u.step s tid q pc).map fun p => (p.1, .update p.2)
        | _ => none
    | .getSumOfKeys => getSumOfKeys c s tid pc
  result := fun pc =>
    match pc with
    | .update pc => (u.result pc).map .answer
    | .ret sum => some (.sum sum)
    | _ => none

abbrev State (π : Type) := Machine.State Mem Call (Pc π)

/-- The sum of the positive keys in the first `k` buckets. -/
def sumOfKeys (b : Board Int) (k : ℕ) : Int :=
  ∑ j ∈ Finset.range k, if b.data j > 0 then b.data j else 0

/-- The locks a call holds. -/
def Holds (u : Updates π) (c : ℕ) : Call → Pc π → ℕ → Prop
  | .update q, .update pc, x => u.held q pc = some x
  | .getSumOfKeys, .lockBucket index _, x => x < index ∧ x < c
  | .getSumOfKeys, .addBucket index _, x => x ≤ index ∧ x < c
  | .getSumOfKeys, .unlockBucket index _, x => index ≤ x ∧ x < c
  | _, _, _ => False

/-- The lock a call is about to take. -/
def wants (u : Updates π) (c : ℕ) : Call → Pc π → Option ℕ
  | .update q, .update pc => u.wanted q pc
  | .getSumOfKeys, .lockBucket index _ => if index < c then some index else none
  | _, _ => none

/-- The locks of a state: who holds them, and who is about to take them. -/
def locks (u : Updates π) (c : ℕ) (s : State π) : Locks ℕ ℕ where
  owner := s.mem.m
  wants := fun tid =>
    match s.thread tid with
    | some (call, pc) => wants u c call pc
    | none => none

/-- Every thread that executes a call waits for a bucket lock. -/
def Deadlock (u : Updates π) (c : ℕ) (s : State π) : Prop :=
  (∃ tid, s.thread tid ≠ none) ∧ ∀ tid, s.thread tid ≠ none → (locks u c s).Waits tid

/-! ## §3. A lock is held by the call that has taken it. -/

def Owns (u : Updates π) (c : ℕ) (s : State π) : Prop :=
  ∀ x tid, s.mem.m x = some tid ↔ ∃ call pc, s.thread tid = some (call, pc) ∧ Holds u c call pc x

section Steps

variable {u : Updates π} {c tid v x : ℕ} {s s' : State π} {mem mem' : Mem} {call : Call}
  {pc pc' : Pc π}

/-- Every step of either operation is one of `Moves`. -/
theorem step_moves (h : (machine u c).step mem tid call pc () = some (mem', pc')) :
    Moves tid mem mem' (Holds u c call pc) (Holds u c call pc') := by
  cases call with
  | update q =>
      cases pc with
      | update pc =>
          obtain ⟨⟨s₁, pc₁⟩, hstep, heq⟩ := Option.map_eq_some_iff.mp h
          obtain ⟨rfl, rfl⟩ := Prod.mk.inj heq
          exact u.moves _ _ _ _ _ _ hstep
      | _ => exact absurd h (by simp [machine])
  | getSumOfKeys =>
      cases pc with
      | lockBucket index sum =>
          simp only [machine, getSumOfKeys] at h
          split at h
          · rename_i hlt
            obtain ⟨s₁, hacq, heq⟩ := Option.map_eq_some_iff.mp h
            obtain ⟨rfl, rfl⟩ := Prod.mk.inj heq
            unfold AlgorithmB.Mem.acquire at hacq
            split at hacq
            · refine .lock index ‹_› (Option.some.inj hacq).symm fun y => ?_
              show y ≤ index ∧ y < c ↔ (y < index ∧ y < c) ∨ y = index
              omega
            · exact absurd hacq (by simp)
          · obtain ⟨rfl, rfl⟩ := Prod.mk.inj (Option.some.inj h)
            refine .stay rfl fun y => ?_
            show 0 ≤ y ∧ y < c ↔ y < index ∧ y < c
            omega
      | addBucket index sum =>
          obtain ⟨rfl, rfl⟩ := Prod.mk.inj (Option.some.inj h)
          refine .stay rfl fun y => ?_
          show y < index + 1 ∧ y < c ↔ y ≤ index ∧ y < c
          omega
      | unlockBucket index sum =>
          simp only [machine, getSumOfKeys] at h
          split at h
          · rename_i hlt
            obtain ⟨rfl, rfl⟩ := Prod.mk.inj (Option.some.inj h)
            refine .unlock index ⟨Nat.le_refl _, hlt⟩ rfl fun y => ?_
            show index + 1 ≤ y ∧ y < c ↔ (index ≤ y ∧ y < c) ∧ y ≠ index
            omega
          · obtain ⟨rfl, rfl⟩ := Prod.mk.inj (Option.some.inj h)
            refine .stay rfl fun y => ?_
            exact ⟨False.elim, fun ⟨h₁, h₂⟩ => by omega⟩
      | update pc => exact absurd h (by simp [machine, getSumOfKeys])
      | ret sum => exact absurd h (by simp [machine, getSumOfKeys])

/-- A call starts without a lock. -/
theorem start_holds (call : Call) : ¬ Holds u c call ((machine u c).start call) x := by
  cases call with
  | update q =>
      show ¬ u.held q (u.start q) = some x
      rw [u.start_held]
      simp
  | getSumOfKeys =>
      show ¬ (x < 0 ∧ x < c)
      omega

/-- A call returns without a lock. -/
theorem result_holds {r : Result} (h : (machine u c).result pc = some r) : ¬ Holds u c call pc x := by
  cases pc with
  | update pc =>
      obtain ⟨b, hres, -⟩ := Option.map_eq_some_iff.mp h
      cases call with
      | update q =>
          show ¬ u.held q pc = some x
          rw [u.result_held q pc b hres]
          simp
      | getSumOfKeys => exact id
  | ret sum => cases call <;> exact id
  | _ => exact absurd h (by simp [machine])

theorem Owns.goto (h : Owns u c s) {th : Option (Call × Pc π)}
    (hown : ∀ x w, mem.m x = some w ↔
      if w = v then ∃ call pc, th = some (call, pc) ∧ Holds u c call pc x else s.mem.m x = some w) :
    Owns u c { s.goto v th with mem := mem } := by
  intro x w
  refine (hown x w).trans ?_
  show _ ↔ ∃ call pc, Function.update s.thread v th w = some (call, pc) ∧ _
  rw [Function.update_apply]
  split
  · exact Iff.rfl
  · exact h x w

/-- **The step rule.** -/
theorem Owns.step (h : Owns u c s) {a : Machine.Act Call Unit}
    (ht : (machine u c).Transition s a s') : Owns u c s' := by
  cases ht with
  | @invoke tid call hidle =>
      show Owns u c { s.goto tid _ with mem := s.mem }
      refine h.goto fun x w => ?_
      split
      · rename_i hw
        subst hw
        refine (h x w).trans ⟨fun ⟨call, pc, hth, _⟩ => absurd (hidle.symm.trans hth) (by simp), ?_⟩
        rintro ⟨call', pc, heq, hholds⟩
        obtain ⟨rfl, rfl⟩ := Prod.mk.inj (Option.some.inj heq)
        exact absurd hholds (start_holds _)
      · exact Iff.rfl
  | @step tid choice call pc pc' mem' hth hstep =>
      have hown : ∀ x, s.mem.m x = some tid ↔ Holds u c call pc x := by
        intro x
        refine (h x tid).trans ⟨?_, fun hx => ⟨call, pc, hth, hx⟩⟩
        rintro ⟨call', pc', hth', hx⟩
        obtain ⟨rfl, rfl⟩ := Prod.mk.inj (Option.some.inj (hth.symm.trans hth'))
        exact hx
      refine h.goto fun x w => ((step_moves hstep).owner hown x w).trans ?_
      split
      · refine ⟨fun hx => ⟨call, pc', rfl, hx⟩, ?_⟩
        rintro ⟨call', pc'', heq, hx⟩
        obtain ⟨rfl, rfl⟩ := Prod.mk.inj (Option.some.inj heq)
        exact hx
      · exact Iff.rfl
  | @ret tid call pc r hth hres =>
      show Owns u c { s.goto tid _ with mem := s.mem }
      refine h.goto fun x w => ?_
      split
      · rename_i hw
        subst hw
        refine (h x w).trans ⟨?_, fun ⟨call, pc, heq, _⟩ => absurd heq (by simp)⟩
        rintro ⟨call', pc', hth', hx⟩
        obtain ⟨rfl, rfl⟩ := Prod.mk.inj (Option.some.inj (hth.symm.trans hth'))
        exact absurd hx (result_holds hres)
      · exact Iff.rfl

/-- **The run rule.** -/
theorem Owns.reachable (hr : Reachable (machine u c).sys s) : Owns u c s := by
  refine Reach.induct (P := Owns u c) ?_
    (fun s a s' _ hs _ hn => hs.step (Machine.next_transition hn)) hr
  intro x tid
  refine ⟨fun h => absurd h (by simp [Machine.sys, machine]), ?_⟩
  rintro ⟨call, pc, hth, -⟩
  exact absurd hth (by simp [Machine.sys])

/-! ## §4. No deadlock. -/

/-- A thread that holds a lock waits for higher indices only. -/
theorem Owns.ordered (h : Owns u c s) : (locks u c s).Ordered fun x => c - x := by
  intro x y tid hx hy
  obtain ⟨call, pc, hth, hholds⟩ := (h x tid).mp hx
  have hwants : wants u c call pc = some y := by
    have hy' : (match s.thread tid with
      | some (call, pc) => wants u c call pc
      | none => none) = some y := hy
    rw [hth] at hy'
    exact hy'
  cases call with
  | update q =>
      cases pc with
      | update pc =>
          have hnone := u.wanted_held q pc y hwants
          exact absurd (hnone.symm.trans hholds) (by simp)
      | _ => exact absurd hwants (by simp [wants])
  | getSumOfKeys =>
      cases pc with
      | lockBucket index sum =>
          have hlt : x < index ∧ x < c := hholds
          simp only [wants] at hwants
          split at hwants
          · obtain rfl := Option.some.inj hwants
            show c - index < c - x
            omega
          · exact absurd hwants (by simp)
      | _ => exact absurd hwants (by simp [wants])

/-- Some thread does not wait. -/
theorem exists_running (hr : Reachable (machine u c).sys s) (hbusy : ∃ tid, s.thread tid ≠ none) :
    ∃ tid, s.thread tid ≠ none ∧ ¬ (locks u c s).Waits tid := by
  have hown := Owns.reachable hr
  refine hown.ordered.exists_running (b := fun tid => s.thread tid ≠ none) ?_ hbusy
  intro x tid hx
  obtain ⟨call, pc, hth, -⟩ := (hown x tid).mp hx
  rw [hth]
  simp

theorem not_deadlock (hr : Reachable (machine u c).sys s) : ¬ Deadlock u c s := by
  rintro ⟨hbusy, hall⟩
  obtain ⟨tid, hth, hrun⟩ := exists_running hr hbusy
  exact hrun (hall tid hth)

end Steps

/-- The program counter belongs to the call. -/
def Fits : Call → Pc π → Prop
  | .update _, .update _ => True
  | .update _, _ => False
  | .getSumOfKeys, .update _ => False
  | .getSumOfKeys, _ => True

section Progress

variable {u : Updates π} {c tid : ℕ} {s : State π} {mem mem' : Mem} {call : Call} {pc pc' : Pc π}

theorem step_fits (h : (machine u c).step mem tid call pc () = some (mem', pc')) : Fits call pc' := by
  cases call with
  | update q =>
      cases pc with
      | update pc =>
          obtain ⟨p, -, heq⟩ := Option.map_eq_some_iff.mp h
          obtain ⟨-, rfl⟩ := Prod.mk.inj heq
          exact trivial
      | _ => exact absurd h (by simp [machine])
  | getSumOfKeys =>
      cases pc with
      | lockBucket index sum =>
          simp only [machine, getSumOfKeys] at h
          split at h
          · obtain ⟨s₁, -, heq⟩ := Option.map_eq_some_iff.mp h
            obtain ⟨-, rfl⟩ := Prod.mk.inj heq
            exact trivial
          · obtain ⟨-, rfl⟩ := Prod.mk.inj (Option.some.inj h)
            exact trivial
      | addBucket index sum =>
          obtain ⟨-, rfl⟩ := Prod.mk.inj (Option.some.inj h)
          exact trivial
      | unlockBucket index sum =>
          simp only [machine, getSumOfKeys] at h
          split at h
          all_goals
            obtain ⟨-, rfl⟩ := Prod.mk.inj (Option.some.inj h)
            exact trivial
      | update pc => exact absurd h (by simp [machine, getSumOfKeys])
      | ret sum => exact absurd h (by simp [machine, getSumOfKeys])

theorem fits_reachable (hr : Reachable (machine u c).sys s) :
    ∀ tid call pc, s.thread tid = some (call, pc) → Fits call pc := by
  refine Reach.induct (P := fun s => ∀ tid call pc, s.thread tid = some (call, pc) → Fits call pc)
    (fun tid call pc hth => absurd hth (by simp [Machine.sys])) ?_ hr
  intro s a s' _ hs _ hn tid call pc hth
  -- only the thread that acts comes to another program counter
  have ht := Machine.next_transition hn
  cases ht with
  | @invoke v q hidle =>
      by_cases hv : tid = v
      · subst hv
        rw [Machine.State.goto_self] at hth
        obtain ⟨rfl, rfl⟩ := Prod.mk.inj (Option.some.inj hth)
        cases q <;> exact trivial
      · rw [Machine.State.goto_other _ _ hv] at hth
        exact hs tid call pc hth
  | @step v choice q pcv pcv' mem' hv hstep =>
      by_cases heq : tid = v
      · subst heq
        change (s.goto tid (some (q, pcv'))).thread tid = some (call, pc) at hth
        rw [Machine.State.goto_self] at hth
        obtain ⟨rfl, rfl⟩ := Prod.mk.inj (Option.some.inj hth)
        exact step_fits hstep
      · change (s.goto v (some (q, pcv'))).thread tid = some (call, pc) at hth
        rw [Machine.State.goto_other _ _ heq] at hth
        exact hs tid call pc hth
  | @ret v q pcv val hv hres =>
      by_cases heq : tid = v
      · subst heq
        rw [Machine.State.goto_self] at hth
        exact absurd hth (by simp)
      · rw [Machine.State.goto_other _ _ heq] at hth
        exact hs tid call pc hth

/-- A call whose lock is free can take a step, or return. -/
theorem enabled (hfits : Fits call pc) (hfree : ∀ x, wants u c call pc = some x → mem.m x = none) :
    ((machine u c).step mem tid call pc ()).isSome = true
      ∨ ((machine u c).result pc).isSome = true := by
  cases call with
  | update q =>
      cases pc with
      | update pc =>
          rcases u.enabled mem tid q pc hfree with hstep | hres
          · exact Or.inl ((Option.isSome_map ..).trans hstep)
          · exact Or.inr ((Option.isSome_map ..).trans hres)
      | _ => exact absurd hfits id
  | getSumOfKeys =>
      cases pc with
      | lockBucket index sum =>
          left
          simp only [wants] at hfree
          simp only [machine, getSumOfKeys]
          split
          · rename_i hlt
            rw [if_pos hlt] at hfree
            exact (Option.isSome_map ..).trans (acquire_isSome (hfree index rfl))
          · rfl
      | addBucket index sum => exact Or.inl rfl
      | unlockBucket index sum =>
          left
          simp only [machine, getSumOfKeys]
          split <;> rfl
      | update pc => exact absurd hfits id
      | ret sum => exact Or.inr rfl

/-- **Progress**: while some call is running, some thread can act. -/
theorem progress (hr : Reachable (machine u c).sys s) (hbusy : ∃ tid, s.thread tid ≠ none) :
    ∃ tid, ((machine u c).next s (.step tid ())).isSome = true
      ∨ ((machine u c).next s (.ret tid)).isSome = true := by
  obtain ⟨tid, hth, hrun⟩ := exists_running hr hbusy
  obtain ⟨⟨call, pc⟩, hth⟩ := Option.ne_none_iff_exists'.mp hth
  refine ⟨tid, ?_⟩
  simp only [Machine.next, hth, Option.isSome_map]
  refine enabled (fits_reachable hr tid call pc hth) fun x hx => ?_
  by_contra hne
  refine hrun ⟨x, ?_, hne⟩
  show (match s.thread tid with
    | some (call, pc) => wants u c call pc
    | none => none) = some x
  rw [hth]
  exact hx

end Progress

/-! ## §5. The sum is that of one instant. -/

section Sums

variable {u : Updates π} {c tid : ℕ} {mem mem' : Mem} {b b' : Board Int} {k : ℕ}

theorem sumOfKeys_succ (b : Board Int) (k : ℕ) :
    sumOfKeys b (k + 1) = if b.data k > 0 then sumOfKeys b k + b.data k else sumOfKeys b k := by
  unfold sumOfKeys
  rw [Finset.sum_range_succ]
  split
  · rfl
  · exact Int.add_zero _

theorem sumOfKeys_congr (h : ∀ j < k, b'.data j = b.data j) : sumOfKeys b' k = sumOfKeys b k :=
  Finset.sum_congr rfl fun j hj => by rw [h j (Finset.mem_range.mp hj)]

/-- What `getSumOfKeys` knows: of the buckets it has locked it has the sum, and
when it had locked them all, it had the sum of that instant. -/
def Sums (c : ℕ) (was : Int → Prop) (s : Mem) : Pc π → Prop
  | .lockBucket index sum => index ≤ c ∧ sumOfKeys s.board index = sum
  | .addBucket index sum => index < c ∧ sumOfKeys s.board index = sum
  | .unlockBucket _ sum | .ret sum => was sum
  | .update _ => True

/-- A step of its own. -/
theorem Sums.own {was : Int → Prop} {pc pc' : Pc π} (h : Sums c was mem pc)
    (hstep : getSumOfKeys c mem tid pc = some (mem', pc')) (hnow : was (sumOfKeys mem.board c)) :
    Sums c was mem' pc' := by
  cases pc with
  | lockBucket index sum =>
      obtain ⟨hle, hsum⟩ := h
      simp only [getSumOfKeys] at hstep
      split at hstep
      · rename_i hlt
        obtain ⟨s₁, hacq, heq⟩ := Option.map_eq_some_iff.mp hstep
        obtain ⟨rfl, rfl⟩ := Prod.mk.inj heq
        obtain ⟨-, -, hboard⟩ := AlgorithmB.Frame.acquire hacq
        refine ⟨hlt, ?_⟩
        rw [hboard]
        exact hsum
      · -- every bucket is locked and added up
        obtain ⟨rfl, rfl⟩ := Prod.mk.inj (Option.some.inj hstep)
        have hindex : index = c := by omega
        rw [hindex] at hsum
        rw [hsum] at hnow
        exact hnow
  | addBucket index sum =>
      obtain ⟨hlt, hsum⟩ := h
      obtain ⟨rfl, rfl⟩ := Prod.mk.inj (Option.some.inj hstep)
      refine ⟨hlt, ?_⟩
      rw [sumOfKeys_succ, hsum]
  | unlockBucket index sum =>
      simp only [getSumOfKeys] at hstep
      split at hstep
      · obtain ⟨rfl, rfl⟩ := Prod.mk.inj (Option.some.inj hstep)
        exact h
      · obtain ⟨rfl, rfl⟩ := Prod.mk.inj (Option.some.inj hstep)
        exact h
  | update pc => exact absurd hstep (by simp [getSumOfKeys])
  | ret sum => exact absurd hstep (by simp [getSumOfKeys])

/-- A step that changes no locked bucket. -/
theorem Sums.other {was : Int → Prop} {pc : Pc π} (h : Sums c was mem pc)
    (hdata : ∀ x, Holds u c .getSumOfKeys pc x → mem'.board.data x = mem.board.data x) :
    Sums c was mem' pc := by
  cases pc with
  | lockBucket index sum =>
      obtain ⟨hle, hsum⟩ := h
      refine ⟨hle, ?_⟩
      rw [sumOfKeys_congr fun j hj => hdata j ⟨hj, by omega⟩]
      exact hsum
  | addBucket index sum =>
      obtain ⟨hlt, hsum⟩ := h
      refine ⟨hlt, ?_⟩
      rw [sumOfKeys_congr fun j hj => hdata j ⟨Nat.le_of_lt hj, by omega⟩]
      exact hsum
  | _ => exact h

/-- **`getSumOfKeys` returns the sum of one instant.** -/
theorem sum_instant {r : Run (machine u c).sys} {v : Int} {a b : ℕ}
    (h : Machine.Returns r tid .getSumOfKeys (.sum v) a b) :
    ∃ i, a < i ∧ i ≤ b ∧ sumOfKeys (r.state i).mem.board c = v := by
  have hrun : ∃ pc, (machine u c).result pc = some (.sum v)
      ∧ Sums c (fun sum => ∃ i, a < i ∧ i ≤ b ∧ sumOfKeys (r.state i).mem.board c = sum)
        (r.state b).mem pc := by
    refine h.induct_at (Sums c _) ⟨Nat.zero_le c, rfl⟩ ?_ ?_
    · intro j pc choice mem' pc' haj hjb _ _ hsums hstep
      exact hsums.own hstep ⟨j, haj, Nat.le_of_lt hjb, rfl⟩
    · intro j pc w call pcw choice mem' pcw' haj hjb _ hw hth hthw hsums hstep
      refine hsums.other (u := u) fun x hx => Moves.data (step_moves hstep) ?_
      intro hxw
      -- the lock of bucket `x` has one holder
      have hown := Owns.reachable (r.reachable j (Nat.le_of_lt (hjb.trans_le h.within)))
      have hmine := (hown x tid).mpr ⟨_, pc, hth, hx⟩
      have hother := (hown x w).mpr ⟨call, pcw, hthw, hxw⟩
      exact hw (Option.some.inj (hother.symm.trans hmine))
  obtain ⟨pc, hres, hsums⟩ := hrun
  cases pc with
  | update pc =>
      obtain ⟨b, -, habs⟩ := Option.map_eq_some_iff.mp hres
      exact absurd habs (by simp)
  | ret sum =>
      obtain rfl := Result.sum.inj (Option.some.inj hres)
      exact hsums
  | _ => exact absurd hres (by simp [machine])

end Sums

/-- **`getSumOfKeys` is an atomic snapshot in both tables**, and no table ever
deadlocks. -/
theorem getSumOfKeys_atomic (c : ℕ) :
    (∀ (r : Run (machine (AlgorithmA.updates c) c).sys) (tid : ℕ) (v : Int) (a b : ℕ),
        Machine.Returns r tid .getSumOfKeys (.sum v) a b →
        ∃ i, a < i ∧ i ≤ b ∧ sumOfKeys (r.state i).mem.board c = v)
    ∧ (∀ (r : Run (machine (AlgorithmB.updates c) c).sys) (tid : ℕ) (v : Int) (a b : ℕ),
        Machine.Returns r tid .getSumOfKeys (.sum v) a b →
        ∃ i, a < i ∧ i ≤ b ∧ sumOfKeys (r.state i).mem.board c = v)
    ∧ (∀ s, Reachable (machine (AlgorithmA.updates c) c).sys s → ¬ Deadlock (AlgorithmA.updates c) c s)
    ∧ ∀ s, Reachable (machine (AlgorithmB.updates c) c).sys s → ¬ Deadlock (AlgorithmB.updates c) c s :=
  ⟨fun _ _ _ _ _ h => sum_instant h, fun _ _ _ _ _ h => sum_instant h,
    fun _ hr => not_deadlock hr, fun _ hr => not_deadlock hr⟩

/-- Thread 0 has added up bucket 0 when thread 1 inserts a key into bucket 1. -/
def overtakenActions (key : Key) : List (Machine.Act Call Unit) :=
  [.invoke 0 .getSumOfKeys, .step 0 (), .step 0 (), .invoke 1 (.update ⟨.insertIfAbsent, key⟩),
    .step 1 (), .step 1 (), .step 1 (), .step 1 (), .step 1 ()]
    ++ [.step 0 (), .step 0 (), .step 0 (), .step 0 (), .step 0 (), .step 0 ()]

def overtakenRun : Run (machine (AlgorithmB.updates 2) 2).sys :=
  Run.ofActions (machine (AlgorithmB.updates 2) 2).sys (overtakenActions ⟨7, by decide, by decide⟩)
    (.step 0 ()) (by decide +kernel)

/-- It returns that key. -/
theorem getSumOfKeys_atomic_overtaken :
    ∃ i, 0 < i ∧ i ≤ 15 ∧ sumOfKeys (overtakenRun.state i).mem.board 2 = 7 := by
  have hcall : ∀ j < 15, 0 < j → ¬ Machine.Act.Calls 0 (overtakenRun.act j) := by decide +kernel
  have hret : Machine.Returns overtakenRun 0 .getSumOfKeys (.sum 7) 0 15 :=
    { before := by decide
      within := by decide +kernel
      called := by decide +kernel
      same_call := fun j h₁ h₂ => hcall j h₂ h₁
      returns := ⟨.ret 7, by decide +kernel, rfl⟩ }
  exact (getSumOfKeys_atomic 2).2.1 overtakenRun 0 7 0 15 hret

end SumOfKeys

end MultiCore.FixedTable
