/-
  MultiCore.Counters.ShardedLocked — `CounterShardedLocked` of
  `counters_impl.h`.

  Every shard has a lock.  `inc` increments its shard under the lock, by a read
  and a write; `read` locks the shards one after another, adds each one up as
  soon as it is locked, and unlocks them when it has them all.  At that instant
  the sum is the total: no shard changes while somebody else holds its lock.
  The `int64_t` counts are taken not to overflow.
-/
import MultiCore.Counters.ShardedWaitfree

namespace MultiCore.Counters.ShardedLocked

open MultiCore.Lib

/-! ## §1. Steps. -/

structure Mem where
  count : ℕ → ℕ
  /-- Who holds `shards[tid].mutex`. -/
  mutex : ℕ → Option ℕ

inductive Pc where
  /-- `inc`: about to lock, to read and to write the count, and to unlock. -/
  | lock
  | load
  | store (x : ℕ)
  | unlock
  /-- `read`: at the test of the first loop, and then about to lock. -/
  | lockShard (tid sum : ℕ)
  /-- About to add `shards[tid].count`. -/
  | addShard (tid sum : ℕ)
  /-- At the test of the second loop, and then about to unlock. -/
  | unlockShard (tid sum : ℕ)
  | ret (result : ℕ)
  deriving Repr, DecidableEq

namespace Mem

variable (s : Mem)

/-- `mutex.lock()`: waits until the lock is free. -/
def acquire (x v : ℕ) : Option Mem :=
  match s.mutex x with
  | none => some { s with mutex := Function.update s.mutex x (some v) }
  | some _ => none

/-- `mutex.unlock()`. -/
def release (x : ℕ) : Mem := { s with mutex := Function.update s.mutex x none }

/-- A write of `shards[x].count`. -/
def setCount (x c : ℕ) : Mem := { s with count := Function.update s.count x c }

end Mem

/-- `inc`. -/
def inc (s : Mem) (v tid : ℕ) : Pc → Option (Mem × Pc)
  | .lock => (s.acquire tid v).map fun s' => (s', .load)
  | .load => some (s, .store (s.count tid))
  | .store x => some (s.setCount tid (x + 1), .unlock)
  | .unlock => some (s.release tid, .ret 0)
  | _ => none

/-- `read`. -/
def read (n : ℕ) (s : Mem) (v : ℕ) : Pc → Option (Mem × Pc)
  | .lockShard tid sum =>
      if tid < n then (s.acquire tid v).map fun s' => (s', .addShard tid sum)
      else some (s, .unlockShard 0 sum)
  | .addShard tid sum => some (s, .lockShard (tid + 1) (sum + s.count tid))
  | .unlockShard tid sum =>
      if tid < n then some (s.release tid, .unlockShard (tid + 1) sum) else some (s, .ret sum)
  | _ => none

/-- The counter with `numThreads = n`. -/
def machine (n : ℕ) : Machine Mem (Request n) Pc ℕ Unit where
  init := ⟨fun _ => 0, fun _ => none⟩
  start := fun q =>
    match q with
    | .inc _ => .lock
    | .read => .lockShard 0 0
  step := fun s v q pc _ =>
    match q with
    | .inc tid => inc s v tid pc
    | .read => read n s v pc
  result := fun pc =>
    match pc with
    | .ret result => some result
    | _ => none

/-! ## §2. What a thread relies on. -/

/-- At some instant the sum was the total. -/
def Counted (n : ℕ) (once : Machine.Witnessed Mem) (sum : ℕ) : Prop :=
  once fun s => below s.count n = sum

/-- The assertion of thread `v`. -/
def Asserts (n : ℕ) (s : Mem) (once : Machine.Witnessed Mem) (v : ℕ) (q : Request n) (pc : Pc) : Prop :=
  match q with
  | .inc tid =>
      match pc with
      | .load | .unlock => s.mutex tid = some v
      | .store x => s.mutex tid = some v ∧ s.count tid = x
      | _ => True
  | .read =>
      match pc with
      | .lockShard tid sum =>
          tid ≤ n ∧ (∀ j < tid, s.mutex j = some v) ∧ below s.count tid = sum
      | .addShard tid sum =>
          tid < n ∧ (∀ j < tid + 1, s.mutex j = some v) ∧ below s.count tid = sum
      | .unlockShard tid sum =>
          (∀ j, tid ≤ j → j < n → s.mutex j = some v) ∧ Counted n once sum
      | .ret result => Counted n once result
      | _ => True

/-- Shards that no thread increments. -/
def Unused (n : ℕ) (s : Mem) : Prop := ∀ j, n ≤ j → s.count j = 0

/-- What a step of thread `w` leaves alone: the locks of the others, and the
counts under them. -/
structure Frame (w : ℕ) (s s' : Mem) : Prop where
  held : ∀ x v, v ≠ w → s.mutex x = some v → s'.mutex x = some v
  count : ∀ x v, v ≠ w → s.mutex x = some v → s'.count x = s.count x

section Steps

variable {n v w x c : ℕ} {s s' : Mem} {pc pc' : Pc} {q : Request n} {once once' : Machine.Witnessed Mem}

theorem Frame.refl (w : ℕ) (s : Mem) : Frame w s s :=
  ⟨fun _ _ _ hx => hx, fun _ _ _ _ => rfl⟩

theorem acquire_cases (h : s.acquire x w = some s') :
    s.mutex x = none ∧ s' = { s with mutex := Function.update s.mutex x (some w) } := by
  unfold Mem.acquire at h
  split at h
  · exact ⟨‹_›, (Option.some.inj h).symm⟩
  · exact absurd h (by simp)

theorem Frame.acquire (h : s.acquire x w = some s') : Frame w s s' := by
  obtain ⟨hfree, rfl⟩ := acquire_cases h
  refine ⟨fun y v _ hy => ?_, fun _ _ _ _ => rfl⟩
  have hne : y ≠ x := by
    rintro rfl
    exact absurd (hfree.symm.trans hy) (by simp)
  show Function.update s.mutex x (some w) y = some v
  rw [Function.update_of_ne hne]
  exact hy

theorem Frame.release (hheld : s.mutex x = some w) : Frame w s (s.release x) := by
  refine ⟨fun y v hv hy => ?_, fun _ _ _ _ => rfl⟩
  have hne : y ≠ x := by
    rintro rfl
    exact hv (Option.some.inj (hy.symm.trans hheld))
  show Function.update s.mutex x none y = some v
  rw [Function.update_of_ne hne]
  exact hy

theorem Frame.setCount (hheld : s.mutex x = some w) : Frame w s (s.setCount x c) := by
  refine ⟨fun y v _ hy => hy, fun y v hv hy => ?_⟩
  have hne : y ≠ x := by
    rintro rfl
    exact hv (Option.some.inj (hy.symm.trans hheld))
  exact Function.update_of_ne hne ..

/-- Every step stays within its locks, and leaves the unused shards at 0. -/
theorem step_frame (ha : Asserts n s once w q pc)
    (hstep : (machine n).step s w q pc () = some (s', pc')) :
    Frame w s s' ∧ (Unused n s → Unused n s') := by
  cases q with
  | inc tid =>
      cases pc with
      | lock =>
          obtain ⟨s₁, hs₁, heq⟩ := Option.map_eq_some_iff.mp hstep
          obtain ⟨rfl, -⟩ := Prod.mk.inj heq
          refine ⟨Frame.acquire hs₁, fun hu => ?_⟩
          obtain ⟨-, rfl⟩ := acquire_cases hs₁
          exact hu
      | load =>
          obtain ⟨rfl, -⟩ := Prod.mk.inj (Option.some.inj hstep)
          exact ⟨Frame.refl w s, id⟩
      | store y =>
          obtain ⟨rfl, -⟩ := Prod.mk.inj (Option.some.inj hstep)
          refine ⟨Frame.setCount ha.1, fun hu j hj => ?_⟩
          have htid := tid.isLt
          exact (Function.update_of_ne (by omega) ..).trans (hu j hj)
      | unlock =>
          obtain ⟨rfl, -⟩ := Prod.mk.inj (Option.some.inj hstep)
          exact ⟨Frame.release ha, id⟩
      | _ => exact absurd hstep (by simp [machine, inc])
  | read =>
      cases pc with
      | lockShard tid sum =>
          simp only [machine, read] at hstep
          split at hstep
          · obtain ⟨s₁, hs₁, heq⟩ := Option.map_eq_some_iff.mp hstep
            obtain ⟨rfl, -⟩ := Prod.mk.inj heq
            refine ⟨Frame.acquire hs₁, fun hu => ?_⟩
            obtain ⟨-, rfl⟩ := acquire_cases hs₁
            exact hu
          · obtain ⟨rfl, -⟩ := Prod.mk.inj (Option.some.inj hstep)
            exact ⟨Frame.refl w s, id⟩
      | addShard tid sum =>
          obtain ⟨rfl, -⟩ := Prod.mk.inj (Option.some.inj hstep)
          exact ⟨Frame.refl w s, id⟩
      | unlockShard tid sum =>
          simp only [machine, read] at hstep
          split at hstep
          · rename_i hlt
            obtain ⟨rfl, -⟩ := Prod.mk.inj (Option.some.inj hstep)
            exact ⟨Frame.release (ha.1 tid (Nat.le_refl _) hlt), id⟩
          · obtain ⟨rfl, -⟩ := Prod.mk.inj (Option.some.inj hstep)
            exact ⟨Frame.refl w s, id⟩
      | _ => exact absurd hstep (by simp [machine, read])

/-- A thread that holds the locks of its assertion does not notice the steps of
the others. -/
theorem Asserts.frame (h : Asserts n s once v q pc) (hv : v ≠ w) (hf : Frame w s s')
    (hkeep : ∀ P, once P → once' P) : Asserts n s' once' v q pc := by
  have hbelow : ∀ k, (∀ j < k, s.mutex j = some v) → below s'.count k = below s.count k :=
    fun k hheld => below_congr fun j hj => hf.count j v hv (hheld j hj)
  cases q with
  | inc tid =>
      cases pc with
      | load => exact hf.held _ _ hv h
      | unlock => exact hf.held _ _ hv h
      | store y => exact ⟨hf.held _ _ hv h.1, (hf.count _ _ hv h.1).trans h.2⟩
      | _ => exact trivial
  | read =>
      cases pc with
      | lockShard tid sum =>
          obtain ⟨hle, hheld, hsum⟩ := h
          exact ⟨hle, fun j hj => hf.held _ _ hv (hheld j hj), (hbelow _ hheld).trans hsum⟩
      | addShard tid sum =>
          obtain ⟨hlt, hheld, hsum⟩ := h
          exact ⟨hlt, fun j hj => hf.held _ _ hv (hheld j hj),
            (hbelow _ fun j hj => hheld j (by omega)).trans hsum⟩
      | unlockShard tid sum =>
          exact ⟨fun j hlo hhi => hf.held _ _ hv (h.1 j hlo hhi), hkeep _ h.2⟩
      | ret result => exact hkeep _ h
      | _ => exact trivial

/-- A step of the thread itself. -/
theorem Asserts.own (ha : Asserts n s once v q pc)
    (hstep : (machine n).step s v q pc () = some (s', pc'))
    (hl : Machine.Later s once s' once') : Asserts n s' once' v q pc' := by
  have hmine : ∀ {x : ℕ} {s₁ : Mem}, s.acquire x v = some s₁ → s₁.mutex x = some v := by
    intro x s₁ hs₁
    obtain ⟨-, rfl⟩ := acquire_cases hs₁
    exact Function.update_self ..
  cases q with
  | inc tid =>
      cases pc with
      | lock =>
          obtain ⟨s₁, hs₁, heq⟩ := Option.map_eq_some_iff.mp hstep
          obtain ⟨rfl, rfl⟩ := Prod.mk.inj heq
          exact hmine hs₁
      | load =>
          obtain ⟨rfl, rfl⟩ := Prod.mk.inj (Option.some.inj hstep)
          exact ⟨ha, rfl⟩
      | store y =>
          obtain ⟨rfl, rfl⟩ := Prod.mk.inj (Option.some.inj hstep)
          exact ha.1
      | unlock =>
          obtain ⟨rfl, rfl⟩ := Prod.mk.inj (Option.some.inj hstep)
          exact trivial
      | _ => exact absurd hstep (by simp [machine, inc])
  | read =>
      cases pc with
      | lockShard tid sum =>
          obtain ⟨hle, hheld, hsum⟩ := ha
          simp only [machine, read] at hstep
          split at hstep
          · rename_i hlt
            obtain ⟨s₁, hs₁, heq⟩ := Option.map_eq_some_iff.mp hstep
            obtain ⟨rfl, rfl⟩ := Prod.mk.inj heq
            obtain ⟨hfree, rfl⟩ := acquire_cases hs₁
            refine ⟨hlt, fun j hj => ?_, hsum⟩
            by_cases heq : j = tid
            · rw [heq]
              exact Function.update_self ..
            · exact (Function.update_of_ne heq ..).trans (hheld j (by omega))
          · -- every shard is locked and added up
            obtain ⟨rfl, rfl⟩ := Prod.mk.inj (Option.some.inj hstep)
            have htid : tid = n := by omega
            subst htid
            exact ⟨fun j _ hj => hheld j hj,
              hl.now (fun s => below s.count tid = sum) hsum⟩
      | addShard tid sum =>
          obtain ⟨hlt, hheld, hsum⟩ := ha
          obtain ⟨rfl, rfl⟩ := Prod.mk.inj (Option.some.inj hstep)
          refine ⟨hlt, hheld, ?_⟩
          rw [below_succ, hsum]
      | unlockShard tid sum =>
          obtain ⟨hheld, hcounted⟩ := ha
          simp only [machine, read] at hstep
          split at hstep
          · obtain ⟨rfl, rfl⟩ := Prod.mk.inj (Option.some.inj hstep)
            refine ⟨fun j hlo hhi => ?_, hl.keep _ hcounted⟩
            exact (Function.update_of_ne (by omega) ..).trans (hheld j (by omega) hhi)
          · obtain ⟨rfl, rfl⟩ := Prod.mk.inj (Option.some.inj hstep)
            exact hl.keep _ hcounted
      | _ => exact absurd hstep (by simp [machine, read])

theorem rely (n : ℕ) : Machine.Rely (machine n) (Unused n) (Asserts n) where
  init _ _ := rfl
  start s once v q _ := by
    cases q with
    | inc tid => exact trivial
    | read => exact ⟨Nat.zero_le n, fun j hj => absurd hj (Nat.not_lt_zero j), rfl⟩
  mono s once once' v q pc _ ha hkeep :=
    -- nothing happens, as in a step of a thread that does nothing
    ha.frame (w := v + 1) (Nat.succ_ne_self v).symm (Frame.refl _ s) hkeep
  own s once s' once' v q pc _ pc' hI ha hstep hl :=
    ⟨(step_frame ha hstep).2 hI, ha.own hstep hl⟩
  other s once s' once' v q pc w onceW qw pcw _ pcw' _ ha hne haw hstep hl :=
    ha.frame hne.symm (step_frame haw hstep).1 hl.keep

end Steps

/-- **A locked read returns the total of one instant.** -/
theorem read_instant {n : ℕ} (hn : n ≤ Util.MAX_THREADS) {r : Run (machine n).sys}
    {tid v a b : ℕ} (h : Machine.Returns r tid .read v a b) :
    ∃ i, a < i ∧ i ≤ b ∧ total (r.state i).mem.count = v := by
  have hassert : ∀ s once pc, (machine n).result pc = some v → Asserts n s once tid .read pc →
      once fun s => below s.count n = v := by
    intro s once pc hres ha
    cases pc with
    | ret result =>
        obtain rfl := Option.some.inj hres
        exact ha
    | _ => exact absurd hres (by simp [machine])
  obtain ⟨i, hai, hib, hunused, hsum⟩ := (rely n).instant h hassert
  exact ⟨i, hai, hib, (below_of_zero hunused hn).trans hsum⟩

end MultiCore.Counters.ShardedLocked

/-! ## §3. Both counters. -/

namespace MultiCore.Counters

open MultiCore.Lib

/-- **The reads of both sharded counters are linearizable**: what a read returns
is the sum of all shards at some instant between its call and its return; for
the wait-free one as long as no `inc` has come to its end. -/
theorem sharded_reads {n : ℕ} (hn : n ≤ Util.MAX_THREADS) :
    (∀ (r : Run (ShardedLocked.machine n).sys) (tid v a b : ℕ),
        Machine.Returns r tid .read v a b →
        ∃ i, a < i ∧ i ≤ b ∧ total (r.state i).mem.count = v)
    ∧ (∀ (r : Run (ShardedWaitfree.machine n).sys) (tid v a b : ℕ),
        Machine.Returns r tid .read v a b →
        (∀ j < b, ¬ ShardedWaitfree.FlowsOff (r.state j) (r.act j)) →
        ∃ i, a < i ∧ i ≤ b ∧ total (r.state i).mem.count = v) :=
  ⟨fun _ _ _ _ _ h => ShardedLocked.read_instant hn h,
    fun _ _ _ _ _ h hdef => ShardedWaitfree.read_instant hn h hdef⟩

/-- It returns 1, although no instant has the shards 0 and 1. -/
theorem sharded_reads_mixed :
    ∃ i, 0 < i ∧ i ≤ 8 ∧ total (ShardedWaitfree.mixedRun.state i).mem.count = 1 :=
  (sharded_reads (n := 2) (by decide)).2 ShardedWaitfree.mixedRun 0 1 0 8
    ShardedWaitfree.mixedRun_returns ShardedWaitfree.mixedRun_defined

namespace ShardedWaitfree

/-- Thread 0 increments the only shard and comes to the end of `inc`; thread 1
reads. -/
def endedActions : List (Machine.Act (Request 1) Anywhere) :=
  [.invoke 0 (.inc ⟨0, Nat.one_pos⟩), .step 0 nowhere, .step 0 nowhere, .invoke 1 .read,
    .step 1 { count := Function.update (fun _ => 0) 0 1, pc := .ret 7 }]

def endedRun : Run (machine 1).sys :=
  Run.ofActions (machine 1).sys endedActions (.step 0 nowhere) (by decide +kernel)

end ShardedWaitfree

/-- When an `inc` has come to its end, a read may return 7 although the counter
is at 1. -/
theorem sharded_reads_fails : ¬ ∀ n ≤ Util.MAX_THREADS,
    ∀ (r : Run (ShardedWaitfree.machine n).sys) (tid v a b : ℕ),
      Machine.Returns r tid .read v a b →
      ∃ i, a < i ∧ i ≤ b ∧ total (r.state i).mem.count = v := by
  intro h
  have hcall : ∀ j < 5, 3 < j → ¬ Machine.Act.Calls 1 (ShardedWaitfree.endedRun.act j) := by
    decide +kernel
  have hret : Machine.Returns ShardedWaitfree.endedRun 1 .read 7 3 5 :=
    { before := by decide
      within := by decide +kernel
      called := rfl
      same_call := fun j h₁ h₂ => hcall j h₂ h₁
      returns := ⟨.ret 7, by decide +kernel, rfl⟩ }
  obtain ⟨i, hai, hib, hsum⟩ := h 1 (by decide) ShardedWaitfree.endedRun 1 7 3 5 hret
  have htotal : ∀ i ≤ 5, 3 < i → total (ShardedWaitfree.endedRun.state i).mem.count = 1 := by
    decide +kernel
  exact absurd ((htotal i hib hai).symm.trans hsum) (by decide)

end MultiCore.Counters
