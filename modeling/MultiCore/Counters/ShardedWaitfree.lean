/-
  MultiCore.Counters.ShardedWaitfree — `CounterShardedWaitfree` of
  `counters_impl.h`.

  `inc` is one atomic increment of a shard; `read` loads the shards one after
  another and adds them up.  What it returns need not be made of the values of
  one instant, but it lies between the total at the call and the total at the
  return; and the total grows in steps of one, so at some instant it was just
  that.

  The body of `inc` has no `return` statement, although it is to return an
  `int64_t`: a call that comes to its end has undefined behaviour, and from then
  on the steps of the model may lead anywhere.  What is proved of a read is
  proved as long as no `inc` has come to its end.  The `int64_t` counts are
  taken not to overflow.
-/
import MultiCore.Lib.Calls
import MultiCore.Lib.Shards
import MultiCore.Lib.WaitFree
import MultiCore.Util.Counter

namespace MultiCore.Counters

open MultiCore.Lib

/-- A call: `inc(tid)` with a `tid` below `numThreads`, or `read()`. -/
inductive Request (n : ℕ) where
  | inc (tid : Fin n)
  | read
  deriving Repr, DecidableEq

/-- The sum of all shards. -/
def total (count : ℕ → ℕ) : ℕ := below count Util.MAX_THREADS

namespace ShardedWaitfree

/-! ## §1. Steps. -/

inductive Pc where
  /-- About to execute `shards[tid].count++`. -/
  | inc
  /-- Behind it, about to flow off the end of `inc`. -/
  | flowsOff
  /-- At the test of the loop, and then about to load `shards[tid].count`. -/
  | read (tid sum : ℕ)
  | ret (result : ℕ)
  deriving Repr, DecidableEq

structure Mem where
  count : ℕ → ℕ
  /-- A call of `inc` has flowed off its end: nothing is defined any more. -/
  undefined : Bool

/-- Where a step may lead when nothing is defined any more. -/
structure Anywhere where
  count : ℕ → ℕ
  pc : Pc

/-- A step of a thread, as long as the behaviour is defined. -/
def step (n : ℕ) (s : Mem) (q : Request n) : Pc → Option (Mem × Pc)
  | .inc =>
      match q with
      | .inc tid =>
          some ({ s with count := Function.update s.count tid (s.count tid + 1) }, .flowsOff)
      | .read => none
  | .flowsOff => some ({ s with undefined := true }, .flowsOff)
  | .read tid sum =>
      if tid < n then some (s, .read (tid + 1) (sum + s.count tid)) else some (s, .ret sum)
  | .ret _ => none

/-- The counter with `numThreads = n`. -/
def machine (n : ℕ) : Machine Mem (Request n) Pc ℕ Anywhere where
  init := { count := fun _ => 0, undefined := false }
  start := fun q =>
    match q with
    | .inc _ => .inc
    | .read => .read 0 0
  step := fun s _ q pc anywhere =>
    if s.undefined then some ({ s with count := anywhere.count }, anywhere.pc) else step n s q pc
  result := fun pc =>
    match pc with
    | .ret result => some result
    | _ => none

/-- A call of `inc` comes to the end of its body. -/
def FlowsOff {n : ℕ} (s : Machine.State Mem (Request n) Pc) :
    Machine.Act (Request n) Anywhere → Prop
  | .step tid _ => (s.thread tid).map Prod.snd = some .flowsOff
  | _ => False

instance {n : ℕ} (s : Machine.State Mem (Request n) Pc) : DecidablePred (FlowsOff s) := fun a =>
  match a with
  | .invoke _ _ => isFalse id
  | .step tid _ => inferInstanceAs (Decidable ((s.thread tid).map Prod.snd = some .flowsOff))
  | .ret _ => isFalse id

theorem step_of_defined {n : ℕ} {s : Mem} (hdef : s.undefined = false) (tid : ℕ) (q : Request n)
    (pc : Pc) (anywhere : Anywhere) : (machine n).step s tid q pc anywhere = step n s q pc := by
  show (if s.undefined = true then _ else _) = _
  rw [hdef]
  rfl

theorem defined_step {n tid : ℕ} {s s' : Mem} {q : Request n} {pc pc' : Pc} {anywhere : Anywhere}
    (h : (machine n).step s tid q pc anywhere = some (s', pc')) (hdef : s'.undefined = false) :
    s.undefined = false ∧ step n s q pc = some (s', pc') := by
  simp only [machine] at h
  split at h
  · rename_i hundef
    obtain ⟨rfl, -⟩ := Prod.mk.inj (Option.some.inj h)
    exact absurd (hundef.symm.trans hdef) (by simp)
  · rename_i hundef
    exact ⟨by simpa using hundef, h⟩

/-- **Everything is defined until an `inc` comes to its end.** -/
theorem defined_until {n : ℕ} (r : Run (machine n).sys) {b : ℕ} (hb : b ≤ r.len)
    (h : ∀ j < b, ¬ FlowsOff (r.state j) (r.act j)) : (r.state b).mem.undefined = false := by
  induction b with
  | zero =>
      rw [r.start]
      rfl
  | succ b ih =>
      have hdef := ih (Nat.le_of_succ_le hb) fun j hj => h j (Nat.lt_succ_of_lt hj)
      have ht := Machine.next_transition (r.step b hb)
      have hno := h b (Nat.lt_succ_self b)
      generalize r.state (b + 1) = s' at ht ⊢
      generalize r.act b = act at ht hno
      cases ht with
      | invoke hidle => exact hdef
      | ret hth hres => exact hdef
      | @step tid choice q pc pc' mem' hth hstep =>
          show mem'.undefined = false
          rw [step_of_defined hdef] at hstep
          cases pc with
          | inc =>
              cases q with
              | inc x =>
                  obtain ⟨rfl, -⟩ := Prod.mk.inj (Option.some.inj hstep)
                  exact hdef
              | read => exact absurd hstep (by simp [step])
          | flowsOff =>
              refine absurd ?_ hno
              show ((r.state b).thread tid).map Prod.snd = some .flowsOff
              rw [hth]
              rfl
          | read k sum =>
              simp only [step] at hstep
              split_ifs at hstep
              · obtain ⟨rfl, -⟩ := Prod.mk.inj (Option.some.inj hstep)
                exact hdef
              · obtain ⟨rfl, -⟩ := Prod.mk.inj (Option.some.inj hstep)
                exact hdef
          | ret result => exact absurd hstep (by simp [step])

/-! ## §2. What a read has seen. -/

/-- What a read knows when `tid` shards are behind it: `sum` is not above their
total; and from what it will return at least, up to the total of now, every
value has been the total at some instant. -/
structure Seen (n : ℕ) (count : ℕ → ℕ) (once : Machine.Witnessed Mem) (tid sum : ℕ) : Prop where
  le : tid ≤ n
  below : sum ≤ below count tid
  passed : ∀ v, sum + between count tid n ≤ v → v < Lib.below count n →
    once fun s => Lib.below s.count n = v

/-- The assertion of a thread, as long as the behaviour is defined. -/
def Asserts (n : ℕ) (s : Mem) (once : Machine.Witnessed Mem) (_tid : ℕ) (q : Request n) (pc : Pc) :
    Prop :=
  s.undefined = false →
    match pc with
    | .inc => ∃ tid, q = .inc tid
    | .flowsOff => ∃ tid, q = .inc tid
    | .read tid sum => Seen n s.count once tid sum
    | .ret result => q = .read → once fun s => Lib.below s.count n = result

/-- Shards that no thread increments. -/
def Unused (n : ℕ) (s : Mem) : Prop := s.undefined = false → ∀ j, n ≤ j → s.count j = 0

section Steps

variable {n : ℕ} {s s' : Mem} {once once' : Machine.Witnessed Mem} {tid sum : ℕ}

/-- The next shard. -/
theorem Seen.next (h : Seen n s.count once tid sum) (hlt : tid < n)
    (hkeep : ∀ P, once P → once' P) : Seen n s.count once' (tid + 1) (sum + s.count tid) where
  le := hlt
  below := by
    have hbelow := h.below
    rw [below_succ]
    omega
  passed v hlo hhi := by
    refine hkeep _ (h.passed v ?_ hhi)
    rw [between_succ hlt]
    omega

/-- An increment meanwhile: the total of now joins the totals that have been. -/
theorem Seen.inc (h : Seen n s.count once tid sum) (x : Fin n)
    (hs' : s'.count = Function.update s.count x (s.count x + 1))
    (hl : Machine.Later s once s' once') : Seen n s'.count once' tid sum := by
  have hbelow := below_update (f := s.count) (x := x) (v := s.count x + 1) (k := tid)
  have htotal := below_update (f := s.count) (x := x) (v := s.count x + 1) (k := n)
  have hrest := between_update (f := s.count) (x := x) (v := s.count x + 1) (k := tid) (n := n)
  have hx := x.isLt
  rw [hs']
  refine ⟨h.le, ?_, ?_⟩
  · have hold := h.below
    split_ifs at hbelow <;> omega
  · intro v hlo hhi
    rw [if_pos hx, if_pos hx] at htotal
    rcases Nat.lt_or_ge v (Lib.below s.count n) with hlt | hge
    · refine hl.keep _ (h.passed v ?_ hlt)
      split_ifs at hrest <;> omega
    · have heq : Lib.below s.count n = v := by omega
      exact hl.keep _ (hl.before (fun s => Lib.below s.count n = v) heq)

/-- The end of the loop: the sum was the total at some instant. -/
theorem Seen.done (h : Seen n s.count once tid sum) (hge : ¬ tid < n)
    (hbefore : ∀ P : Mem → Prop, P s → once P) : once fun s => Lib.below s.count n = sum := by
  have htid : tid = n := by
    have hle := h.le
    omega
  subst htid
  rcases Nat.lt_or_eq_of_le h.below with hlt | heq
  · exact h.passed sum (by rw [between_self]; omega) hlt
  · exact hbefore (fun s => Lib.below s.count tid = sum) heq.symm

theorem rely (n : ℕ) : Machine.Rely (machine n) (Unused n) (Asserts n) where
  init _ _ _ := rfl
  start s once tid q _ _ := by
    cases q with
    | inc x => exact ⟨x, rfl⟩
    | read =>
        refine ⟨Nat.zero_le n, Nat.le_refl 0, fun v hlo hhi => ?_⟩
        have hsum := below_add_between (f := s.count) (Nat.zero_le n)
        rw [below_zero] at hsum
        omega
  mono s once once' tid q pc _ ha hkeep hdef := by
    have hnow := ha hdef
    cases pc with
    | inc => exact hnow
    | flowsOff => exact hnow
    | read k sum =>
        exact ⟨hnow.le, hnow.below, fun v hlo hhi => hkeep _ (hnow.passed v hlo hhi)⟩
    | ret result => exact fun hq => hkeep _ (hnow hq)
  own s once s' once' tid q pc anywhere pc' hI ha hstep hl := by
    suffices h : s'.undefined = false →
        (∀ j, n ≤ j → s'.count j = 0) ∧ Asserts n s' once' tid q pc' from
      ⟨fun hdef' => (h hdef').1, fun hdef' => (h hdef').2 hdef'⟩
    intro hdef'
    obtain ⟨hdef, hown⟩ := defined_step hstep hdef'
    have hnow := ha hdef
    cases pc with
    | inc =>
        obtain ⟨x, rfl⟩ := hnow
        obtain ⟨rfl, rfl⟩ := Prod.mk.inj (Option.some.inj hown)
        refine ⟨fun j hj => ?_, fun _ => ⟨x, rfl⟩⟩
        have hx := x.isLt
        show Function.update s.count x (s.count x + 1) j = 0
        rw [Function.update_of_ne (by omega)]
        exact hI hdef j hj
    | flowsOff =>
        -- the step that ends the defined behaviour
        obtain ⟨rfl, -⟩ := Prod.mk.inj (Option.some.inj hown)
        exact absurd hdef' (by simp)
    | read k sum =>
        simp only [step] at hown
        split at hown
        · rename_i hlt
          obtain ⟨rfl, rfl⟩ := Prod.mk.inj (Option.some.inj hown)
          exact ⟨hI hdef, fun _ => Seen.next hnow hlt hl.keep⟩
        · rename_i hge
          obtain ⟨rfl, rfl⟩ := Prod.mk.inj (Option.some.inj hown)
          exact ⟨hI hdef, fun _ _ => hl.keep _ (Seen.done hnow hge hl.before)⟩
    | ret result => exact absurd hown (by simp [step])
  other s once s' once' tid q pc w onceW qw pcw anywhere pcw' hI ha _ haw hstep hl hdef' := by
    obtain ⟨hdef, hown⟩ := defined_step hstep hdef'
    have hnow := ha hdef
    -- the step of the other thread is an increment, or changes nothing
    have hcases : s'.count = s.count
        ∨ ∃ x : Fin n, s'.count = Function.update s.count x (s.count x + 1) := by
      cases pcw with
      | inc =>
          obtain ⟨x, rfl⟩ := haw hdef
          obtain ⟨rfl, -⟩ := Prod.mk.inj (Option.some.inj hown)
          exact Or.inr ⟨x, rfl⟩
      | flowsOff =>
          obtain ⟨rfl, -⟩ := Prod.mk.inj (Option.some.inj hown)
          exact Or.inl rfl
      | read k sum =>
          simp only [step] at hown
          split at hown
          · exact Or.inl (congrArg Mem.count (Prod.mk.inj (Option.some.inj hown)).1.symm)
          · exact Or.inl (congrArg Mem.count (Prod.mk.inj (Option.some.inj hown)).1.symm)
      | ret result => exact absurd hown (by simp [step])
    cases pc with
    | inc => exact hnow
    | flowsOff => exact hnow
    | read k sum =>
        rcases hcases with hsame | ⟨x, hinc⟩
        · show Seen n s'.count once' k sum
          rw [hsame]
          exact ⟨hnow.le, hnow.below, fun v hlo hhi => hl.keep _ (hnow.passed v hlo hhi)⟩
        · exact Seen.inc hnow x hinc hl
    | ret result => exact fun hq => hl.keep _ (hnow hq)

end Steps

/-- **A wait-free read returns the total of one instant**, as long as no `inc`
has come to its end. -/
theorem read_instant {n : ℕ} (hn : n ≤ Util.MAX_THREADS) {r : Run (machine n).sys}
    {tid v a b : ℕ} (h : Machine.Returns r tid .read v a b)
    (hdef : ∀ j < b, ¬ FlowsOff (r.state j) (r.act j)) :
    ∃ i, a < i ∧ i ≤ b ∧ total (r.state i).mem.count = v := by
  obtain ⟨once, pc, hres, -, ha, hbetween⟩ := (rely n).returned h
  cases pc with
  | ret result =>
      obtain rfl := Option.some.inj hres
      have honce := ha (defined_until r h.within hdef) rfl
      obtain ⟨i, hai, hib, hsum⟩ := hbetween _ honce
      have hunused := ((rely n).along r i (hib.trans h.within)).1
        (defined_until r (hib.trans h.within) fun j hj => hdef j (Nat.lt_of_lt_of_le hj hib))
      exact ⟨i, hai, hib, (below_of_zero hunused hn).trans hsum⟩
  | _ => exact absurd hres (by simp [machine])

/-! ## §3. Wait-freedom. -/

/-- The steps left to a read, at most. -/
def Pc.rank (n : ℕ) : Pc → ℕ
  | .read tid _ => n - tid + 1
  | _ => 0

/-- Where a read comes to. -/
def Reads {n : ℕ} (q : Request n) : Pc → Prop
  | .read _ _ => q = .read
  | .ret _ => q = .read
  | _ => False

theorem ranked (n : ℕ) :
    (machine n).Ranked (fun s => s.undefined = false) Reads (fun _ pc => pc.rank n) where
  lowers s tid q pc anywhere s' pc' hdef hreads hstep := by
    rw [step_of_defined hdef] at hstep
    cases pc with
    | read k sum =>
        simp only [step] at hstep
        split_ifs at hstep with hlt
        · obtain ⟨-, rfl⟩ := Prod.mk.inj (Option.some.inj hstep)
          refine ⟨hreads, ?_⟩
          show n - (k + 1) + 1 < n - k + 1
          omega
        · obtain ⟨-, rfl⟩ := Prod.mk.inj (Option.some.inj hstep)
          exact ⟨hreads, Nat.succ_pos _⟩
    | ret result => exact absurd hstep (by simp [step])
    | inc => exact hreads.elim
    | flowsOff => exact hreads.elim
  goes s tid q pc hdef hreads := by
    cases pc with
    | read k sum =>
        refine Or.inr ⟨⟨fun _ => 0, .inc⟩, ?_⟩
        rw [step_of_defined hdef]
        simp only [step]
        split_ifs <;> exact ⟨_, rfl⟩
    | ret result => exact Or.inl ⟨result, rfl⟩
    | inc => exact hreads.elim
    | flowsOff => exact hreads.elim

/-- **A read is wait-free**: as long as no `inc` has come to its end, it takes one
step for each shard and one to leave the loop, whatever the other threads do, and
is never kept from the next. -/
theorem read_waitFree {n : ℕ} (r : Run (machine n).sys) {tid a b : ℕ} (hab : a < b)
    (hb : b ≤ r.len) (hcall : r.act a = .invoke tid .read)
    (hopen : ∀ j, a < j → j ≤ b → (r.state j).thread tid ≠ none)
    (hdef : ∀ j < b, ¬ FlowsOff (r.state j) (r.act j)) :
    r.count (Machine.ownStep tid) b ≤ r.count (Machine.ownStep tid) a + (n + 1)
      ∧ ∃ act s', Machine.Act.Advances tid act ∧ (machine n).next (r.state b) act = some s' := by
  have hdefined : ∀ j ≤ b, (r.state j).mem.undefined = false := by
    intro j hj
    exact defined_until r (hj.trans hb) fun i hi => hdef i (Nat.lt_of_lt_of_le hi hj)
  obtain ⟨pc, hth, hreads, hsum⟩ := (ranked n).along hab hb hcall rfl hopen
    fun j _ hj => hdefined j hj.le
  refine ⟨?_, (ranked n).advances (hdefined b (Nat.le_refl b)) hth hreads⟩
  have hstart : Pc.rank n ((machine n).start .read) = n + 1 := rfl
  omega

/-- For the steps that do not ask where to go. -/
def nowhere : Anywhere := { count := fun _ => 0, pc := .ret 0 }

/-- A wait-free read loads shard 0; both shards are incremented; it loads
shard 1. -/
def mixedActions : List (Machine.Act (Request 2) Anywhere) :=
  [.invoke 0 .read, .step 0 nowhere, .invoke 1 (.inc ⟨0, Nat.zero_lt_two⟩), .step 1 nowhere,
    .invoke 2 (.inc ⟨1, Nat.one_lt_two⟩), .step 2 nowhere, .step 0 nowhere, .step 0 nowhere]

def mixedRun : Run (machine 2).sys :=
  Run.ofActions (machine 2).sys mixedActions (.step 0 nowhere) (by decide +kernel)

theorem mixedRun_returns : Machine.Returns mixedRun 0 .read 1 0 8 := by
  have hcall : ∀ j < 8, 0 < j → ¬ Machine.Act.Calls 0 (mixedRun.act j) := by decide +kernel
  exact
    { before := by decide
      within := by decide +kernel
      called := rfl
      same_call := fun j h₁ h₂ => hcall j h₂ h₁
      returns := ⟨.ret 1, by decide +kernel, rfl⟩ }

/-- Both increments are made, and neither `inc` has come to its end. -/
theorem mixedRun_defined : ∀ j < 8, ¬ FlowsOff (mixedRun.state j) (mixedRun.act j) := by
  decide +kernel

theorem read_waitFree_mixed :
    mixedRun.count (Machine.ownStep 0) 8 ≤ mixedRun.count (Machine.ownStep 0) 0 + 3
      ∧ ∃ act s', Machine.Act.Advances 0 act ∧ (machine 2).next (mixedRun.state 8) act = some s' := by
  have hopen : ∀ j ≤ 8, 0 < j → (mixedRun.state j).thread 0 ≠ none := by decide +kernel
  exact read_waitFree mixedRun (a := 0) (b := 8) (by decide) (by decide +kernel) rfl
    (fun j h₁ h₂ => hopen j h₂ h₁) mixedRun_defined

end ShardedWaitfree

end MultiCore.Counters
