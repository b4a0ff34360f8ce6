/-
  MultiCore.Counters.Approximate — `CounterApproximate` of `counters_impl.h`.

  A thread counts in its own `localCount` and, when it finds `1000 * numThreads`
  there, adds it to `globalCount` first and clears it afterwards; then it counts
  its increment.  `read` returns `globalCount`.

  `applied` records the increments that have been applied to each `localCount`;
  no step reads it.  The `int64_t` counts are taken not to overflow.
-/
import MultiCore.Lib.Calls
import MultiCore.Lib.Shards
import MultiCore.Util.Counter

namespace MultiCore.Counters.Approximate

open MultiCore.Lib

/-! ## §1. Steps. -/

def c : ℕ := 1000

inductive Request where
  | inc
  | read
  deriving Repr, DecidableEq

structure Mem where
  localCount : ℕ → ℕ
  globalCount : ℕ
  applied : ℕ → ℕ

inductive Pc where
  /-- `current_val = localCounts[tid].localCount`, and the test of it. -/
  | load
  /-- `globalCount.fetch_add(current_val)` -/
  | flush (current_val : ℕ)
  /-- `localCounts[tid].localCount = 0` -/
  | clear (current_val : ℕ)
  /-- `localCounts[tid].localCount += 1`: a read and a write. -/
  | loadLocal (current_val : ℕ)
  | storeLocal (current_val x : ℕ)
  /-- `read`: about to load `globalCount`. -/
  | loadGlobal
  | ret (result : ℕ)
  deriving Repr, DecidableEq

/-- `inc(tid)`. -/
def inc (n : ℕ) (s : Mem) (tid : ℕ) : Pc → Option (Mem × Pc)
  | .load =>
      let current_val := s.localCount tid
      some (s, if current_val ≥ c * n then .flush current_val else .loadLocal current_val)
  | .flush current_val => some ({ s with globalCount := s.globalCount + current_val }, .clear current_val)
  | .clear current_val =>
      some ({ s with localCount := Function.update s.localCount tid 0 }, .loadLocal current_val)
  | .loadLocal current_val => some (s, .storeLocal current_val (s.localCount tid))
  | .storeLocal current_val x =>
      some ({ s with localCount := Function.update s.localCount tid (x + 1)
                     applied := Function.update s.applied tid (s.applied tid + 1) }, .ret current_val)
  | _ => none

/-- `read()`. -/
def read (s : Mem) : Pc → Option (Mem × Pc)
  | .loadGlobal => some (s, .ret s.globalCount)
  | _ => none

/-- The counter with `numThreads = n`; thread `tid` calls `inc(tid)`. -/
def machine (n : ℕ) : Machine Mem Request Pc ℕ Unit where
  init := ⟨fun _ => 0, 0, fun _ => 0⟩
  start := fun q =>
    match q with
    | .inc => .load
    | .read => .loadGlobal
  step := fun s tid q pc _ =>
    match q with
    | .inc => inc n s tid pc
    | .read => read s pc
  result := fun pc =>
    match pc with
    | .ret result => some result
    | _ => none

abbrev State := Machine.State Mem Request Pc

/-- The action is a call of `inc`. -/
def CallsInc : State → Machine.Act Request Unit → Bool
  | _, .invoke _ .inc => true
  | _, _ => false

/-- Only threads below `n` call `inc`. -/
def Clients (n : ℕ) (r : Run (machine n).sys) : Prop :=
  ∀ j < r.len, ∀ tid, r.act j = .invoke tid .inc → tid < n

/-- The thread executes `inc`. -/
def InInc (th : Option (Request × Pc)) : Prop := ∃ pc, th = some (.inc, pc)

/-! ## §2. The invariant. -/

/-- The part of a local count that is in `globalCount` as well. -/
def twice : Option (Request × Pc) → ℕ → ℕ
  | some (.inc, .clear _), x => x
  | _, _ => 0

/-- The call of the thread has not been counted. -/
def pending : Option (Request × Pc) → ℕ
  | some (.inc, .ret _) => 0
  | some (.inc, _) => 1
  | _ => 0

/-- What a thread in `inc` knows of its local count. -/
def AtPc (n x : ℕ) : Pc → Prop
  | .flush current_val | .clear current_val => x = current_val
  | .loadLocal _ => x < c * n
  | .storeLocal _ y => x = y ∧ x < c * n
  | .loadGlobal => False
  | _ => True

/-- After `calls` calls of `inc`. -/
structure Inv (n : ℕ) (s : State) (calls : ℕ) : Prop where
  clients : ∀ tid, InInc (s.thread tid) → tid < n
  bound : ∀ tid, s.mem.localCount tid ≤ c * n
  thread : ∀ tid pc, s.thread tid = some (.inc, pc) → AtPc n (s.mem.localCount tid) pc
  unused : ∀ tid, n ≤ tid → s.mem.localCount tid = 0 ∧ s.mem.applied tid = 0
  /-- Counts that have been flushed and not cleared are counted twice. -/
  balance : s.mem.globalCount + below s.mem.localCount n
    = below s.mem.applied n + below (fun tid => twice (s.thread tid) (s.mem.localCount tid)) n
  counted : calls = below s.mem.applied n + below (fun tid => pending (s.thread tid)) n

section Steps

variable {n v k k' : ℕ} {s : State} {th : Option (Request × Pc)} {mem : Mem}

/-- The state after thread `v` has come to `th`. -/
def after (s : State) (v : ℕ) (th : Option (Request × Pc)) (mem : Mem) : State :=
  { s.goto v th with mem := mem }

theorem after_thread (tid : ℕ) :
    (after s v th mem).thread tid = if tid = v then th else s.thread tid := by
  show Function.update s.thread v th tid = _
  rw [Function.update_apply]

/-- **The step rule**: what a step of thread `v` has to account for. -/
theorem Inv.move (h : Inv n s k) (hth : InInc th → v < n)
    (hlocal : ∀ w, w ≠ v → mem.localCount w = s.mem.localCount w)
    (happlied : ∀ w, w ≠ v → mem.applied w = s.mem.applied w)
    (hbound : mem.localCount v ≤ c * n)
    (hpc : ∀ pc, th = some (.inc, pc) → AtPc n (mem.localCount v) pc)
    (hbalance : mem.globalCount + mem.localCount v + s.mem.applied v
        + twice (s.thread v) (s.mem.localCount v)
      = s.mem.globalCount + s.mem.localCount v + mem.applied v + twice th (mem.localCount v))
    (hcounted : k' + s.mem.applied v + pending (s.thread v) = k + mem.applied v + pending th)
    (hread : ¬ v < n → mem = s.mem ∧ k' = k) :
    Inv n (after s v th mem) k' where
  clients tid hin := by
    rw [after_thread] at hin
    split at hin
    · rename_i heq
      rw [heq]
      exact hth hin
    · exact h.clients tid hin
  bound tid := by
    by_cases heq : tid = v
    · rw [heq]
      exact hbound
    · exact (hlocal tid heq).trans_le (h.bound tid)
  thread tid pc heq := by
    rw [after_thread] at heq
    show AtPc n (mem.localCount tid) pc
    split at heq
    · rename_i hv
      rw [hv]
      exact hpc pc heq
    · rename_i hv
      rw [hlocal tid hv]
      exact h.thread tid pc heq
  unused tid htid := by
    by_cases heq : tid = v
    · rw [heq] at htid ⊢
      have hmem := (hread (by omega)).1
      show mem.localCount v = 0 ∧ mem.applied v = 0
      rw [hmem]
      exact h.unused v htid
    · show mem.localCount tid = 0 ∧ mem.applied tid = 0
      rw [hlocal tid heq, happlied tid heq]
      exact h.unused tid htid
  balance := by
    have htwice : ∀ w, w ≠ v → twice ((after s v th mem).thread w) (mem.localCount w)
        = twice (s.thread w) (s.mem.localCount w) := by
      intro w hw
      rw [after_thread, if_neg hw, hlocal w hw]
    have hold := h.balance
    show mem.globalCount + below mem.localCount n = below mem.applied n
      + below (fun tid => twice ((after s v th mem).thread tid) (mem.localCount tid)) n
    by_cases hv : v < n
    · have h₁ := below_move hlocal hv
      have h₂ := below_move happlied hv
      have h₃ := below_move (g := fun w => twice ((after s v th mem).thread w) (mem.localCount w))
        htwice hv
      simp only [after_thread, if_pos] at h₃ ⊢
      omega
    · rw [congrArg Mem.globalCount (hread hv).1,
        below_congr (g := s.mem.localCount) fun w hw => hlocal w (by omega),
        below_congr (g := s.mem.applied) fun w hw => happlied w (by omega),
        below_congr fun w hw => htwice w (by omega)]
      exact hold
  counted := by
    have hpending : ∀ w, w ≠ v → pending ((after s v th mem).thread w) = pending (s.thread w) := by
      intro w hw
      rw [after_thread, if_neg hw]
    have hold := h.counted
    show k' = below mem.applied n + below (fun tid => pending ((after s v th mem).thread tid)) n
    by_cases hv : v < n
    · have h₂ := below_move happlied hv
      have h₃ := below_move (g := fun w => pending ((after s v th mem).thread w)) hpending hv
      simp only [after_thread, if_pos] at h₃ ⊢
      omega
    · rw [(hread hv).2, below_congr (g := s.mem.applied) fun w hw => happlied w (by omega),
        below_congr fun w hw => hpending w (by omega)]
      exact hold

/-- A step on which nothing is counted. -/
theorem Inv.stay (h : Inv n s k) (hth : InInc th → v < n)
    (hpc : ∀ pc, th = some (.inc, pc) → AtPc n (s.mem.localCount v) pc)
    (htwice : twice (s.thread v) (s.mem.localCount v) = twice th (s.mem.localCount v))
    (hpending : pending (s.thread v) = pending th) : Inv n (after s v th s.mem) k :=
  h.move hth (fun _ _ => rfl) (fun _ _ => rfl) (h.bound v) hpc (by rw [htwice]) (by rw [hpending])
    fun _ => ⟨rfl, rfl⟩

/-- A step of `inc`. -/
theorem Inv.inc_step (h : Inv n s k) (hn : 0 < n) {pc pc' : Pc} (hth : s.thread v = some (.inc, pc))
    (hstep : inc n s.mem v pc = some (mem, pc')) : Inv n (after s v (some (.inc, pc')) mem) k := by
  have hv : v < n := h.clients v ⟨pc, hth⟩
  have hpc := h.thread v pc hth
  have hpos : 0 < c * n := Nat.mul_pos (by decide) hn
  cases pc with
  | load =>
      obtain ⟨rfl, rfl⟩ := Prod.mk.inj (Option.some.inj hstep)
      refine h.stay (fun _ => hv) ?_ ?_ ?_
      · intro pc' heq
        obtain ⟨-, rfl⟩ := Prod.mk.inj (Option.some.inj heq)
        split
        · exact rfl
        · rename_i hlt
          exact Nat.lt_of_not_le hlt
      · rw [hth]
        split <;> rfl
      · rw [hth]
        split <;> rfl
  | flush current_val =>
      obtain ⟨rfl, rfl⟩ := Prod.mk.inj (Option.some.inj hstep)
      -- the local count is in both from now on
      refine h.move (fun _ => hv) (fun _ _ => rfl) (fun _ _ => rfl) (h.bound v) ?_ ?_ ?_
        fun hno => absurd hv hno
      · intro pc' heq
        obtain ⟨-, rfl⟩ := Prod.mk.inj (Option.some.inj heq)
        exact hpc
      · rw [hth]
        have heq : s.mem.localCount v = current_val := hpc
        simp only [twice]
        omega
      · rw [hth]
        rfl
  | clear current_val =>
      obtain ⟨rfl, rfl⟩ := Prod.mk.inj (Option.some.inj hstep)
      refine h.move (fun _ => hv) (fun w hw => Function.update_of_ne hw ..) (fun _ _ => rfl) ?_ ?_ ?_ ?_
        fun hno => absurd hv hno
      · show Function.update s.mem.localCount v 0 v ≤ c * n
        rw [Function.update_self]
        exact Nat.zero_le _
      · intro pc' heq
        obtain ⟨-, rfl⟩ := Prod.mk.inj (Option.some.inj heq)
        show Function.update s.mem.localCount v 0 v < c * n
        rw [Function.update_self]
        exact hpos
      · rw [hth]
        show s.mem.globalCount + Function.update s.mem.localCount v 0 v + s.mem.applied v
          + s.mem.localCount v = s.mem.globalCount + s.mem.localCount v + s.mem.applied v + 0
        rw [Function.update_self]
        omega
      · rw [hth]
        rfl
  | loadLocal current_val =>
      obtain ⟨rfl, rfl⟩ := Prod.mk.inj (Option.some.inj hstep)
      refine h.stay (fun _ => hv) ?_ (by rw [hth]; rfl) (by rw [hth]; rfl)
      intro pc' heq
      obtain ⟨-, rfl⟩ := Prod.mk.inj (Option.some.inj heq)
      exact ⟨rfl, hpc⟩
  | storeLocal current_val x =>
      obtain ⟨rfl, rfl⟩ := Prod.mk.inj (Option.some.inj hstep)
      obtain ⟨heq, hlt⟩ : s.mem.localCount v = x ∧ s.mem.localCount v < c * n := hpc
      refine h.move (fun _ => hv) (fun w hw => Function.update_of_ne hw ..)
        (fun w hw => Function.update_of_ne hw ..) ?_ ?_ ?_ ?_ fun hno => absurd hv hno
      · show Function.update s.mem.localCount v (x + 1) v ≤ c * n
        rw [Function.update_self]
        omega
      · intro pc' heq
        obtain ⟨-, rfl⟩ := Prod.mk.inj (Option.some.inj heq)
        exact trivial
      · rw [hth]
        show s.mem.globalCount + Function.update s.mem.localCount v (x + 1) v + s.mem.applied v + 0
          = s.mem.globalCount + s.mem.localCount v
            + Function.update s.mem.applied v (s.mem.applied v + 1) v + 0
        rw [Function.update_self, Function.update_self]
        omega
      · rw [hth]
        show k + s.mem.applied v + 1 = k + Function.update s.mem.applied v (s.mem.applied v + 1) v + 0
        rw [Function.update_self]
        omega
  | loadGlobal => exact absurd hpc (by simp [AtPc])
  | ret result => exact absurd hstep (by simp [inc])

theorem Inv.step (h : Inv n s k) (hn : 0 < n) {s' : State} {a : Machine.Act Request Unit}
    (ht : (machine n).Transition s a s') (hclient : ∀ tid, a = .invoke tid .inc → tid < n) :
    Inv n s' (k + if CallsInc s a then 1 else 0) := by
  cases ht with
  | @invoke tid q hidle =>
      cases q with
      | inc =>
          show Inv n (after s tid _ s.mem) _
          refine Inv.move h (fun _ => hclient tid rfl) (fun _ _ => rfl) (fun _ _ => rfl)
            (h.bound tid) ?_ ?_ ?_ fun hno => absurd (hclient tid rfl) hno
          · intro pc heq
            obtain ⟨-, rfl⟩ := Prod.mk.inj (Option.some.inj heq)
            exact trivial
          · rw [hidle]
            rfl
          · rw [hidle]
            show k + 1 + s.mem.applied tid + 0 = k + s.mem.applied tid + 1
            omega
      | read =>
          exact h.stay (fun ⟨pc, heq⟩ => absurd heq (by simp)) (fun pc heq => absurd heq (by simp))
            (by rw [hidle]; rfl) (by rw [hidle]; rfl)
  | @step tid choice q pc pc' mem' hth hstep =>
      cases q with
      | inc => exact h.inc_step hn hth hstep
      | read =>
          have hmem : mem' = s.mem := by
            cases pc with
            | loadGlobal => exact (Prod.mk.inj (Option.some.inj hstep)).1.symm
            | _ => exact absurd hstep (by simp [machine, read])
          subst hmem
          exact h.stay (fun ⟨pc, heq⟩ => absurd heq (by simp)) (fun pc heq => absurd heq (by simp))
            (by rw [hth]; rfl) (by rw [hth]; rfl)
  | @ret tid q pc val hth hres =>
      have hpc : pc = .ret val := by
        cases pc with
        | ret result => exact congrArg Pc.ret (Option.some.inj hres)
        | _ => exact absurd hres (by simp [machine])
      subst hpc
      refine h.stay (fun ⟨pc, heq⟩ => absurd heq (by simp)) (fun pc heq => absurd heq (by simp)) ?_ ?_
      · rw [hth]
        cases q <;> rfl
      · rw [hth]
        cases q <;> rfl

theorem Inv.start (n : ℕ) : Inv n (machine n).sys.init 0 where
  clients _ h := by
    obtain ⟨pc, h⟩ := h
    exact absurd h (by simp [Machine.sys])
  bound _ := Nat.zero_le _
  thread _ _ h := absurd h (by simp [Machine.sys])
  unused _ _ := ⟨rfl, rfl⟩
  balance := by
    show 0 + below (fun _ => 0) n = below (fun _ => 0) n + below (fun _ => 0) n
    have hzero : below (fun _ => 0) n = 0 := Finset.sum_const_zero
    omega
  counted := by
    show 0 = below (fun _ => 0) n + below (fun _ => 0) n
    have hzero : below (fun _ => 0) n = 0 := Finset.sum_const_zero
    omega

/-- **The run rule.** -/
theorem Inv.along (hn : 0 < n) {r : Run (machine n).sys} (hclients : Clients n r) {m : ℕ}
    (hm : m ≤ r.len) : Inv n (r.state m) (r.count CallsInc m) := by
  refine r.invariant (P := fun m s => Inv n s (r.count CallsInc m)) (Inv.start n) hm
    fun i _ hi h => ?_
  exact h.step hn (Machine.next_transition (r.step i hi)) (hclients i hi)

end Steps

/-! ## §3. What a read returns. -/

section Reads

variable {n k : ℕ} {s : State}

theorem twice_le (th : Option (Request × Pc)) (x : ℕ) : twice th x ≤ x := by
  unfold twice
  split
  · exact Nat.le_refl x
  · exact Nat.zero_le x

/-- **The error of `globalCount`** is one-sided and bounded. -/
theorem Inv.error (h : Inv n s k) : s.mem.globalCount ≤ below s.mem.applied n
    ∧ below s.mem.applied n ≤ s.mem.globalCount + c * n * n := by
  have hbalance := h.balance
  have htwice : below (fun tid => twice (s.thread tid) (s.mem.localCount tid)) n
      ≤ below s.mem.localCount n := below_le_below fun tid _ => twice_le _ _
  have hlocal : below s.mem.localCount n ≤ n * (c * n) := below_le_mul fun tid _ => h.bound tid
  have hcomm : n * (c * n) = c * n * n := Nat.mul_comm _ _
  omega

/-- Without an `inc` in progress nothing is counted twice, and nothing waits. -/
theorem Inv.exact (h : Inv n s k) (hquiet : ∀ tid, ¬ InInc (s.thread tid)) :
    s.mem.globalCount + below s.mem.localCount n = k := by
  have hzero : ∀ tid, twice (s.thread tid) (s.mem.localCount tid) = 0
      ∧ pending (s.thread tid) = 0 := by
    intro tid
    cases hth : s.thread tid with
    | none => exact ⟨rfl, rfl⟩
    | some th =>
        obtain ⟨q, pc⟩ := th
        cases q with
        | inc => exact absurd ⟨pc, hth⟩ (hquiet tid)
        | read => exact ⟨rfl, rfl⟩
  have htwice : below (fun tid => twice (s.thread tid) (s.mem.localCount tid)) n = 0 :=
    Finset.sum_eq_zero fun tid _ => (hzero tid).1
  have hpending : below (fun tid => pending (s.thread tid)) n = 0 :=
    Finset.sum_eq_zero fun tid _ => (hzero tid).2
  have hbalance := h.balance
  have hcounted := h.counted
  omega

/-- A step of `inc` adds to `globalCount`, or leaves it. -/
theorem inc_global {mem mem' : Mem} {tid : ℕ} {pc pc' : Pc}
    (hstep : inc n mem tid pc = some (mem', pc')) : mem.globalCount ≤ mem'.globalCount := by
  cases pc with
  | flush current_val =>
      obtain ⟨rfl, -⟩ := Prod.mk.inj (Option.some.inj hstep)
      exact Nat.le_add_right _ _
  | loadGlobal => exact absurd hstep (by simp [inc])
  | ret result => exact absurd hstep (by simp [inc])
  | _ =>
      obtain ⟨rfl, -⟩ := Prod.mk.inj (Option.some.inj hstep)
      exact Nat.le_refl _

/-- `globalCount` never decreases. -/
theorem global_mono_step {s' : State} {a : Machine.Act Request Unit}
    (ht : (machine n).Transition s a s') : s.mem.globalCount ≤ s'.mem.globalCount := by
  cases ht with
  | invoke hidle => exact Nat.le_refl _
  | @step tid choice q pc pc' mem' hth hstep =>
      cases q with
      | inc => exact inc_global hstep
      | read =>
          cases pc with
          | loadGlobal =>
              obtain ⟨rfl, -⟩ := Prod.mk.inj (Option.some.inj hstep)
              exact Nat.le_refl _
          | _ => exact absurd hstep (by simp [machine, read])
  | ret hth hres => exact Nat.le_refl _

theorem global_mono {r : Run (machine n).sys} {i j : ℕ} (hij : i ≤ j) (hj : j ≤ r.len) :
    (r.state i).mem.globalCount ≤ (r.state j).mem.globalCount := by
  induction j, hij using Nat.le_induction with
  | base => exact Nat.le_refl _
  | succ j _ ih =>
      exact (ih (by omega)).trans (global_mono_step (Machine.next_transition (r.step j hj)))

/-- What a read returns has been in `globalCount`. -/
def Asserts (_ : Mem) (once : Machine.Witnessed Mem) (_ : ℕ) : Request → Pc → Prop
  | .read, .ret result => once fun s => s.globalCount = result
  | _, _ => True

theorem rely (n : ℕ) : Machine.Rely (machine n) (fun _ => True) Asserts where
  init := trivial
  start _ _ _ q _ := by cases q <;> exact trivial
  mono _ _ _ _ q pc _ ha hkeep := by
    cases q with
    | inc => exact trivial
    | read =>
        cases pc with
        | ret result => exact hkeep _ ha
        | _ => exact trivial
  own s once s' once' tid q pc _ pc' _ _ hstep hl := by
    refine ⟨trivial, ?_⟩
    cases q with
    | inc => exact trivial
    | read =>
        cases pc with
        | loadGlobal =>
            obtain ⟨rfl, rfl⟩ := Prod.mk.inj (Option.some.inj hstep)
            exact hl.now (fun t => t.globalCount = s.globalCount) rfl
        | _ => exact absurd hstep (by simp [machine, read])
  other _ _ _ _ _ q pc _ _ _ _ _ _ _ ha _ _ _ hl := by
    cases q with
    | inc => exact trivial
    | read =>
        cases pc with
        | ret result => exact hl.keep _ ha
        | _ => exact trivial

theorem read_instant {r : Run (machine n).sys} {tid v a b : ℕ}
    (h : Machine.Returns r tid .read v a b) :
    ∃ i, a < i ∧ i ≤ b ∧ (r.state i).mem.globalCount = v := by
  have hassert : ∀ s once pc, (machine n).result pc = some v → Asserts s once tid .read pc →
      once fun s => s.globalCount = v := by
    intro s once pc hres ha
    cases pc with
    | ret result =>
        obtain rfl := Option.some.inj hres
        exact ha
    | _ => exact absurd hres (by simp [machine])
  obtain ⟨i, hai, hib, -, hglobal⟩ := (rely n).instant h hassert
  exact ⟨i, hai, hib, hglobal⟩

end Reads

/-- **The approximate counter has a bounded one-sided error.** -/
theorem bounded_error {n : ℕ} (h1 : 1 ≤ n) (hn : n ≤ Util.MAX_THREADS) (r : Run (machine n).sys)
    (hclients : Clients n r) :
    (∀ tid v a b, Machine.Returns r tid .read v a b →
        ∃ i, a < i ∧ i ≤ b ∧ v ≤ below (r.state i).mem.applied Util.MAX_THREADS
          ∧ below (r.state i).mem.applied Util.MAX_THREADS ≤ v + 1000 * n * n)
    ∧ (∀ tid tid' v v' a a' b b', Machine.Returns r tid .read v a b →
        Machine.Returns r tid' .read v' a' b' → b ≤ a' → v ≤ v')
    ∧ ∀ m ≤ r.len, (∀ tid, ¬ InInc ((r.state m).thread tid)) →
        (r.state m).mem.globalCount + below (r.state m).mem.localCount Util.MAX_THREADS
          = r.count CallsInc m := by
  refine ⟨?_, ?_, ?_⟩
  · intro tid v a b hret
    obtain ⟨i, hai, hib, rfl⟩ := read_instant hret
    have hinv := Inv.along h1 hclients (hib.trans hret.within)
    have herror := hinv.error
    refine ⟨i, hai, hib, ?_⟩
    rw [below_of_zero (fun tid htid => (hinv.unused tid htid).2) hn]
    exact herror
  · intro tid tid' v v' a a' b b' hret hret' hle
    obtain ⟨i, -, hib, rfl⟩ := read_instant hret
    obtain ⟨i', hai', hib', rfl⟩ := read_instant hret'
    exact global_mono (by omega) (hib'.trans hret'.within)
  · intro m hm hquiet
    have hinv := Inv.along h1 hclients hm
    rw [below_of_zero (fun tid htid => (hinv.unused tid htid).1) hn]
    exact hinv.exact hquiet

/-- An increment of thread 0 that flushes nothing. -/
def incActions : List (Machine.Act Request Unit) :=
  [.invoke 0 .inc, .step 0 (), .step 0 (), .step 0 (), .ret 0]

/-- Thread 0 counts 1000 increments, and thread 1 reads between the flush and the
clear of the next one. -/
def flushingActions : List (Machine.Act Request Unit) :=
  (List.replicate 1000 incActions).flatten
    ++ [.invoke 0 .inc, .step 0 (), .step 0 (), .invoke 1 .read, .step 1 (), .step 0 (), .ret 1]

/-- The test of `Clients 1`. -/
def clientTest : Machine.Act Request Unit → Bool
  | .invoke tid .inc => decide (tid < 1)
  | _ => true

set_option maxRecDepth 100000 in
theorem flushingActions_exec :
    ((machine 1).sys.exec (machine 1).sys.init flushingActions).isSome = true := by
  decide +kernel

def flushingRun : Run (machine 1).sys :=
  Run.ofActions (machine 1).sys flushingActions (.step 0 ()) flushingActions_exec

theorem flushingRun_clients : Clients 1 flushingRun := by
  have hinc : ∀ a ∈ incActions, clientTest a = true := by decide
  have hall : ∀ a ∈ flushingActions, clientTest a = true := by
    intro a ha
    rcases List.mem_append.mp ha with hincs | hlast
    · obtain ⟨as, has, hmem⟩ := List.mem_flatten.mp hincs
      rw [List.eq_of_mem_replicate has] at hmem
      exact hinc a hmem
    · clear ha
      revert a
      decide
  intro j hj tid heq
  have hmem : flushingRun.act j ∈ flushingActions := by
    have hlen : j < flushingActions.length := hj
    show flushingActions.getD j _ ∈ flushingActions
    rw [List.getD_eq_getElem?_getD, List.getElem?_eq_getElem hlen, Option.getD_some]
    exact List.getElem_mem hlen
  have htest := hall _ hmem
  rw [heq] at htest
  exact of_decide_eq_true htest

theorem bounded_error_flushing :
    ∃ i, 5003 < i ∧ i ≤ 5005
      ∧ 1000 ≤ below (flushingRun.state i).mem.applied Util.MAX_THREADS
      ∧ below (flushingRun.state i).mem.applied Util.MAX_THREADS ≤ 1000 + 1000 * 1 * 1 := by
  have hlen : 5005 ≤ flushingRun.len := by
    show 5005 ≤ flushingActions.length
    unfold flushingActions
    rw [List.length_append, List.length_flatten, List.map_replicate, List.sum_replicate]
    decide
  have hcall : ∀ j < 5005, 5003 < j → ¬ Machine.Act.Calls 1 (flushingRun.act j) := by
    intro j h₁ h₂
    obtain rfl : j = 5004 := by omega
    decide +kernel
  have hret : Machine.Returns flushingRun 1 .read 1000 5003 5005 :=
    { before := by decide
      within := hlen
      called := by decide +kernel
      same_call := fun j h₁ h₂ => hcall j h₂ h₁
      returns := ⟨.ret 1000, by decide +kernel, rfl⟩ }
  exact (bounded_error (Nat.le_refl 1) (by decide) flushingRun flushingRun_clients).1 1 1000 5003
    5005 hret

end MultiCore.Counters.Approximate
