/-
  MultiCore.Util.AccurateRead — `inc` and `getAccurate` of `counter`, interleaved.

  `inc` publishes its subcounter before it resets it, and `getAccurate` adds up
  the subcounters before it loads `globalCounter`.  A count that is published
  after its subcounter has been read, or that is read between the two accesses
  of `inc`, is seen twice; a count is never missed.

  Ghosts, which no step reads: the increments of each subcounter (`bumps`), what
  has been published of it (`published`), and what each thread has read of it in
  its last `getAccurate` (`seen`).  The 64-bit counters are taken not to overflow.
-/
import MultiCore.Lib.Calls
import MultiCore.Lib.Shards
import MultiCore.Util.Counter

namespace MultiCore.Util.AccurateRead

open MultiCore.Lib

/-! ## §1. Steps. -/

inductive Request where
  | inc
  | getAccurate
  deriving Repr, DecidableEq

structure Mem where
  counter : Counter
  bumps : ℕ → ℕ
  published : ℕ → ℕ
  seen : ℕ → ℕ → ℕ

inductive Pc where
  /-- `val = ++subcounters[tid].v`, and the test of it. -/
  | bump
  /-- `globalCounter.fetch_add(val)` -/
  | publish (val : ℕ)
  /-- `subcounters[tid].v = 0` -/
  | reset
  /-- At the test of the loop, and then about to load `subcounters[i].v`; after
  the loop about to load `globalCounter`. -/
  | sum (i : ℕ) (ret : Int)
  | ret (result : Int)
  deriving Repr, DecidableEq

/-- `inc(tid)`. -/
def inc (s : Mem) (tid : ℕ) : Pc → Option (Mem × Pc)
  | .bump =>
      let counter := s.counter.bump tid
      let val := counter.subcounters tid
      some ({ s with counter := counter
                     bumps := Function.update s.bumps tid (s.bumps tid + 1) },
        if val ≥ counter.threshold then .publish val else .ret (-1))
  | .publish val =>
      some ({ s with counter := s.counter.publish val
                     published := Function.update s.published tid (s.published tid + val) }, .reset)
  | .reset => some ({ s with counter := s.counter.reset tid }, .ret (-1))
  | _ => none

/-- `getAccurate()`. -/
def getAccurate (s : Mem) (tid : ℕ) : Pc → Option (Mem × Pc)
  | .sum i ret =>
      if i < MAX_THREADS then
        let v := s.counter.subcounters i
        some ({ s with seen := Function.update s.seen tid (Function.update (s.seen tid) i v) },
          .sum (i + 1) (ret + v))
      else some (s, .ret (ret + s.counter.globalCounter))
  | _ => none

/-- A counter made for `numThreads` threads; thread `tid` calls `inc(tid)`. -/
def machine (numThreads : ℕ) : Machine Mem Request Pc Int Unit where
  init := ⟨Counter.new numThreads, fun _ => 0, fun _ => 0, fun _ _ => 0⟩
  start := fun q =>
    match q with
    | .inc => .bump
    | .getAccurate => .sum 0 0
  step := fun s tid q pc _ =>
    match q with
    | .inc => inc s tid pc
    | .getAccurate => getAccurate s tid pc
  result := fun pc =>
    match pc with
    | .ret result => some result
    | _ => none

abbrev State := Machine.State Mem Request Pc

abbrev Action := Machine.Act Request Unit

/-- The action is a call of `inc`. -/
def CallsInc (_ : State) : Action → Bool
  | .invoke _ .inc => true
  | _ => false

/-- The action is the return of a call of `inc`. -/
def ReturnsInc (s : State) : Action → Bool
  | .ret tid =>
      match s.thread tid with
      | some (.inc, _) => true
      | _ => false
  | _ => false

variable {n : ℕ}

/-- Only threads below `MAX_THREADS` call `inc`. -/
def Clients (r : Run (machine n).sys) : Prop :=
  ∀ j < r.len, ∀ tid, r.act j = .invoke tid .inc → tid < MAX_THREADS

/-- The thread executes `inc`. -/
def InInc (th : Option (Request × Pc)) : Prop := ∃ pc, th = some (.inc, pc)

/-- No count is seen twice: a thread does not publish a subcounter of which a
running `getAccurate` has read something, and no `getAccurate` reads a
subcounter between its publication and its reset. -/
def SeenOnce (s : State) : Action → Prop
  | .step tid _ =>
      match s.thread tid with
      | some (.inc, .publish _) =>
          ∀ v i ret, s.thread v = some (.getAccurate, .sum i ret) → tid < i → s.mem.seen v tid = 0
      | some (.getAccurate, .sum i _) => i < MAX_THREADS → s.thread i ≠ some (.inc, .reset)
      | _ => True
  | _ => True

/-! ## §2. The invariant. -/

/-- The part of a subcounter that is published as well. -/
def twice : Option (Request × Pc) → ℕ → ℕ
  | some (.inc, .reset), x => x
  | _, _ => 0

/-- The call of the thread has not incremented its subcounter. -/
def pending : Option (Request × Pc) → ℕ
  | some (.inc, .bump) => 1
  | _ => 0

/-- The call of the thread has incremented its subcounter. -/
def counted : Option (Request × Pc) → ℕ
  | some (.inc, .publish _) | some (.inc, .reset) | some (.inc, .ret _) => 1
  | _ => 0

/-- What a thread in `inc` knows of its subcounter. -/
def AtPc (x : ℕ) : Pc → Prop
  | .publish val => x = val
  | .sum _ _ => False
  | _ => True

/-- After `calls` calls and `returns` returns of `inc`. -/
structure Inv (s : State) (calls returns : ℕ) : Prop where
  clients : ∀ tid, InInc (s.thread tid) → tid < MAX_THREADS
  thread : ∀ tid pc, s.thread tid = some (.inc, pc) → AtPc (s.mem.counter.subcounters tid) pc
  /-- Every increment is in the subcounter or published. -/
  balance : ∀ tid, s.mem.bumps tid + twice (s.thread tid) (s.mem.counter.subcounters tid)
    = s.mem.counter.subcounters tid + s.mem.published tid
  global : s.mem.counter.globalCounter = below s.mem.published MAX_THREADS
  calls : calls = below s.mem.bumps MAX_THREADS + below (fun tid => pending (s.thread tid)) MAX_THREADS
  returns : returns + below (fun tid => counted (s.thread tid)) MAX_THREADS
    = below s.mem.bumps MAX_THREADS

section Steps

variable {v k k' c c' : ℕ} {s : State} {th : Option (Request × Pc)} {mem : Mem}

/-- The state after thread `v` has come to `th`. -/
def after (s : State) (v : ℕ) (th : Option (Request × Pc)) (mem : Mem) : State :=
  { s.goto v th with mem := mem }

theorem after_thread (tid : ℕ) :
    (after s v th mem).thread tid = if tid = v then th else s.thread tid := by
  show Function.update s.thread v th tid = _
  rw [Function.update_apply]

/-- A sum over the threads, of which one has moved. -/
theorem below_after (f : Option (Request × Pc) → ℕ) (hv : v < MAX_THREADS) :
    below (fun tid => f ((after s v th mem).thread tid)) MAX_THREADS + f (s.thread v)
      = below (fun tid => f (s.thread tid)) MAX_THREADS + f th := by
  have hmove := below_move (f := fun tid => f (s.thread tid))
    (g := fun tid => f ((after s v th mem).thread tid)) (fun w hw => by rw [after_thread, if_neg hw]) hv
  simp only [after_thread, if_pos] at hmove ⊢
  exact hmove

theorem below_after_of_ge (f : Option (Request × Pc) → ℕ) (hv : ¬ v < MAX_THREADS) :
    below (fun tid => f ((after s v th mem).thread tid)) MAX_THREADS
      = below (fun tid => f (s.thread tid)) MAX_THREADS := by
  refine below_congr fun w hw => ?_
  rw [after_thread, if_neg (by omega)]

/-- **The step rule**: what a step of thread `v` has to account for. -/
theorem Inv.move (h : Inv s k c) (hth : InInc th → v < MAX_THREADS)
    (hsub : ∀ w, w ≠ v → mem.counter.subcounters w = s.mem.counter.subcounters w)
    (hbumps : ∀ w, w ≠ v → mem.bumps w = s.mem.bumps w)
    (hpublished : ∀ w, w ≠ v → mem.published w = s.mem.published w)
    (hpc : ∀ pc, th = some (.inc, pc) → AtPc (mem.counter.subcounters v) pc)
    (hbalance : mem.bumps v + twice th (mem.counter.subcounters v)
      = mem.counter.subcounters v + mem.published v)
    (hglobal : mem.counter.globalCounter + s.mem.published v
      = s.mem.counter.globalCounter + mem.published v)
    (hcalls : k' + s.mem.bumps v + pending (s.thread v) = k + mem.bumps v + pending th)
    (hreturns : c' + counted th + s.mem.bumps v = c + counted (s.thread v) + mem.bumps v)
    (hread : ¬ v < MAX_THREADS →
      mem.counter.globalCounter = s.mem.counter.globalCounter ∧ k' = k ∧ c' = c) :
    Inv (after s v th mem) k' c' where
  clients tid hin := by
    rw [after_thread] at hin
    split at hin
    · rename_i heq
      rw [heq]
      exact hth hin
    · exact h.clients tid hin
  thread tid pc heq := by
    rw [after_thread] at heq
    show AtPc (mem.counter.subcounters tid) pc
    split at heq
    · rename_i hv
      rw [hv]
      exact hpc pc heq
    · rename_i hv
      rw [hsub tid hv]
      exact h.thread tid pc heq
  balance tid := by
    show mem.bumps tid + twice _ (mem.counter.subcounters tid)
      = mem.counter.subcounters tid + mem.published tid
    rw [after_thread]
    split
    · rename_i heq
      rw [heq]
      exact hbalance
    · rename_i hne
      rw [hbumps tid hne, hsub tid hne, hpublished tid hne]
      exact h.balance tid
  global := by
    have hold := h.global
    show mem.counter.globalCounter = below mem.published MAX_THREADS
    by_cases hv : v < MAX_THREADS
    · have hsum := below_move hpublished hv
      omega
    · rw [(hread hv).1, below_congr (g := s.mem.published) fun w hw => hpublished w (by omega)]
      exact hold
  calls := by
    have hold := h.calls
    show k' = below mem.bumps MAX_THREADS + _
    by_cases hv : v < MAX_THREADS
    · have hsum := below_move hbumps hv
      have hpend : below (fun tid => pending ((after s v th mem).thread tid)) MAX_THREADS
          + pending (s.thread v) = below (fun tid => pending (s.thread tid)) MAX_THREADS + pending th :=
        below_after pending hv
      omega
    · rw [(hread hv).2.1, below_after_of_ge pending hv,
        below_congr (g := s.mem.bumps) fun w hw => hbumps w (by omega)]
      exact hold
  returns := by
    have hold := h.returns
    show c' + _ = below mem.bumps MAX_THREADS
    by_cases hv : v < MAX_THREADS
    · have hsum := below_move hbumps hv
      have hcount : below (fun tid => counted ((after s v th mem).thread tid)) MAX_THREADS
          + counted (s.thread v) = below (fun tid => counted (s.thread tid)) MAX_THREADS + counted th :=
        below_after counted hv
      omega
    · rw [(hread hv).2.2, below_after_of_ge counted hv,
        below_congr (g := s.mem.bumps) fun w hw => hbumps w (by omega)]
      exact hold

/-- The subcounter is incremented. -/
theorem Inv.bump (h : Inv s k c) (hth : s.thread v = some (.inc, .bump)) {pc' : Pc}
    (hpc : AtPc (s.mem.counter.subcounters v + 1) pc') (htwice : ∀ x, twice (some (.inc, pc')) x = 0)
    (hpending : pending (some (.inc, pc')) = 0) (hcounted : counted (some (.inc, pc')) = 1) :
    Inv (after s v (some (.inc, pc')) ⟨s.mem.counter.bump v,
      Function.update s.mem.bumps v (s.mem.bumps v + 1), s.mem.published, s.mem.seen⟩) k c := by
  have hv : v < MAX_THREADS := h.clients v ⟨_, hth⟩
  have hbal : s.mem.bumps v + twice (s.thread v) _ = _ := h.balance v
  have hsub : (s.mem.counter.bump v).subcounters v = s.mem.counter.subcounters v + 1 :=
    Function.update_self ..
  have hbump : Function.update s.mem.bumps v (s.mem.bumps v + 1) v = s.mem.bumps v + 1 :=
    Function.update_self ..
  rw [hth] at hbal
  refine h.move (fun _ => hv) (fun w hw => Function.update_of_ne hw ..)
    (fun w hw => Function.update_of_ne hw ..) (fun _ _ => rfl) ?_ ?_ rfl ?_ ?_ fun hno => absurd hv hno
  · intro pc heq
    obtain ⟨-, rfl⟩ := Prod.mk.inj (Option.some.inj heq)
    rw [hsub]
    exact hpc
  · show Function.update s.mem.bumps v (s.mem.bumps v + 1) v + twice (some (.inc, pc')) _
      = (s.mem.counter.bump v).subcounters v + s.mem.published v
    rw [htwice]
    simp only [twice] at hbal
    omega
  · rw [hth, hpending]
    show k + s.mem.bumps v + 1 = k + Function.update s.mem.bumps v (s.mem.bumps v + 1) v + 0
    omega
  · rw [hth, hcounted]
    show c + 1 + s.mem.bumps v = c + 0 + Function.update s.mem.bumps v (s.mem.bumps v + 1) v
    omega

/-- A step of `inc`. -/
theorem Inv.inc_step (h : Inv s k c) {pc pc' : Pc} (hth : s.thread v = some (.inc, pc))
    (hstep : inc s.mem v pc = some (mem, pc')) : Inv (after s v (some (.inc, pc')) mem) k c := by
  have hv : v < MAX_THREADS := h.clients v ⟨pc, hth⟩
  have hpc := h.thread v pc hth
  have hbal := h.balance v
  rw [hth] at hbal
  cases pc with
  | bump =>
      have hsub : (s.mem.counter.bump v).subcounters v = s.mem.counter.subcounters v + 1 :=
        Function.update_self ..
      obtain ⟨rfl, rfl⟩ := Prod.mk.inj (Option.some.inj hstep)
      split
      · exact h.bump hth hsub.symm (fun _ => rfl) rfl rfl
      · exact h.bump hth trivial (fun _ => rfl) rfl rfl
  | publish val =>
      obtain ⟨rfl, rfl⟩ := Prod.mk.inj (Option.some.inj hstep)
      have heq : s.mem.counter.subcounters v = val := hpc
      have hpub : Function.update s.mem.published v (s.mem.published v + val) v
          = s.mem.published v + val := Function.update_self ..
      have hbal' : s.mem.bumps v + 0 = s.mem.counter.subcounters v + s.mem.published v := hbal
      refine h.move (fun _ => hv) (fun _ _ => rfl) (fun _ _ => rfl)
        (fun w hw => Function.update_of_ne hw ..) ?_ ?_ ?_ ?_ ?_ fun hno => absurd hv hno
      · intro pc' heq
        obtain ⟨-, rfl⟩ := Prod.mk.inj (Option.some.inj heq)
        exact trivial
      · show s.mem.bumps v + s.mem.counter.subcounters v
          = s.mem.counter.subcounters v + Function.update s.mem.published v _ v
        omega
      · show s.mem.counter.globalCounter + (val : Int) + s.mem.published v
          = s.mem.counter.globalCounter
            + (Function.update s.mem.published v (s.mem.published v + val) v : ℕ)
        omega
      · rw [hth]
        rfl
      · rw [hth]
        rfl
  | reset =>
      obtain ⟨rfl, rfl⟩ := Prod.mk.inj (Option.some.inj hstep)
      have hsub : (s.mem.counter.reset v).subcounters v = 0 := Function.update_self ..
      have hbal' : s.mem.bumps v + s.mem.counter.subcounters v
        = s.mem.counter.subcounters v + s.mem.published v := hbal
      refine h.move (fun _ => hv) (fun w hw => Function.update_of_ne hw ..) (fun _ _ => rfl)
        (fun _ _ => rfl) ?_ ?_ rfl ?_ ?_ fun hno => absurd hv hno
      · intro pc' heq
        obtain ⟨-, rfl⟩ := Prod.mk.inj (Option.some.inj heq)
        exact trivial
      · show s.mem.bumps v + 0 = (s.mem.counter.reset v).subcounters v + s.mem.published v
        omega
      · rw [hth]
        rfl
      · rw [hth]
        rfl
  | sum i ret => exact absurd hpc (by simp [AtPc])
  | ret result => exact absurd hstep (by simp [inc])

/-- A step that leaves the counts alone. -/
theorem Inv.stay (h : Inv s k c) (hth : ¬ InInc th) (hold : ∀ x, twice (s.thread v) x = 0)
    (hcounter : mem.counter = s.mem.counter) (hbumps : mem.bumps = s.mem.bumps)
    (hpublished : mem.published = s.mem.published) (hpending : pending (s.thread v) = 0)
    (hcounted : c' = c + counted (s.thread v)) (hin : ¬ v < MAX_THREADS → counted (s.thread v) = 0) :
    Inv (after s v th mem) k c' := by
  have hnone : (∀ x, twice th x = 0) ∧ pending th = 0 ∧ counted th = 0 := by
    cases th with
    | none => exact ⟨fun _ => rfl, rfl, rfl⟩
    | some th =>
        obtain ⟨q, pc⟩ := th
        cases q with
        | inc => exact absurd ⟨pc, rfl⟩ hth
        | getAccurate => exact ⟨fun _ => rfl, rfl, rfl⟩
  have hbal := h.balance v
  rw [hold] at hbal
  refine h.move (fun hin => absurd hin hth) ?_ ?_ ?_ (fun pc heq => absurd ⟨pc, heq⟩ hth) ?_ ?_ ?_ ?_ ?_
  · intro w _
    rw [hcounter]
  · intro w _
    rw [hbumps]
  · intro w _
    rw [hpublished]
  · rw [hcounter, hbumps, hpublished, hnone.1]
    exact hbal
  · rw [hcounter, hpublished]
  · rw [hbumps, hpending, hnone.2.1]
  · rw [hbumps, hnone.2.2]
    omega
  · intro hv
    have hzero := hin hv
    exact ⟨by rw [hcounter], rfl, by omega⟩

theorem Inv.step (h : Inv s k c) {s' : State} {a : Action} (ht : (machine n).Transition s a s')
    (hclient : ∀ tid, a = .invoke tid .inc → tid < MAX_THREADS) :
    Inv s' (k + if CallsInc s a then 1 else 0) (c + if ReturnsInc s a then 1 else 0) := by
  cases ht with
  | @invoke tid q hidle =>
      cases q with
      | inc =>
          have hbal := h.balance tid
          rw [hidle] at hbal
          show Inv (after s tid _ s.mem) _ _
          refine Inv.move h (fun _ => hclient tid rfl) (fun _ _ => rfl) (fun _ _ => rfl)
            (fun _ _ => rfl) ?_ hbal rfl ?_ ?_ fun hno => absurd (hclient tid rfl) hno
          · intro pc heq
            obtain ⟨-, rfl⟩ := Prod.mk.inj (Option.some.inj heq)
            exact trivial
          · rw [hidle]
            show k + 1 + s.mem.bumps tid + 0 = k + s.mem.bumps tid + 1
            omega
          · rw [hidle]
            rfl
      | getAccurate =>
          show Inv (after s tid _ s.mem) _ _
          refine Inv.stay h (fun ⟨pc, heq⟩ => absurd heq (by simp)) ?_ rfl rfl rfl ?_ ?_ ?_
          · intro x
            rw [hidle]
            rfl
          · rw [hidle]
            rfl
          · rw [hidle]
            rfl
          · intro _
            rw [hidle]
            rfl
  | @step tid choice q pc pc' mem' hth hstep =>
      cases q with
      | inc => exact h.inc_step hth hstep
      | getAccurate =>
          have hmem : mem'.counter = s.mem.counter ∧ mem'.bumps = s.mem.bumps
              ∧ mem'.published = s.mem.published := by
            cases pc with
            | sum i ret =>
                simp only [machine, getAccurate] at hstep
                split at hstep
                all_goals
                  obtain ⟨rfl, -⟩ := Prod.mk.inj (Option.some.inj hstep)
                  exact ⟨rfl, rfl, rfl⟩
            | _ => exact absurd hstep (by simp [machine, getAccurate])
          refine h.stay (fun ⟨pc, heq⟩ => absurd heq (by simp)) ?_ hmem.1 hmem.2.1 hmem.2.2 ?_ ?_ ?_
          · intro x
            rw [hth]
            rfl
          · rw [hth]
            rfl
          · rw [hth]
            rfl
          · intro _
            rw [hth]
            rfl
  | @ret tid q pc val hth hres =>
      have hpc : pc = .ret val := by
        cases pc with
        | ret result => exact congrArg Pc.ret (Option.some.inj hres)
        | _ => exact absurd hres (by simp [machine])
      subst hpc
      show Inv (after s tid _ s.mem) _ _
      refine Inv.stay h (fun ⟨pc, heq⟩ => absurd heq (by simp)) ?_ rfl rfl rfl ?_ ?_ ?_
      · intro x
        rw [hth]
        cases q <;> rfl
      · rw [hth]
        cases q <;> rfl
      · cases q <;> simp [ReturnsInc, hth, counted]
      · intro hno
        cases q with
        | inc => exact absurd (h.clients tid ⟨_, hth⟩) hno
        | getAccurate =>
            rw [hth]
            rfl

theorem Inv.start (n : ℕ) : Inv (machine n).sys.init 0 0 where
  clients _ h := by
    obtain ⟨pc, h⟩ := h
    exact absurd h (by simp [Machine.sys])
  thread _ _ h := absurd h (by simp [Machine.sys])
  balance _ := rfl
  global := by
    have hzero : below (fun _ => 0) MAX_THREADS = 0 := Finset.sum_const_zero
    show (0 : Int) = (below (fun _ => 0) MAX_THREADS : ℕ)
    rw [hzero]
    rfl
  calls := by
    have hzero : below (fun _ => 0) MAX_THREADS = 0 := Finset.sum_const_zero
    show 0 = below (fun _ => 0) MAX_THREADS + below (fun _ => 0) MAX_THREADS
    omega
  returns := by
    show 0 + below (fun _ => 0) MAX_THREADS = below (fun _ => 0) MAX_THREADS
    exact Nat.zero_add _

/-- **The run rule.** -/
theorem Inv.along {r : Run (machine n).sys} (hclients : Clients r) {m : ℕ} (hm : m ≤ r.len) :
    Inv (r.state m) (r.count CallsInc m) (r.count ReturnsInc m) := by
  refine r.invariant (P := fun m s => Inv s (r.count CallsInc m) (r.count ReturnsInc m))
    (Inv.start n) hm fun i _ hi h => ?_
  exact h.step (Machine.next_transition (r.step i hi)) (hclients i hi)

/-- No more increments than calls, no fewer than returns. -/
theorem Inv.between (h : Inv s k c) :
    c ≤ below s.mem.bumps MAX_THREADS ∧ below s.mem.bumps MAX_THREADS ≤ k := by
  have hcalls := h.calls
  have hreturns := h.returns
  omega

end Steps

/-! ## §3. What `getAccurate` adds up. -/

section Reads

variable {v k c i : ℕ} {s : State} {mem mem' : Mem} {ret : Int}

/-- `getAccurate` has read the subcounters before `i`. -/
structure Read (s : Mem) (v i : ℕ) (ret : Int) : Prop where
  le : i ≤ MAX_THREADS
  sum : ret = below (s.seen v) i

/-- The next subcounter. -/
theorem Read.next (h : Read mem v i ret) (hi : i < MAX_THREADS) {x : ℕ}
    (hseen : mem'.seen v = Function.update (mem.seen v) i x) : Read mem' v (i + 1) (ret + x) where
  le := hi
  sum := by
    have hsum := h.sum
    have hself : Function.update (mem.seen v) i x i = x := Function.update_self ..
    rw [hseen, below_succ, hself,
      below_congr (g := mem.seen v) fun j hj => Function.update_of_ne (by omega) ..]
    omega

/-- The end of the loop. -/
theorem Read.total (h : Read s.mem v i ret) (hinv : Inv s k c) (hge : ¬ i < MAX_THREADS) :
    ret + s.mem.counter.globalCounter
      = below (fun j => s.mem.seen v j + s.mem.published j) MAX_THREADS := by
  have hi : i = MAX_THREADS := by
    have hle := h.le
    omega
  have hsum := h.sum
  have hglobal := hinv.global
  rw [below_add]
  rw [hi] at hsum
  omega

theorem seen_next (seen : ℕ → ℕ → ℕ) (x l : ℕ) :
    Function.update seen v (Function.update (seen v) i x) v l = if l = i then x else seen v l := by
  rw [Function.update_self, Function.update_apply]

/-- A step of `inc` reads nothing, and its counts grow. -/
theorem inc_grows {w : ℕ} {pc pc' : Pc} (hstep : inc mem w pc = some (mem', pc')) :
    mem'.seen = mem.seen ∧ ∀ j, mem.bumps j ≤ mem'.bumps j ∧ mem.published j ≤ mem'.published j := by
  cases pc with
  | bump =>
      obtain ⟨rfl, -⟩ := Prod.mk.inj (Option.some.inj hstep)
      refine ⟨rfl, fun j => ⟨?_, Nat.le_refl _⟩⟩
      show mem.bumps j ≤ Function.update mem.bumps w (mem.bumps w + 1) j
      rw [Function.update_apply]
      split
      · rename_i heq
        rw [heq]
        omega
      · exact Nat.le_refl _
  | publish val =>
      obtain ⟨rfl, -⟩ := Prod.mk.inj (Option.some.inj hstep)
      refine ⟨rfl, fun j => ⟨Nat.le_refl _, ?_⟩⟩
      show mem.published j ≤ Function.update mem.published w (mem.published w + val) j
      rw [Function.update_apply]
      split
      · rename_i heq
        rw [heq]
        omega
      · exact Nat.le_refl _
  | reset =>
      obtain ⟨rfl, -⟩ := Prod.mk.inj (Option.some.inj hstep)
      exact ⟨rfl, fun j => ⟨Nat.le_refl _, Nat.le_refl _⟩⟩
  | sum i ret => exact absurd hstep (by simp [inc])
  | ret result => exact absurd hstep (by simp [inc])

/-- A step of `getAccurate` reads the next subcounter, or adds the global counter. -/
theorem getAccurate_cases {pc pc' : Pc} (hstep : getAccurate mem v pc = some (mem', pc')) :
    ∃ i ret, pc = .sum i ret ∧
      (i < MAX_THREADS ∧ pc' = .sum (i + 1) (ret + mem.counter.subcounters i)
          ∧ mem' = { mem with
            seen := Function.update mem.seen v
              (Function.update (mem.seen v) i (mem.counter.subcounters i)) }
        ∨ ¬ i < MAX_THREADS ∧ pc' = .ret (ret + mem.counter.globalCounter) ∧ mem' = mem) := by
  cases pc with
  | sum i ret =>
      refine ⟨i, ret, rfl, ?_⟩
      unfold getAccurate at hstep
      dsimp only at hstep
      split at hstep
      · rename_i hi
        obtain ⟨rfl, rfl⟩ := Prod.mk.inj (Option.some.inj hstep)
        exact Or.inl ⟨hi, rfl, rfl⟩
      · rename_i hge
        obtain ⟨rfl, rfl⟩ := Prod.mk.inj (Option.some.inj hstep)
        exact Or.inr ⟨hge, rfl, rfl⟩
  | _ => exact absurd hstep (by simp [getAccurate])

/-- A step of `getAccurate` changes what its own thread has seen, and nothing else. -/
theorem getAccurate_keeps {w : ℕ} {pc pc' : Pc} (hstep : getAccurate mem w pc = some (mem', pc')) :
    (∀ v, v ≠ w → mem'.seen v = mem.seen v) ∧ mem'.bumps = mem.bumps
      ∧ mem'.published = mem.published := by
  obtain ⟨i, ret, rfl, ⟨-, -, rfl⟩ | ⟨-, -, rfl⟩⟩ := getAccurate_cases hstep
  · exact ⟨fun v hv => Function.update_of_ne hv .., rfl, rfl⟩
  · exact ⟨fun _ _ => rfl, rfl, rfl⟩

theorem other_grows {w : ℕ} {q : Request} {pc pc' : Pc} {choice : Unit} (hw : w ≠ v)
    (hstep : (machine n).step mem w q pc choice = some (mem', pc')) :
    mem'.seen v = mem.seen v
      ∧ ∀ j, mem.bumps j ≤ mem'.bumps j ∧ mem.published j ≤ mem'.published j := by
  cases q with
  | inc =>
      obtain ⟨hseen, hgrows⟩ := inc_grows hstep
      exact ⟨congrFun hseen v, hgrows⟩
  | getAccurate =>
      obtain ⟨hseen, hbumps, hpublished⟩ := getAccurate_keeps hstep
      refine ⟨hseen v hw.symm, fun j => ?_⟩
      rw [hbumps, hpublished]
      exact ⟨Nat.le_refl _, Nat.le_refl _⟩

/-- Only its own thread publishes a subcounter. -/
theorem publishes {w l : ℕ} {q : Request} {pc pc' : Pc} {choice : Unit}
    (hstep : (machine n).step mem w q pc choice = some (mem', pc'))
    (hpub : mem'.published l ≠ mem.published l) :
    w = l ∧ q = .inc ∧ ∃ val, pc = .publish val ∧ pc' = .reset := by
  cases q with
  | inc =>
      cases pc with
      | publish val =>
          obtain ⟨rfl, rfl⟩ := Prod.mk.inj (Option.some.inj hstep)
          refine ⟨?_, rfl, val, rfl, rfl⟩
          by_contra hne
          exact hpub (Function.update_of_ne (Ne.symm hne) ..)
      | sum i ret => exact absurd hstep (by simp [machine, inc])
      | ret result => exact absurd hstep (by simp [machine, inc])
      | _ =>
          obtain ⟨rfl, -⟩ := Prod.mk.inj (Option.some.inj hstep)
          exact absurd rfl hpub
  | getAccurate => exact absurd (congrFun (getAccurate_keeps hstep).2.2 l) hpub

/-- Nothing of `base` has been missed. -/
def AtLeast (base : ℕ → ℕ) (v : ℕ) (s : Mem) (pc : Pc) : Prop :=
  (∀ j, base j ≤ s.bumps j) ∧
    match pc with
    | .sum i ret => Read s v i ret ∧ ∀ j < i, base j ≤ s.seen v j + s.published j
    | .ret result => (below base MAX_THREADS : Int) ≤ result
    | _ => True

/-- Nothing has been seen twice. -/
def AtMost (v : ℕ) (s : Mem) : Pc → Prop
  | .sum i ret => Read s v i ret ∧ ∀ j < i, s.seen v j + s.published j ≤ s.bumps j
  | .ret result => result ≤ below s.bumps MAX_THREADS
  | _ => True

theorem ret_of_result {pc : Pc} {x : Int} (h : (machine n).result pc = some x) : pc = .ret x := by
  cases pc with
  | ret result => exact congrArg Pc.ret (Option.some.inj h)
  | _ => exact absurd h (by simp [machine])

/-- Every increment is in the subcounter that is read, or published. -/
theorem AtLeast.own (hinv : Inv s k c) {base : ℕ → ℕ} {pc pc' : Pc} (h : AtLeast base v s.mem pc)
    (hstep : getAccurate s.mem v pc = some (mem', pc')) : AtLeast base v mem' pc' := by
  obtain ⟨hbase, hpc⟩ := h
  obtain ⟨i, ret, rfl, ⟨hi, rfl, rfl⟩ | ⟨hge, rfl, rfl⟩⟩ := getAccurate_cases hstep
  · refine ⟨hbase, hpc.1.next hi (Function.update_self ..), ?_⟩
    intro l hl
    show _ ≤ Function.update s.mem.seen v _ v l + s.mem.published l
    rw [seen_next]
    split
    · rename_i heq
      rw [heq]
      have hbal := hinv.balance i
      have hle := hbase i
      omega
    · exact hpc.2 l (by omega)
  · refine ⟨hbase, ?_⟩
    show (below base MAX_THREADS : Int) ≤ _
    rw [hpc.1.total hinv hge]
    have hle := hpc.1.le
    exact Int.ofNat_le.mpr (below_le_below fun l hl => hpc.2 l (by omega))

theorem AtLeast.other {base : ℕ → ℕ} {pc pcw pcw' : Pc} {w : ℕ} {q : Request} {choice : Unit}
    (h : AtLeast base v mem pc) (hw : w ≠ v)
    (hstep : (machine n).step mem w q pcw choice = some (mem', pcw')) : AtLeast base v mem' pc := by
  obtain ⟨hbase, hpc⟩ := h
  obtain ⟨hseen, hgrows⟩ := other_grows hw hstep
  refine ⟨fun l => (hbase l).trans (hgrows l).1, ?_⟩
  cases pc with
  | sum i ret =>
      refine ⟨⟨hpc.1.le, ?_⟩, fun l hl => ?_⟩
      · rw [hseen]
        exact hpc.1.sum
      · have hle := hpc.2 l hl
        have hgrow := (hgrows l).2
        rw [hseen]
        omega
  | ret result => exact hpc
  | _ => exact trivial

/-- **A count that was complete at the call is not missed**, in any run. -/
theorem returns_atLeast {r : Run (machine n).sys} (hclients : Clients r) {x : Int} {a b : ℕ}
    (h : Machine.Returns r v .getAccurate x a b) :
    (below (r.state a).mem.bumps MAX_THREADS : Int) ≤ x := by
  have hrun : ∃ pc, (machine n).result pc = some x
      ∧ AtLeast (r.state a).mem.bumps v (r.state b).mem pc := by
    refine h.induct_at (AtLeast (r.state a).mem.bumps v) ?_ ?_ ?_
    · exact ⟨fun _ => Nat.le_refl _, ⟨Nat.zero_le _, rfl⟩, fun j hj => absurd hj (Nat.not_lt_zero j)⟩
    · intro j pc choice mem' pc' _ hjb _ _ hQ hstep
      exact hQ.own (Inv.along hclients (Nat.le_of_lt (hjb.trans_le h.within))) hstep
    · intro j pc w qw pcw choice mem' pcw' _ _ _ hw _ _ hQ hstep
      exact hQ.other hw hstep
  obtain ⟨pc, hres, -, hpc⟩ := hrun
  obtain rfl := ret_of_result hres
  exact hpc

/-- Thread `i` is not between its publication and its reset when its subcounter
is read. -/
theorem AtMost.own (hinv : Inv s k c) {pc pc' : Pc} {choice : Unit} (h : AtMost v s.mem pc)
    (hth : s.thread v = some (.getAccurate, pc)) (honce : SeenOnce s (.step v choice))
    (hstep : getAccurate s.mem v pc = some (mem', pc')) : AtMost v mem' pc' := by
  obtain ⟨i, ret, rfl, ⟨hi, rfl, rfl⟩ | ⟨hge, rfl, rfl⟩⟩ := getAccurate_cases hstep
  · simp only [SeenOnce, hth] at honce
    refine ⟨h.1.next hi (Function.update_self ..), ?_⟩
    intro l hl
    show Function.update s.mem.seen v _ v l + s.mem.published l ≤ s.mem.bumps l
    rw [seen_next]
    split
    · rename_i heq
      rw [heq]
      have hbal := hinv.balance i
      have htwice : twice (s.thread i) (s.mem.counter.subcounters i) = 0 := by
        unfold twice
        split
        · rename_i hreset
          exact absurd hreset (honce hi)
        · rfl
      omega
    · exact h.2 l (by omega)
  · show _ ≤ (below s.mem.bumps MAX_THREADS : Int)
    rw [h.1.total hinv hge]
    have hle := h.1.le
    exact Int.ofNat_le.mpr (below_le_below fun l hl => h.2 l (by omega))

/-- A thread publishes a subcounter of which nothing has been read. -/
theorem AtMost.other (hinv : Inv s k c) {pc pcw pcw' : Pc} {w : ℕ} {q : Request} {choice : Unit}
    (h : AtMost v s.mem pc) (hth : s.thread v = some (.getAccurate, pc)) (hw : w ≠ v)
    (hthw : s.thread w = some (q, pcw)) (honce : SeenOnce s (.step w choice))
    (hstep : (machine n).step s.mem w q pcw choice = some (mem', pcw')) : AtMost v mem' pc := by
  obtain ⟨hseen, hgrows⟩ := other_grows hw hstep
  cases pc with
  | sum i ret =>
      refine ⟨⟨h.1.le, ?_⟩, fun l hl => ?_⟩
      · rw [hseen]
        exact h.1.sum
      · have hle := h.2 l hl
        have hgrow := (hgrows l).1
        rw [hseen]
        by_cases hpub : mem'.published l = s.mem.published l
        · omega
        · obtain ⟨rfl, rfl, val, rfl, rfl⟩ := publishes hstep hpub
          have hinv' := hinv.inc_step hthw hstep
          have hzero : s.mem.seen v w = 0 := by
            simp only [SeenOnce, hthw] at honce
            exact honce v i ret hth hl
          have hbal := hinv'.balance w
          rw [after_thread, if_pos rfl] at hbal
          change mem'.bumps w + mem'.counter.subcounters w
            = mem'.counter.subcounters w + mem'.published w at hbal
          omega
  | ret result => exact h.trans (Int.ofNat_le.mpr (below_le_below fun l _ => (hgrows l).1))
  | _ => exact trivial

/-- **No count is seen twice**, in a run whose steps meet `SeenOnce`. -/
theorem returns_atMost {r : Run (machine n).sys} (hclients : Clients r)
    (honce : ∀ j < r.len, SeenOnce (r.state j) (r.act j)) {x : Int} {a b : ℕ}
    (h : Machine.Returns r v .getAccurate x a b) :
    x ≤ below (r.state b).mem.bumps MAX_THREADS := by
  have hrun : ∃ pc, (machine n).result pc = some x ∧ AtMost v (r.state b).mem pc := by
    refine h.induct_at (AtMost v) ?_ ?_ ?_
    · exact ⟨⟨Nat.zero_le _, rfl⟩, fun j hj => absurd hj (Nat.not_lt_zero j)⟩
    · intro j pc choice mem' pc' _ hjb hact hth hpc hstep
      have hjl : j < r.len := hjb.trans_le h.within
      have hmeets := honce j hjl
      rw [hact] at hmeets
      exact hpc.own (Inv.along hclients (Nat.le_of_lt hjl)) hth hmeets hstep
    · intro j pc w qw pcw choice mem' pcw' _ hjb hact hw hth hthw hpc hstep
      have hjl : j < r.len := hjb.trans_le h.within
      have hmeets := honce j hjl
      rw [hact] at hmeets
      exact hpc.other (Inv.along hclients (Nat.le_of_lt hjl)) hth hw hthw hmeets hstep
  obtain ⟨pc, hres, hpc⟩ := hrun
  obtain rfl := ret_of_result hres
  exact hpc

end Reads

/-- **`getAccurate` counts every increment at least once**; and it counts none
twice when the steps of the run meet `SeenOnce`. -/
theorem getAccurate_bounds (r : Run (machine n).sys) (hclients : Clients r) :
    (∀ v x a b, Machine.Returns r v .getAccurate x a b → (r.count ReturnsInc a : Int) ≤ x)
    ∧ ((∀ j < r.len, SeenOnce (r.state j) (r.act j)) →
        ∀ v x a b, Machine.Returns r v .getAccurate x a b →
          (r.count ReturnsInc a : Int) ≤ x ∧ x ≤ r.count CallsInc b) := by
  have hlow : ∀ v x a b, Machine.Returns r v .getAccurate x a b → (r.count ReturnsInc a : Int) ≤ x := by
    intro v x a b h
    have hinv := Inv.along hclients ((Nat.le_of_lt h.before).trans h.within)
    have hcount := hinv.between.1
    have hx := returns_atLeast hclients h
    omega
  refine ⟨hlow, fun honce v x a b h => ⟨hlow v x a b h, ?_⟩⟩
  have hcount := (Inv.along hclients h.within).between.2
  have hx := returns_atMost hclients honce h
  omega

/-! ## §4. A count that is seen twice. -/

def incOnce : List Action := [.invoke 0 .inc, .step 0 (), .ret 0]

/-- After `k` calls of `inc(0)`, none of which publishes. -/
def incremented (k : ℕ) : State where
  mem := ⟨⟨1, Function.update (fun _ => 0) 0 k, 0⟩, Function.update (fun _ => 0) 0 k, fun _ => 0,
    fun _ _ => 0⟩
  thread := fun _ => none

theorem exec_incOnce {k : ℕ} (hk : k < 999) :
    (machine 1).sys.exec (incremented k) incOnce = some (incremented (k + 1)) := by
  have hlt : ¬ (999 ≤ k ∧ 29 ≤ k) := by omega
  simp [incOnce, Sys.exec, Machine.sys, Machine.next, incremented, machine, inc, Machine.State.goto,
    Counter.bump, Counter.threshold, hlt]

theorem exec_incs {k : ℕ} (hk : k ≤ 999) :
    (machine 1).sys.exec (machine 1).sys.init (List.replicate k incOnce).flatten
      = some (incremented k) := by
  induction k with
  | zero =>
      have hzero : (Function.update (fun _ => 0) 0 0 : ℕ → ℕ) = fun _ => 0 :=
        Function.update_eq_self 0 _
      unfold incremented
      rw [hzero]
      rfl
  | succ k ih =>
      rw [List.replicate_succ', List.flatten_append, List.flatten_singleton, Sys.exec_append,
        ih (Nat.le_of_succ_le hk), Option.bind_some]
      exact exec_incOnce hk

/-- Thread 0 comes to its publication, thread 1 reads all subcounters, thread 0
publishes, and thread 1 reads `globalCounter`. -/
def overtaken : List Action :=
  [.invoke 0 .inc, .step 0 (), .invoke 1 .getAccurate] ++ List.replicate 256 (.step 1 ())
    ++ [.step 0 (), .step 1 ()]

def twiceActions : List Action := (List.replicate 999 incOnce).flatten ++ overtaken

/-- Behind 999 increments a list of actions starts from `incremented 999`. -/
theorem exec_incs_append (as : List Action) (k : ℕ) :
    (machine 1).sys.exec (machine 1).sys.init
        (((List.replicate 999 incOnce).flatten ++ as).take (2997 + k))
      = (machine 1).sys.exec (incremented 999) (as.take k) := by
  have hlen : (List.replicate 999 incOnce).flatten.length = 2997 := by decide +kernel
  rw [← hlen, List.take_length_add_append, Sys.exec_append, exec_incs (Nat.le_refl 999),
    Option.bind_some]

theorem getD_incs_append (as : List Action) (j : ℕ) :
    ((List.replicate 999 incOnce).flatten ++ as).getD (2997 + j) (.step 0 ())
      = as.getD j (.step 0 ()) := by
  have hlen : (List.replicate 999 incOnce).flatten.length = 2997 := by decide +kernel
  rw [List.getD_eq_getElem?_getD, List.getElem?_append_right (by omega), hlen, Nat.add_sub_cancel_left,
    List.getD_eq_getElem?_getD]

theorem exec_twice (k : ℕ) :
    (machine 1).sys.exec (machine 1).sys.init (twiceActions.take (2997 + k))
      = (machine 1).sys.exec (incremented 999) (overtaken.take k) :=
  exec_incs_append overtaken k

theorem twiceActions_enabled :
    ((machine 1).sys.exec (machine 1).sys.init twiceActions).isSome = true := by
  have hall : twiceActions = twiceActions.take (2997 + 261) := by decide +kernel
  rw [hall, exec_twice]
  decide +kernel

def twiceRun : Run (machine 1).sys :=
  Run.ofActions (machine 1).sys twiceActions (.step 0 ()) twiceActions_enabled

theorem twiceRun_act (j : ℕ) : twiceRun.act (2997 + j) = overtaken.getD j (.step 0 ()) :=
  getD_incs_append overtaken j

theorem twiceRun_state (j : ℕ) :
    twiceRun.state j = (machine 1).sys.after (twiceActions.take j) := rfl

theorem twiceRun_countInc {m : ℕ} (hm : m ≤ twiceActions.length) :
    twiceRun.count CallsInc m = (twiceActions.take m).countP (CallsInc (incremented 0)) :=
  Run.count_ofActions (p := CallsInc) (q := CallsInc (incremented 0)) _ _ _ (fun _ _ => rfl) hm

/-- The test of `Clients`. -/
def clientTest : Action → Bool
  | .invoke tid .inc => decide (tid < MAX_THREADS)
  | _ => true

theorem twiceRun_clients : Clients twiceRun := by
  have hall : ∀ x ∈ twiceActions, clientTest x = true := by decide +kernel
  intro j hj tid heq
  have hj' : j < twiceActions.length := hj
  have hmem : twiceRun.act j ∈ twiceActions := by
    show twiceActions.getD j _ ∈ twiceActions
    rw [List.getD_eq_getElem?_getD, List.getElem?_eq_getElem hj', Option.getD_some]
    exact List.getElem_mem hj'
  have hx := hall _ hmem
  rw [heq] at hx
  exact of_decide_eq_true hx

/-- Thread 1 gets 2000. -/
theorem twiceRun_returns : Machine.Returns twiceRun 1 .getAccurate 2000 (2997 + 2) (2997 + 261) where
  before := by decide
  within := by
    show 2997 + 261 ≤ twiceActions.length
    decide +kernel
  called := (twiceRun_act 2).trans rfl
  same_call j h₁ h₂ := by
    have hcall : ∀ i < 261, 2 < i → ¬ Machine.Act.Calls 1 (overtaken.getD i (.step 0 ())) := by
      decide +kernel
    obtain ⟨i, rfl⟩ := Nat.exists_eq_add_of_le (show 2997 ≤ j by omega)
    rw [twiceRun_act]
    exact hcall i (by omega) (by omega)
  returns := by
    have hthread : (((machine 1).sys.exec (incremented 999) (overtaken.take 261)).map
        fun s => s.thread 1) = some (some (.getAccurate, .ret 2000)) := by decide +kernel
    obtain ⟨s, hs, hth⟩ := Option.map_eq_some_iff.mp hthread
    refine ⟨.ret 2000, ?_, rfl⟩
    rw [twiceRun_state, Sys.after, exec_twice, hs, Option.getD_some]
    exact hth

theorem twiceRun_count : twiceRun.count CallsInc (2997 + 261) = 1000 := by
  have hlen : 2997 + 261 ≤ twiceActions.length := by decide +kernel
  have hcount : (twiceActions.take (2997 + 261)).countP (CallsInc (incremented 0)) = 1000 := by
    decide +kernel
  rw [twiceRun_countInc hlen]
  exact hcount

/-- **`getAccurate` counts increments twice.** -/
theorem getAccurate_bounds_fails : ¬ ∀ (n : ℕ) (r : Run (machine n).sys), Clients r →
    ∀ v x a b, Machine.Returns r v .getAccurate x a b →
      (r.count ReturnsInc a : Int) ≤ x ∧ x ≤ r.count CallsInc b := by
  intro h
  have hx := (h 1 twiceRun twiceRun_clients 1 2000 _ _ twiceRun_returns).2
  rw [twiceRun_count] at hx
  omega

/-! ## §5. A count that is seen once. -/

/-- Thread 0 publishes when thread 1 has called `getAccurate`, and resets its
subcounter before thread 1 reads it. -/
def beside : List Action :=
  [.invoke 1 .getAccurate, .invoke 0 .inc] ++ List.replicate 3 (.step 0 ())
    ++ List.replicate 257 (.step 1 ())

def onceActions : List Action := (List.replicate 999 incOnce).flatten ++ beside

theorem onceActions_exec :
    ((machine 1).sys.exec (machine 1).sys.init onceActions).isSome = true := by
  have hall : onceActions = onceActions.take (2997 + 262) := by decide +kernel
  have hexec : (machine 1).sys.exec (machine 1).sys.init (onceActions.take (2997 + 262))
      = (machine 1).sys.exec (incremented 999) (beside.take 262) := exec_incs_append beside 262
  rw [hall, hexec]
  decide +kernel

def onceRun : Run (machine 1).sys :=
  Run.ofActions (machine 1).sys onceActions (.step 0 ()) onceActions_exec

/-- The subcounters that the thread has read. -/
def summed : Option (Request × Pc) → ℕ
  | some (.getAccurate, .sum i _) => i
  | _ => 0

/-- A test for `SeenOnce` in a run of the threads 0 and 1. -/
def seenOnceTest (s : State) : Action → Bool
  | .step tid _ =>
      match s.thread tid with
      | some (.inc, .publish _) => (List.range 2).all fun v => decide (summed (s.thread v) ≤ tid)
      | some (.getAccurate, .sum i _) => decide (s.thread i ≠ some (.inc, .reset))
      | _ => true
  | _ => true

/-- `SeenOnce`, if the other threads are idle. -/
def SeenByTwo (s : State) (a : Action) : Prop := (∀ v, 2 ≤ v → s.thread v = none) → SeenOnce s a

theorem SeenByTwo.of_test {s : State} {a : Action} (h : seenOnceTest s a = true) :
    SeenByTwo s a := by
  intro hidle
  cases a with
  | step tid choice =>
      simp only [seenOnceTest] at h
      simp only [SeenOnce]
      split
      · rename_i hth
        rw [hth] at h
        intro v i ret hv hlt
        -- no running `getAccurate` has read the subcounter
        have hv2 : v < 2 := by
          by_contra hge
          rw [hidle v (by omega)] at hv
          exact absurd hv (by simp)
        have hle := of_decide_eq_true (List.all_eq_true.mp h v (List.mem_range.mpr hv2))
        rw [hv] at hle
        exact absurd hlt (Nat.not_lt.mpr hle)
      · rename_i hth
        rw [hth] at h
        exact fun _ => of_decide_eq_true h
      · exact trivial
  | invoke tid q => exact trivial
  | ret tid => exact trivial

/-- An increment that publishes nothing passes the test. -/
theorem incOnce_along {k : ℕ} : (machine 1).sys.Along SeenByTwo (incremented k) incOnce := by
  refine ⟨fun _ => trivial, fun s hs => ⟨.of_test ?_, fun _ _ => ?_⟩⟩
  · obtain rfl := Option.some.inj hs
    rfl
  · exact ⟨fun _ => trivial, fun _ _ => trivial⟩

theorem incs_along {k : ℕ} (hk : k ≤ 999) :
    (machine 1).sys.Along SeenByTwo (machine 1).sys.init (List.replicate k incOnce).flatten := by
  induction k with
  | zero => trivial
  | succ k ih =>
      rw [List.replicate_succ', List.flatten_append, List.flatten_singleton]
      exact Sys.along_append (ih (Nat.le_of_succ_le hk)) (exec_incs (Nat.le_of_succ_le hk))
        incOnce_along

theorem onceActions_along :
    (machine 1).sys.Along SeenByTwo (machine 1).sys.init onceActions := by
  refine Sys.along_append (incs_along (Nat.le_refl 999)) (exec_incs (Nat.le_refl 999)) ?_
  exact Sys.along_of_check (c := seenOnceTest) (f := fun _ => true)
    (fun _ _ h => SeenByTwo.of_test h) beside _ (by decide +kernel)

/-- Both threads are clients, and there is no other. -/
def onceTest : Action → Bool
  | .invoke tid _ => decide (tid < 2)
  | _ => true

theorem onceRun_test {j : ℕ} (hj : j < onceRun.len) : onceTest (onceRun.act j) = true := by
  have hall : ∀ x ∈ onceActions, onceTest x = true := by decide +kernel
  have hlen : j < onceActions.length := hj
  have hmem : onceRun.act j ∈ onceActions := by
    show onceActions.getD j _ ∈ onceActions
    rw [List.getD_eq_getElem?_getD, List.getElem?_eq_getElem hlen, Option.getD_some]
    exact List.getElem_mem hlen
  exact hall _ hmem

theorem onceRun_seenOnce {j : ℕ} (hj : j < onceRun.len) :
    SeenOnce (onceRun.state j) (onceRun.act j) := by
  refine Run.along_ofActions (C := SeenByTwo) _ _ onceActions_along hj fun v hv => ?_
  refine Machine.idle_of_not_called onceRun (fun i hi hcall => ?_) (Nat.le_of_lt hj)
  have htest := onceRun_test hi
  cases hact : onceRun.act i with
  | invoke w q =>
      rw [hact] at htest hcall
      have hw : w < 2 := of_decide_eq_true htest
      have heq : w = v := hcall
      omega
  | step w choice =>
      rw [hact] at hcall
      exact hcall
  | ret w =>
      rw [hact] at hcall
      exact hcall

theorem onceRun_act (j : ℕ) : onceRun.act (2997 + j) = beside.getD j (.step 0 ()) :=
  getD_incs_append beside j

theorem onceRun_state (j : ℕ) :
    onceRun.state j = (machine 1).sys.after (onceActions.take j) := rfl

/-- Thread 1 gets 1000. -/
theorem onceRun_returns : Machine.Returns onceRun 1 .getAccurate 1000 2997 (2997 + 262) where
  before := by decide
  within := by
    show 2997 + 262 ≤ onceActions.length
    decide +kernel
  called := (onceRun_act 0).trans rfl
  same_call j h₁ h₂ := by
    have hcall : ∀ i < 262, 0 < i → ¬ Machine.Act.Calls 1 (beside.getD i (.step 0 ())) := by
      decide +kernel
    obtain ⟨i, rfl⟩ := Nat.exists_eq_add_of_le (show 2997 ≤ j by omega)
    rw [onceRun_act]
    exact hcall i (by omega) (by omega)
  returns := by
    have hthread : (((machine 1).sys.exec (incremented 999) (beside.take 262)).map
        fun s => s.thread 1) = some (some (.getAccurate, .ret 1000)) := by decide +kernel
    obtain ⟨s, hs, hth⟩ := Option.map_eq_some_iff.mp hthread
    have hexec : (machine 1).sys.exec (machine 1).sys.init (onceActions.take (2997 + 262)) = some s :=
      (exec_incs_append beside 262).trans hs
    refine ⟨.ret 1000, ?_, rfl⟩
    rw [onceRun_state, Sys.after, hexec, Option.getD_some]
    exact hth

theorem getAccurate_bounds_once :
    (onceRun.count ReturnsInc 2997 : Int) ≤ 1000
      ∧ (1000 : Int) ≤ onceRun.count CallsInc (2997 + 262) := by
  have hclients : Clients onceRun := by
    intro j hj tid heq
    have htest := onceRun_test hj
    rw [heq] at htest
    exact Nat.lt_trans (of_decide_eq_true htest) (by decide)
  exact (getAccurate_bounds onceRun hclients).2 (fun j hj => onceRun_seenOnce hj) 1 1000 2997
    (2997 + 262) onceRun_returns

end MultiCore.Util.AccurateRead
