/-
  MultiCore.AlgorithmD.Sizing — what `startExpansion` reads from the counters.

  A successful CAS and the increment that counts it are different steps, so a
  counter is at any moment behind the table; and `getAccurate` reads it part by
  part.  Each counter of each table is a `SplitCounter` (`State.split`) whose
  events are the CASes that store into the table (`State.stored`), and
  `Effect.split` says which step of a thread is which move of it.

  `ledger` keeps, for every thread that computes the size of a new table, how
  far its reading can be off; `ReadOk` is what its locals are worth.
-/
import MultiCore.AlgorithmD.KeySet
import MultiCore.Lib.SplitCounter

namespace MultiCore.AlgorithmD.Concurrent

open MultiCore.Lib MultiCore.Util

/-! ## §1. The buckets of a table, counted. -/

namespace State

/-- The buckets of table `t` that are not empty. -/
def used (s : State) (t : Nat) : Nat := usedCount (s.keys t) (s.currCapacity t)

/-- The buckets of table `t` that hold a key. -/
def live (s : State) (t : Nat) : Nat := liveCount (s.keys t) (s.currCapacity t)

/-- The buckets of table `t` that hold a tombstone. -/
def tombs (s : State) (t : Nat) : Nat :=
  bucketCount (fun v => v = TOMBSTONE) (s.keys t) (s.currCapacity t)

/-- What the counter of `op` counts: the CASes on table `t` that have
succeeded. -/
def stored (s : State) : Op → Nat → Nat
  | .insertIfAbsent, t => s.used t
  | .erase, t => s.tombs t

end State

/-- A bucket in use holds a key or a tombstone. -/
theorem used_eq (s : State) (t : Nat) : s.used t = s.live t + s.tombs t := by
  unfold State.used State.live State.tombs usedCount liveCount bucketCount
  rw [← Finset.card_union_of_disjoint, ← Finset.filter_or]
  · congr 1
    apply Finset.filter_congr
    intro x _
    constructor
    · intro hne
      by_cases ht : s.keys t x = TOMBSTONE
      · exact Or.inr ht
      · exact Or.inl ⟨hne, ht⟩
    · intro hor
      rcases hor with hk | ht
      · exact hk.1
      · rw [ht]
        exact tombstone_ne_empty
  · rw [Finset.disjoint_filter]
    intro x _ hk ht
    exact hk.2 ht

theorem stored_congr {s s' : State} {t : Nat} (hk : s'.keys t = s.keys t)
    (hc : s'.currCapacity t = s.currCapacity t) (op : Op) : s'.stored op t = s.stored op t := by
  cases op with
  | insertIfAbsent =>
      show usedCount (s'.keys t) (s'.currCapacity t) = _
      rw [hk, hc]
      rfl
  | erase =>
      show bucketCount (fun v => v = TOMBSTONE) (s'.keys t) (s'.currCapacity t) = _
      rw [hk, hc]
      rfl

/-- The CAS of an insert is one more event of `insertAC`. -/
theorem stored_fill {s : State} {t x key : Nat} (hx : x < s.currCapacity t) (hkey : IsKey key)
    (he : s.data t x = Bucket.plain EMPTY) (op : Op) (u : Nat) :
    (s.write t x (Bucket.plain key)).stored op u
      = s.stored op u + if op = .insertIfAbsent ∧ u = t then 1 else 0 := by
  have hempty : s.keys t x = EMPTY := keys_eq he
  by_cases hu : u = t
  · subst hu
    have hkeys : (s.write u x (Bucket.plain key)).keys u = Function.update (s.keys u) x key := by
      rw [write_keys, if_pos rfl]
      rfl
    cases op with
    | insertIfAbsent =>
        rw [if_pos ⟨rfl, rfl⟩]
        show usedCount ((s.write u x (Bucket.plain key)).keys u) (s.currCapacity u) = _
        rw [hkeys]
        exact usedCount_put hkey hx hempty
    | erase =>
        rw [if_neg (by simp)]
        show bucketCount (fun v => v = TOMBSTONE) ((s.write u x (Bucket.plain key)).keys u)
          (s.currCapacity u) = _
        rw [hkeys]
        apply bucketCount_update_same hx
        rw [hempty]
        exact ⟨fun h => absurd h.symm tombstone_ne_empty, fun h => absurd h hkey.2⟩
  · rw [if_neg (fun h => hu h.2)]
    apply stored_congr
    · rw [write_keys, if_neg hu]
    · rfl

/-- The CAS of an erase is one more event of `deleteAC`. -/
theorem stored_erase {s : State} {t x key : Nat} (hx : x < s.currCapacity t) (hkey : IsKey key)
    (he : s.data t x = Bucket.plain key) (op : Op) (u : Nat) :
    (s.write t x (Bucket.plain TOMBSTONE)).stored op u
      = s.stored op u + if op = .erase ∧ u = t then 1 else 0 := by
  have hheld : s.keys t x = key := keys_eq he
  by_cases hu : u = t
  · subst hu
    have hkeys : (s.write u x (Bucket.plain TOMBSTONE)).keys u
        = Function.update (s.keys u) x TOMBSTONE := by
      rw [write_keys, if_pos rfl]
      rfl
    cases op with
    | insertIfAbsent =>
        rw [if_neg (by simp)]
        show usedCount ((s.write u x (Bucket.plain TOMBSTONE)).keys u) (s.currCapacity u) = _
        rw [hkeys]
        exact usedCount_erase (by rw [hheld]; exact hkey) hx
    | erase =>
        rw [if_pos ⟨rfl, rfl⟩]
        show bucketCount (fun v => v = TOMBSTONE) ((s.write u x (Bucket.plain TOMBSTONE)).keys u)
          (s.currCapacity u) = _
        rw [hkeys]
        apply bucketCount_update_add hx
        · rw [hheld]
          exact hkey.2
        · rfl
  · rw [if_neg (fun h => hu h.2)]
    apply stored_congr
    · rw [write_keys, if_neg hu]
    · rfl

/-! ## §2. The counters as split counters. -/

/-- The counter that a thread is incrementing, and how far it is. -/
def Thread.counting : Thread → Option (Op × Nat × Inc)
  | .running op _ (.probe (.inc t step)) => some (op, t, step)
  | .running _ _ (.help _ _ (.insert _ _ _ (.inc t step))) => some (.insertIfAbsent, t, step)
  | _ => none

def Inc.phase : Inc → Phase
  | .bump => .owes
  | .publish val => .flushing val
  | .reset => .flushed

def Thread.phase (op : Op) (t : Nat) (th : Thread) : Phase :=
  match th.counting with
  | some (op', t', step) => if op' = op ∧ t' = t then step.phase else .quiet
  | none => .quiet

/-- The counter of `op` of table `t`, with the threads that are incrementing
it. -/
def State.split (s : State) (op : Op) (t : Nat) : SplitCounter MAX_THREADS where
  global := (s.counter op t).globalCounter
  part tid := (s.counter op t).subcounters tid
  phase tid := (s.thread tid).phase op t

/-- The CASes of `op` on table `t` that the next step of a thread performs. -/
def State.makes (s : State) (op : Op) (key : Key) (op' : Op) (t : Nat) : Pc → Nat
  | .probe (.cas t' i) =>
      if op' = op ∧ t = t' ∧ s.data t' (s.index t' key.val i) = expected key.val op then 1 else 0
  | .help _ _ (.insert _ _ key' (.cas t' j)) =>
      if op' = .insertIfAbsent ∧ t = t' ∧ s.data t' (s.index t' key' j) = Bucket.plain EMPTY
      then 1 else 0
  | _ => 0

/-- What the next step of a thread adds to the global part of the counter. -/
def Thread.flushes (op : Op) (t : Nat) (th : Thread) : Nat :=
  match th.phase op t with
  | .flushing val => val
  | _ => 0

theorem Thread.phase_of_none {th : Thread} (h : th.counting = none) (op : Op) (t : Nat) :
    th.phase op t = .quiet := by
  unfold Thread.phase
  rw [h]

theorem Thread.flushes_of_none {th : Thread} (h : th.counting = none) (op : Op) (t : Nat) :
    th.flushes op t = 0 := by
  unfold Thread.flushes
  rw [Thread.phase_of_none h]

theorem Thread.phase_of_some {th : Thread} {op : Op} {t : Nat} {step : Inc}
    (h : th.counting = some (op, t, step)) (op' : Op) (t' : Nat) :
    th.phase op' t' = if op = op' ∧ t = t' then step.phase else .quiet := by
  unfold Thread.phase
  rw [h]

theorem split_goto (s : State) (tid : Tid) (th : Thread) (op : Op) (t : Nat) :
    (s.goto tid th).split op t
      = { s.split op t with phase := Function.update (s.split op t).phase tid (th.phase op t) } := by
  unfold State.split
  congr 1
  funext v
  show ((s.goto tid th).thread v).phase op t = _
  rw [goto_thread, Function.update_apply]
  split <;> rfl

/-- The thread is not counting, before and after. -/
theorem split_goto_quiet {s : State} {tid : Tid} {th : Thread} {op : Op} {t : Nat}
    (hbefore : (s.thread tid).counting = none) (hafter : th.counting = none) :
    (s.goto tid th).split op t = s.split op t := by
  rw [split_goto, Thread.phase_of_none hafter]
  have hsame : Function.update (s.split op t).phase tid Phase.quiet = (s.split op t).phase := by
    rw [Function.update_eq_self_iff]
    exact (Thread.phase_of_none hbefore op t).symm
  rw [hsame]

/-- What an access of `inc` adds to the global part. -/
def Inc.flushes : Inc → Nat
  | .publish val => val
  | _ => 0

/-- **An access of `inc` is a move of its counter**, and of no other. -/
theorem split_inc {s : State} {tid : Tid} {op : Op} {t : Nat} {step : Inc} {r : Option Inc}
    {c : Counter} {th : Thread} (hstep : incStep (s.counter op t) tid step = (c, r))
    (hbefore : (s.thread tid).counting = some (op, t, step))
    (hafter : th.counting = r.map (fun step' => (op, t, step'))) :
    SplitCounter.Move (s.split op t) tid (((s.setCounter op t c).goto tid th).split op t) 0
      step.flushes := by
  have hphase : (s.split op t).phase tid = step.phase := by
    show (s.thread tid).phase op t = _
    rw [Thread.phase_of_some hbefore, if_pos ⟨rfl, rfl⟩]
  have hnext : th.phase op t = (r.map Inc.phase).getD .quiet := by
    cases r with
    | none => rw [Thread.phase_of_none hafter]; rfl
    | some step' =>
        rw [Thread.phase_of_some hafter, if_pos ⟨rfl, rfl⟩]
        rfl
  have hcounter : (s.setCounter op t c).counter op t = c := by
    show Function.update s.counter op _ op t = c
    rw [Function.update_self, Function.update_self]
  rw [split_goto, hnext]
  have hsplit : (s.setCounter op t c).split op t
      = { global := c.globalCounter, part := fun v => c.subcounters v
          phase := (s.split op t).phase } := by
    unfold State.split
    rw [hcounter]
    rfl
  rw [hsplit]
  cases step with
  | bump =>
      obtain ⟨rfl, hr⟩ := Prod.mk.inj hstep
      have hpart : (fun v : Tid => ((s.counter op t).bump tid).subcounters v)
          = Function.update (s.split op t).part tid ((s.split op t).part tid + 1) := by
        funext v
        show Function.update (s.counter op t).subcounters tid.val _ v.val = _
        by_cases hv : v = tid
        · rw [hv, Function.update_self, Function.update_self]
          rfl
        · rw [Function.update_of_ne hv, Function.update_of_ne (fun h => hv (Fin.ext h))]
          rfl
      rw [hpart]
      apply SplitCounter.Move.bump hphase
      rw [← hr]
      split
      · right
        show Phase.flushing (Function.update (s.counter op t).subcounters tid.val _ tid.val) = _
        rw [Function.update_self]
        rfl
      · exact Or.inl rfl
  | publish val =>
      obtain ⟨rfl, rfl⟩ := Prod.mk.inj hstep
      exact SplitCounter.Move.publish hphase
  | reset =>
      obtain ⟨rfl, rfl⟩ := Prod.mk.inj hstep
      have hpart : (fun v : Tid => ((s.counter op t).reset tid).subcounters v)
          = Function.update (s.split op t).part tid 0 := by
        funext v
        show Function.update (s.counter op t).subcounters tid.val 0 v.val = _
        by_cases hv : v = tid
        · rw [hv, Function.update_self, Function.update_self]
        · rw [Function.update_of_ne hv, Function.update_of_ne (fun h => hv (Fin.ext h))]
          rfl
      rw [hpart]
      exact SplitCounter.Move.reset hphase

/-- The other counters stay. -/
theorem split_inc_other {s : State} {tid : Tid} {op op' : Op} {t t' : Nat} {step : Inc}
    {r : Option Inc} {c : Counter} {th : Thread} (hne : ¬ (op = op' ∧ t = t'))
    (hbefore : (s.thread tid).counting = some (op, t, step))
    (hafter : th.counting = r.map (fun step' => (op, t, step'))) :
    ((s.setCounter op t c).goto tid th).split op' t' = s.split op' t' := by
  have hcounter : (s.setCounter op t c).counter op' t' = s.counter op' t' := by
    show Function.update s.counter op _ op' t' = _
    by_cases hop : op' = op
    · subst hop
      rw [Function.update_self, Function.update_of_ne (fun h => hne ⟨rfl, h.symm⟩)]
    · rw [Function.update_of_ne hop]
  have hnext : th.phase op' t' = .quiet := by
    cases r with
    | none => exact Thread.phase_of_none hafter _ _
    | some step' => rw [Thread.phase_of_some hafter, if_neg hne]
  have hsplit : (s.setCounter op t c).split op' t' = s.split op' t' := by
    unfold State.split
    rw [hcounter]
    rfl
  have hsame : Function.update (s.split op' t').phase tid Phase.quiet = (s.split op' t').phase := by
    rw [Function.update_eq_self_iff]
    show Phase.quiet = (s.thread tid).phase op' t'
    rw [Thread.phase_of_some hbefore, if_neg hne]
  rw [split_goto, hnext, hsplit, hsame]

/-! ## §3. Every step, seen from the counters. -/

theorem Quiet.counting {s : State} {op : Op} {key : Key} {pc pc' : Pc} (hq : Quiet s op key pc pc') :
    Thread.counting (.running op key pc) = none
      ∧ Thread.counting (.running op key pc') = none := by
  cases hq with
  | load hi => rcases iterate_ok hi with ⟨-, rfl⟩ | ⟨-, -, rfl⟩ <;> exact ⟨rfl, rfl⟩
  | readNext hm he hk hi => rcases iterate_ok hi with ⟨-, rfl⟩ | ⟨-, -, rfl⟩ <;> exact ⟨rfl, rfl⟩
  | rereadNext hm hd hi => rcases iterate_ok hi with ⟨-, rfl⟩ | ⟨-, -, rfl⟩ <;> exact ⟨rfl, rfl⟩
  | helpLoad hr =>
      obtain ⟨-, rfl⟩ := reinsertAt_ok hr
      exact ⟨rfl, rfl⟩
  | helpReadNext he hk hr =>
      obtain ⟨-, rfl⟩ := reinsertAt_ok hr
      exact ⟨rfl, rfl⟩
  | helpRereadNext hk hr =>
      obtain ⟨-, rfl⟩ := reinsertAt_ok hr
      exact ⟨rfl, rfl⟩
  | @helpTest k t =>
      refine ⟨rfl, ?_⟩
      split <;> rfl
  | _ => exact ⟨rfl, rfl⟩

theorem counting_migrateAt (s : State) (op : Op) (key : Key) (k : After) (t c i : Nat) :
    Thread.counting (.running op key (.help k t (migrateAt s t c i))) = none := by
  unfold migrateAt
  split <;> rfl

/-- A quiet step performs no CAS that succeeds. -/
theorem Quiet.makes {s : State} {op : Op} {key : Key} {pc pc' : Pc} (hq : Quiet s op key pc pc')
    (op' : Op) (t : Nat) : s.makes op key op' t pc = 0 := by
  cases hq with
  | helpCasFailed hne => exact if_neg (fun h => hne h.2.2)
  | casFailed hne =>
      apply if_neg
      intro h
      rw [h.1] at h
      exact hne h.2.2
  | _ => rfl

/-- A CAS that succeeds is an event of its counter. -/
theorem split_event {s s₁ : State} {tid : Tid} {th th' : Thread} {op : Op} {t : Nat}
    (hth : s.thread tid = th) (hcounter : s₁.counter = s.counter) (hthread : s₁.thread = s.thread)
    (hbefore : th.counting = none) (hafter : th'.counting = some (op, t, .bump))
    (op' : Op) (t' : Nat) :
    SplitCounter.Move (s.split op' t') tid ((s₁.goto tid th').split op' t')
      (if op' = op ∧ t' = t then 1 else 0) 0 := by
  have hsplit : s₁.split op' t' = s.split op' t' := by
    unfold State.split
    rw [hcounter, hthread]
  have hquiet : (s.split op' t').phase tid = .quiet := by
    show (s.thread tid).phase op' t' = .quiet
    rw [hth]
    exact Thread.phase_of_none hbefore op' t'
  rw [split_goto, hsplit, Thread.phase_of_some hafter]
  by_cases hsame : op' = op ∧ t' = t
  · rw [if_pos hsame, if_pos ⟨hsame.1.symm, hsame.2.symm⟩]
    exact SplitCounter.Move.event hquiet
  · rw [if_neg hsame, if_neg (fun h => hsame ⟨h.1.symm, h.2.symm⟩)]
    have hupdate : Function.update (s.split op' t').phase tid .quiet = (s.split op' t').phase := by
      rw [Function.update_eq_self_iff]
      exact hquiet.symm
    rw [hupdate]
    exact SplitCounter.Move.skip

/-- An access of `inc` is a move of one counter, and leaves the others alone. -/
theorem split_count {s : State} {tid : Tid} {op : Op} {t : Nat} {step : Inc} {r : Option Inc}
    {c : Counter} {th th' : Thread} (hth : s.thread tid = th)
    (hstep : incStep (s.counter op t) tid step = (c, r))
    (hbefore : th.counting = some (op, t, step))
    (hafter : th'.counting = r.map (fun step' => (op, t, step'))) (op' : Op) (t' : Nat) :
    SplitCounter.Move (s.split op' t') tid (((s.setCounter op t c).goto tid th').split op' t') 0
      (th.flushes op' t') := by
  subst hth
  unfold Thread.flushes
  rw [Thread.phase_of_some hbefore]
  by_cases hsame : op = op' ∧ t = t'
  · obtain ⟨rfl, rfl⟩ := hsame
    rw [if_pos ⟨rfl, rfl⟩]
    have hm := split_inc hstep hbefore hafter
    cases step <;> exact hm
  · rw [if_neg hsame, split_inc_other hsame hbefore hafter]
    exact SplitCounter.Move.skip

/-- **A step of a call, seen from a counter**: it is the move of that counter
which makes what the step stores into the table, and flushes what it
publishes. -/
theorem Effect.split {s s₁ : State} {done : Nat → Finset Nat} (hinv : Inv s done) {tid : Tid}
    {op : Op} {key : Key} {pc pc' : Pc} (hth : s.thread tid = .running op key pc)
    (he : Effect s tid op key pc s₁ pc') (op' : Op) {t : Nat} (ht : t ≤ s.currentTable) :
    SplitCounter.Move (s.split op' t) tid
        ((s₁.goto tid (.running op key pc')).split op' t)
        (s.makes op key op' t pc) (Thread.flushes op' t (.running op key pc))
      ∧ (s₁.goto tid (.running op key pc')).stored op' t
        = s.stored op' t + s.makes op key op' t pc := by
  have hok : PcOk s op key.val pc := by
    have := hinv.threadOk tid
    rw [hth] at this
    exact this
  -- steps that neither count nor store
  have hidle : s₁.counter op' t = s.counter op' t → s₁.thread = s.thread →
      Thread.counting (.running op key pc) = none → Thread.counting (.running op key pc') = none →
      s₁.keys t = s.keys t → s₁.currCapacity t = s.currCapacity t →
      s.makes op key op' t pc = 0 →
      SplitCounter.Move (s.split op' t) tid ((s₁.goto tid (.running op key pc')).split op' t)
          (s.makes op key op' t pc) (Thread.flushes op' t (.running op key pc))
        ∧ (s₁.goto tid (.running op key pc')).stored op' t
          = s.stored op' t + s.makes op key op' t pc := by
    intro hcounter hthread hbefore hafter hkeys hcap hmakes
    have hsplit : s₁.split op' t = s.split op' t := by
      unfold State.split
      rw [hcounter, hthread]
    rw [Thread.flushes_of_none hbefore, hmakes,
      split_goto_quiet (by rw [hthread, hth]; exact hbefore) hafter, hsplit]
    exact ⟨SplitCounter.Move.skip, stored_congr hkeys hcap op'⟩
  cases he with
  | quiet hq => exact hidle rfl rfl hq.counting.1 hq.counting.2 rfl rfl (hq.makes op' t)
  | count hinc => exact ⟨split_count hth hinc rfl rfl op' t, rfl⟩
  | counted hinc => exact ⟨split_count hth hinc rfl rfl op' t, rfl⟩
  | helpCount hinc => exact ⟨split_count hth hinc rfl rfl op' t, rfl⟩
  | helpCounted hinc =>
      exact ⟨split_count hth hinc rfl (counting_migrateAt _ _ _ _ _ _ _) op' t, rfl⟩
  | skip hdead => exact hidle rfl rfl rfl (counting_migrateAt _ _ _ _ _ _ _) rfl rfl rfl
  | claim hlt => exact hidle rfl rfl rfl (counting_migrateAt _ _ _ _ _ _ _) rfl rfl rfl
  | claimNone hle => exact hidle rfl rfl rfl rfl rfl rfl rfl
  | mark => exact hidle rfl rfl rfl rfl (mark_keys _ _ _ _) rfl rfl
  | finish => exact hidle rfl rfl rfl rfl rfl rfl rfl
  | publish =>
      obtain ⟨htable, hdata, -, -⟩ := @publish_old s _ t ht
      apply hidle
      · exact Function.update_of_ne (by omega) _ _
      · rfl
      · rfl
      · rfl
      · unfold State.keys
        rw [hdata]
      · unfold State.currCapacity
        rw [htable]
      · rfl
  | @reinsert k u c i key' t' j hempty =>
      obtain ⟨⟨-, -, -, hkey⟩, rfl, hp⟩ := hok.help.2
      have hmakes : s.makes op key op' t (.help k t' (.insert c i key' (.cas t' j)))
          = if op' = .insertIfAbsent ∧ t = t' then 1 else 0 := by
        show (if _ then 1 else 0) = _
        simp only [hempty, and_true]
      rw [hmakes]
      constructor
      · exact split_event hth rfl rfl rfl rfl op' t
      · exact stored_fill hp.index_lt hkey hempty op' t
  | @cas t' i hexp =>
      have hmakes : s.makes op key op' t (.probe (.cas t' i))
          = if op' = op ∧ t = t' then 1 else 0 := by
        show (if _ then 1 else 0) = _
        simp only [hexp, and_true]
      rw [hmakes]
      constructor
      · exact split_event hth rfl rfl rfl rfl op' t
      · cases op with
        | insertIfAbsent => exact stored_fill hok.1.index_lt key.isKey hexp op' t
        | erase => exact stored_erase hok.1.index_lt key.isKey hexp op' t

end MultiCore.AlgorithmD.Concurrent
