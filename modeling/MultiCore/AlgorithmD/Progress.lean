/-
  MultiCore.AlgorithmD.Progress — `migrate` is wait-free.

  `helpExpansion` ends in a loop that waits for the other threads' chunks, so a
  call of `AlgorithmD` can be held up.  It is held up by nothing else than a
  thread that works on a chunk and does not get to run:

    * `waits_for_worker` — whoever waits for a table to be complete waits for a
      thread that works on one of its chunks;
    * `migrate_waitFree` — and such a thread is through with its chunk after a
      number of its own steps that depends on the capacity of the new table
      only, whatever the other threads do.

  The loop of `migrate` that marks a bucket has no bound of its own: its CAS
  fails whenever a client has changed the bucket.  But a bucket only moves
  forward (`Forward`), and each change takes it down one `level`, so the rank of
  the migrating thread pays for the failed CASes too.
-/
import MultiCore.AlgorithmD.Protocol

namespace MultiCore.AlgorithmD.Concurrent

open MultiCore.Lib MultiCore.Util

/-! ## §1. Ranks. -/

/-- How often a bucket can still change. -/
def level (b : Bucket) : Nat :=
  if b.isMarked then 0
  else if b.getKey = TOMBSTONE then 1
  else if b.getKey = EMPTY then 3
  else 2

theorem level_le (b : Bucket) : level b ≤ 3 := by
  unfold level
  split_ifs <;> omega

/-- A bucket that has changed has come down a level. -/
theorem Forward.level_lt {b b' : Bucket} (h : Forward b b') (hne : b' ≠ b) :
    level b' < level b := by
  have hplain : b.isMarked = false := by
    by_contra hm
    exact hne (h.marked (by simpa using hm))
  -- with the same value it must have been marked
  have hmark : b'.getKey = b.getKey → b'.isMarked = true := by
    intro hkey
    by_contra hm
    have hm' : b'.isMarked = b.isMarked := by
      rw [hplain]
      simpa using hm
    apply hne
    cases b
    cases b'
    simp only [Bucket.mk.injEq]
    exact ⟨hkey, hm'⟩
  have hempty : EMPTY ≠ TOMBSTONE := tombstone_ne_empty.symm
  unfold level
  by_cases hb : b.getKey = EMPTY
  · -- an empty bucket may take any value
    by_cases hb' : b'.getKey = EMPTY
    · have hm := hmark (hb'.trans hb.symm)
      simp [hplain, hb, hm, hempty]
    · simp only [hplain, hb, hb', if_false, if_true, hempty, Bool.false_eq_true]
      split_ifs <;> omega
  · rcases h.used hb with hsame | htomb
    · have hm := hmark hsame
      simp only [hplain, hm, if_true, Bool.false_eq_true, if_false]
      split_ifs <;> omega
    · by_cases hbt : b.getKey = TOMBSTONE
      · have hm := hmark (htomb.trans hbt.symm)
        simp [hplain, hm, hbt]
      · simp only [hplain, hb, hbt, htomb, if_true, Bool.false_eq_true, if_false]
        split_ifs <;> omega

/-- The steps of `migrate` for one bucket, at most. -/
def bucketCost (s : State) (t : Nat) : Nat := 3 * s.currCapacity t + 13

/-- The steps left after bucket `i` of chunk `c`, at most. -/
def rest (s : State) (t c i : Nat) : Nat :=
  (endIndex c (s.oldCapacity t) - (i + 1)) * bucketCost s t + 1

/-- The steps left in an insert of a migrating thread, at most. -/
def Probe.rank (s : State) : Probe → Nat
  | .read t j => 3 * (s.currCapacity t - j) + 3
  | .cas t j => 3 * (s.currCapacity t - j) + 2
  | .reread t j => 3 * (s.currCapacity t - j) + 1
  | .inc _ .bump => 3
  | .inc _ (.publish _) => 2
  | .inc _ .reset => 1

/-- The steps left until a thread has finished its chunk, at most. -/
def Help.rank (s : State) (t : Nat) : Help → Nat
  | .test | .claim | .wait => 0
  | .read c i => rest s t c i + (3 * s.currCapacity t + 5) + (2 * level (s.old t i) + 2)
  | .mark c i found =>
      -- a CAS that is going to fail is followed by another read
      rest s t c i + (3 * s.currCapacity t + 5)
        + (2 * level (s.old t i) + if s.old t i = found then 1 else 3)
  | .getKey c i => rest s t c i + (3 * s.currCapacity t + 5)
  | .load c i _ => rest s t c i + (3 * s.currCapacity t + 4)
  | .insert c i _ p => rest s t c i + p.rank s
  | .done _ => 1

def Thread.rank (s : State) (t : Nat) : Thread → Nat
  | .running _ _ (.help _ _ h) => h.rank s t
  | _ => 0

section Rank

variable {s s' : State} {done : Nat → Finset Nat}

theorem Help.rank_congr {t : Nat} {h : Help} (htable : s'.table = s.table)
    (hdata : s'.data = s.data) : h.rank s' t = h.rank s t := by
  have hcap : s'.currCapacity t = s.currCapacity t := by rw [State.currCapacity, htable]; rfl
  have hrest : ∀ c i, rest s' t c i = rest s t c i := by
    intro c i
    rw [rest, bucketCost, hcap, State.oldCapacity, htable]
    rfl
  have hold : ∀ i, s'.old t i = s.old t i := by
    intro i
    rw [State.old, hdata, htable]
    rfl
  cases h with
  | mark c i found =>
      simp only [Help.rank, hrest, hcap]
      rw [hold]
  | insert c i key p =>
      simp only [Help.rank, hrest]
      cases p <;> simp only [Probe.rank, State.currCapacity, htable]
  | _ => simp only [Help.rank, hrest, hcap, hold]

theorem Thread.rank_congr {t : Nat} {th : Thread} (htable : s'.table = s.table)
    (hdata : s'.data = s.data) : th.rank s' t = th.rank s t := by
  cases th with
  | idle => rfl
  | running op key pc =>
      cases pc with
      | help k t' h => exact Help.rank_congr htable hdata
      | _ => rfl

theorem rank_migrateAt (s : State) (t c i : Nat) :
    (migrateAt s t c (i + 1)).rank s t ≤ rest s t c i := by
  unfold migrateAt
  split
  · next hi =>
    obtain ⟨m, hm⟩ : ∃ m, endIndex c (s.oldCapacity t) - (i + 1) = m + 1 :=
      ⟨endIndex c (s.oldCapacity t) - (i + 2), by omega⟩
    have hm' : endIndex c (s.oldCapacity t) - (i + 1 + 1) = m := by omega
    have hlevel := level_le (s.old t (i + 1))
    show rest s t c (i + 1) + (3 * s.currCapacity t + 5)
      + (2 * level (s.old t (i + 1)) + 2) ≤ rest s t c i
    unfold rest
    rw [hm, hm', Nat.succ_mul m (bucketCost s t)]
    show _ ≤ m * bucketCost s t + (3 * s.currCapacity t + 13) + 1
    omega
  · show 1 ≤ rest s t c i
    unfold rest
    omega

/-- A chunk has at most 4096 buckets. -/
theorem rank_le {t : Nat} {h : Help} (hok : HelpOk s t h) :
    h.rank s t ≤ 4096 * bucketCost s t + 2 := by
  have hrest : ∀ c i, InChunk s t c i → rest s t c i + bucketCost s t
      ≤ 4096 * bucketCost s t + 1 := by
    intro c i hin
    have hend := endIndex_le_succ c (s.oldCapacity t)
    have hstart := startIndex_succ c
    have hle : endIndex c (s.oldCapacity t) - (i + 1) + 1 ≤ 4096 := by
      have h₁ := hin.1
      have h₂ := hin.2
      omega
    have hmul := Nat.mul_le_mul_right (bucketCost s t) hle
    rw [Nat.succ_mul] at hmul
    unfold rest
    omega
  have hcost : bucketCost s t = 3 * s.currCapacity t + 13 := rfl
  cases h with
  | test => exact Nat.zero_le _
  | claim => exact Nat.zero_le _
  | wait => exact Nat.zero_le _
  | done c =>
      show 1 ≤ _
      omega
  | read c i =>
      have hle := hrest c i hok
      have hlevel := level_le (s.old t i)
      show rest s t c i + (3 * s.currCapacity t + 5) + (2 * level (s.old t i) + 2) ≤ _
      omega
  | mark c i found =>
      have hle := hrest c i hok
      have hlevel := level_le (s.old t i)
      show rest s t c i + (3 * s.currCapacity t + 5)
        + (2 * level (s.old t i) + if s.old t i = found then 1 else 3) ≤ _
      split_ifs <;> omega
  | getKey c i =>
      have hle := hrest c i hok.1
      show rest s t c i + (3 * s.currCapacity t + 5) ≤ _
      omega
  | load c i key =>
      have hle := hrest c i hok.1
      show rest s t c i + (3 * s.currCapacity t + 4) ≤ _
      omega
  | insert c i key p =>
      have hle := hrest c i hok.1.1
      have hprobe : p.rank s ≤ 3 * s.currCapacity t + 3 := by
        cases p with
        | read t' j =>
            obtain ⟨rfl, -⟩ := hok.2
            show 3 * (s.currCapacity t' - j) + 3 ≤ _
            omega
        | cas t' j =>
            obtain ⟨rfl, -⟩ := hok.2
            show 3 * (s.currCapacity t' - j) + 2 ≤ _
            omega
        | reread t' j =>
            obtain ⟨rfl, -⟩ := hok.2
            show 3 * (s.currCapacity t' - j) + 1 ≤ _
            omega
        | inc t' step =>
            cases step with
            | bump =>
                show 3 ≤ _
                omega
            | publish val =>
                show 2 ≤ _
                omega
            | reset =>
                show 1 ≤ _
                omega
      show rest s t c i + p.rank s ≤ _
      omega

theorem rank_pos {t : Nat} {h : Help} (hpos : h.position ≠ none) : 0 < h.rank s t := by
  have hrest : ∀ c i, 0 < rest s t c i := fun _ _ => Nat.succ_pos _
  cases h with
  | test => exact absurd rfl hpos
  | claim => exact absurd rfl hpos
  | wait => exact absurd rfl hpos
  | done c => exact Nat.one_pos
  | read c i | mark c i found | getKey c i | load c i key | insert c i key p =>
      have hleft := hrest c i
      simp only [Help.rank]
      omega

end Rank

/-- A thread that works on a chunk is in `helpExpansion`. -/
theorem holding {s : State} {t d : Nat} {tid : Tid} (hd : holds s t tid = some d) :
    ∃ op key k h, s.thread tid = .running op key (.help k t h) ∧ h.position ≠ none := by
  obtain ⟨n, hpos⟩ := holds_iff.mp hd
  generalize hth : s.thread tid = th at hpos
  cases th with
  | idle => exact absurd hpos (by simp [Thread.position])
  | running op key pc =>
      cases pc with
      | help k t' h =>
          by_cases htt : t' = t
          · subst htt
            rw [Thread.position_help] at hpos
            exact ⟨op, key, k, h, rfl, by rw [hpos]; exact Option.some_ne_none _⟩
          · rw [Thread.position_help_ne htt] at hpos
            exact absurd hpos (by simp)
      | _ => exact absurd hpos (by simp [Thread.position])

theorem incStep_rank {s : State} {t : Nat} {ac ac' : Counter} {tid : Nat} {step step' : Inc}
    (h : incStep ac tid step = (ac', some step')) :
    (Probe.inc t step').rank s < (Probe.inc t step).rank s := by
  cases step with
  | bump =>
      simp only [incStep, Prod.mk.injEq] at h
      obtain ⟨-, hnext⟩ := h
      split at hnext
      · obtain rfl := Option.some.inj hnext
        exact Nat.lt_succ_self 2
      · exact absurd hnext (by simp)
  | publish val =>
      simp only [incStep, Prod.mk.injEq] at h
      obtain rfl := Option.some.inj h.2
      exact Nat.lt_succ_self 1
  | reset => exact absurd h (by simp [incStep])

/-! ## §2. One step. -/

section Step

variable {s s' : State} {done : Nat → Finset Nat}

/-- What other threads do to the tables does not raise the rank. -/
theorem HelpOk.rank_later (hs : Shape s) (hl : Later s s') {t : Nat} (ht : t ≤ s.currentTable)
    {h : Help} (hok : HelpOk s t h) : h.rank s' t ≤ h.rank s t := by
  have hcap := hl.currCapacity ht
  have hrest : ∀ c i, rest s' t c i = rest s t c i := by
    intro c i
    unfold rest bucketCost
    rw [hcap, hl.oldCapacity ht]
  have hold : ∀ i, Forward (s.old t i) (s'.old t i) := by
    intro i
    unfold State.old
    rw [hl.table t ht]
    exact hl.data _ (hs.old_le ht) i
  cases h with
  | test => exact Nat.le_refl _
  | claim => exact Nat.le_refl _
  | wait => exact Nat.le_refl _
  | done c => exact Nat.le_refl _
  | read c i =>
      have hlevel : level (s'.old t i) ≤ level (s.old t i) := by
        by_cases hne : s'.old t i = s.old t i
        · rw [hne]
        · exact Nat.le_of_lt ((hold i).level_lt hne)
      simp only [Help.rank, hrest, hcap]
      omega
  | mark c i found =>
      simp only [Help.rank, hrest, hcap]
      by_cases hne : s'.old t i = s.old t i
      · rw [hne]
      · have hlevel := (hold i).level_lt hne
        split_ifs <;> omega
  | getKey c i =>
      simp only [Help.rank, hrest, hcap, Nat.le_refl]
  | load c i key =>
      simp only [Help.rank, hrest, hcap, Nat.le_refl]
  | insert c i key p =>
      simp only [Help.rank, hrest]
      cases p with
      | inc t' step => cases step <;> exact Nat.le_refl _
      | read t' j | cas t' j | reread t' j =>
          obtain ⟨rfl, -⟩ := hok.2
          simp only [Probe.rank, hcap, Nat.le_refl]

/-- The step of a thread that works on a chunk. -/
theorem Effect.rank_lt (hinv : Inv s done) {tid : Tid} {op : Op} {key : Key} {k : After} {t : Nat}
    {h : Help} {pc' : Pc} (hth : s.thread tid = .running op key (.help k t h))
    (hpos : h.position ≠ none) (he : Effect s tid op key (.help k t h) s' pc') :
    (Thread.running op key pc').rank s' t < h.rank s t := by
  have hok : HelpOk s t h := by
    have hthread := hinv.threadOk tid
    rw [hth] at hthread
    exact hthread.help.2
  cases he with
  | quiet hq =>
      cases hq with
      | helpTest => exact absurd rfl hpos
      | helpWait _ => exact absurd rfl hpos
      | helpToTest _ => exact absurd rfl hpos
      | helpToLoad _ => exact absurd rfl hpos
      | @helpRead _ _ c i =>
          simp only [Thread.rank, Help.rank, if_true]
          omega
      | helpMarkFailed hne =>
          simp only [Thread.rank, Help.rank, if_neg hne]
          omega
      | helpKey hkey =>
          simp only [Thread.rank, Help.rank]
          omega
      | helpLoad hr =>
          -- the insert probes the table whose migration this is
          obtain ⟨hlt, rfl⟩ := reinsertAt_ok hr
          obtain ⟨rfl, -⟩ := hinv.working hth rfl
          simp only [Thread.rank, Help.rank, Probe.rank]
          omega
      | helpEmpty hempty =>
          simp only [Thread.rank, Help.rank, Probe.rank]
          omega
      | helpCasFailed hfull =>
          simp only [Thread.rank, Help.rank, Probe.rank]
          omega
      | helpReadNext _ _ hr =>
          obtain ⟨hlt, rfl⟩ := reinsertAt_ok hr
          simp only [Thread.rank, Help.rank, Probe.rank]
          omega
      | helpRereadNext _ hr =>
          obtain ⟨hlt, rfl⟩ := reinsertAt_ok hr
          simp only [Thread.rank, Help.rank, Probe.rank]
          omega
  | @helpCount _ _ i key' c t' step step' ac hinc =>
      exact Nat.add_lt_add_left (incStep_rank hinc) (rest s t c i)
  | @helpCounted _ _ i key' c t' step ac hinc =>
      have hstep : 0 < (Probe.inc t' step).rank s := by
        cases step <;> exact Nat.succ_pos _
      have hnext : (migrateAt s t c (i + 1)).rank s t < rest s t c i + (Probe.inc t' step).rank s :=
        Nat.lt_of_le_of_lt (rank_migrateAt s t c i) (Nat.lt_add_of_pos_right hstep)
      have hsame : (migrateAt s t c (i + 1)).rank (s.setCounter .insertIfAbsent t' ac) t
          = (migrateAt s t c (i + 1)).rank s t := Help.rank_congr rfl rfl
      rw [← hsame] at hnext
      exact hnext
  | @skip _ _ c i hdead =>
      have hnext : (migrateAt s t c (i + 1)).rank s t < rest s t c i + (3 * s.currCapacity t + 5) :=
        Nat.lt_of_le_of_lt (rank_migrateAt s t c i) (Nat.lt_add_of_pos_right (Nat.succ_pos _))
      exact hnext
  | claim _ => exact absurd rfl hpos
  | claimNone _ => exact absurd rfl hpos
  | @mark _ _ c i =>
      show rest s t c i + (3 * s.currCapacity t + 5) < _
      simp only [Help.rank, if_true]
      omega
  | @reinsert _ _ c i key' t' j hempty =>
      obtain ⟨-, rfl, -, hlt, -⟩ := hok
      show rest s t' c i + 3 < rest s t' c i + (3 * (s.currCapacity t' - j) + 2)
      omega
  | finish => exact Nat.one_pos

/-- **One step of anyone**: a step of the thread itself brings it nearer to the
end of its chunk, and a step of another thread does not take it further away. -/
theorem Transition.rank (hinv : Inv s done) {a : Action} (ht : Transition s a s') {t d : Nat}
    {tid : Tid} (hd : holds s t tid = some d) :
    (s'.thread tid).rank s' t + (if a = .step tid then 1 else 0) ≤ (s.thread tid).rank s t := by
  obtain ⟨op, key, k, h, hth, hpos⟩ := holding hd
  have hok : PcOk s op key.val (.help k t h) := by
    have hthread := hinv.threadOk tid
    rw [hth] at hthread
    exact hthread
  have hlater : h.rank s' t ≤ h.rank s t :=
    hok.help.2.rank_later hinv.shape (hinv.later ht) hok.help.1
  -- a step of another thread
  have hother : s'.thread tid = s.thread tid → a ≠ .step tid →
      (s'.thread tid).rank s' t + (if a = .step tid then 1 else 0)
        ≤ (s.thread tid).rank s t := by
    intro hsame hne
    rw [hsame, hth, if_neg hne]
    exact hlater
  cases ht with
  | @invoke v op' key' hidle =>
      have hv : v ≠ tid := by
        rintro rfl
        exact Thread.noConfusion (hidle.symm.trans hth)
      exact hother (by rw [goto_thread, if_neg hv.symm]) (by simp)
  | @ret v op' key' result hret =>
      have hv : v ≠ tid := by
        rintro rfl
        rw [hth] at hret
        exact Pc.noConfusion (Thread.running.inj hret).2.2
      exact hother (by rw [goto_thread, if_neg hv.symm]) (fun heq => hv (Action.step.inj heq))
  | @call v op' key' pc pc' s₁ hrun he =>
      by_cases hv : v = tid
      · subst hv
        rw [hth] at hrun
        obtain ⟨rfl, rfl, rfl⟩ := Thread.running.inj hrun
        have hlt := he.rank_lt hinv hth hpos
        have hgoto : (Thread.running op key pc').rank (s₁.goto v (.running op key pc')) t
            = (Thread.running op key pc').rank s₁ t := Thread.rank_congr rfl rfl
        rw [goto_thread, if_pos rfl, if_pos rfl, hth, hgoto]
        exact hlt
      · exact hother (by rw [goto_thread, if_neg (Ne.symm hv), he.thread])
          (fun heq => hv (Action.step.inj heq))

end Step

/-! ## §3. A whole run. -/

section WaitFree

variable {n c : Nat}

/-- A thread that holds a chunk now and held it before has held it all along. -/
theorem holds_between (hc : 0 < c) (r : Run (system n c)) {i m j : Nat} (him : i ≤ m) (hmj : m ≤ j)
    (hj : j ≤ r.len) {t d : Nat} {tid : Tid} (hi : holds (r.state i) t tid = some d)
    (hd : holds (r.state j) t tid = some d) : holds (r.state m) t tid = some d := by
  induction j, hmj using Nat.le_induction with
  | base => exact hd
  | succ j hmj ih =>
      apply ih (Nat.le_of_succ_le hj)
      rcases (run_transition hj).holds_of hd with hbefore | hclaims
      · exact hbefore
      · rw [not_claims_of_holds hc (Nat.le_trans him hmj) hj hi] at hclaims
        exact absurd hclaims (by simp)

/-- **`migrate` is wait-free**: whatever the other threads do, a thread works on
a chunk for a bounded number of its own steps. -/
theorem migrate_waitFree (n c : Nat) (hc : 0 < c) (r : Run (system n c)) {i j : Nat} (hij : i ≤ j)
    (hj : j ≤ r.len) {t d : Nat} {tid : Tid} (hi : holds (r.state i) t tid = some d)
    (hd : holds (r.state j) t tid = some d) :
    r.count (fun _ a => decide (a = .step tid)) j
      ≤ r.count (fun _ a => decide (a = .step tid)) i
        + 4096 * (3 * (r.state i).currCapacity t + 13) + 1 := by
  -- the rank pays for the steps
  have hpaid : r.count (fun _ a => decide (a = .step tid)) j
        + ((r.state j).thread tid).rank (r.state j) t
      ≤ r.count (fun _ a => decide (a = .step tid)) i
        + ((r.state i).thread tid).rank (r.state i) t := by
    induction j, hij using Nat.le_induction with
    | base => exact Nat.le_refl _
    | succ j hle ih =>
        have hbefore := holds_between hc r hle (Nat.le_succ j) hj hi hd
        have hsum := ih (Nat.le_of_succ_le hj) hbefore
        obtain ⟨done, hinv⟩ := run_inv hc (Nat.le_of_succ_le hj)
        have hstep := (run_transition hj).rank hinv hbefore
        show r.count _ j + (if decide (r.act j = .step tid) = true then 1 else 0) + _ ≤ _
        simp only [decide_eq_true_eq]
        omega
  obtain ⟨done, hinv⟩ := run_inv hc (Nat.le_trans hij hj)
  obtain ⟨op, key, k, h, hth, -⟩ := holding hi
  have hok : HelpOk (r.state i) t h := by
    have hthread := hinv.threadOk tid
    rw [hth] at hthread
    exact hthread.help.2
  have hfirst : ((r.state i).thread tid).rank (r.state i) t
      ≤ 4096 * (3 * (r.state i).currCapacity t + 13) + 2 := by
    rw [hth]
    exact rank_le hok
  have hlast : 0 < ((r.state j).thread tid).rank (r.state j) t := by
    obtain ⟨op', key', k', h', hth', hpos'⟩ := holding hd
    rw [hth']
    exact rank_pos hpos'
  omega

set_option maxRecDepth 100000 in
/-- Thread 5 moves the 52 buckets of the first table. -/
theorem migrate_waitFree_expanding : ∃ r : Run (system 6 52),
    holds (r.state 1863) 1 5 = some 0 ∧ holds (r.state 2039) 1 5 = some 0
      ∧ r.count (fun _ a => decide (a = .step 5)) 2039
        ≤ r.count (fun _ a => decide (a = .step 5)) 1863
          + 4096 * (3 * (r.state 1863).currCapacity 1 + 13) + 1 := by
  have hrun : ((system 6 52).exec (init 6 52) expandingActions).isSome = true := by
    decide +kernel
  have hlen : expandingActions.length = 2059 := by decide +kernel
  have hi : holds ((system 6 52).after (expandingActions.take 1863)) 1 5 = some 0 := by
    decide +kernel
  have hd : holds ((system 6 52).after (expandingActions.take 2039)) 1 5 = some 0 := by
    decide +kernel
  obtain ⟨r, hr, hstate⟩ : ∃ r : Run (system 6 52), r.len = expandingActions.length
      ∧ ∀ m, r.state m = (system 6 52).after (expandingActions.take m) :=
    ⟨Run.ofActions (system 6 52) expandingActions (.step 0) hrun, rfl, fun _ => rfl⟩
  rw [← hstate] at hi hd
  exact ⟨r, hi, hd, migrate_waitFree 6 52 (by decide) r (by decide) (by omega) hi hd⟩

end WaitFree

/-! ## §4. The threads that wait. -/

section Waits

variable {s s' : State} {done : Nat → Finset Nat}

/-- A thread waits for a table only after it has seen all its chunks taken. -/
def Waits (s : State) : Prop :=
  ∀ tid op key k t, s.thread tid = .running op key (.help k t .wait) →
    s.total t ≤ s.chunksClaimed t

theorem Transition.chunksClaimed_le {a : Action} (ht : Transition s a s') {t : Nat}
    (hle : t ≤ s.currentTable) : s.chunksClaimed t ≤ s'.chunksClaimed t := by
  have hclaim : ∀ u, s.chunksClaimed t
      ≤ Function.update s.chunksClaimed u (s.chunksClaimed u + 1) t := by
    intro u
    by_cases hu : t = u
    · subst hu
      rw [Function.update_self]
      omega
    · rw [Function.update_of_ne hu]
  cases ht with
  | invoke _ _ _ => exact Nat.le_refl _
  | ret _ => exact Nat.le_refl _
  | call _ he =>
      cases he with
      | @claim _ u _ => exact hclaim u
      | @claimNone _ u _ => exact hclaim u
      | @publish newCap =>
          have hne : t ≠ s.currentTable + 1 := by omega
          show _ ≤ Function.update s.chunksClaimed (s.currentTable + 1) 0 t
          rw [Function.update_of_ne hne]
      | _ => exact Nat.le_refl _

/-- Who starts to wait has just read `chunksClaimed`. -/
theorem Effect.to_wait {tid : Tid} {op : Op} {key : Key} {pc : Pc} {k : After} {t : Nat}
    (he : Effect s tid op key pc s' (.help k t .wait)) :
    pc = .help k t .wait ∨ pc = .help k t .test ∧ s.total t ≤ s.chunksClaimed t := by
  have hmigrate : ∀ u c i, migrateAt s u c i ≠ .wait := by
    intro u c i
    unfold migrateAt
    split <;> simp
  have hiterate : ∀ u i pc', iterate s op u i = .ok pc' → pc' ≠ .help k t .wait := by
    rintro u i pc' hi rfl
    rcases iterate_ok hi with ⟨-, heq⟩ | ⟨-, -, heq⟩
    · simp at heq
    · simp at heq
  have hreinsert : ∀ c i key' u j h, reinsertAt s c i key' u j = .ok h → h ≠ .wait := by
    rintro c i key' u j h hr rfl
    exact absurd (reinsertAt_ok hr).2 (by simp)
  generalize hpc : Pc.help k t .wait = pc' at he
  cases he with
  | quiet hq =>
      cases hq with
      | @helpTest k' u =>
          obtain ⟨rfl, rfl, hh⟩ := Pc.help.inj hpc
          split at hh
          · exact absurd hh (by simp)
          · next hge => exact Or.inr ⟨rfl, Nat.le_of_not_lt hge⟩
      | helpWait _ =>
          obtain ⟨rfl, rfl, -⟩ := Pc.help.inj hpc
          exact Or.inl rfl
      | load hi => exact absurd hpc.symm (hiterate _ _ _ hi)
      | readNext _ _ _ hi => exact absurd hpc.symm (hiterate _ _ _ hi)
      | rereadNext _ _ hi => exact absurd hpc.symm (hiterate _ _ _ hi)
      | helpLoad hr => exact absurd (Pc.help.inj hpc).2.2.symm (hreinsert _ _ _ _ _ _ hr)
      | helpReadNext _ _ hr => exact absurd (Pc.help.inj hpc).2.2.symm (hreinsert _ _ _ _ _ _ hr)
      | helpRereadNext _ hr => exact absurd (Pc.help.inj hpc).2.2.symm (hreinsert _ _ _ _ _ _ hr)
      | _ => exact absurd hpc (by simp)
  | helpCounted _ => exact absurd (Pc.help.inj hpc).2.2.symm (hmigrate _ _ _)
  | skip _ => exact absurd (Pc.help.inj hpc).2.2.symm (hmigrate _ _ _)
  | claim _ => exact absurd (Pc.help.inj hpc).2.2.symm (hmigrate _ _ _)
  | _ => exact absurd hpc (by simp)

theorem Waits.transition (h : Waits s) (hinv : Inv s done) {a : Action}
    (ht : Transition s a s') : Waits s' := by
  have hkeep : ∀ t ≤ s.currentTable, s.total t ≤ s.chunksClaimed t →
      s'.total t ≤ s'.chunksClaimed t := by
    intro t hle hall
    have htotal : s'.total t = s.total t := by
      unfold State.total
      rw [(hinv.later ht).oldCapacity hle]
    rw [htotal]
    exact Nat.le_trans hall (ht.chunksClaimed_le hle)
  have hsame : ∀ v op key k t, s.thread v = .running op key (.help k t .wait) →
      s'.total t ≤ s'.chunksClaimed t := by
    intro v op key k t hv
    have hok := hinv.threadOk v
    rw [hv] at hok
    exact hkeep t (PcOk.help hok).1 (h v op key k t hv)
  intro v op key k t hv
  cases ht with
  | @invoke tid op' key' hidle =>
      rw [goto_thread] at hv
      split at hv
      · exact absurd hv (by simp)
      · exact hsame v op key k t hv
  | @ret tid op' key' result hret =>
      rw [goto_thread] at hv
      split at hv
      · exact absurd hv (by simp)
      · exact hsame v op key k t hv
  | @call tid op' key' pc pc' s₁ hrun he =>
      rw [goto_thread] at hv
      split at hv
      · obtain ⟨rfl, rfl, rfl⟩ := Thread.running.inj hv
        have hok := hinv.threadOk tid
        rw [hrun] at hok
        rcases he.to_wait with rfl | ⟨rfl, hall⟩
        · exact hsame tid _ _ _ _ hrun
        · exact hkeep t (PcOk.help hok).1 hall
      · rw [he.thread] at hv
        exact hsame v op key k t hv

/-- **Who waits, waits for a worker**: in every reachable state a thread that
waits for a table to be complete is held up by one that works on a chunk of it. -/
theorem waits_for_worker (n c : Nat) (hc : 0 < c) (s : State) (hr : Reachable (system n c) s)
    {tid : Tid} {op : Op} {key : Key} {k : After} {t : Nat}
    (hth : s.thread tid = .running op key (.help k t .wait)) (hnot : ¬ s.Complete t) :
    t = s.currentTable ∧ ∃ v d, v ≠ tid ∧ holds s t v = some d := by
  have hboth : (∃ done, Inv s done) ∧ Waits s := by
    refine Reach.induct (P := fun s => (∃ done, Inv s done) ∧ Waits s) ?_ ?_ hr
    · exact ⟨⟨_, init_inv hc⟩, fun tid op key k t h => absurd h (by simp [system, init])⟩
    · rintro s₁ a s₂ - ⟨⟨done, hinv⟩, hwaits⟩ - hnext
      have htrans := next_transition hnext
      exact ⟨hinv.transition htrans, hwaits.transition hinv htrans⟩
  obtain ⟨⟨done, hinv⟩, hwaits⟩ := hboth
  have hok := hinv.threadOk tid
  rw [hth] at hok
  have hle := (PcOk.help hok).1
  refine ⟨?_, ?_⟩
  · by_contra hne
    exact hnot (hinv.complete t (by omega))
  · obtain ⟨v, d, hv⟩ := (hinv.sharing t hle).exists_held (hwaits tid op key k t hth) hnot
    refine ⟨v, d, ?_, hv⟩
    rintro rfl
    obtain ⟨op', key', k', h, hth', hpos⟩ := holding hv
    rw [hth] at hth'
    obtain ⟨-, -, hpc⟩ := Thread.running.inj hth'
    obtain ⟨-, -, rfl⟩ := Pc.help.inj hpc
    exact hpos rfl

set_option maxRecDepth 100000 in
/-- Thread 1 starts again while thread 5 is moving the keys. -/
theorem waits_for_worker_expanding : ∃ s, Reachable (system 6 52) s ∧ ¬ s.Complete 1
    ∧ 1 = s.currentTable ∧ ∃ v d, v ≠ 1 ∧ holds s 1 v = some d := by
  have hrun : ((system 6 52).exec (init 6 52)
      (expandingActions.take 2039 ++ List.replicate 3 (.step 1))).any (fun s =>
        decide (s.thread 1 = .running .erase ⟨32, by decide, by decide⟩ (.help (.test 0) 1 .wait)
          ∧ ¬ s.Complete 1)) = true := by
    decide +kernel
  rw [Option.any_eq_true] at hrun
  obtain ⟨s, hexec, hfacts⟩ := hrun
  obtain ⟨hth, hnot⟩ := of_decide_eq_true hfacts
  have hreach : Reachable (system 6 52) s := Reach.exec _ Reach.init hexec
  exact ⟨s, hreach, hnot, waits_for_worker 6 52 (by decide) s hreach hth hnot⟩

end Waits

end MultiCore.AlgorithmD.Concurrent
