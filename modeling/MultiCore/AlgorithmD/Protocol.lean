/-
  MultiCore.AlgorithmD.Protocol — what the migration of assignment 4 does, over
  whole runs.

  `claims` and `reinserts` name the two steps that have to be taken exactly
  once: taking chunk `c` of table `t`, and storing a key of the old table in
  table `t`.  Each leaves a trace in the state (`Claimed`, `Reinserted`), so
  that the number of such steps in a run is read off its last state
  (`Run.count_eq_ite`).

  Main results:
    * `Protocol` — the protocol: marked buckets are frozen, `migrate` works on
      the current table, every chunk has one worker, no client stores into a
      table before its migration is over, every key of the old table is moved
      once, and the assertion of `insertIfAbsent` cannot fail;
    * `migration_protocol` — every run keeps it.
-/
import MultiCore.AlgorithmD.KeySet

namespace MultiCore.AlgorithmD.Concurrent

open MultiCore.Lib MultiCore.Util

/-! ## §1. The steps of the protocol. -/

/-- Action `a` takes chunk `c` of table `t`: its fetch-and-add of
`t->chunksClaimed` returns `c`, and there is such a chunk. -/
def claims (t c : Nat) (s : State) : Action → Bool
  | .invoke _ _ _ => false
  | .step tid =>
      match s.thread tid with
      | .running _ _ (.help _ t' .claim) => decide (t' = t ∧ s.chunksClaimed t = c ∧ c < s.total t)
      | _ => false

/-- Action `a` is the CAS by which a migrating thread inserts `key` into table
`t`, and it succeeds. -/
def reinserts (t key : Nat) (s : State) : Action → Bool
  | .invoke _ _ _ => false
  | .step tid =>
      match s.thread tid with
      | .running _ _ (.help _ _ (.insert _ _ key' (.cas t' j))) =>
          decide (t' = t ∧ key' = key ∧ s.data t (s.index t key j) = Bucket.plain EMPTY)
      | _ => false

/-- The table that a probe loop runs over. -/
def Probe.table : Probe → Nat
  | .read t _ | .cas t _ | .reread t _ | .inc t _ => t

/-- The migration protocol, along a run: `holds s t tid = some c` says that
thread `tid` is in `migrate(tid, t, c)`, or back from it and about to increment
`t->chunksDone`. -/
structure Protocol {n c : Nat} (r : Run (system n c)) : Prop where
  /-- Once a bucket is marked its value never changes again. -/
  marked : ∀ i j, i ≤ j → j ≤ r.len → ∀ t ≤ (r.state i).currentTable, ∀ x,
    ((r.state i).data t x).isMarked = true → (r.state j).data t x = (r.state i).data t x
  /-- While a thread executes `migrate` on `t`, `currentTable` is `t`. -/
  current : ∀ i ≤ r.len, ∀ t tid d, holds (r.state i) t tid = some d →
    (r.state i).currentTable = t
  /-- So what it inserts goes into `t`, though `insertIfAbsent` loads
  `currentTable` for itself. -/
  target : ∀ i ≤ r.len, ∀ tid op key k t d x key' p,
    (r.state i).thread tid = .running op key (.help k t (.insert d x key' p)) → p.table = t
  /-- No chunk is taken twice. -/
  claimed_once : ∀ i ≤ r.len, ∀ t d, r.count (claims t d) i ≤ 1
  /-- Every chunk is migrated by exactly one thread. -/
  one_worker : ∀ i ≤ r.len, ∀ t ≤ (r.state i).currentTable, (r.state i).Complete t →
    ∀ d < (r.state i).total t, ∃! tid, ∃ j ≤ i, holds (r.state j) t tid = some d
  /-- Until then as well, no two threads migrate one chunk. -/
  worker_unique : ∀ i ≤ r.len, ∀ j ≤ r.len, ∀ t tid tid' d,
    holds (r.state i) t tid = some d → holds (r.state j) t tid' = some d → tid = tid'
  /-- Before `t->chunksDone` is the number of chunks, a step that changes a
  bucket of `t->currData` is the insert of a migrating thread. -/
  clients : ∀ i < r.len, ∀ t ≤ (r.state i).currentTable, ¬ (r.state i).Complete t → ∀ x,
    (r.state (i + 1)).data t x ≠ (r.state i).data t x →
    ∃ key, reinserts t key (r.state i) (r.act i) = true
  /-- No key is inserted into a new table twice. -/
  reinserted_once : ∀ i ≤ r.len, ∀ t key, IsKey key → r.count (reinserts t key) i ≤ 1
  /-- Each key live in the old table is inserted into the new one exactly once,
  and no other key is. -/
  reinserted : ∀ i ≤ r.len, ∀ t < (r.state i).currentTable, (r.state i).Complete (t + 1) →
    ∀ key, IsKey key → (r.count (reinserts (t + 1) key) i = 1 ↔ (r.state i).Live t key)
  /-- The assertion that a migrating thread does not find its key cannot fail. -/
  found : ∀ i ≤ r.len, ∀ tid op key pc, (r.state i).thread tid = .running op key pc →
    step (r.state i) tid op key pc ≠ .error .migrateFound

/-! ## §2. Who works on a chunk. -/

section Chunks

variable {s s' : State} {done : Nat → Finset Nat} {a : Action}

/-- The trace of `claims t d`. -/
def Claimed (s : State) (t d : Nat) : Prop :=
  t ≤ s.currentTable ∧ d < s.chunksClaimed t ∧ d < s.total t

instance (s : State) (t d : Nat) : Decidable (Claimed s t d) :=
  inferInstanceAs (Decidable (_ ∧ _ ∧ _))

theorem Inv.claimed_of_holds (h : Inv s done) {t : Nat} {tid : Tid} {d : Nat}
    (hd : holds s t tid = some d) : Claimed s t d := by
  have ht : t ≤ s.currentTable := by
    by_contra hlt
    have hnone := position_none_of_lt (h.threadOk tid) (Nat.lt_of_not_le hlt)
    unfold holds at hd
    rw [hnone] at hd
    exact absurd hd (by simp)
  have hheld := (h.sharing t ht).held_lt tid d hd
  exact ⟨ht, hheld.2.1, hheld.1⟩

/-- A step that leaves the tables and `chunksClaimed` alone. -/
theorem Claimed.congr {t d : Nat} (hcur : s'.currentTable = s.currentTable)
    (htable : s'.table = s.table) (hclaimed : s'.chunksClaimed = s.chunksClaimed) :
    Claimed s' t d ↔ Claimed s t d := by
  unfold Claimed State.total State.oldCapacity
  rw [hcur, htable, hclaimed]

/-- No step of another kind takes a chunk. -/
theorem claims_eq_false {tid : Tid} {op : Op} {key : Key} {pc : Pc} (t d : Nat)
    (hth : s.thread tid = .running op key pc) (hpc : ∀ k t', pc ≠ .help k t' .claim) :
    claims t d s (.step tid) = false := by
  unfold claims
  simp only [hth]
  split
  · next heq =>
    simp only [Thread.running.injEq] at heq
    exact absurd heq.2.2 (hpc _ _)
  · rfl

/-- The chunks taken before `t` was published are none, and publishing another
table takes none. -/
theorem claimed_publish {t d newCap : Nat} :
    Claimed (s.publish s.currentTable newCap) t d ↔ Claimed s t d := by
  unfold Claimed
  have hcur : (s.publish s.currentTable newCap).currentTable = s.currentTable + 1 := rfl
  rw [hcur]
  by_cases ht : t ≤ s.currentTable
  · rw [publish_total ht, (publish_old ht).2.2.1]
    constructor
    · intro h
      exact ⟨ht, h.2⟩
    · intro h
      exact ⟨Nat.le_succ_of_le ht, h.2⟩
  · constructor
    · intro h
      obtain rfl : t = s.currentTable + 1 := by omega
      have hzero := (@publish_new s newCap).2.2.1
      omega
    · intro h
      exact absurd h.1 ht

/-- **A chunk is taken when its number is returned, and by no other step.** -/
theorem Transition.claimed (h : Inv s done) (ht : Transition s a s') (t d : Nat) :
    Traces (claims t d) (Claimed · t d) s a s' := by
  -- what a fetch-and-add of `chunksClaimed` tells
  have hclaims : ∀ {tid : Tid} {op : Op} {key : Key} {k : After} {t' : Nat},
      s.thread tid = .running op key (.help k t' .claim) →
      claims t d s (.step tid) = decide (t' = t ∧ s.chunksClaimed t = d ∧ d < s.total t) := by
    intro tid op key k t' hth
    unfold claims
    simp only [hth]
  cases ht with
  | invoke op key hth => exact Traces.same rfl Iff.rfl
  | ret hth => exact Traces.same (claims_eq_false t d hth (by simp)) Iff.rfl
  | @call tid op key pc pc' s₁ hth he =>
      cases he with
      | quiet hq =>
          refine Traces.same (claims_eq_false t d hth ?_) Iff.rfl
          intro k t' hpc
          rw [hpc] at hq
          cases hq
      | publish => exact Traces.same (claims_eq_false t d hth (by simp)) claimed_publish
      | @claim k t' hlt =>
          -- the thread has found table `t'`
          have hle : t' ≤ s.currentTable := by
            have hok := h.threadOk tid
            rw [hth] at hok
            exact (PcOk.help hok).1
          constructor
          · intro hc
            rw [hclaims hth] at hc
            obtain ⟨rfl, rfl, htot⟩ := of_decide_eq_true hc
            refine ⟨fun hb => Nat.lt_irrefl _ hb.2.1, hle, ?_, htot⟩
            show s.chunksClaimed t' < Function.update s.chunksClaimed t' _ t'
            rw [Function.update_self]
            exact Nat.lt_succ_self _
          · intro hc
            rw [hclaims hth] at hc
            have hne := of_decide_eq_false hc
            show (t ≤ s.currentTable
              ∧ d < Function.update s.chunksClaimed t' (s.chunksClaimed t' + 1) t ∧ d < s.total t) ↔ _
            unfold Claimed
            by_cases htt : t = t'
            · subst htt
              rw [Function.update_self]
              omega
            · rw [Function.update_of_ne htt]
      | @claimNone k t' hge =>
          apply Traces.same
          · rw [hclaims hth, decide_eq_false_iff_not]
            intro hc
            obtain ⟨rfl, hd, hlt⟩ := hc
            omega
          · show (t ≤ s.currentTable
              ∧ d < Function.update s.chunksClaimed t' (s.chunksClaimed t' + 1) t ∧ d < s.total t) ↔ _
            unfold Claimed
            by_cases htt : t = t'
            · subst htt
              rw [Function.update_self]
              omega
            · rw [Function.update_of_ne htt]
      | _ => exact Traces.same (claims_eq_false t d hth (by simp)) Iff.rfl

/-- What the thread holds after it has moved on from bucket to bucket. -/
theorem position_advance {t t' c d i n : Nat} {op : Op} {key : Key} {k : After}
    (hpos : Thread.position t (.running op key (.help k t' (migrateAt s t' c i))) = some (d, n)) :
    t' = t ∧ d = c := by
  by_cases htt : t' = t
  · obtain ⟨n', hn', -⟩ := position_migrateAt s t' c i
    rw [htt, Thread.position_help, ← htt, hn', Option.some.injEq, Prod.mk.injEq] at hpos
    exact ⟨htt, hpos.1.symm⟩
  · rw [Thread.position_help_ne htt] at hpos
    exact absurd hpos (by simp)

theorem holds_iff {t d : Nat} {tid : Tid} :
    holds s t tid = some d ↔ ∃ n, (s.thread tid).position t = some (d, n) := by
  unfold holds
  rw [Option.map_eq_some_iff]
  constructor
  · rintro ⟨⟨d', n⟩, hpos, rfl⟩
    exact ⟨n, hpos⟩
  · rintro ⟨n, hpos⟩
    exact ⟨(d, n), hpos, rfl⟩

/-- A thread works on a chunk that it has just taken, or had before. -/
theorem Effect.holds {tid : Tid} {op : Op} {key : Key} {pc pc' : Pc} {t d n : Nat}
    (hth : s.thread tid = .running op key pc) (he : Effect s tid op key pc s' pc')
    (hpos : Thread.position t (.running op key pc') = some (d, n)) :
    (∃ m, (s.thread tid).position t = some (d, m)) ∨ claims t d s (.step tid) = true := by
  rw [hth]
  cases he with
  | quiet hq =>
      rw [hq.position_eq t] at hpos
      exact Or.inl ⟨n, hpos⟩
  | helpCounted hinc =>
      obtain ⟨rfl, rfl⟩ := position_advance hpos
      exact Or.inl ⟨_, Thread.position_help⟩
  | skip hdead =>
      obtain ⟨rfl, rfl⟩ := position_advance hpos
      exact Or.inl ⟨_, Thread.position_help⟩
  | claim hlt =>
      obtain ⟨rfl, rfl⟩ := position_advance hpos
      right
      unfold claims
      simp only [hth, true_and, decide_eq_true_eq]
      exact hlt
  | @reinsert k t' x y key' u j hempty =>
      by_cases htt : t' = t
      · subst htt
        simp only [Thread.position, Help.position, if_true, Option.some.injEq, Prod.mk.injEq] at hpos
        exact Or.inl ⟨y, by simp [Thread.position, Help.position, hpos.1]⟩
      · rw [Thread.position_help_ne htt] at hpos
        exact absurd hpos (by simp)
  | _ =>
      simp only [Thread.position, Help.position, ite_self] at hpos ⊢
      first
        | exact Or.inl ⟨n, hpos⟩
        | exact absurd hpos (by simp)

theorem Transition.holds_of (ht : Transition s a s') {t d : Nat} {tid : Tid}
    (hd : holds s' t tid = some d) : holds s t tid = some d ∨ claims t d s a = true := by
  rw [holds_iff] at hd
  obtain ⟨n, hpos⟩ := hd
  have hother : ∀ {s₁ : State} {v : Tid} {th : Thread}, s₁.thread = s.thread → v ≠ tid →
      ((s₁.goto v th).thread tid).position t = some (d, n) → holds s t tid = some d := by
    intro s₁ v th hsame hv hp
    rw [goto_thread, if_neg hv.symm, hsame] at hp
    exact holds_iff.mpr ⟨n, hp⟩
  cases ht with
  | @invoke v op key hth =>
      by_cases hv : v = tid
      · rw [goto_thread, if_pos hv.symm] at hpos
        exact absurd hpos (by simp [Thread.position])
      · exact Or.inl (hother rfl hv hpos)
  | @ret v op key result hth =>
      by_cases hv : v = tid
      · rw [goto_thread, if_pos hv.symm] at hpos
        exact absurd hpos (by simp [Thread.position])
      · exact Or.inl (hother rfl hv hpos)
  | @call v op key pc pc' s₁ hth he =>
      by_cases hv : v = tid
      · subst hv
        rw [goto_thread, if_pos rfl] at hpos
        rcases he.holds hth hpos with hm | hc
        · exact Or.inl (holds_iff.mpr hm)
        · exact Or.inr hc
      · exact Or.inl (hother he.thread hv hpos)

/-- Whoever takes a chunk works on it next. -/
theorem Transition.holds_claimed (ht : Transition s a s') {t d : Nat}
    (hc : claims t d s a = true) : ∃ tid, holds s' t tid = some d := by
  cases ht with
  | invoke op key hth => exact absurd hc (by simp [claims])
  | ret hth => exact absurd hc (by simp [claims, hth])
  | @call tid op key pc pc' s₁ hth he =>
      refine ⟨tid, ?_⟩
      by_cases hpc : ∃ k t', pc = .help k t' .claim
      · obtain ⟨k, t', rfl⟩ := hpc
        unfold claims at hc
        simp only [hth, decide_eq_true_eq] at hc
        obtain ⟨rfl, rfl, hlt⟩ := hc
        cases he with
        | quiet hq => cases hq
        | claim _ =>
            rw [holds_iff]
            obtain ⟨m, hm, -⟩ := position_migrateAt s t' (s.chunksClaimed t')
              (startIndex (s.chunksClaimed t'))
            refine ⟨m, ?_⟩
            rw [goto_thread, if_pos rfl, Thread.position_help]
            exact hm
        | claimNone hge => omega
      · rw [claims_eq_false t d hth (fun k t' h => hpc ⟨k, t', h⟩)] at hc
        exact absurd hc (by simp)

end Chunks

/-! ## §3. Chunks, over a run. -/

section Workers

variable {n c : Nat} {r : Run (system n c)}

theorem run_inv (hc : 0 < c) {i : Nat} (hi : i ≤ r.len) : ∃ done, Inv (r.state i) done :=
  (reachable_inv hc (r.reachable i hi)).1

theorem run_transition {i : Nat} (hi : i < r.len) :
    Transition (r.state i) (r.act i) (r.state (i + 1)) := next_transition (r.step i hi)

/-- The number of steps that have taken chunk `d` of table `t`. -/
theorem count_claims (hc : 0 < c) {i : Nat} (hi : i ≤ r.len) (t d : Nat) :
    r.count (claims t d) i = if Claimed (r.state i) t d then 1 else 0 := by
  refine r.count_eq_ite (F := (Claimed · t d)) ?_ ?_ hi
  · intro h
    exact absurd h.2.1 (Nat.not_lt_zero d)
  · intro j hj
    obtain ⟨done, hinv⟩ := run_inv hc (Nat.le_of_lt hj)
    exact (run_transition hj).claimed hinv t d

theorem claims_once (hc : 0 < c) {i : Nat} (hi : i ≤ r.len) (t d : Nat) :
    r.count (claims t d) i ≤ 1 := by
  rw [count_claims hc hi]
  split <;> omega

/-- A chunk that somebody has worked on is not taken again. -/
theorem not_claims_of_holds (hc : 0 < c) {i j : Nat} (hij : i ≤ j) (hj : j < r.len) {t d : Nat}
    {tid : Tid} (hd : holds (r.state i) t tid = some d) :
    claims t d (r.state j) (r.act j) = false := by
  obtain ⟨done, hinv⟩ := run_inv hc (show i ≤ r.len by omega)
  have hone : r.count (claims t d) i = 1 := by
    rw [count_claims hc (by omega), if_pos (hinv.claimed_of_holds hd)]
  have hmono := r.count_mono (claims t d) hij
  have hle := claims_once hc hj t d
  unfold Run.count at hle
  by_contra hne
  rw [if_pos (by simpa using hne)] at hle
  omega

/-- **One worker for each chunk**, over the whole run. -/
theorem worker_eq (hc : 0 < c) {i j : Nat} (hij : i ≤ j) (hj : j ≤ r.len) {t d : Nat}
    {v w : Tid} (hv : holds (r.state i) t v = some d) (hw : holds (r.state j) t w = some d) :
    v = w := by
  induction j, hij using Nat.le_induction with
  | base =>
      obtain ⟨done, hinv⟩ := run_inv hc hj
      have ht := (hinv.claimed_of_holds hv).1
      exact (hinv.sharing t ht).unique v w d hv hw
  | succ j hij ih =>
      -- `w` has not taken the chunk just now, so it held it before
      rcases (run_transition hj).holds_of hw with hbefore | hclaims
      · exact ih (Nat.le_of_succ_le hj) hbefore
      · rw [not_claims_of_holds hc hij hj hv] at hclaims
        exact absurd hclaims (by simp)

/-- Once a migration is over, each of its chunks has had a worker. -/
theorem exists_worker (hc : 0 < c) {i : Nat} (hi : i ≤ r.len) {t d : Nat}
    (ht : t ≤ (r.state i).currentTable) (hcomp : (r.state i).Complete t)
    (hd : d < (r.state i).total t) : ∃ tid, ∃ j ≤ i, holds (r.state j) t tid = some d := by
  obtain ⟨done, hinv⟩ := run_inv hc hi
  have hsharing := hinv.sharing t ht
  have hdone : d ∈ done t := by
    rw [hsharing.done_eq_range hcomp]
    exact Finset.mem_range.mpr hd
  have hclaimed : Claimed (r.state i) t d := ⟨ht, (hsharing.done_lt d hdone).2, hd⟩
  have hcount : r.count (claims t d) i ≠ 0 := by
    rw [count_claims hc hi, if_pos hclaimed]
    exact Nat.one_ne_zero
  obtain ⟨j, hj, hclaims⟩ := r.exists_of_count hcount
  obtain ⟨tid, htid⟩ := (run_transition (Nat.lt_of_lt_of_le hj hi)).holds_claimed hclaims
  exact ⟨tid, j + 1, hj, htid⟩

end Workers

/-! ## §4. Keys on their way. -/

section Keys

variable {s s' : State} {done : Nat → Finset Nat} {a : Action}

/-- A key that a thread is still moving is not in the new table yet: the only
bucket it can come from is the one the thread has not settled. -/
theorem Inv.moving_absent (h : Inv s done) {tid : Tid} {op : Op} {key : Key} {k : After}
    {t d x key' : Nat} {p : Probe} (hth : s.thread tid = .running op key
      (.help k t (.insert d x key' p))) (hp : ∀ t' step, p ≠ .inc t' step) :
    ¬ s.Live t key' := by
  have hposition : Help.position (.insert d x key' p) = some (d, x) := by
    cases p with
    | inc t' step => exact absurd rfl (hp t' step)
    | _ => rfl
  obtain ⟨rfl, hnot⟩ := h.working hth hposition
  have hok := h.threadOk tid
  rw [hth] at hok
  obtain ⟨hin, -, hkey, hk⟩ := (PcOk.help hok).2.1
  obtain ⟨hsucc, hold, hcap⟩ := h.pred hnot
  have hpos : (s.thread tid).position s.currentTable = some (d, x) := by
    rw [hth, Thread.position_help]
    exact hposition
  have hheld : holds s s.currentTable tid = some d := holds_iff.mpr ⟨x, hpos⟩
  have hsharing := h.sharing s.currentTable (Nat.le_refl _)
  intro hlive
  obtain ⟨y, hy, hyk⟩ := hlive
  obtain ⟨z, hz, ⟨d', hin', hor⟩, hzk⟩ := h.source hnot y hy (by rw [hyk]; exact hk)
  -- the settled bucket has the same key, so it is bucket `x`
  have hxz : z = x := by
    have hxlt : x < s.oldCapacity s.currentTable := by
      exact Nat.lt_of_lt_of_le hin.2 (endIndex_le d _)
    rw [hcap] at hz hxlt
    have hkeys : ∀ y, (s.old s.currentTable y).getKey = s.keys s.last y := by
      intro y
      rw [← hold]
      rfl
    rw [hkeys] at hzk hkey
    apply (h.shape.placed s.last (by omega)).unique hz hxlt
    · rw [hzk, hyk]
      exact hk
    · rw [hzk, hyk, hkey]
  rw [hxz] at hin' hor
  obtain rfl := hin.unique hin'
  rcases hor with hd | ⟨v, m, hv, hlt⟩
  · exact (hsharing.held_lt tid d hheld).2.2 hd
  · obtain rfl := hsharing.unique v tid d (holds_iff.mpr ⟨m, hv⟩) hheld
    rw [hpos, Option.some.injEq, Prod.mk.injEq] at hv
    omega

/-- What the assertion takes to fail. -/
theorem step_migrateFound {tid : Tid} {op : Op} {key : Key} {pc : Pc}
    (hs : step s tid op key pc = .error .migrateFound) :
    ∃ k t d x key' t' j p, pc = .help k t (.insert d x key' p) ∧ (p = .read t' j ∨ p = .reread t' j)
      ∧ s.data t' (s.index t' key' j) = Bucket.plain key' := by
  have hfull : ∀ {s₁ : State} {d x key' t' j : Nat},
      reinsertAt s₁ d x key' t' j ≠ .error .migrateFound := by
    intro s₁ d x key' t' j herr
    rcases reinsertAt_error herr with he | ⟨he, -⟩ <;> exact absurd he (by simp)
  rcases step_error hs with ⟨k, t, h, rfl, hh⟩ | he | he | he
  · obtain ⟨d, x, key', ⟨-, herr⟩ | ⟨p, rfl, ⟨s', t', j, -, herr⟩ | ⟨-, t', j, hp, hk⟩⟩⟩ :=
      helpStep_error hh
    · exact absurd herr hfull
    · exact absurd herr hfull
    · exact ⟨k, t, d, x, key', t', j, p, rfl, hp, hk⟩
  · exact absurd he (by simp)
  · exact absurd he (by simp)
  · exact absurd he (by simp)

theorem Inv.found (h : Inv s done) {tid : Tid} {op : Op} {key : Key} {pc : Pc}
    (hth : s.thread tid = .running op key pc) : step s tid op key pc ≠ .error .migrateFound := by
  intro hs
  obtain ⟨k, t, d, x, key', t', j, p, rfl, hp, hdata⟩ := step_migrateFound hs
  have hok := h.threadOk tid
  rw [hth] at hok
  have hprobing : t' = t ∧ Probing s t key' j := by
    have hre := (PcOk.help hok).2.2
    rcases hp with rfl | rfl
    · exact hre
    · exact ⟨hre.1, hre.2.1⟩
  obtain ⟨rfl, hprobing⟩ := hprobing
  refine h.moving_absent hth ?_ ⟨_, hprobing.index_lt, keys_eq hdata⟩
  intro u step hinc
  rcases hp with rfl | rfl <;> exact absurd hinc (by simp)

/-- The trace of `reinserts (t + 1) k`: while table `t + 1` is being filled, the
key is in it; afterwards, the key is one of those that table `t` was left
with. -/
def Reinserted (s : State) (t k : Nat) : Prop :=
  t < s.currentTable ∧ if s.Complete (t + 1) then s.Live t k else s.Live (t + 1) k

theorem reinserts_iff {t k : Nat} {tid : Tid} : reinserts t k s (.step tid) = true ↔
    ∃ op key after t' d x j,
      s.thread tid = .running op key (.help after t' (.insert d x k (.cas t j)))
        ∧ s.data t (s.index t k j) = Bucket.plain EMPTY := by
  simp only [reinserts]
  constructor
  · intro h
    split at h
    · next op key after t' d x key' u j hth =>
      obtain ⟨rfl, rfl, hdata⟩ := of_decide_eq_true h
      exact ⟨op, key, after, t', d, x, j, hth, hdata⟩
    · exact absurd h (by simp)
  · intro h
    obtain ⟨op, key, after, t', d, x, j, hth, hdata⟩ := h
    simp only [hth, true_and]
    exact decide_eq_true hdata

/-- No step of another kind moves a key. -/
theorem reinserts_eq_false {tid : Tid} {op : Op} {key : Key} {pc : Pc} (t k : Nat)
    (hth : s.thread tid = .running op key pc)
    (hpc : ∀ after t' d x j, pc ≠ .help after t' (.insert d x k (.cas t j))) :
    reinserts t k s (.step tid) = false := by
  rw [Bool.eq_false_iff]
  intro h
  obtain ⟨op', key', after, t', d, x, j, hth', -⟩ := reinserts_iff.mp h
  rw [hth, Thread.running.injEq] at hth'
  exact hpc _ _ _ _ _ hth'.2.2

/-- Marking a bucket keeps the keys of its table. -/
theorem live_mark (t i u k : Nat) :
    (s.write (s.table t).oldData i (s.old t i).mark).Live u k ↔ s.Live u k := by
  unfold State.Live
  rw [mark_keys]
  exact Iff.rfl

theorem reinserted_publish (hs : Shape s) {t k newCap : Nat} (hk : IsKey k) :
    Reinserted (s.publish s.currentTable newCap) t k ↔ Reinserted s t k := by
  unfold Reinserted
  have hcur : (s.publish s.currentTable newCap).currentTable = s.currentTable + 1 := rfl
  have hlive : ∀ u ≤ s.currentTable,
      ((s.publish s.currentTable newCap).Live u k ↔ s.Live u k) := by
    intro u hu
    obtain ⟨htable, hdata, -, -⟩ := @publish_old s newCap u hu
    unfold State.Live State.currCapacity State.keys
    rw [htable, hdata]
  rw [hcur]
  rcases Nat.lt_trichotomy t s.currentTable with hlt | rfl | hgt
  · have hcomp : (s.publish s.currentTable newCap).Complete (t + 1) ↔ s.Complete (t + 1) := by
      unfold State.Complete
      rw [publish_total hlt, (publish_old hlt).2.2.2]
    simp only [hcomp, hlive t (Nat.le_of_lt hlt), hlive (t + 1) hlt, hlt, Nat.lt_succ_of_lt hlt]
  · -- the new table is incomplete, and empty
    rw [if_neg (publish_incomplete hs)]
    constructor
    · intro h
      obtain ⟨-, x, -, hx⟩ := h
      change keysOf ((s.publish s.currentTable newCap).data (s.currentTable + 1)) x = k at hx
      rw [(@publish_new s newCap).2.1] at hx
      exact absurd hx.symm hk.1
    · intro h
      exact absurd h.1 (Nat.lt_irrefl _)
  · constructor
    · intro h
      have := h.1
      omega
    · intro h
      have := h.1
      omega

/-- The end of a chunk, or of the whole migration. -/
theorem reinserted_finish (h : Inv s done) (hsmall : s.Small) {tid : Tid} {op : Op} {key : Key}
    {after : After} {t d : Nat} (hth : s.thread tid = .running op key (.help after t (.done d)))
    {u k : Nat} (hk : IsKey k) :
    Reinserted { s with chunksDone := Function.update s.chunksDone t (s.chunksDone t + 1) } u k
      ↔ Reinserted s u k := by
  obtain ⟨rfl, hnot⟩ := h.working hth rfl
  obtain ⟨hsucc, -, -⟩ := h.pred hnot
  show (u < s.currentTable ∧ if Function.update s.chunksDone s.currentTable
    (s.chunksDone s.currentTable + 1) (u + 1) = s.total (u + 1) then s.Live u k
      else s.Live (u + 1) k) ↔ _
  unfold Reinserted
  by_cases hu : u + 1 = s.currentTable
  · have hlast : u = s.last := by omega
    rw [hu, Function.update_self, if_neg hnot]
    split
    · next hend =>
      rw [h.live_settled hnot (h.finish_all hsmall hth hend) hk, ← hlast]
    · exact Iff.rfl
  · rw [Function.update_of_ne hu]
    exact Iff.rfl

/-- A client's CAS hits neither a table that is being filled nor one that has
been emptied. -/
theorem reinserted_cas (h : Inv s done) (hsmall : s.Small) {tid : Tid} {op : Op} {key : Key}
    {t i : Nat} (hth : s.thread tid = .running op key (.probe (.cas t i)))
    (he : s.data t (s.index t key.val i) = expected key.val op) {u k : Nat} {b : Bucket} :
    Reinserted (s.write t (s.index t key.val i) b) u k ↔ Reinserted s u k := by
  have hok := h.threadOk tid
  rw [hth] at hok
  obtain ⟨hp, hcomp, -⟩ := hok
  have hlast := h.last_eq hsmall hp.1 hcomp hp.index_lt (unmarked_of_expected he)
  show (u < s.currentTable ∧ if s.Complete (u + 1) then (s.write t _ b).Live u k
    else (s.write t _ b).Live (u + 1) k) ↔ _
  unfold Reinserted
  constructor <;> intro hr <;> refine ⟨hr.1, ?_⟩ <;> have hlive := hr.2
  all_goals
    split
    · next hc =>
      rw [if_pos hc] at hlive
      -- table `u` has a complete successor
      have hne : u ≠ t := by
        rintro rfl
        unfold State.last at hlast
        split at hlast
        · omega
        · next hcur =>
          have : u + 1 = s.currentTable := by omega
          exact hcur (this ▸ hc)
      simpa only [live_write_of_ne hne] using hlive
    · next hc =>
      rw [if_neg hc] at hlive
      have hne : u + 1 ≠ t := by
        rintro rfl
        exact hc hcomp
      simpa only [live_write_of_ne hne] using hlive

/-- Whoever inserts a moved key fills the current table, which is not the first
and not complete. -/
theorem Inv.reinserts (h : Inv s done) {t k : Nat} (hr : reinserts t k s a = true) :
    t = s.currentTable ∧ 0 < t ∧ ¬ s.Complete t := by
  cases a with
  | invoke tid op key => exact absurd hr (by simp [Concurrent.reinserts])
  | step tid =>
      obtain ⟨op, key, after, t', d, x, j, hth, -⟩ := reinserts_iff.mp hr
      obtain ⟨hcur, hnot⟩ := h.working hth rfl
      have hok := h.threadOk tid
      rw [hth] at hok
      obtain rfl : t = t' := (PcOk.help hok).2.2.1
      have hsucc := (h.pred (hcur ▸ hnot)).1
      exact ⟨hcur, by omega, hnot⟩

/-- The insert of a moved key. -/
theorem reinserted_reinsert (h : Inv s done) {tid : Tid} {op : Op} {key : Key} {after : After}
    {t d x key' t' j : Nat}
    (hth : s.thread tid = .running op key (.help after t (.insert d x key' (.cas t' j))))
    (he : s.data t' (s.index t' key' j) = Bucket.plain EMPTY) {s₁ : State} {th : Thread}
    (hs₁ : s₁ = (s.write t' (s.index t' key' j) (Bucket.plain key')).goto tid th)
    {u k : Nat} (hk : IsKey k) :
    Traces (reinserts (u + 1) k) (Reinserted · u k) s (.step tid) s₁ := by
  obtain ⟨rfl, hnot⟩ := h.working hth rfl
  have hok := h.threadOk tid
  rw [hth] at hok
  obtain ⟨hmoving, rfl, hp⟩ := (PcOk.help hok).2
  have habsent : ¬ s.Live s.currentTable key' := h.moving_absent hth (by simp)
  have hafter : Reinserted s₁ u k ↔ u < s.currentTable ∧
      if s.Complete (u + 1) then (s.write s.currentTable (s.index s.currentTable key' j)
        (Bucket.plain key')).Live u k
      else (s.write s.currentTable (s.index s.currentTable key' j)
        (Bucket.plain key')).Live (u + 1) k := by
    rw [hs₁]
    exact Iff.rfl
  have hreinserts : reinserts (u + 1) k s (.step tid) = true
      ↔ u + 1 = s.currentTable ∧ k = key' := by
    rw [reinserts_iff]
    constructor
    · intro hr
      obtain ⟨op', key₁, after', t₁, d', x', j', hth', -⟩ := hr
      rw [hth] at hth'
      simp only [Thread.running.injEq, Pc.help.injEq, Help.insert.injEq, Probe.cas.injEq] at hth'
      exact ⟨hth'.2.2.2.2.2.2.2.1.symm, hth'.2.2.2.2.2.2.1.symm⟩
    · intro hr
      obtain ⟨hu, rfl⟩ := hr
      rw [hu]
      exact ⟨op, key, after, s.currentTable, d, x, j, hth, he⟩
  constructor
  · intro hr
    obtain ⟨hu, rfl⟩ := hreinserts.mp hr
    rw [hafter]
    unfold Reinserted
    rw [hu, if_neg hnot, if_neg hnot]
    exact ⟨fun hl => habsent hl.2, by omega,
      live_write_self (b := Bucket.plain k) hp.index_lt⟩
  · intro hr
    rw [hafter]
    unfold Reinserted
    by_cases hu : u + 1 = s.currentTable
    · have hne : k ≠ key' := by
        intro heq
        rw [hreinserts.mpr ⟨hu, heq⟩] at hr
        exact absurd hr (by simp)
      have hempty : s.keys s.currentTable (s.index s.currentTable key' j) ≠ k := by
        rw [keys_eq he]
        exact hk.1.symm
      rw [hu, if_neg hnot, if_neg hnot, live_write_other hempty (fun heq => hne heq.symm)]
    · by_cases hlt : u < s.currentTable
      · rw [if_pos (h.complete (u + 1) (by omega)), if_pos (h.complete (u + 1) (by omega)),
          live_write_of_ne (by omega)]
      · exact ⟨fun hl => absurd hl.1 hlt, fun hl => absurd hl.1 hlt⟩

/-- **A key is moved when its insert succeeds, and by no other step.** -/
theorem Transition.reinserted (h : Inv s done) (hsmall : s.Small) (ht : Transition s a s')
    {u k : Nat} (hk : IsKey k) : Traces (reinserts (u + 1) k) (Reinserted · u k) s a s' := by
  cases ht with
  | invoke op key hth => exact Traces.same rfl Iff.rfl
  | ret hth => exact Traces.same (reinserts_eq_false _ k hth (by simp)) Iff.rfl
  | @call tid op key pc pc' s₁ hth he =>
      cases he with
      | quiet hq =>
          by_cases hpc : ∃ after t d x j, pc = .help after t (.insert d x k (.cas (u + 1) j))
          · -- the CAS that fails
            obtain ⟨after, t, d, x, j, rfl⟩ := hpc
            refine Traces.same ?_ Iff.rfl
            rw [Bool.eq_false_iff]
            intro hr
            obtain ⟨op', key', after', t', d', x', j', hth', hempty⟩ := reinserts_iff.mp hr
            rw [hth] at hth'
            simp only [Thread.running.injEq, Pc.help.injEq, Help.insert.injEq,
              Probe.cas.injEq] at hth'
            obtain rfl := hth'.2.2.2.2.2.2.2.2
            cases hq with
            | helpCasFailed hne => exact hne hempty
          · refine Traces.same (reinserts_eq_false _ k hth ?_) Iff.rfl
            intro after t d x j heq
            exact hpc ⟨after, t, d, x, j, heq⟩
      | mark =>
          refine Traces.same (reinserts_eq_false _ k hth (by simp)) ?_
          show (u < s.currentTable ∧ if s.Complete (u + 1) then State.Live (s.write _ _ _) u k
            else State.Live (s.write _ _ _) (u + 1) k) ↔ _
          rw [live_mark, live_mark]
          exact Iff.rfl
      | reinsert hempty => exact reinserted_reinsert h hth hempty rfl hk
      | finish =>
          exact Traces.same (reinserts_eq_false _ k hth (by simp))
            (reinserted_finish h hsmall hth hk)
      | publish =>
          exact Traces.same (reinserts_eq_false _ k hth (by simp)) (reinserted_publish h.shape hk)
      | cas hexp =>
          exact Traces.same (reinserts_eq_false _ k hth (by simp))
            (reinserted_cas h hsmall hth hexp)
      | _ => exact Traces.same (reinserts_eq_false _ k hth (by simp)) Iff.rfl

/-- **Only the migration stores into a table that is being filled.** -/
theorem Transition.clients (h : Inv s done) (ht : Transition s a s') {t x : Nat}
    (hle : t ≤ s.currentTable) (hnot : ¬ s.Complete t) (hx : s'.data t x ≠ s.data t x) :
    ∃ key, reinserts t key s a = true := by
  -- a table that is not complete is the current one
  have hcur : t = s.currentTable := by
    by_contra hne
    exact hnot (h.complete t (by omega))
  subst hcur
  obtain ⟨hsucc, hold, -⟩ := h.pred hnot
  have hother : ∀ {u y : Nat} {b : Bucket}, u ≠ s.currentTable →
      (s.write u y b).data s.currentTable x = s.data s.currentTable x := by
    intro u y b hu
    rw [write_data, if_neg hu.symm]
  cases ht with
  | invoke op key hth => exact absurd rfl hx
  | ret hth => exact absurd rfl hx
  | @call tid op key pc pc' s₁ hth he =>
      cases he with
      | mark =>
          obtain ⟨rfl, -⟩ := h.working hth rfl
          exact absurd (hother (by rw [hold]; omega)) hx
      | @reinsert after t' d y key' u j hempty =>
          obtain ⟨rfl, -⟩ := h.working hth rfl
          have hok := h.threadOk tid
          rw [hth] at hok
          obtain rfl := (PcOk.help hok).2.2.1
          exact ⟨key', reinserts_iff.mpr ⟨op, key, after, _, d, y, j, hth, hempty⟩⟩
      | @publish newCap =>
          refine absurd ?_ hx
          show (s.publish s.currentTable newCap).data s.currentTable x = _
          rw [(publish_old (Nat.le_refl _)).2.1]
      | cas hexp =>
          have hok := h.threadOk tid
          rw [hth] at hok
          -- a client has waited for its table to be complete
          refine absurd (hother ?_) hx
          intro heq
          exact hnot (heq ▸ hok.2.1)
      | _ => exact absurd rfl hx

end Keys

/-! ## §5. The protocol. -/

section Protocol

variable {n c : Nat} {r : Run (system n c)}

/-- The states of a run are later and later ones. -/
theorem marked_run (hc : 0 < c) {i j : Nat} (hij : i ≤ j) (hj : j ≤ r.len) {t x : Nat}
    (ht : t ≤ (r.state i).currentTable) (hm : ((r.state i).data t x).isMarked = true) :
    t ≤ (r.state j).currentTable ∧ (r.state j).data t x = (r.state i).data t x := by
  induction j, hij using Nat.le_induction with
  | base => exact ⟨ht, rfl⟩
  | succ j hij ih =>
      obtain ⟨htj, hsame⟩ := ih (Nat.le_of_succ_le hj)
      obtain ⟨done, hinv⟩ := run_inv hc (Nat.le_of_succ_le hj)
      have hlater := hinv.later (run_transition hj)
      refine ⟨htj.trans hlater.current, ?_⟩
      rw [← hsame]
      apply (hlater.data t htj x).marked
      rw [hsame]
      exact hm

theorem small_run {i j : Nat} (hij : i ≤ j) (hj : j ≤ r.len) (h : (r.state j).Small) :
    (r.state i).Small := by
  induction j, hij using Nat.le_induction with
  | base => exact h
  | succ j hij ih => exact ih (Nat.le_of_succ_le hj) ((run_transition hj).small h)

/-- The number of inserts of a moved key into the successor of table `t`. -/
theorem count_reinserts (hc : 0 < c) (hsmall : (r.state r.len).Small) {i : Nat} (hi : i ≤ r.len)
    (t : Nat) {k : Nat} (hk : IsKey k) : r.count (reinserts (t + 1) k) i ≤ 1
      ∧ (r.count (reinserts (t + 1) k) i = 1 ↔ Reinserted (r.state i) t k) := by
  classical
  have hcount : r.count (reinserts (t + 1) k) i = if Reinserted (r.state i) t k then 1 else 0 := by
    refine r.count_eq_ite (F := (Reinserted · t k)) ?_ ?_ hi
    · intro h
      exact absurd h.1 (Nat.not_lt_zero t)
    · intro j hj
      obtain ⟨done, hinv⟩ := run_inv hc (Nat.le_of_lt hj)
      exact (run_transition hj).reinserted hinv (small_run (Nat.le_of_lt hj) (Nat.le_refl _) hsmall)
        hk
  rw [hcount]
  split
  · next h => exact ⟨Nat.le_refl 1, fun _ => h, fun _ => rfl⟩
  · next h => exact ⟨Nat.zero_le 1, fun h0 => absurd h0 (by simp), fun h1 => absurd h1 h⟩

/-- Nothing is moved into the first table. -/
theorem count_reinserts_zero (hc : 0 < c) {i : Nat} (hi : i ≤ r.len) (k : Nat) :
    r.count (reinserts 0 k) i = 0 := by
  by_contra hne
  obtain ⟨j, hj, hr⟩ := r.exists_of_count hne
  obtain ⟨done, hinv⟩ := run_inv hc (show j ≤ r.len by omega)
  exact absurd (hinv.reinserts hr).2.1 (Nat.lt_irrefl 0)

theorem protocol_of_pos (hc : 0 < c) (hsmall : (r.state r.len).Small) : Protocol r where
  marked i j hij hj t ht x hm := (marked_run hc hij hj ht hm).2
  current i hi t tid d hd := by
    obtain ⟨done, hinv⟩ := run_inv hc hi
    obtain ⟨ht, -, -⟩ := hinv.claimed_of_holds hd
    by_contra hne
    exact (hinv.sharing t ht).ne_total_of_held hd (hinv.complete t (by omega))
  target i hi tid op key k t d x key' p hth := by
    obtain ⟨done, hinv⟩ := run_inv hc hi
    have hok := hinv.threadOk tid
    rw [hth] at hok
    have hre := (PcOk.help hok).2.2
    cases p with
    | inc t' step => exact hre
    | _ => exact hre.1
  claimed_once i hi t d := claims_once hc hi t d
  one_worker i hi t ht hcomp d hd := by
    obtain ⟨tid, j, hj, hheld⟩ := exists_worker hc hi ht hcomp hd
    refine ⟨tid, ⟨j, hj, hheld⟩, ?_⟩
    intro tid' h
    obtain ⟨j', hj', hheld'⟩ := h
    rcases Nat.le_total j j' with hle | hle
    · exact (worker_eq hc hle (by omega) hheld hheld').symm
    · exact worker_eq hc hle (by omega) hheld' hheld
  worker_unique i hi j hj t tid tid' d h h' := by
    rcases Nat.le_total i j with hle | hle
    · exact worker_eq hc hle hj h h'
    · exact (worker_eq hc hle hi h' h).symm
  clients i hi t ht hnot x hx := by
    obtain ⟨done, hinv⟩ := run_inv hc (Nat.le_of_lt hi)
    exact (run_transition hi).clients hinv ht hnot hx
  reinserted_once i hi t key hk := by
    cases t with
    | zero =>
        rw [count_reinserts_zero hc hi]
        exact Nat.zero_le 1
    | succ t => exact (count_reinserts hc hsmall hi t hk).1
  reinserted i hi t ht hcomp key hk := by
    rw [(count_reinserts hc hsmall hi t hk).2]
    unfold Reinserted
    rw [if_pos hcomp]
    exact and_iff_right ht
  found i hi tid op key pc hth := by
    obtain ⟨done, hinv⟩ := run_inv hc hi
    exact hinv.found hth

end Protocol

/-! ### A table without buckets. -/

/-- With capacity 0 no loop is entered: an insert fails its assertion at once,
an erase returns. -/
structure Stuck (s : State) : Prop where
  current : s.currentTable = 0
  table : s.table 0 = { oldData := 0, currCapacity := 0, oldCapacity := 0 }
  data : ∀ x, s.data 0 x = Bucket.plain EMPTY
  chunksDone : s.chunksDone 0 = 0
  thread : ∀ tid op key pc, s.thread tid = .running op key pc → pc = .load ∨ pc = .ret false

theorem Stuck.goto {s s' : State} (h : Stuck s) {tid : Tid} {th : Thread}
    (hs' : s'.currentTable = s.currentTable ∧ s'.table = s.table ∧ s'.data = s.data
      ∧ s'.chunksDone = s.chunksDone ∧ s'.thread = (s.goto tid th).thread)
    (hth : ∀ op key pc, th = .running op key pc → pc = .load ∨ pc = .ret false) : Stuck s' := by
  obtain ⟨hcur, htable, hdata, hdone, hthread⟩ := hs'
  refine ⟨hcur.trans h.current, by rw [htable]; exact h.table, ?_,
    by rw [hdone]; exact h.chunksDone, ?_⟩
  · intro x
    rw [hdata]
    exact h.data x
  · intro v op key pc hv
    rw [hthread, goto_thread] at hv
    split at hv
    · exact hth op key pc hv
    · exact h.thread v op key pc hv

theorem Stuck.transition {s s' : State} {a : Action} (h : Stuck s) (ht : Transition s a s') :
    Stuck s' := by
  cases ht with
  | @invoke tid op key hth =>
      refine h.goto ⟨rfl, rfl, rfl, rfl, rfl⟩ ?_
      intro op' key' pc heq
      exact Or.inl (Thread.running.inj heq).2.2.symm
  | @ret tid op key result hth =>
      have hidle : ∀ op key pc, Thread.idle = .running op key pc → pc = .load ∨ pc = .ret false := by
        intro op' key' pc heq
        exact absurd heq (by simp)
      exact h.goto ⟨rfl, rfl, rfl, rfl, rfl⟩ hidle
  | @call tid op key pc pc' s₁ hth he =>
      rcases h.thread tid op key pc hth with rfl | rfl
      · cases he with
        | quiet hq =>
            cases hq with
            | load hi =>
                -- there is no iteration 0
                have hcap : s.currCapacity s.currentTable = 0 := by
                  unfold State.currCapacity
                  rw [h.current, h.table]
                rcases iterate_ok hi with ⟨hlt, -⟩ | ⟨-, -, rfl⟩
                · omega
                · refine h.goto ⟨rfl, rfl, rfl, rfl, rfl⟩ ?_
                  intro op' key' pc heq
                  exact Or.inr (Thread.running.inj heq).2.2.symm
      · cases he with
        | quiet hq => cases hq

theorem stuck_run {n : Nat} {r : Run (system n 0)} {i : Nat} (hi : i ≤ r.len) :
    Stuck (r.state i) := by
  refine r.invariant (P := fun _ => Stuck) ?_ hi fun j _ hj h => h.transition (run_transition hj)
  exact ⟨rfl, rfl, fun _ => rfl, rfl, fun _ _ _ _ h => absurd h (by simp [system, init])⟩

theorem Stuck.not_help {s : State} (h : Stuck s) {tid : Tid} {op : Op} {key : Key} {k : After}
    {t : Nat} {help : Help} : s.thread tid ≠ .running op key (.help k t help) := by
  intro hth
  rcases h.thread tid op key _ hth with heq | heq <;> exact absurd heq (by simp)

theorem Stuck.holds {s : State} (h : Stuck s) {t d : Nat} {tid : Tid} :
    holds s t tid ≠ some d := by
  intro hd
  obtain ⟨m, hm⟩ := holds_iff.mp hd
  cases hth : s.thread tid with
  | idle =>
      rw [hth] at hm
      exact absurd hm (by simp [Thread.position])
  | running op key pc =>
      rw [hth] at hm
      rcases h.thread tid op key pc hth with rfl | rfl <;>
        exact absurd hm (by simp [Thread.position])

theorem Stuck.complete {s : State} (h : Stuck s) {t : Nat} (ht : t ≤ s.currentTable) :
    s.Complete t ∧ s.total t = 0 := by
  have hcur := h.current
  obtain rfl : t = 0 := by omega
  have htotal : s.total 0 = 0 := by
    unfold State.total State.oldCapacity
    rw [h.table]
    exact totalOldChunks_zero
  refine ⟨?_, htotal⟩
  unfold State.Complete
  rw [h.chunksDone, htotal]

theorem protocol_of_zero {n : Nat} (r : Run (system n 0)) : Protocol r := by
  have hclaims : ∀ i ≤ r.len, ∀ t d, r.count (claims t d) i = 0 := by
    intro i hi t d
    by_contra hne
    obtain ⟨j, hj, hc⟩ := r.exists_of_count hne
    have hjl : j < r.len := Nat.lt_of_lt_of_le hj hi
    obtain ⟨tid, htid⟩ := (run_transition hjl).holds_claimed hc
    exact (stuck_run hjl).holds htid
  have hreinserts : ∀ i ≤ r.len, ∀ t k, r.count (reinserts t k) i = 0 := by
    intro i hi t k
    by_contra hne
    obtain ⟨j, hj, hr⟩ := r.exists_of_count hne
    have hstuck : Stuck (r.state j) := stuck_run (by omega)
    cases ha : r.act j with
    | invoke tid op key =>
        rw [ha] at hr
        exact absurd hr (by simp [reinserts])
    | step tid =>
        rw [ha] at hr
        obtain ⟨op, key, after, t', d, x, j', hth, -⟩ := reinserts_iff.mp hr
        exact hstuck.not_help hth
  refine
    { marked := ?_, current := ?_, target := ?_, claimed_once := ?_, one_worker := ?_
      worker_unique := ?_, clients := ?_, reinserted_once := ?_, reinserted := ?_, found := ?_ }
  · intro i j hij hj t ht x hm
    have hi := stuck_run (Nat.le_trans hij hj)
    have hcur := hi.current
    obtain rfl : t = 0 := by omega
    rw [hi.data, (stuck_run hj).data]
  · intro i hi t tid d hd
    exact absurd hd (stuck_run hi).holds
  · intro i hi tid op key k t d x key' p hth
    exact absurd hth (stuck_run hi).not_help
  · intro i hi t d
    rw [hclaims i hi]
    exact Nat.zero_le 1
  · intro i hi t ht _ d hd
    rw [((stuck_run hi).complete ht).2] at hd
    exact absurd hd (Nat.not_lt_zero d)
  · intro i hi j _ t tid tid' d hd _
    exact absurd hd (stuck_run hi).holds
  · intro i hi t ht hnot
    exact absurd ((stuck_run (Nat.le_of_lt hi)).complete ht).1 hnot
  · intro i hi t key _
    rw [hreinserts i hi]
    exact Nat.zero_le 1
  · intro i hi t ht
    have hcur := (stuck_run hi).current
    omega
  · intro i hi tid op key pc hth hs
    obtain ⟨k, t, d, x, key', t', j, p, rfl, -⟩ := step_migrateFound hs
    exact (stuck_run hi).not_help hth

/-! ### The protocol. -/

/-- **The migration protocol**: it holds along every run, with any number of
threads and any initial capacity, as long as no capacity exceeds `2^24`. -/
theorem migration_protocol (n c : Nat) (r : Run (system n c)) (hsmall : (r.state r.len).Small) :
    Protocol r := by
  cases c with
  | zero => exact protocol_of_zero r
  | succ c => exact protocol_of_pos (Nat.succ_pos c) hsmall

set_option maxRecDepth 100000 in
/-- `expandingActions` moves five keys, 149 among them. -/
theorem migration_protocol_expanding : ∃ r : Run (system 6 52),
    (r.state r.len).currentTable = 1 ∧ r.count (reinserts 1 149) r.len = 1 ∧ Protocol r := by
  have hrun : ((system 6 52).exec (init 6 52) expandingActions).any (fun s =>
      decide (s.currentTable = 1 ∧ s.currCapacity 0 = 52 ∧ s.currCapacity 1 = 20
        ∧ s.Complete 1 ∧ s.keys 0 3 = 149)) = true := by
    decide +kernel
  rw [Option.any_eq_true] at hrun
  obtain ⟨s, hexec, hfacts⟩ := hrun
  obtain ⟨hcur, hcap0, hcap1, hcomp, hkey⟩ := of_decide_eq_true hfacts
  obtain ⟨r, hlast⟩ := Run.exists_of_exec (M := system 6 52) (.step 0) hexec
  have hprotocol : Protocol r := by
    apply migration_protocol 6 52 r
    rw [hlast]
    intro t ht
    rw [hcur] at ht
    have ht01 : t = 0 ∨ t = 1 := by omega
    rcases ht01 with rfl | rfl
    · omega
    · omega
  have hmoved := hprotocol.reinserted r.len (Nat.le_refl _) 0
  rw [hlast, hcur] at hmoved
  refine ⟨r, ?_, ?_, hprotocol⟩
  · rw [hlast]
    exact hcur
  · apply (hmoved (by omega) hcomp 149 (by decide)).mpr
    exact ⟨3, by omega, hkey⟩

end MultiCore.AlgorithmD.Concurrent
