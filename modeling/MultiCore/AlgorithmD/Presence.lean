/-
  MultiCore.AlgorithmD.Presence — the keys of the last complete table, step by
  step.

  A client's CAS adds or removes its key, and is counted (`Tracked.cas`).  The
  last chunk that is finished makes the new table the last complete one, with
  the same keys (`Tracked.finish`).  No other step changes the keys of the last
  complete table.
-/
import MultiCore.AlgorithmD.Migration

namespace MultiCore.AlgorithmD.Concurrent

open MultiCore.Lib MultiCore.Util

variable {s : State} {done : Nat → Finset Nat}

/-! ## §1. Steps that keep the keys. -/

/-- Tables are only added. -/
theorem Transition.small {s s' : State} {a : Action} (ht : Transition s a s') (h : s'.Small) :
    s.Small := by
  cases ht with
  | invoke op key hth => exact h
  | call hth he =>
      cases he with
      | publish =>
          intro t hle
          have hcap := h t (Nat.le_succ_of_le hle)
          unfold State.currCapacity at hcap ⊢
          rw [← (publish_old hle).1]
          exact hcap
      | _ => exact h
  | ret hth => exact h

theorem Tracked.congr {s' : State} (h : Tracked s)
    (hlive : ∀ k, IsKey k → (s'.Live s'.last k ↔ s.Live s.last k))
    (hwins : s'.casWins = s.casWins) : Tracked s' := by
  constructor
  · intro k hk hl
    rw [hwins]
    exact h.present k hk ((hlive k hk).mp hl)
  · intro k hk hl
    rw [hwins]
    exact h.absent k hk (fun hl' => hl ((hlive k hk).mpr hl'))

theorem Tracked.mark (h : Tracked s) {t i : Nat} :
    Tracked (s.write (s.table t).oldData i (s.old t i).mark) := by
  apply h.congr _ (write_casWins _ _ _ _)
  intro k _
  show (∃ x < s.currCapacity s.last, (s.write _ i _).keys s.last x = k)
    ↔ ∃ x < s.currCapacity s.last, s.keys s.last x = k
  rw [mark_keys]

/-- The table that is filled is not complete yet. -/
theorem Tracked.reinsert (h : Tracked s) (hinv : Inv s done)
    (hnot : ¬ s.Complete s.currentTable) {x key : Nat} :
    Tracked (s.write s.currentTable x (Bucket.plain key)) := by
  have hlast : s.last ≠ s.currentTable := by
    have := (hinv.pred hnot).1
    omega
  apply h.congr _ (write_casWins _ _ _ _)
  intro k _
  exact live_write_of_ne hlast

theorem publish_incomplete (hs : Shape s) {newCap : Nat} :
    ¬ (s.publish s.currentTable newCap).Complete (s.currentTable + 1) := by
  intro hc
  obtain ⟨hnew, -, -, hzero⟩ := @publish_new s newCap
  have hcap : (s.publish s.currentTable newCap).oldCapacity (s.currentTable + 1)
      = s.currCapacity s.currentTable := by
    unfold State.oldCapacity
    rw [hnew]
  have htot : 0 < (s.publish s.currentTable newCap).total (s.currentTable + 1) := by
    apply total_pos
    rw [hcap]
    exact hs.capacity_pos _ (Nat.le_refl _)
  unfold State.Complete at hc
  omega

theorem Tracked.publish (h : Tracked s) (hs : Shape s) (hcomp : s.Complete s.currentTable)
    {newCap : Nat} : Tracked (s.publish s.currentTable newCap) := by
  have hlast : (s.publish s.currentTable newCap).last = s.currentTable := by
    unfold State.last
    exact if_neg (publish_incomplete hs)
  have hlast' : s.last = s.currentTable := if_pos hcomp
  obtain ⟨htable, hdata, -, -⟩ := @publish_old s newCap _ (Nat.le_refl _)
  apply h.congr
  · intro k _
    rw [hlast, hlast']
    unfold State.Live State.currCapacity State.keys
    rw [htable, hdata]
  · rfl

/-! ## §2. The end of a migration. -/

/-- **The new table has the keys of the old one**, once all of its old buckets
are settled. -/
theorem Inv.live_settled (h : Inv s done) (hnot : ¬ s.Complete s.currentTable)
    (hall : ∀ x < s.oldCapacity s.currentTable,
      Settled s (done s.currentTable) s.currentTable x) {k : Nat} (hk : IsKey k) :
    s.Live s.currentTable k ↔ s.Live s.last k := by
  obtain ⟨-, hold, hcap⟩ := h.pred hnot
  have hkeys : ∀ x, (s.old s.currentTable x).getKey = s.keys s.last x := by
    intro x
    rw [← hold]
    rfl
  constructor
  · intro hlv
    obtain ⟨y, hy, hyk⟩ := hlv
    obtain ⟨x, hx, -, heq⟩ := h.source hnot y hy (by rw [hyk]; exact hk)
    refine ⟨x, by rw [← hcap]; exact hx, ?_⟩
    rw [← hkeys, heq, hyk]
  · intro hlv
    obtain ⟨x, hx, hxk⟩ := hlv
    have hkey : (s.old s.currentTable x).getKey = k := by rw [hkeys, hxk]
    have hmoved := h.moved hnot x (hall x (by rw [hcap]; exact hx)) (by rw [hkey]; exact hk)
    rw [hkey] at hmoved
    exact hmoved

/-- A worker that has reached the end of its chunk has settled all of it. -/
theorem Inv.finish_all (h : Inv s done) (hsmall : s.Small) {tid : Tid} {op : Op} {key : Key}
    {k : After} {t c : Nat} (hth : s.thread tid = .running op key (.help k t (.done c)))
    (hlast : s.chunksDone t + 1 = s.total t) (x : Nat) (hx : x < s.oldCapacity t) :
    Settled s (done t) t x := by
  obtain ⟨rfl, -⟩ := h.working hth rfl
  obtain ⟨d, hlt, hin⟩ := exists_inChunk (h.oldCapacity_small hsmall (Nat.le_refl _)) hx
  have hsharing := (h.finish hth).sharing s.currentTable (Nat.le_refl _)
  have hfull := hsharing.done_eq_range
    (show Function.update s.chunksDone s.currentTable _ s.currentTable = s.total s.currentTable by
      rw [Function.update_self]
      exact hlast)
  rw [Function.update_self] at hfull
  have hmem : d ∈ insert c (done s.currentTable) := by
    rw [hfull]
    exact Finset.mem_range.mpr hlt
  refine ⟨d, hin, ?_⟩
  rcases Finset.mem_insert.mp hmem with rfl | hd
  · right
    refine ⟨tid, startIndex (d + 1), ?_, ?_⟩
    · rw [hth, Thread.position_help]
      rfl
    · exact Nat.lt_of_lt_of_le hin.2 (endIndex_le_succ d _)
  · exact Or.inl hd

theorem Tracked.finish (h : Tracked s) (hinv : Inv s done) (hsmall : s.Small) {tid : Tid}
    {op : Op} {key : Key} {k : After} {t c : Nat}
    (hth : s.thread tid = .running op key (.help k t (.done c))) :
    Tracked { s with chunksDone := Function.update s.chunksDone t (s.chunksDone t + 1) } := by
  obtain ⟨rfl, hnot⟩ := hinv.working hth rfl
  set s' : State := { s with
    chunksDone := Function.update s.chunksDone s.currentTable (s.chunksDone s.currentTable + 1) }
    with hs'
  have hiff : s'.Complete s'.currentTable
      ↔ s.chunksDone s.currentTable + 1 = s.total s.currentTable := by
    show Function.update s.chunksDone s.currentTable _ s.currentTable = s.total s.currentTable ↔ _
    rw [Function.update_self]
  apply h.congr
  · intro v hv
    by_cases hend : s.chunksDone s.currentTable + 1 = s.total s.currentTable
    · have hlast : s'.last = s.currentTable := if_pos (hiff.mpr hend)
      rw [hlast]
      exact hinv.live_settled hnot (hinv.finish_all hsmall hth hend) hv
    · have hlast : s'.last = s.last := by
        unfold State.last
        rw [if_neg hnot, if_neg (fun hc => hend (hiff.mp hc))]
      rw [hlast]
      exact Iff.rfl
  · rfl

/-! ## §3. The CAS of a client. -/

/-- What a client's CAS does to the keys of its table. -/
theorem live_cas (h : Inv s done) {op : Op} {key : Key} {t i : Nat}
    (hp : Probing s t key.val i)
    (he : s.data t (s.index t key.val i) = expected key.val op) (k : Nat) (hk : IsKey k) :
    (s.write t (s.index t key.val i) (desired key.val op)).Live t k ↔
      if k = key.val then op = .insertIfAbsent else s.Live t k := by
  cases op with
  | insertIfAbsent =>
      have hempty : s.keys t (s.index t key.val i) = EMPTY := keys_eq he
      split
      · next heq =>
        subst heq
        exact ⟨fun _ => rfl, fun _ => live_write_self (b := Bucket.plain key.val) hp.index_lt⟩
      · next hne =>
        apply live_write_other
        · rw [hempty]
          exact hk.1.symm
        · exact fun heq => hne heq.symm
  | erase =>
      have hheld : s.keys t (s.index t key.val i) = key.val := keys_eq he
      split
      · next heq =>
        subst heq
        refine ⟨?_, fun h => absurd h (by simp)⟩
        intro hlive
        -- a second bucket with the key would contradict the placement
        obtain ⟨y, hy, hyk⟩ := hlive
        exfalso
        rw [write_keys, if_pos rfl] at hyk
        by_cases hyx : y = s.index t key.val i
        · rw [hyx, Function.update_self] at hyk
          exact key.ne_tombstone hyk.symm
        · rw [Function.update_of_ne hyx] at hyk
          apply hyx
          apply (h.shape.placed t hp.1).unique hy hp.index_lt
          · rw [hyk]
            exact key.isKey
          · rw [hyk, hheld]
      · next hne =>
        apply live_write_other
        · rw [hheld]
          exact fun heq => hne heq.symm
        · exact hk.2.symm

theorem win_casWins (s : State) (op : Op) (key : Nat) (o : Op) (k : Nat) :
    (s.win op key).casWins o k = s.casWins o k + if o = op ∧ k = key then 1 else 0 := by
  unfold State.win
  show Function.update s.casWins op (Function.update (s.casWins op) key _) o k = _
  by_cases ho : o = op
  · subst ho
    rw [Function.update_self]
    by_cases hk : k = key
    · rw [hk, Function.update_self, if_pos ⟨rfl, rfl⟩]
    · rw [Function.update_of_ne hk, if_neg (fun h => hk h.2)]
      omega
  · rw [Function.update_of_ne ho, if_neg (fun h => ho h.1)]
    omega

theorem Tracked.cas (h : Tracked s) (hinv : Inv s done) (hsmall : s.Small) {tid : Tid} {op : Op}
    {key : Key} {t i : Nat} (hth : s.thread tid = .running op key (.probe (.cas t i)))
    (he : s.data t (s.index t key.val i) = expected key.val op) :
    Tracked ((s.write t (s.index t key.val i) (desired key.val op)).win op key.val) := by
  have hok := hinv.threadOk tid
  rw [hth] at hok
  obtain ⟨hp, hc, -⟩ := hok
  have hlast : s.last = t := hinv.last_eq hsmall hp.1 hc hp.index_lt (unmarked_of_expected he)
  set s₁ := s.write t (s.index t key.val i) (desired key.val op) with hs₁
  have hlive := live_cas hinv hp he
  have hwins : ∀ o k, (s₁.win op key.val).casWins o k
      = s.casWins o k + if o = op ∧ k = key.val then 1 else 0 :=
    fun o k => win_casWins s₁ op key.val o k
  constructor
  · intro k hk hlv
    change s₁.Live s.last k at hlv
    rw [hlast, hlive k hk] at hlv
    rw [hwins, hwins]
    split at hlv
    · next hkk =>
      -- the key was absent, and has been inserted once more
      subst hkk hlv
      have hno : ¬ s.Live s.last key.val := by
        rw [hlast]
        exact hp.absent hinv.shape key.isKey (keys_eq he)
      have := h.absent key.val hk hno
      simp [this]
    · next hkk =>
      have := h.present k hk (by rw [hlast]; exact hlv)
      simp [hkk, this]
  · intro k hk hlv
    change ¬ s₁.Live s.last k at hlv
    rw [hlast, hlive k hk] at hlv
    rw [hwins, hwins]
    split at hlv
    · next hkk =>
      subst hkk
      cases op with
      | insertIfAbsent => exact absurd rfl hlv
      | erase =>
          -- the key was present, and has been erased once more
          have hyes : s.Live s.last key.val := by
            rw [hlast]
            exact ⟨_, hp.index_lt, keys_eq he⟩
          have := h.present key.val hk hyes
          simp [this]
    · next hkk =>
      have := h.absent k hk (by rw [hlast]; exact hlv)
      simp [hkk, this]

/-! ## §4. Every step. -/

theorem Tracked.transition (h : Tracked s) (hinv : Inv s done) (hsmall : s.Small) {s' : State}
    {a : Action} (ht : Transition s a s') : Tracked s' := by
  -- `Tracked` does not read the threads
  have hgoto : ∀ {s₁ : State} {tid : Tid} {th : Thread}, Tracked s₁ → Tracked (s₁.goto tid th) :=
    fun h₁ => h₁.congr (fun _ _ => Iff.rfl) rfl
  have hsame : ∀ {s₁ : State}, s₁.table = s.table → s₁.data = s.data →
      s₁.chunksDone = s.chunksDone → s₁.currentTable = s.currentTable →
      s₁.casWins = s.casWins → Tracked s₁ := by
    intro s₁ htable hdata hdone hcur hwins
    have hcomplete : s₁.Complete s.currentTable ↔ s.Complete s.currentTable := by
      unfold State.Complete State.total State.oldCapacity
      rw [htable, hdone]
    have hlast : s₁.last = s.last := by
      unfold State.last
      simp only [hcur, hcomplete]
    apply h.congr _ hwins
    intro k _
    unfold State.Live State.currCapacity State.keys
    rw [hlast, htable, hdata]
  cases ht with
  | invoke op key hth => exact hgoto h
  | @call tid op key pc pc' s₁ hth he =>
      apply hgoto
      have hok : PcOk s op key.val pc := by
        have := hinv.threadOk tid
        rw [hth] at this
        exact this
      cases he with
      | mark => exact h.mark
      | reinsert hempty =>
          obtain ⟨rfl, hnot⟩ := hinv.working hth rfl
          obtain ⟨-, rfl, -⟩ := hok.help.2
          exact h.reinsert hinv hnot
      | finish => exact h.finish hinv hsmall hth
      | publish => exact h.publish hinv.shape hok.2.1
      | cas hexp => exact h.cas hinv hsmall hth hexp
      | _ => exact hsame rfl rfl rfl rfl rfl
  | ret hth => exact hgoto (hsame rfl rfl rfl rfl rfl)

end MultiCore.AlgorithmD.Concurrent
