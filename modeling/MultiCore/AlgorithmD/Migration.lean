/-
  MultiCore.AlgorithmD.Migration — the steps that store, one by one.

  A client's CAS changes the last complete table (`Inv.cas`); marking a bucket
  freezes it (`Inv.mark`); a migrating insert puts the key of the bucket that
  its thread has just marked into the new table (`Inv.reinsert`); the last
  chunk that is finished makes the new table the last complete one, with the
  same keys (`Inv.finish`); and a new table is published by a thread that has
  seen its predecessor complete (`Inv.publish`).
-/
import MultiCore.AlgorithmD.Moves

namespace MultiCore.AlgorithmD.Concurrent

open MultiCore.Lib MultiCore.Util

variable {s : State} {done : Nat → Finset Nat}

/-! ## §1. Stores to buckets. -/

theorem write_data (s : State) (t x : Nat) (b : Bucket) (u : Nat) :
    (s.write t x b).data u = if u = t then Function.update (s.data t) x b else s.data u := by
  funext y
  show (if u = t ∧ y = x then b else s.data u y) = _
  by_cases hu : u = t
  · subst hu
    rw [if_pos rfl, Function.update_apply]
    simp only [true_and]
  · rw [if_neg (fun h => hu h.1), if_neg hu]

theorem write_keys (s : State) (t x : Nat) (b : Bucket) (u : Nat) :
    (s.write t x b).keys u = if u = t then Function.update (s.keys t) x b.getKey else s.keys u := by
  unfold State.keys
  rw [write_data]
  split
  · exact keysOf_update _ _ _
  · rfl

/-- Marking a bucket keeps its value. -/
theorem mark_keys (s : State) (t i u : Nat) :
    (s.write (s.table t).oldData i (s.old t i).mark).keys u = s.keys u := by
  rw [write_keys]
  split
  · next hu =>
    subst hu
    exact Function.update_eq_self i _
  · rfl

theorem Later.write {t x : Nat} {b : Bucket} (hf : Forward (s.data t x) b) :
    Later s (s.write t x b) := by
  refine ⟨Nat.le_refl _, fun _ _ => rfl, ?_, fun _ _ hc => hc⟩
  intro u _ y
  rw [write_data]
  split
  · next hu =>
    subst hu
    by_cases hy : y = x
    · subst hy
      rw [Function.update_self]
      exact hf
    · rw [Function.update_of_ne hy]
      exact Forward.refl _
  · exact Forward.refl _

theorem Shape.write (h : Shape s) {t x : Nat} {b : Bucket}
    (hplaced : t ≤ s.currentTable →
      WellPlaced (Function.update (s.keys t) x b.getKey) (s.currCapacity t))
    (hfresh : t = s.currentTable → b.isMarked = false) : Shape (s.write t x b) := by
  refine ⟨h.old_zero, h.old_succ, h.oldCapacity_zero, h.oldCapacity_succ, h.capacity_pos, ?_, ?_⟩
  · intro u hu
    rw [write_keys]
    split
    · next hut =>
      subst hut
      exact hplaced hu
    · exact h.placed u hu
  · intro y
    show ((s.write t x b).data s.currentTable y).isMarked = false
    rw [write_data]
    split
    · next hut =>
      by_cases hy : y = x
      · rw [hy, Function.update_self]
        exact hfresh hut.symm
      · rw [Function.update_of_ne hy, ← hut]
        exact h.fresh y
    · exact h.fresh y

/-- A store leaves the keys of the other tables alone. -/
theorem live_write_of_ne {t x u k : Nat} {b : Bucket} (hu : u ≠ t) :
    (s.write t x b).Live u k ↔ s.Live u k := by
  unfold State.Live
  rw [write_keys, if_neg hu]
  exact Iff.rfl

/-- A store over a value that is not `k`, of a value that is not `k`. -/
theorem live_write_other {t x k : Nat} {b : Bucket} (hold : s.keys t x ≠ k)
    (hnew : b.getKey ≠ k) : (s.write t x b).Live t k ↔ s.Live t k := by
  have hsame : ∀ y, (s.write t x b).keys t y = k ↔ s.keys t y = k := by
    intro y
    rw [write_keys, if_pos rfl]
    by_cases hy : y = x
    · rw [hy, Function.update_self]
      exact ⟨fun h => absurd h hnew, fun h => absurd h hold⟩
    · rw [Function.update_of_ne hy]
  unfold State.Live
  simp only [hsame]
  exact Iff.rfl

theorem live_write_self {t x : Nat} {b : Bucket} (hx : x < s.currCapacity t) :
    (s.write t x b).Live t b.getKey := by
  refine ⟨x, hx, ?_⟩
  rw [write_keys, if_pos rfl, Function.update_self]

/-! ## §2. The CAS of a client. -/

theorem placed_cas (h : Inv s done) {op : Op} {key : Key} {t i : Nat}
    (hp : Probing s t key.val i) (he : s.data t (s.index t key.val i) = expected key.val op) :
    WellPlaced (Function.update (s.keys t) (s.index t key.val i) (desired key.val op).getKey)
      (s.currCapacity t) := by
  cases op with
  | insertIfAbsent => exact (h.shape.placed t hp.1).insert hp.2.1 (keys_eq he) hp.2.2
  | erase => exact (h.shape.placed t hp.1).erase not_isKey_tombstone tombstone_ne_empty

/-- An unmarked bucket is not settled, so what it holds does not matter to the
migration out of its table. -/
theorem unmarked_of_expected {op : Op} {key : Nat} {b : Bucket} (he : b = expected key op) :
    b.isMarked = false := by
  cases op <;> rw [he] <;> rfl

theorem Inv.cas (h : Inv s done) {tid : Tid} {op : Op} {key : Key} {t i : Nat}
    (hth : s.thread tid = .running op key (.probe (.cas t i)))
    (he : s.data t (s.index t key.val i) = expected key.val op) :
    Inv (((s.write t (s.index t key.val i) (desired key.val op)).win op key.val).goto tid
      (.running op key (.probe (.inc t .bump)))) done := by
  have hok := h.threadOk tid
  rw [hth] at hok
  obtain ⟨hp, hc, -⟩ := hok
  have hlater := Later.write (s := s) (Forward.cas he)
  set s₁ := s.write t (s.index t key.val i) (desired key.val op) with hs₁
  -- an incomplete current table is another one than `t`
  have hcur : ¬ s.Complete s.currentTable → s.currentTable ≠ t := by
    intro hnot heq
    rw [heq] at hnot
    exact hnot hc
  have hold : ∀ x, Settled s (done s.currentTable) s.currentTable x →
      s₁.old s.currentTable x = s.old s.currentTable x := by
    intro x hset
    exact hlater.old_marked h.shape (Nat.le_refl _) (h.marked _ (Nat.le_refl _) x hset)
  have hinv : Inv (s₁.win op key.val) done := by
    refine
      { shape := ?_, complete := h.complete, sharing := h.sharing, marked := ?_
        source := ?_, moved := ?_, threadOk := ?_ }
    · have hshape : Shape s₁ := by
        apply h.shape.write
        · exact fun _ => placed_cas h hp he
        · intro _
          cases op <;> rfl
      exact ⟨hshape.old_zero, hshape.old_succ, hshape.oldCapacity_zero, hshape.oldCapacity_succ,
        hshape.capacity_pos, hshape.placed, hshape.fresh⟩
    · intro u hu x hset
      have hmark := h.marked u hu x hset
      show (s₁.old u x).isMarked = true
      rw [hlater.old_marked h.shape hu hmark]
      exact hmark
    · intro hnot y hy hk
      have hkeys : s₁.keys s.currentTable = s.keys s.currentTable := by
        rw [hs₁, write_keys, if_neg (hcur hnot)]
      change IsKey (s₁.keys s.currentTable y) at hk
      rw [hkeys] at hk
      obtain ⟨x, hx, hset, heq⟩ := h.source hnot y hy hk
      refine ⟨x, hx, hset, ?_⟩
      show (s₁.old s.currentTable x).getKey = s₁.keys s.currentTable y
      rw [hold x hset, hkeys]
      exact heq
    · intro hnot x hset hk
      change IsKey (s₁.old s.currentTable x).getKey at hk
      show s₁.Live s.currentTable (s₁.old s.currentTable x).getKey
      rw [hold x hset] at hk ⊢
      rw [hs₁, live_write_of_ne (hcur hnot)]
      exact h.moved hnot x hset hk
    · intro v
      have hl : Later s (s₁.win op key.val) :=
        ⟨hlater.current, hlater.table, hlater.data, hlater.complete⟩
      exact (h.threadOk v).later hl h.shape
  apply hinv.move_same
  · exact hp.1
  · intro u
    have hsame : (s₁.win op key.val).thread tid = s.thread tid := rfl
    rw [hsame, hth]
    rfl

/-! ## §3. Marking a bucket. -/

theorem Inv.mark (h : Inv s done) {tid : Tid} {op : Op} {key : Key} {k : After} {t c i : Nat}
    (hth : s.thread tid = .running op key (.help k t (.mark c i (s.old t i)))) :
    Inv ((s.write (s.table t).oldData i (s.old t i).mark).goto tid
      (.running op key (.help k t (.getKey c i)))) done := by
  obtain ⟨rfl, hnot⟩ := h.working hth rfl
  obtain ⟨hsucc, hold, -⟩ := h.pred hnot
  have hok := h.threadOk tid
  rw [hth] at hok
  have hlater := Later.write (s := s) (t := (s.table s.currentTable).oldData) (x := i)
    (b := (s.old s.currentTable i).mark) (Forward.mark _)
  set s₁ := s.write (s.table s.currentTable).oldData i (s.old s.currentTable i).mark with hs₁
  have hkeys : ∀ u, s₁.keys u = s.keys u := fun u => mark_keys s s.currentTable i u
  have hlive : ∀ u v, s₁.Live u v ↔ s.Live u v := by
    intro u v
    unfold State.Live
    rw [hkeys]
    exact Iff.rfl
  have hgetKey : ∀ u x, (s₁.old u x).getKey = (s.old u x).getKey := by
    intro u x
    exact congrFun (hkeys (s.table u).oldData) x
  have hinv : Inv s₁ done := by
    refine
      { shape := ?_, complete := h.complete, sharing := h.sharing, marked := ?_
        source := ?_, moved := ?_
        threadOk := fun v => (h.threadOk v).later hlater h.shape }
    · apply h.shape.write
      · intro hle
        have hsame : (s.old s.currentTable i).mark.getKey
            = s.keys (s.table s.currentTable).oldData i := rfl
        rw [hsame, Function.update_eq_self]
        exact h.shape.placed _ hle
      · intro hcur
        omega
    · intro u hu x hset
      have hmark := h.marked u hu x hset
      rw [hlater.old_marked h.shape hu hmark]
      exact hmark
    · intro hc y hy hk
      rw [hkeys] at hk
      obtain ⟨x, hx, hset, heq⟩ := h.source hc y hy hk
      refine ⟨x, hx, hset, ?_⟩
      rw [hgetKey, hkeys]
      exact heq
    · intro hc x hset hk
      rw [hgetKey] at hk ⊢
      rw [hlive]
      exact h.moved hc x hset hk
  apply hinv.move_same
  · apply PcOk.help_to (h := .mark c i (s.old s.currentTable i))
    · exact PcOk.later hlater h.shape hok
    · refine ⟨(PcOk.help hok).2, ?_⟩
      show ((s₁.data (s.table s.currentTable).oldData) i).isMarked = true
      rw [hs₁, write_data, if_pos rfl, Function.update_self]
      rfl
  · intro u
    have hsame : s₁.thread tid = s.thread tid := rfl
    rw [hsame, hth]
    simp [Thread.position, Help.position]

/-! ## §4. The insert of a migrating thread. -/

theorem Inv.reinsert (h : Inv s done) {tid : Tid} {op : Op} {key : Key} {k : After}
    {t c i key' t' j : Nat}
    (hth : s.thread tid = .running op key (.help k t (.insert c i key' (.cas t' j))))
    (he : s.data t' (s.index t' key' j) = Bucket.plain EMPTY) :
    Inv ((s.write t' (s.index t' key' j) (Bucket.plain key')).goto tid
      (.running op key (.help k t (.insert c i key' (.inc t' .bump))))) done := by
  obtain ⟨rfl, hnot⟩ := h.working hth rfl
  obtain ⟨hsucc, -, hcap⟩ := h.pred hnot
  have hok := h.threadOk tid
  rw [hth] at hok
  obtain ⟨hmoving, rfl, hp⟩ := (PcOk.help hok).2
  obtain ⟨hin, hmark, hkey, hk⟩ := hmoving
  have hlater := Later.write (s := s) (t := s.currentTable)
    (x := s.index s.currentTable key' j) (Forward.fill he key')
  set s₁ := s.write s.currentTable (s.index s.currentTable key' j) (Bucket.plain key') with hs₁
  set th : Thread := .running op key
    (.help k s.currentTable (.insert c i key' (.inc s.currentTable .bump))) with hthread
  have hpos : (s.thread tid).position s.currentTable = some (c, i) := by
    rw [hth, Thread.position_help]
    rfl
  have hpos' : th.position s.currentTable = some (c, i + 1) := by
    rw [hthread, Thread.position_help]
    rfl
  have hother : ∀ u, u ≠ s.currentTable →
      (s.thread tid).position u = none ∧ th.position u = none := by
    intro u hu
    rw [hth, hthread]
    exact ⟨Thread.position_help_ne hu.symm, Thread.position_help_ne hu.symm⟩
  -- the bucket whose key is stored is the only one that gets settled
  have hsettled : ∀ u x, Settled (s₁.goto tid th) (done u) u x →
      Settled s (done u) u x ∨ (u = s.currentTable ∧ x = i) := by
    intro u x hset
    obtain ⟨d, hd, hdone | ⟨v, n, hv, hlt⟩⟩ := hset
    · exact Or.inl ⟨d, hd, Or.inl hdone⟩
    · rw [goto_thread] at hv
      split at hv
      · by_cases hu : u = s.currentTable
        · subst hu
          rw [hpos', Option.some.injEq, Prod.mk.injEq] at hv
          obtain ⟨rfl, rfl⟩ := hv
          by_cases hx : x = i
          · exact Or.inr ⟨rfl, hx⟩
          · exact Or.inl ⟨c, hd, Or.inr ⟨tid, i, hpos, by omega⟩⟩
        · rw [(hother u hu).2] at hv
          exact absurd hv (by simp)
      · exact Or.inl ⟨d, hd, Or.inr ⟨v, n, hv, hlt⟩⟩
  have hkeep : ∀ u x, Settled s (done u) u x → Settled (s₁.goto tid th) (done u) u x := by
    intro u x hset
    obtain ⟨d, hd, hdone | ⟨v, n, hv, hlt⟩⟩ := hset
    · exact ⟨d, hd, Or.inl hdone⟩
    · by_cases hvt : v = tid
      · subst hvt
        by_cases hu : u = s.currentTable
        · subst hu
          rw [hpos, Option.some.injEq, Prod.mk.injEq] at hv
          obtain ⟨rfl, rfl⟩ := hv
          refine ⟨c, hd, Or.inr ⟨v, i + 1, ?_, by omega⟩⟩
          rw [goto_thread, if_pos rfl]
          exact hpos'
        · rw [(hother u hu).1] at hv
          exact absurd hv (by simp)
      · refine ⟨d, hd, Or.inr ⟨v, n, ?_, hlt⟩⟩
        rw [goto_thread, if_neg hvt]
        exact hv
  have hold : ∀ u ≤ s.currentTable, ∀ x, (s.old u x).isMarked = true →
      s₁.old u x = s.old u x := fun u hu x hm => hlater.old_marked h.shape hu hm
  -- keys of the new table are never lost again while it is filled
  have hgrow : ∀ v, IsKey v → s.Live s.currentTable v → s₁.Live s.currentTable v := by
    intro v hv hl
    obtain ⟨y, hy, hyv⟩ := hl
    refine ⟨y, hy, ?_⟩
    rw [hs₁, write_keys, if_pos rfl]
    have hne : y ≠ s.index s.currentTable key' j := by
      intro heq
      rw [heq, keys_eq he] at hyv
      exact hv.1 hyv.symm
    rw [Function.update_of_ne hne]
    exact hyv
  have hi : i < s.oldCapacity s.currentTable :=
    Nat.lt_of_lt_of_le hin.2 (endIndex_le _ _)
  have hshape : Shape s₁ := by
    apply h.shape.write
    · intro hle
      exact (h.shape.placed _ hle).insert hp.2.1 (keys_eq he) hp.2.2
    · exact fun _ => rfl
  refine
    { shape := ⟨hshape.old_zero, hshape.old_succ, hshape.oldCapacity_zero,
        hshape.oldCapacity_succ, hshape.capacity_pos, hshape.placed, hshape.fresh⟩
      complete := h.complete, sharing := ?_, marked := ?_, source := ?_, moved := ?_
      threadOk := ?_ }
  · intro u hu
    apply (h.sharing u hu).congr
    intro v
    unfold holds
    rw [goto_thread]
    split
    · next hvt =>
      subst hvt
      by_cases hc : u = s.currentTable
      · rw [hc, hpos, hpos']
        rfl
      · rw [(hother u hc).1, (hother u hc).2]
    · rfl
  · intro u hu x hset
    show (s₁.old u x).isMarked = true
    have hm : (s.old u x).isMarked = true := by
      rcases hsettled u x hset with hs | ⟨rfl, rfl⟩
      · exact h.marked u hu x hs
      · exact hmark
    rw [hold u hu x hm]
    exact hm
  · intro hc y hy hyk
    change IsKey (s₁.keys s.currentTable y) at hyk
    show ∃ x < s.oldCapacity s.currentTable, _ ∧ (s₁.old s.currentTable x).getKey
      = s₁.keys s.currentTable y
    rw [hs₁, write_keys, if_pos rfl] at hyk ⊢
    by_cases hyj : y = s.index s.currentTable key' j
    · rw [hyj, Function.update_self]
      refine ⟨i, hi, ⟨c, hin, Or.inr ⟨tid, i + 1, ?_, by omega⟩⟩, ?_⟩
      · rw [goto_thread, if_pos rfl]
        exact hpos'
      · rw [hold _ (Nat.le_refl _) i hmark]
        exact hkey
    · rw [Function.update_of_ne hyj] at hyk ⊢
      obtain ⟨x, hx, hset, heq⟩ := h.source hnot y hy hyk
      refine ⟨x, hx, hkeep _ _ hset, ?_⟩
      rw [hold _ (Nat.le_refl _) x (h.marked _ (Nat.le_refl _) x hset)]
      exact heq
  · intro hc x hset hxk
    change IsKey (s₁.old s.currentTable x).getKey at hxk
    show s₁.Live s.currentTable (s₁.old s.currentTable x).getKey
    rcases hsettled _ x hset with hs | ⟨-, rfl⟩
    · rw [hold _ (Nat.le_refl _) x (h.marked _ (Nat.le_refl _) x hs)] at hxk ⊢
      exact hgrow _ hxk (h.moved hnot x hs hxk)
    · rw [hold _ (Nat.le_refl _) x hmark, hkey]
      exact live_write_self (b := Bucket.plain key') hp.index_lt
  · apply threadOk_goto (goto_thread s₁ tid · th)
    · have hl : Later s (s₁.goto tid th) :=
        ⟨hlater.current, hlater.table, hlater.data, hlater.complete⟩
      have hok' := PcOk.later hl h.shape hok
      exact hok'.help_to ⟨hok'.help.2.1, rfl⟩
    · intro v
      have hl : Later s (s₁.goto tid th) :=
        ⟨hlater.current, hlater.table, hlater.data, hlater.complete⟩
      exact (h.threadOk v).later hl h.shape

/-! ## §5. From bucket to bucket. -/

/-- The loop of `migrate` at index `i` has settled the buckets before `i`. -/
theorem position_migrateAt (s : State) (t c i : Nat) :
    ∃ n, (migrateAt s t c i).position = some (c, n) ∧ ∀ x, InChunk s t c x → (x < n ↔ x < i) := by
  unfold migrateAt
  split
  · exact ⟨i, rfl, fun _ _ => Iff.rfl⟩
  · next hi =>
    refine ⟨startIndex (c + 1), rfl, ?_⟩
    intro x hx
    have hend := endIndex_le_succ c (s.oldCapacity t)
    have hlt := hx.2
    omega

theorem helpOk_migrateAt {t c i : Nat} (hi : startIndex c ≤ i) :
    HelpOk s t (migrateAt s t c i) := by
  unfold migrateAt
  cases Nat.lt_or_ge i (endIndex c (s.oldCapacity t)) with
  | inl hlt =>
      rw [if_pos hlt]
      exact ⟨hi, hlt⟩
  | inr hge =>
      rw [if_neg (Nat.not_lt.mpr hge)]
      trivial

/-- A thread goes on to bucket `i + 1`: bucket `i` is settled, if it was not
settled before. -/
theorem Inv.advance (h : Inv s done) {tid : Tid} {op : Op} {key : Key} {k : After}
    {t c i n : Nat} {help : Help} (hth : s.thread tid = .running op key (.help k t help))
    (hpos : help.position = some (c, n)) (hn : n ≤ i + 1) (hstart : startIndex c ≤ i)
    (hi : n ≤ i → n = i ∧ Moved s t i) :
    Inv (s.goto tid (.running op key (.help k t (migrateAt s t c (i + 1))))) done := by
  have hok : PcOk s op key.val (.help k t help) := by
    have := h.threadOk tid
    rw [hth] at this
    exact this
  obtain ⟨n', hn', hsub⟩ := position_migrateAt s t c (i + 1)
  have hstart' : startIndex c ≤ i + 1 := Nat.le_succ_of_le hstart
  have hnext : HelpOk s t (migrateAt s t c (i + 1)) := helpOk_migrateAt hstart'
  apply h.move
  · exact hok.help_to hnext
  · intro u d m hm
    rw [hth] at hm
    by_cases hu : t = u
    · subst hu
      rw [Thread.position_help, hpos, Option.some.injEq, Prod.mk.injEq] at hm
      obtain ⟨rfl, rfl⟩ := hm
      refine ⟨n', by rw [Thread.position_help, hn'], ?_⟩
      intro x hx hlt
      rw [hsub x hx]
      omega
    · rw [Thread.position_help_ne hu] at hm
      exact absurd hm (by simp)
  · intro u d m hm
    by_cases hu : t = u
    · subst hu
      rw [Thread.position_help, hn', Option.some.injEq, Prod.mk.injEq] at hm
      obtain ⟨rfl, rfl⟩ := hm
      refine ⟨n, by rw [hth, Thread.position_help, hpos], ?_⟩
      intro x hx hlt
      rw [hsub x hx] at hlt
      by_cases hxn : x < n
      · exact Or.inl hxn
      · obtain ⟨-, hmoved⟩ := hi (by omega)
        obtain rfl : x = i := by omega
        exact Or.inr hmoved
    · rw [Thread.position_help_ne hu] at hm
      exact absurd hm (by simp)

/-! ## §6. Claiming and finishing chunks. -/

/-- A step that changes only the chunk counters and the position of one
thread, and settles nothing. -/
theorem Inv.chunks (h : Inv s done) {done' : Nat → Finset Nat} {tid : Tid} {th : Thread}
    {claimed finished : Nat → Nat}
    (hok : ThreadOk s th)
    (hcomplete : ∀ t < s.currentTable, finished t = s.total t)
    (hlater : ∀ t ≤ s.currentTable, s.Complete t → finished t = s.total t)
    (hsharing : ∀ t ≤ s.currentTable, Sharing (s.total t) (claimed t) (finished t)
      (fun v => if v = tid then (th.position t).map Prod.fst else holds s t v) (done' t))
    (hsettled : ∀ t x, Settled (s.goto tid th) (done' t) t x ↔ Settled s (done t) t x) :
    Inv ({ s with chunksClaimed := claimed, chunksDone := finished }.goto tid th) done' := by
  set s₁ : State := { s with chunksClaimed := claimed, chunksDone := finished } with hs₁
  have hl : Later s (s₁.goto tid th) :=
    ⟨Nat.le_refl _, fun _ _ => rfl, fun _ _ _ => Forward.refl _, hlater⟩
  -- if the current table is incomplete now, it was so before
  have hnot : finished s.currentTable ≠ s.total s.currentTable → ¬ s.Complete s.currentTable :=
    fun hf hc => hf (hlater _ (Nat.le_refl _) hc)
  refine
    { shape := ⟨h.shape.old_zero, h.shape.old_succ, h.shape.oldCapacity_zero,
        h.shape.oldCapacity_succ, h.shape.capacity_pos, h.shape.placed, h.shape.fresh⟩
      complete := hcomplete, sharing := ?_, marked := ?_, source := ?_, moved := ?_
      threadOk := ?_ }
  · intro t ht
    apply (hsharing t ht).congr
    intro v
    unfold holds
    rw [goto_thread]
    split <;> rfl
  · intro t ht x hset
    exact h.marked t ht x ((hsettled t x).mp hset)
  · intro hf y hy hk
    obtain ⟨x, hx, hset, heq⟩ := h.source (hnot hf) y hy hk
    exact ⟨x, hx, (hsettled _ x).mpr hset, heq⟩
  · intro hf x hset hk
    exact h.moved (hnot hf) x ((hsettled _ x).mp hset) hk
  · apply threadOk_goto (goto_thread s₁ tid · th)
    · exact hok.later hl h.shape
    · exact fun v => (h.threadOk v).later hl h.shape

theorem sharing_congr {u : Nat} {claimed finished : Nat → Nat} {tid : Tid} {th : Thread}
    (h : Inv s done) (hu : u ≤ s.currentTable)
    (hc : claimed u = s.chunksClaimed u) (hf : finished u = s.chunksDone u)
    (hpos : th.position u = (s.thread tid).position u) :
    Sharing (s.total u) (claimed u) (finished u)
      (fun v => if v = tid then (th.position u).map Prod.fst else holds s u v) (done u) := by
  rw [hc, hf]
  apply (h.sharing u hu).congr
  intro v
  split
  · next hv =>
    rw [hv, hpos]
    rfl
  · rfl

/-- The thread has no position before the step, and one that settles nothing
after it, or the other way round: its chunk is then in `done'`. -/
theorem settled_iff {done' : Nat → Finset Nat} {tid : Tid} {th : Thread} {t : Nat}
    (hother : ∀ u, u ≠ t → th.position u = (s.thread tid).position u ∧ done' u = done u)
    (hforth : ∀ x c, InChunk s t c x → (c ∈ done t ∨ ∃ n, (s.thread tid).position t = some (c, n)
      ∧ x < n) → c ∈ done' t ∨ ∃ n, th.position t = some (c, n) ∧ x < n)
    (hback : ∀ x c, InChunk s t c x → (c ∈ done' t ∨ ∃ n, th.position t = some (c, n) ∧ x < n) →
      c ∈ done t ∨ ∃ n, (s.thread tid).position t = some (c, n) ∧ x < n) (u x : Nat) :
    Settled (s.goto tid th) (done' u) u x ↔ Settled s (done u) u x := by
  by_cases hu : u = t
  · subst hu
    constructor
    · intro hset
      obtain ⟨c, hin, hor⟩ := hset
      have hself : (c ∈ done' u ∨ ∃ n, th.position u = some (c, n) ∧ x < n) →
          Settled s (done u) u x := by
        intro hc
        rcases hback x c hin hc with hd | ⟨n, hn, hlt⟩
        · exact ⟨c, hin, Or.inl hd⟩
        · exact ⟨c, hin, Or.inr ⟨tid, n, hn, hlt⟩⟩
      rcases hor with hd | ⟨v, n, hv, hlt⟩
      · exact hself (Or.inl hd)
      · rw [goto_thread] at hv
        split at hv
        · exact hself (Or.inr ⟨n, hv, hlt⟩)
        · exact ⟨c, hin, Or.inr ⟨v, n, hv, hlt⟩⟩
    · intro hset
      obtain ⟨c, hin, hor⟩ := hset
      have hself : (c ∈ done u ∨ ∃ n, (s.thread tid).position u = some (c, n) ∧ x < n) →
          Settled (s.goto tid th) (done' u) u x := by
        intro hc
        rcases hforth x c hin hc with hd | ⟨n, hn, hlt⟩
        · exact ⟨c, hin, Or.inl hd⟩
        · refine ⟨c, hin, Or.inr ⟨tid, n, ?_, hlt⟩⟩
          rw [goto_thread, if_pos rfl]
          exact hn
      rcases hor with hd | ⟨v, n, hv, hlt⟩
      · exact hself (Or.inl hd)
      · by_cases hvt : v = tid
        · exact hself (Or.inr ⟨n, by rw [← hvt]; exact hv, hlt⟩)
        · refine ⟨c, hin, Or.inr ⟨v, n, ?_, hlt⟩⟩
          rw [goto_thread, if_neg hvt]
          exact hv
  · obtain ⟨hpos, hdone⟩ := hother u hu
    rw [hdone]
    have hsame : ∀ v, ((s.goto tid th).thread v).position u = (s.thread v).position u := by
      intro v
      rw [goto_thread]
      split
      · next hv => rw [hv, hpos]
      · rfl
    unfold Settled
    simp only [hsame]
    exact Iff.rfl

theorem Inv.claim (h : Inv s done) {tid : Tid} {op : Op} {key : Key} {k : After} {t : Nat}
    (hth : s.thread tid = .running op key (.help k t .claim))
    (hlt : s.chunksClaimed t < s.total t) :
    Inv ({ s with
        chunksClaimed := Function.update s.chunksClaimed t (s.chunksClaimed t + 1) }.goto tid
      (.running op key (.help k t
        (migrateAt s t (s.chunksClaimed t) (startIndex (s.chunksClaimed t)))))) done := by
  have hok : PcOk s op key.val (.help k t .claim) := by
    have := h.threadOk tid
    rw [hth] at this
    exact this
  obtain ⟨n, hn, hsub⟩ :=
    position_migrateAt s t (s.chunksClaimed t) (startIndex (s.chunksClaimed t))
  have hnext := helpOk_migrateAt (s := s) (t := t) (Nat.le_refl (startIndex (s.chunksClaimed t)))
  generalize migrateAt s t (s.chunksClaimed t) (startIndex (s.chunksClaimed t)) = help
    at hn hnext ⊢
  set th : Thread := .running op key (.help k t help) with hthread
  have hbefore : ∀ u, (s.thread tid).position u = none := by
    intro u
    rw [hth]
    simp [Thread.position, Help.position]
  have hself : th.position t = some (s.chunksClaimed t, n) := by
    rw [hthread, Thread.position_help, hn]
  have hother : ∀ u, u ≠ t → th.position u = (s.thread tid).position u := by
    intro u hu
    rw [hbefore, hthread]
    exact Thread.position_help_ne hu.symm
  apply h.chunks
  · exact hok.help_to hnext
  · exact h.complete
  · exact fun _ _ hc => hc
  · intro u hu
    by_cases hut : u = t
    · subst hut
      rw [Function.update_self]
      apply (h.sharing u hu).claim hlt (w := tid)
      · unfold holds
        rw [hbefore]
        rfl
      · intro v
        rw [hself]
        rfl
    · exact sharing_congr h hu (Function.update_of_ne hut _ _) rfl (hother u hut)
  · apply settled_iff (t := t)
    · exact fun u hu => ⟨hother u hu, rfl⟩
    · intro x c hin hor
      rcases hor with hd | ⟨m, hm, -⟩
      · exact Or.inl hd
      · rw [hbefore] at hm
        exact absurd hm (by simp)
    · intro x c hin hor
      rcases hor with hd | ⟨m, hm, hlt'⟩
      · exact Or.inl hd
      · -- the new position is the start of the chunk: nothing before it
        rw [hself, Option.some.injEq, Prod.mk.injEq] at hm
        obtain ⟨rfl, rfl⟩ := hm
        have := (hsub x hin).mp hlt'
        have := hin.1
        omega

theorem Inv.claimNone (h : Inv s done) {tid : Tid} {op : Op} {key : Key} {k : After} {t : Nat}
    (hth : s.thread tid = .running op key (.help k t .claim))
    (hle : s.total t ≤ s.chunksClaimed t) :
    Inv ({ s with
        chunksClaimed := Function.update s.chunksClaimed t (s.chunksClaimed t + 1) }.goto tid
      (.running op key (.help k t .test))) done := by
  have hok : PcOk s op key.val (.help k t .claim) := by
    have := h.threadOk tid
    rw [hth] at this
    exact this
  set th : Thread := .running op key (.help k t .test) with hthread
  have hpos : ∀ u, th.position u = (s.thread tid).position u := by
    intro u
    rw [hth, hthread]
    simp [Thread.position, Help.position]
  apply h.chunks
  · exact hok.help_to trivial
  · exact h.complete
  · exact fun _ _ hc => hc
  · intro u hu
    by_cases hut : u = t
    · subst hut
      rw [Function.update_self]
      apply ((h.sharing u hu).claim_none hle).congr
      intro v
      split
      · next hv =>
        rw [hv, hpos]
        rfl
      · rfl
    · exact sharing_congr h hu (Function.update_of_ne hut _ _) rfl (hpos u)
  · apply settled_iff (t := t)
    · exact fun u _ => ⟨hpos u, rfl⟩
    · intro x c _ hor
      rw [hpos]
      exact hor
    · intro x c _ hor
      rw [← hpos]
      exact hor

theorem Inv.finish (h : Inv s done) {tid : Tid} {op : Op} {key : Key} {k : After} {t c : Nat}
    (hth : s.thread tid = .running op key (.help k t (.done c))) :
    Inv ({ s with chunksDone := Function.update s.chunksDone t (s.chunksDone t + 1) }.goto tid
      (.running op key (.help k t .test)))
      (Function.update done t (insert c (done t))) := by
  obtain ⟨htcur, hnot⟩ := h.working hth rfl
  have hok : PcOk s op key.val (.help k t (.done c)) := by
    have := h.threadOk tid
    rw [hth] at this
    exact this
  set th : Thread := .running op key (.help k t .test) with hthread
  have hself : (s.thread tid).position t = some (c, startIndex (c + 1)) := by
    rw [hth, Thread.position_help]
    rfl
  have hafter : ∀ u, th.position u = none := by
    intro u
    rw [hthread]
    simp [Thread.position, Help.position]
  have hother : ∀ u, u ≠ t → th.position u = (s.thread tid).position u := by
    intro u hu
    rw [hafter, hth]
    exact (Thread.position_help_ne hu.symm).symm
  apply h.chunks
  · exact hok.help_to trivial
  · intro u hu
    rw [Function.update_of_ne (by omega)]
    exact h.complete u hu
  · intro u hu hc
    have hut : u ≠ t := by
      intro hut
      rw [hut] at hc
      exact hnot hc
    rw [Function.update_of_ne hut]
    exact hc
  · intro u hu
    by_cases hut : u = t
    · subst hut
      rw [Function.update_self, Function.update_self]
      apply (h.sharing u hu).finish (w := tid) (c := c)
      · unfold holds
        rw [hself]
        rfl
      · intro v
        rw [hafter]
        rfl
    · rw [Function.update_of_ne hut (insert c (done t)) done]
      exact sharing_congr h hu rfl (Function.update_of_ne hut _ _) (hother u hut)
  · apply settled_iff (t := t)
    · exact fun u hu => ⟨hother u hu, Function.update_of_ne hu _ _⟩
    · intro x d hin hor
      rw [Function.update_self]
      rcases hor with hd | ⟨m, hm, -⟩
      · exact Or.inl (Finset.mem_insert_of_mem hd)
      · rw [hself, Option.some.injEq, Prod.mk.injEq] at hm
        obtain ⟨rfl, -⟩ := hm
        exact Or.inl (Finset.mem_insert_self _ _)
    · intro x d hin hor
      rw [Function.update_self] at hor
      rcases hor with hd | ⟨m, hm, -⟩
      · rcases Finset.mem_insert.mp hd with rfl | hd
        · -- the whole chunk lies before the position of its worker
          have hend := endIndex_le_succ d (s.oldCapacity t)
          exact Or.inr ⟨_, hself, Nat.lt_of_lt_of_le hin.2 hend⟩
        · exact Or.inl hd
      · rw [hafter] at hm
        exact absurd hm (by simp)

/-! ## §7. Publishing a table. -/

section Publish

variable {newCap t : Nat}

/-- Publishing a table changes nothing of the others. -/
theorem publish_old (ht : t ≤ s.currentTable) :
    (s.publish s.currentTable newCap).table t = s.table t
      ∧ (s.publish s.currentTable newCap).data t = s.data t
      ∧ (s.publish s.currentTable newCap).chunksClaimed t = s.chunksClaimed t
      ∧ (s.publish s.currentTable newCap).chunksDone t = s.chunksDone t := by
  have hne : t ≠ s.currentTable + 1 := by omega
  exact ⟨Function.update_of_ne hne _ s.table, Function.update_of_ne hne _ s.data,
    Function.update_of_ne hne _ s.chunksClaimed, Function.update_of_ne hne _ s.chunksDone⟩

theorem publish_total (ht : t ≤ s.currentTable) :
    (s.publish s.currentTable newCap).total t = s.total t := by
  unfold State.total State.oldCapacity
  rw [(publish_old ht).1]

theorem Later.publish : Later s (s.publish s.currentTable newCap) := by
  refine ⟨Nat.le_succ _, fun t ht => (publish_old ht).1, ?_, ?_⟩
  · intro t ht x
    rw [(publish_old ht).2.1]
    exact Forward.refl _
  · intro t ht hc
    show (s.publish s.currentTable newCap).chunksDone t
      = (s.publish s.currentTable newCap).total t
    rw [(publish_old ht).2.2.2, publish_total ht]
    exact hc

/-- What the new table looks like. -/
theorem publish_new :
    (s.publish s.currentTable newCap).table (s.currentTable + 1)
        = { oldData := s.currentTable, currCapacity := newCap
            oldCapacity := s.currCapacity s.currentTable }
      ∧ (s.publish s.currentTable newCap).data (s.currentTable + 1) = (fun _ => Bucket.plain EMPTY)
      ∧ (s.publish s.currentTable newCap).chunksClaimed (s.currentTable + 1) = 0
      ∧ (s.publish s.currentTable newCap).chunksDone (s.currentTable + 1) = 0 :=
  ⟨Function.update_self _ _ s.table, Function.update_self _ _ s.data,
    Function.update_self _ _ s.chunksClaimed, Function.update_self _ _ s.chunksDone⟩

end Publish

theorem Inv.publish (h : Inv s done) {tid : Tid} {op : Op} {key : Key} {newCap : Nat}
    (hth : s.thread tid = .running op key (.publish s.currentTable newCap)) :
    Inv ((s.publish s.currentTable newCap).goto tid (.running op key .reload))
      (Function.update done (s.currentTable + 1) ∅) := by
  have hok := h.threadOk tid
  rw [hth] at hok
  obtain ⟨-, hcomp, hpos⟩ := hok
  set th : Thread := .running op key .reload with hthread
  set s₁ := s.publish s.currentTable newCap with hs₁
  set s' := s₁.goto tid th with hs'
  have hne : ∀ t ≤ s.currentTable, t ≠ s.currentTable + 1 := fun t ht => by omega
  have hkeep : ∀ t ≤ s.currentTable, s'.table t = s.table t ∧ s'.data t = s.data t
      ∧ s'.chunksClaimed t = s.chunksClaimed t ∧ s'.chunksDone t = s.chunksDone t :=
    fun t ht => publish_old ht
  have htable : ∀ t ≤ s.currentTable, s'.table t = s.table t := fun t ht => (hkeep t ht).1
  have hdata : ∀ t ≤ s.currentTable, s'.data t = s.data t := fun t ht => (hkeep t ht).2.1
  obtain ⟨hnew, hblank, hzero', hzero⟩ :
      s'.table (s.currentTable + 1) = { oldData := s.currentTable, currCapacity := newCap
                                        oldCapacity := s.currCapacity s.currentTable }
        ∧ s'.data (s.currentTable + 1) = (fun _ => Bucket.plain EMPTY)
        ∧ s'.chunksClaimed (s.currentTable + 1) = 0
        ∧ s'.chunksDone (s.currentTable + 1) = 0 := publish_new
  have hl : Later s s₁ := Later.publish
  have hlater : Later s s' := ⟨hl.current, hl.table, hl.data, hl.complete⟩
  have hposition : ∀ v t, (s'.thread v).position t = (s.thread v).position t := by
    intro v t
    rw [hs', goto_thread]
    split
    · next hv =>
      rw [hv, hth]
      rfl
    · rfl
  have hnobody : ∀ v, (s.thread v).position (s.currentTable + 1) = none :=
    fun v => position_none_of_lt (h.threadOk v) (Nat.lt_succ_self _)
  have hsplit : ∀ t, t ≤ s'.currentTable → t ≤ s.currentTable ∨ t = s.currentTable + 1 := by
    intro t ht
    change t ≤ s.currentTable + 1 at ht
    omega
  have hsettled : ∀ t ≤ s.currentTable, ∀ x,
      Settled s' (Function.update done (s.currentTable + 1) ∅ t) t x ↔ Settled s (done t) t x := by
    intro t ht x
    rw [Function.update_of_ne (hne t ht)]
    unfold Settled
    simp only [hposition, hlater.inChunk ht]
  have hunsettled : ∀ x, ¬ Settled s' (Function.update done (s.currentTable + 1) ∅
      (s.currentTable + 1)) (s.currentTable + 1) x := by
    intro x hset
    rw [Function.update_self] at hset
    obtain ⟨c, -, hd | ⟨v, n, hv, -⟩⟩ := hset
    · exact absurd hd (by simp)
    · rw [hposition, hnobody] at hv
      exact absurd hv (by simp)
  refine
    { shape := ?_, complete := ?_, sharing := ?_, marked := ?_, source := ?_
      moved := ?_, threadOk := ?_ }
  · refine ⟨?_, ?_, ?_, ?_, ?_, ?_, ?_⟩
    · rw [htable 0 (Nat.zero_le _)]
      exact h.shape.old_zero
    · intro t ht
      rcases Nat.lt_or_eq_of_le (Nat.le_of_lt_succ ht) with hlt | rfl
      · rw [htable (t + 1) hlt]
        exact h.shape.old_succ t hlt
      · rw [hnew]
    · unfold State.oldCapacity
      rw [htable 0 (Nat.zero_le _)]
      exact h.shape.oldCapacity_zero
    · intro t ht
      rcases Nat.lt_or_eq_of_le (Nat.le_of_lt_succ ht) with hlt | rfl
      · rw [hlater.oldCapacity hlt, hlater.currCapacity (Nat.le_of_lt hlt)]
        exact h.shape.oldCapacity_succ t hlt
      · rw [hlater.currCapacity (Nat.le_refl _)]
        unfold State.oldCapacity
        rw [hnew]
    · intro t ht
      rcases hsplit t ht with hle | rfl
      · rw [hlater.currCapacity hle]
        exact h.shape.capacity_pos t hle
      · unfold State.currCapacity
        rw [hnew]
        exact hpos
    · intro t ht
      rcases hsplit t ht with hle | rfl
      · unfold State.keys
        rw [hlater.currCapacity hle, hdata t hle]
        exact h.shape.placed t hle
      · unfold State.keys
        rw [hblank]
        exact Placed.blank not_isKey_empty
    · intro x
      show (s'.data (s.currentTable + 1) x).isMarked = false
      rw [hblank]
      rfl
  · intro t ht
    have hle : t ≤ s.currentTable := Nat.le_of_lt_succ ht
    apply hlater.complete t hle
    rcases Nat.lt_or_eq_of_le hle with hlt | rfl
    · exact h.complete t hlt
    · exact hcomp
  · intro t ht
    rcases hsplit t ht with hle | rfl
    · have htotal : s'.total t = s.total t := publish_total hle
      rw [htotal, (hkeep t hle).2.2.1, (hkeep t hle).2.2.2, Function.update_of_ne (hne t hle)]
      apply (h.sharing t hle).congr
      intro v
      unfold holds
      rw [hposition]
    · rw [hzero, hzero', Function.update_self]
      apply Sharing.start
      intro v
      unfold holds
      rw [hposition, hnobody]
      rfl
  · intro t ht x hset
    rcases hsplit t ht with hle | rfl
    · have hm := h.marked t hle x ((hsettled t hle x).mp hset)
      rw [hlater.old_marked h.shape hle hm]
      exact hm
    · exact absurd hset (hunsettled x)
  · intro _ y _ hk
    change IsKey (keysOf (s'.data (s.currentTable + 1)) y) at hk
    rw [hblank] at hk
    exact absurd hk not_isKey_empty
  · intro _ x hset
    exact absurd hset (hunsettled x)
  · apply threadOk_goto (goto_thread s₁ tid · th)
    · trivial
    · exact fun v => (h.threadOk v).later hlater h.shape

/-! ## §8. Every step. -/

/-- **Every step of a call keeps the invariant.** -/
theorem Inv.effect (h : Inv s done) {tid : Tid} {op : Op} {key : Key} {pc pc' : Pc} {s' : State}
    (hth : s.thread tid = .running op key pc) (he : Effect s tid op key pc s' pc') :
    ∃ done', Inv (s'.goto tid (.running op key pc')) done' := by
  have hok : PcOk s op key.val pc := by
    have := h.threadOk tid
    rw [hth] at this
    exact this
  cases he with
  | quiet hq => exact ⟨done, h.quiet hth hq⟩
  | count hinc =>
      refine ⟨done, (h.setCounter _ _ _).move_same hok ?_⟩
      intro t
      show _ = (s.thread tid).position t
      rw [hth]
      rfl
  | counted hinc =>
      refine ⟨done, (h.setCounter _ _ _).move_same trivial ?_⟩
      intro t
      show _ = (s.thread tid).position t
      rw [hth]
      rfl
  | helpCount hinc =>
      refine ⟨done, (h.setCounter _ _ _).move_same ?_ ?_⟩
      · exact hok.help_to hok.help.2
      · intro t
        show _ = (s.thread tid).position t
        rw [hth]
        simp [Thread.position, Help.position]
  | helpCounted hinc =>
      have hin := hok.help.2.1.1
      exact ⟨done, (h.setCounter _ _ _).advance hth rfl (Nat.le_refl _) hin.1 (fun hlt => by omega)⟩
  | skip hdead =>
      obtain ⟨hin, hmark⟩ := hok.help.2
      exact ⟨done, h.advance hth rfl (Nat.le_succ _) hin.1
        (fun _ => ⟨rfl, hmark, fun hk => absurd hk hdead⟩)⟩
  | claim hlt => exact ⟨done, h.claim hth hlt⟩
  | claimNone hle => exact ⟨done, h.claimNone hth hle⟩
  | mark => exact ⟨done, h.mark hth⟩
  | reinsert hempty => exact ⟨done, h.reinsert hth hempty⟩
  | finish => exact ⟨_, h.finish hth⟩
  | publish => exact ⟨_, h.publish hth⟩
  | cas hexp => exact ⟨done, h.cas hth hexp⟩

/-- **Every step leads to a later state.** -/
theorem Inv.later (h : Inv s done) {s' : State} {a : Action} (ht : Transition s a s') : Later s s' := by
  have hsame : ∀ {s₁ : State} {tid : Tid} {th : Thread}, Later s s₁ → Later s (s₁.goto tid th) :=
    fun hl => ⟨hl.current, hl.table, hl.data, hl.complete⟩
  have hrefl : Later s s := ⟨Nat.le_refl _, fun _ _ => rfl, fun _ _ _ => Forward.refl _,
    fun _ _ hc => hc⟩
  cases ht with
  | invoke op key hth => exact hsame hrefl
  | call hth he =>
      apply hsame
      cases he with
      | mark => exact Later.write (Forward.mark _)
      | reinsert hempty => exact Later.write (Forward.fill hempty _)
      | finish =>
          next k t c =>
          -- whoever finishes a chunk has found its table incomplete
          obtain ⟨-, hnot⟩ := h.working hth rfl
          refine ⟨Nat.le_refl _, fun _ _ => rfl, fun _ _ _ => Forward.refl _, ?_⟩
          intro u _ hc
          have hut : u ≠ t := fun hut => hnot (hut ▸ hc)
          show Function.update s.chunksDone t _ u = s.total u
          rw [Function.update_of_ne hut]
          exact hc
      | publish => exact Later.publish
      | cas hexp =>
          have hl := Later.write (Forward.cas hexp)
          exact ⟨hl.current, hl.table, hl.data, hl.complete⟩
      | _ => exact ⟨hrefl.current, hrefl.table, hrefl.data, hrefl.complete⟩
  | ret hth => exact ⟨hrefl.current, hrefl.table, hrefl.data, hrefl.complete⟩

theorem Inv.transition (h : Inv s done) {s' : State} {a : Action} (ht : Transition s a s') :
    ∃ done', Inv s' done' := by
  cases ht with
  | invoke op key hth =>
      refine ⟨done, h.move_same trivial ?_⟩
      intro t
      rw [hth]
      rfl
  | call hth he => exact h.effect hth he
  | ret hth =>
      refine ⟨done, (h.setReturned _).move_same trivial ?_⟩
      intro t
      show _ = (s.thread _).position t
      rw [hth]
      rfl

end MultiCore.AlgorithmD.Concurrent
