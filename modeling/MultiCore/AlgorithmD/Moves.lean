/-
  MultiCore.AlgorithmD.Moves — what the invariant gives, and the steps that
  only move a thread.

  `Inv.last_eq` is the fact that the clients rest on: a bucket that is not
  marked belongs to the last complete table.  `Inv.quiet` keeps the invariant
  across every step that stores nothing.
-/
import MultiCore.AlgorithmD.Invariant

namespace MultiCore.AlgorithmD.Concurrent

open MultiCore.Lib MultiCore.Util

/-! ## §1. Consequences of the invariant. -/

section Facts

variable {s : State} {done : Nat → Finset Nat}

/-- Whoever works on a chunk works on the current table, which is incomplete. -/
theorem Inv.working (h : Inv s done) {tid : Tid} {op : Op} {key : Key} {k : After} {t c n : Nat}
    {help : Help} (hth : s.thread tid = .running op key (.help k t help))
    (hpos : help.position = some (c, n)) : t = s.currentTable ∧ ¬ s.Complete t := by
  have hok := h.threadOk tid
  rw [hth] at hok
  have ht := (PcOk.help hok).1
  have hheld : holds s t tid = some c := by
    unfold holds
    rw [hth, Thread.position_help, hpos]
    rfl
  have hnot : ¬ s.Complete t := (h.sharing t ht).ne_total_of_held hheld
  refine ⟨?_, hnot⟩
  by_contra hne
  exact hnot (h.complete t (by omega))

theorem Inv.oldCapacity_small (h : Inv s done) (hsmall : s.Small) {t : Nat} (ht : t ≤ s.currentTable) :
    s.oldCapacity t ≤ 2 ^ 24 := by
  cases t with
  | zero =>
      rw [h.shape.oldCapacity_zero]
      omega
  | succ t =>
      rw [h.shape.oldCapacity_succ t ht]
      exact hsmall t (by omega)

/-- Once a table is complete, all buckets of its predecessor are settled. -/
theorem Inv.all_settled (h : Inv s done) (hsmall : s.Small) {t x : Nat} (ht : t ≤ s.currentTable)
    (hc : s.Complete t) (hx : x < s.oldCapacity t) : Settled s (done t) t x := by
  obtain ⟨c, hlt, hin⟩ := exists_inChunk (h.oldCapacity_small hsmall ht) hx
  refine ⟨c, hin, Or.inl ?_⟩
  rw [(h.sharing t ht).done_eq_range hc]
  exact Finset.mem_range.mpr hlt

/-- **An unmarked bucket is up to date**: a complete table with a bucket that is
not marked is the last complete table. -/
theorem Inv.last_eq (h : Inv s done) (hsmall : s.Small) {t x : Nat} (ht : t ≤ s.currentTable)
    (hc : s.Complete t)
    (hx : x < s.currCapacity t) (hm : (s.data t x).isMarked = false) : s.last = t := by
  unfold State.last
  rcases Nat.lt_or_eq_of_le ht with hlt | rfl
  · have hnext : ¬ s.Complete (t + 1) := by
      intro hcomp
      have hmark := h.marked (t + 1) hlt x
        (h.all_settled hsmall hlt hcomp (by rw [h.shape.oldCapacity_succ t hlt]; exact hx))
      unfold State.old at hmark
      rw [h.shape.old_succ t hlt, hm] at hmark
      exact absurd hmark (by simp)
    have hcur : t + 1 = s.currentTable := by
      by_contra hne
      exact hnext (h.complete (t + 1) (by omega))
    rw [hcur] at hnext
    rw [if_neg hnext]
    omega
  · rw [if_pos hc]

/-- The predecessor of an incomplete table. -/
theorem Inv.pred (h : Inv s done) (hc : ¬ s.Complete s.currentTable) :
    s.last + 1 = s.currentTable ∧ (s.table s.currentTable).oldData = s.last
      ∧ s.oldCapacity s.currentTable = s.currCapacity s.last := by
  have hpos : s.currentTable ≠ 0 := by
    intro hzero
    have htotal : s.total 0 = 0 := by
      unfold State.total
      rw [h.shape.oldCapacity_zero, totalOldChunks_zero]
    have hsh := h.sharing 0 (by omega)
    have hsub := hsh.done_subset
    rw [htotal, Finset.range_zero, Finset.subset_empty] at hsub
    apply hc
    rw [hzero]
    unfold State.Complete
    rw [← hsh.card, hsub, htotal]
    rfl
  have hlast : s.last = s.currentTable - 1 := by
    unfold State.last
    rw [if_neg hc]
  have hsucc : s.last + 1 = s.currentTable := by omega
  have hlt : s.last < s.currentTable := by omega
  refine ⟨hsucc, ?_, ?_⟩
  · rw [← hsucc]
    exact h.shape.old_succ s.last hlt
  · rw [← hsucc]
    exact h.shape.oldCapacity_succ s.last hlt

/-- A probe that ends at an empty bucket has shown the absence of its key. -/
theorem Probing.absent {t key i : Nat} (hshape : Shape s) (hp : Probing s t key i)
    (hkey : IsKey key) (he : s.keys t (s.index t key i) = EMPTY) : ¬ s.Live t key := by
  intro hlive
  obtain ⟨x, hx, hk⟩ := hlive
  exact (hshape.placed t hp.1).absent hkey hkey.1 hp.2.2 (fun _ => he) x hx hk

theorem Probing.index_lt {t key i : Nat} (hp : Probing s t key i) :
    s.index t key i < s.currCapacity t := path_lt (Nat.lt_of_le_of_lt (Nat.zero_le i) hp.2.1)

end Facts

/-! ## §2. Steps that only move a thread. -/

section Moves

variable {s : State} {done : Nat → Finset Nat}

theorem goto_thread (s : State) (tid v : Tid) (th : Thread) :
    (s.goto tid th).thread v = if v = tid then th else s.thread v := by
  simp only [State.goto, Function.update_apply]

theorem threadOk_goto {s s' : State} {tid : Tid} {th : Thread}
    (hthread : ∀ v, s'.thread v = if v = tid then th else s.thread v)
    (hok : ThreadOk s' th) (hothers : ∀ v, ThreadOk s' (s.thread v)) (v : Tid) :
    ThreadOk s' (s'.thread v) := by
  rw [hthread]
  split
  · exact hok
  · exact hothers v

/-- A thread moves on, and at most settles buckets whose keys are in the new
table already. -/
theorem Inv.move (h : Inv s done) {tid : Tid} {th : Thread} (hok : ThreadOk s th)
    (hpos : ∀ t c n, (s.thread tid).position t = some (c, n) →
      ∃ n', th.position t = some (c, n') ∧ ∀ x, InChunk s t c x → x < n → x < n')
    (hpos' : ∀ t c n', th.position t = some (c, n') →
      ∃ n, (s.thread tid).position t = some (c, n)
        ∧ ∀ x, InChunk s t c x → x < n' → x < n ∨ Moved s t x) :
    Inv (s.goto tid th) done := by
  have hold : ∀ {t x}, Settled (s.goto tid th) (done t) t x →
      Settled s (done t) t x ∨ Moved s t x := by
    intro t x hset
    obtain ⟨c, hin, hd | ⟨v, n', hv, hlt⟩⟩ := hset
    · exact Or.inl ⟨c, hin, Or.inl hd⟩
    · rw [goto_thread] at hv
      split at hv
      · obtain ⟨n, hn, hsub⟩ := hpos' t c n' hv
        rcases hsub x hin hlt with hx | hmoved
        · exact Or.inl ⟨c, hin, Or.inr ⟨tid, n, hn, hx⟩⟩
        · exact Or.inr hmoved
      · exact Or.inl ⟨c, hin, Or.inr ⟨v, n', hv, hlt⟩⟩
  have hnew : ∀ {t x}, Settled s (done t) t x → Settled (s.goto tid th) (done t) t x := by
    intro t x hset
    obtain ⟨c, hin, hd | ⟨v, n, hv, hlt⟩⟩ := hset
    · exact ⟨c, hin, Or.inl hd⟩
    · by_cases hvt : v = tid
      · rw [hvt] at hv
        obtain ⟨n', hn', hsub⟩ := hpos t c n hv
        refine ⟨c, hin, Or.inr ⟨tid, n', ?_, hsub x hin hlt⟩⟩
        rw [goto_thread, if_pos rfl]
        exact hn'
      · refine ⟨c, hin, Or.inr ⟨v, n, ?_, hlt⟩⟩
        rw [goto_thread, if_neg hvt]
        exact hv
  have hholds : ∀ t v, holds (s.goto tid th) t v = holds s t v := by
    intro t v
    unfold holds
    rw [goto_thread]
    split
    · next hvt =>
      subst hvt
      cases hp : (s.thread v).position t with
      | none =>
          cases hp' : th.position t with
          | none => rfl
          | some r =>
              obtain ⟨n, hn, -⟩ := hpos' t r.1 r.2 hp'
              rw [hp] at hn
              exact absurd hn (by simp)
      | some r =>
          obtain ⟨n', hn', -⟩ := hpos t r.1 r.2 hp
          rw [hn']
          rfl
    · rfl
  refine
    { shape := ⟨h.shape.old_zero, h.shape.old_succ, h.shape.oldCapacity_zero,
        h.shape.oldCapacity_succ, h.shape.capacity_pos, h.shape.placed, h.shape.fresh⟩
      complete := h.complete, sharing := ?_, marked := ?_, source := ?_, moved := ?_
      threadOk := ?_ }
  · intro t ht
    exact (h.sharing t ht).congr (hholds t)
  · intro t ht x hset
    rcases hold hset with hs | hm
    · exact h.marked t ht x hs
    · exact hm.1
  · intro hc y hy hk
    obtain ⟨x, hx, hset, heq⟩ := h.source hc y hy hk
    exact ⟨x, hx, hnew hset, heq⟩
  · intro hc x hset hk
    rcases hold hset with hs | hm
    · exact h.moved hc x hs hk
    · exact hm.2 hk
  · apply threadOk_goto (goto_thread s tid · th)
    · exact hok
    · exact h.threadOk

/-- A thread moves on and keeps its position. -/
theorem Inv.move_same (h : Inv s done) {tid : Tid} {th : Thread} (hok : ThreadOk s th)
    (hpos : ∀ t, th.position t = (s.thread tid).position t) : Inv (s.goto tid th) done := by
  apply h.move hok
  · intro t c n hn
    exact ⟨n, by rw [hpos]; exact hn, fun x _ hx => hx⟩
  · intro t c n hn
    exact ⟨n, by rw [← hpos]; exact hn, fun x _ hx => Or.inl hx⟩

/-- No part of the invariant reads the counters. -/
theorem Inv.setCounter (h : Inv s done) (op : Op) (t : Nat) (c : Counter) :
    Inv (s.setCounter op t c) done :=
  { shape := ⟨h.shape.old_zero, h.shape.old_succ, h.shape.oldCapacity_zero,
      h.shape.oldCapacity_succ, h.shape.capacity_pos, h.shape.placed, h.shape.fresh⟩
    complete := h.complete, sharing := h.sharing, marked := h.marked, source := h.source
    moved := h.moved
    threadOk := fun tid => (h.threadOk tid).later
      ⟨Nat.le_refl _, fun _ _ => rfl, fun _ _ _ => Forward.refl _, fun _ _ hc => hc⟩ h.shape }

/-- Nor the record of the calls that have returned. -/
theorem Inv.setReturned (h : Inv s done) (l : List Return) :
    Inv { s with returned := l } done :=
  { shape := ⟨h.shape.old_zero, h.shape.old_succ, h.shape.oldCapacity_zero,
      h.shape.oldCapacity_succ, h.shape.capacity_pos, h.shape.placed, h.shape.fresh⟩
    complete := h.complete, sharing := h.sharing, marked := h.marked, source := h.source
    moved := h.moved
    threadOk := fun tid => (h.threadOk tid).later
      ⟨Nat.le_refl _, fun _ _ => rfl, fun _ _ _ => Forward.refl _, fun _ _ hc => hc⟩ h.shape }

theorem iterate_ok {op : Op} {t i : Nat} {pc : Pc} (h : iterate s op t i = .ok pc) :
    (i < s.currCapacity t ∧ pc = .help (.test i) t .test)
      ∨ (¬ i < s.currCapacity t ∧ op = .erase ∧ pc = .ret false) := by
  unfold iterate at h
  split at h
  · next hi => exact Or.inl ⟨hi, by simpa using h.symm⟩
  · next hi =>
    cases op with
    | insertIfAbsent => exact absurd h (by simp)
    | erase => exact Or.inr ⟨hi, rfl, by simpa using h.symm⟩

theorem reinsertAt_ok {c i key t j : Nat} {help : Help} (h : reinsertAt s c i key t j = .ok help) :
    j < s.currCapacity t ∧ help = .insert c i key (.read t j) := by
  unfold reinsertAt at h
  split at h
  · next hj =>
    split at h
    · exact ⟨hj, by simpa using h.symm⟩
    · exact absurd h (by simp)
  · exact absurd h (by simp)

theorem newCapacity_ok {a b : Int} {c : Nat} (h : newCapacity a b = .ok c) : 0 < c := by
  unfold newCapacity at h
  simp only at h
  split at h
  · exact absurd h (by simp)
  split at h
  · exact absurd h (by simp)
  · have hc : (toInt (4 * toInt (a - b))).toNat = c := by simpa using h
    omega

/-- The next iteration of a probe loop, after a bucket that is not empty and not
the key. -/
theorem pcOk_iterate {op : Op} {key t i : Nat} {pc : Pc} (hp : Probing s t key i)
    (hne : s.keys t (s.index t key i) ≠ EMPTY) (hk : s.keys t (s.index t key i) ≠ key)
    (hi : iterate s op t (i + 1) = .ok pc) : PcOk s op key pc := by
  rcases iterate_ok hi with ⟨hlt, rfl⟩ | ⟨-, -, rfl⟩
  · exact ⟨⟨hp.1, hlt, hp.2.2.succ hne hk⟩, trivial⟩
  · trivial

theorem helpOk_reinsert {c i key t j : Nat} {help : Help} (hm : Moving s t c i key)
    (hp : Probing s t key j) (hne : s.keys t (s.index t key j) ≠ EMPTY)
    (hk : s.keys t (s.index t key j) ≠ key)
    (hr : reinsertAt s c i key t (j + 1) = .ok help) : HelpOk s t help := by
  obtain ⟨hlt, rfl⟩ := reinsertAt_ok hr
  exact ⟨hm, rfl, hp.1, hlt, hp.2.2.succ hne hk⟩

/-- An unmarked bucket that is not the word of `v` does not hold `v`. -/
theorem keys_ne {t x v : Nat} (hm : (s.data t x).isMarked = false)
    (hne : s.data t x ≠ Bucket.plain v) : s.keys t x ≠ v := by
  intro heq
  exact hne (Bucket.eq_plain_iff.mpr ⟨heq, hm⟩)

theorem keys_eq {t x v : Nat} (h : s.data t x = Bucket.plain v) : s.keys t x = v := by
  show (s.data t x).getKey = v
  rw [h]
  rfl

/-- A step that stores nothing keeps what its thread has seen. -/
theorem Inv.quiet_ok (h : Inv s done) {tid : Tid} {op : Op} {key : Key} {pc pc' : Pc}
    (hth : s.thread tid = .running op key pc) (hq : Quiet s op key pc pc') :
    PcOk s op key.val pc' := by
  have hok : PcOk s op key.val pc := by
    have := h.threadOk tid
    rw [hth] at this
    exact this
  have hcur : ∀ {op' : Op}, iterate s op' s.currentTable 0 = .ok pc' → PcOk s op' key.val pc' := by
    intro op' hi
    rcases iterate_ok hi with ⟨hlt, rfl⟩ | ⟨-, -, rfl⟩
    · exact ⟨⟨Nat.le_refl _, hlt, Clear.zero _ _ _ _⟩, trivial⟩
    · trivial
  cases hq with
  | load hi => exact hcur hi
  | helpTest =>
      apply hok.help_to
      split <;> trivial
  | helpRead => exact hok.help_to hok.help.2
  | helpMarkFailed => exact hok.help_to hok.help.2
  | helpKey hk => exact hok.help_to ⟨hok.help.2.1, hok.help.2.2, rfl, hk⟩
  | helpLoad hr =>
      obtain ⟨hlt, rfl⟩ := reinsertAt_ok hr
      -- the thread holds a chunk, so `currentTable` is still the table it fills
      obtain ⟨rfl, -⟩ := h.working hth rfl
      exact hok.help_to ⟨hok.help.2, rfl, Nat.le_refl _, hlt, Clear.zero _ _ _ _⟩
  | helpEmpty he => exact hok.help_to hok.help.2
  | helpCasFailed he =>
      obtain ⟨rfl, -⟩ := h.working hth rfl
      obtain ⟨hm, rfl, hp⟩ := hok.help.2
      exact hok.help_to ⟨hm, rfl, hp, keys_ne (h.shape.fresh _) he⟩
  | helpReadNext he hk hr =>
      obtain ⟨rfl, -⟩ := h.working hth rfl
      obtain ⟨hm, rfl, hp⟩ := hok.help.2
      apply hok.help_to
      exact helpOk_reinsert hm hp (keys_ne (h.shape.fresh _) he) (keys_ne (h.shape.fresh _) hk) hr
  | helpRereadNext hk hr =>
      obtain ⟨rfl, -⟩ := h.working hth rfl
      obtain ⟨hm, rfl, hp, hne⟩ := hok.help.2
      apply hok.help_to
      exact helpOk_reinsert hm hp hne (keys_ne (h.shape.fresh _) hk) hr
  | helpWait hd => exact hok
  | helpToTest hd => exact ⟨hok.1, hd⟩
  | helpToLoad hd => trivial
  | getExpand => exact ⟨hok.1.1, hok.2⟩
  | getAccurate => exact hok
  | getProbe => exact hok
  | accurateNext => exact hok
  | accurateExpand => exact ⟨hok.1.1, hok.2⟩
  | accurateProbe => exact hok
  | current hc => exact hok
  | notCurrent => trivial
  | insertsNext hn => exact hok
  | insertsDone hn => exact hok
  | deletesNext hn => exact hok
  | deletesDone hn hc => exact ⟨hok.1, hok.2, newCapacity_ok hc⟩
  | publishFailed hc => trivial
  | reload => exact ⟨Nat.le_refl _, trivial⟩
  | readMarked => trivial
  | rereadMarked => trivial
  | readExpected he =>
      refine ⟨hok.1, hok.2, ?_⟩
      intro hop
      subst hop
      exact Or.inl (keys_eq he)
  | @casFailed t i hne =>
      obtain ⟨hp, hc, he⟩ := hok
      refine ⟨hp, hc, ?_⟩
      cases hm : (s.data t (s.index t key.val i)).isMarked with
      | true => exact Or.inl rfl
      | false =>
          -- not marked, and not what the CAS expected: it has moved on
          right
          cases op with
          | insertIfAbsent => exact ⟨keys_ne hm hne, fun hop => absurd hop (by simp)⟩
          | erase =>
              have ht : s.keys t (s.index t key.val i) = TOMBSTONE := by
                rcases he rfl with hk | hk
                · exact absurd hk (keys_ne hm hne)
                · exact hk
              exact ⟨by rw [ht]; exact tombstone_ne_empty, fun _ => ht⟩
  | readNext hm he hk hi => exact pcOk_iterate hok.1 (keys_ne hm he) (keys_ne hm hk) hi
  | @rereadNext t i _ hm hd hi =>
      obtain ⟨hp, hc, hor⟩ := hok
      have hused : s.keys t (s.index t key.val i) ≠ EMPTY := by
        rcases hor with hm' | hu
        · rw [hm] at hm'
          exact absurd hm' (by simp)
        · exact hu.1
      apply pcOk_iterate hp hused ?_ hi
      cases op with
      | insertIfAbsent => exact keys_ne hm hd
      | erase =>
          rcases hor with hm' | hu
          · rw [hm] at hm'
            exact absurd hm' (by simp)
          · rw [hu.2 rfl]
            exact key.ne_tombstone.symm
  | insertReadFound hop hk => trivial
  | insertRereadFound hop hk => trivial
  | eraseEmpty hop he => trivial
  | eraseTombstone hop ht => trivial

theorem Quiet.position_eq {op : Op} {key : Key} {pc pc' : Pc} (hq : Quiet s op key pc pc')
    (t : Nat) : Thread.position t (.running op key pc') = Thread.position t (.running op key pc) := by
  cases hq with
  | load hi =>
      rcases iterate_ok hi with ⟨-, rfl⟩ | ⟨-, -, rfl⟩ <;> simp [Thread.position, Help.position]
  | helpLoad hr =>
      obtain ⟨-, rfl⟩ := reinsertAt_ok hr
      simp [Thread.position, Help.position]
  | helpReadNext he hk hr =>
      obtain ⟨-, rfl⟩ := reinsertAt_ok hr
      simp [Thread.position, Help.position]
  | helpRereadNext hk hr =>
      obtain ⟨-, rfl⟩ := reinsertAt_ok hr
      simp [Thread.position, Help.position]
  | readNext hm he hk hi =>
      rcases iterate_ok hi with ⟨-, rfl⟩ | ⟨-, -, rfl⟩ <;> simp [Thread.position, Help.position]
  | rereadNext hm hd hi =>
      rcases iterate_ok hi with ⟨-, rfl⟩ | ⟨-, -, rfl⟩ <;> simp [Thread.position, Help.position]
  | @helpTest k t' =>
      by_cases hlt : s.chunksClaimed t' < s.total t'
      · rw [if_pos hlt]
        simp [Thread.position, Help.position]
      · rw [if_neg hlt]
        simp [Thread.position, Help.position]
  | _ => simp [Thread.position, Help.position]

theorem Inv.quiet (h : Inv s done) {tid : Tid} {op : Op} {key : Key} {pc pc' : Pc}
    (hth : s.thread tid = .running op key pc) (hq : Quiet s op key pc pc') :
    Inv (s.goto tid (.running op key pc')) done := by
  apply h.move_same
  · exact h.quiet_ok hth hq
  · intro t
    rw [hth]
    exact hq.position_eq t

end Moves

end MultiCore.AlgorithmD.Concurrent
