/-
  MultiCore.AlgorithmD.Answers — calls that return false are right.

  An unmarked bucket of a complete table is up to date (`Inv.last_eq`), so a
  bucket that a client has just read, unmarked, tells what is present at that
  instant: the key itself, or, behind a clear path, its absence.  One answer
  needs the past: an erase whose CAS fails and which then reads a tombstone
  returns false, and the instant is the one at which another erase put the
  tombstone there (`erased_absent`).
-/
import MultiCore.AlgorithmD.KeySet

namespace MultiCore.AlgorithmD.Concurrent

open MultiCore.Lib MultiCore.Util

/-- The client insert CASes that succeeded on `key` so far outnumber the client
erase CASes that did. -/
def Present (key : Key) (s : State) : Prop :=
  s.casWins .erase key.val < s.casWins .insertIfAbsent key.val

/-! ## §1. What a bucket tells. -/

section Instant

variable {s : State} {done : Nat → Finset Nat} {key : Key} {t i : Nat}

theorem Tracked.present_iff (h : Tracked s) : Present key s ↔ s.Live s.last key.val := by
  unfold Present
  constructor
  · intro hp
    by_contra hl
    have := h.absent key.val key.isKey hl
    omega
  · intro hl
    have := h.present key.val key.isKey hl
    omega

theorem present_of_read (h : Inv s done) (hsmall : s.Small) (htrack : Tracked s)
    (hp : Probing s t key.val i) (hc : s.Complete t)
    (hd : s.data t (s.index t key.val i) = Bucket.plain key.val) : Present key s := by
  have hm : (s.data t (s.index t key.val i)).isMarked = false := by
    rw [hd]
    rfl
  rw [htrack.present_iff, h.last_eq hsmall hp.1 hc hp.index_lt hm]
  exact ⟨_, hp.index_lt, keys_eq hd⟩

theorem absent_of_empty (h : Inv s done) (hsmall : s.Small) (htrack : Tracked s)
    (hp : Probing s t key.val i) (hc : s.Complete t)
    (hd : s.data t (s.index t key.val i) = Bucket.plain EMPTY) : ¬ Present key s := by
  have hm : (s.data t (s.index t key.val i)).isMarked = false := by
    rw [hd]
    rfl
  rw [htrack.present_iff, h.last_eq hsmall hp.1 hc hp.index_lt hm]
  exact hp.absent h.shape key.isKey (keys_eq hd)

/-- The last probe of a full round: no bucket of the path has the key. -/
theorem absent_of_end (h : Inv s done) (hsmall : s.Small) (htrack : Tracked s)
    (hp : Probing s t key.val i) (hc : s.Complete t)
    (hm : (s.data t (s.index t key.val i)).isMarked = false)
    (he : s.data t (s.index t key.val i) ≠ Bucket.plain EMPTY)
    (hk : s.data t (s.index t key.val i) ≠ Bucket.plain key.val)
    (hend : ¬ i + 1 < s.currCapacity t) : ¬ Present key s := by
  rw [htrack.present_iff, h.last_eq hsmall hp.1 hc hp.index_lt hm]
  intro hlive
  obtain ⟨x, hx, hxk⟩ := hlive
  have hclear := hp.2.2.succ (keys_ne hm he) (keys_ne hm hk)
  exact (h.shape.placed t hp.1).absent key.isKey key.ne_empty hclear
    (fun hlt => absurd hlt hend) x hx hxk

/-- A step that turns a bucket with `key` into a tombstone is the CAS of an
erase of `key`, and right after it the key is absent. -/
theorem erased_absent (h : Inv s done) (hsmall : s.Small) (htrack : Tracked s) {tid : Tid}
    {op : Op} {key' : Key} {pc pc' : Pc}
    {s' : State} (hth : s.thread tid = .running op key' pc)
    (he : Effect s tid op key' pc s' pc') {x : Nat} (ht : t ≤ s.currentTable)
    (hx : s.keys t x = key.val) (hx' : s'.keys t x = TOMBSTONE) : ¬ Present key s' := by
  have hchanged : s'.keys t x ≠ s.keys t x := by
    rw [hx, hx']
    exact key.ne_tombstone.symm
  cases he with
  | mark =>
      rw [mark_keys] at hchanged
      exact absurd rfl hchanged
  | reinsert hempty =>
      -- the bucket was in use, so it is not the one that is filled
      rw [write_keys] at hchanged
      exfalso
      split at hchanged
      · next hu =>
        subst hu
        apply hchanged
        apply Function.update_of_ne
        intro heq
        rw [heq, keys_eq hempty] at hx
        exact key.ne_empty hx.symm
      · exact hchanged rfl
  | publish =>
      exfalso
      apply hchanged
      unfold State.keys
      rw [(publish_old ht).2.1]
  | @cas u j hexp =>
      have hok : ProbeOk s op key'.val (.cas u j) := by
        have := h.threadOk tid
        rw [hth] at this
        exact this
      obtain ⟨hp, hc, -⟩ := hok
      have hkeys : ((s.write u (s.index u key'.val j) (desired key'.val op)).win op
          key'.val).keys t x
          = if t = u then Function.update (s.keys u) (s.index u key'.val j)
              (desired key'.val op).getKey x else s.keys t x := by
        show (s.write u (s.index u key'.val j) (desired key'.val op)).keys t x = _
        rw [write_keys]
        split <;> rfl
      rw [hkeys] at hchanged
      split at hchanged
      · next hu =>
        subst hu
        by_cases hxj : x = s.index t key'.val j
        · subst hxj
          cases op with
          | insertIfAbsent =>
              rw [keys_eq hexp] at hx
              exact absurd hx.symm key.ne_empty
          | erase =>
              -- both keys are the value of that bucket
              rw [keys_eq hexp] at hx
              obtain rfl : key' = key := Key.ext_val hx
              have hpres := htrack.present_iff.mp (present_of_read h hsmall htrack hp hc hexp)
              have hcount := htrack.present key'.val key'.isKey hpres
              unfold Present
              rw [win_casWins, win_casWins, write_casWins, if_pos ⟨rfl, rfl⟩,
                if_neg (by simp)]
              omega
        · rw [Function.update_of_ne hxj] at hchanged
          exact absurd rfl hchanged
      · exact absurd rfl hchanged
  | _ => exact absurd rfl hchanged

end Instant

/-! ## §2. What a call has seen. -/

/-- The call of thread `tid` starts with its `invoke`. -/
def Action.Calls (tid : Tid) (a : Action) : Prop := ∃ op key, a = .invoke tid op key

instance (tid : Tid) : DecidablePred (Action.Calls tid) := fun a =>
  match a with
  | .invoke v op key =>
      if h : v = tid then .isTrue ⟨op, key, by rw [h]⟩
      else .isFalse (by
        intro hc
        obtain ⟨_, _, h'⟩ := hc
        injection h' with h'
        exact h h')
  | .step _ => .isFalse (by
      intro hc
      obtain ⟨_, _, h'⟩ := hc
      exact absurd h' (by simp))

section Runs

variable {n c : Nat} (r : Run (system n c)) (tid : Tid)

/-- At some instant since the call of `tid`, the answer `false` of `op(key)` was
right. -/
def Answer (op : Op) (key : Key) (m : ℕ) : Prop :=
  match op with
  | .insertIfAbsent => r.Once (Action.Calls tid) (Present key) m
  | .erase => r.Once (Action.Calls tid) (fun s => ¬ Present key s) m

/-- What thread `tid` has seen since its call, at time `m`: before it returns
false, and when the key that an erase has found is a tombstone by now. -/
def Seen (m : ℕ) : Thread → Prop
  | .running op key (.ret false) => Answer r tid op key m
  | .running .erase key (.probe (.cas t i)) | .running .erase key (.probe (.reread t i)) =>
      (r.state m).keys t ((r.state m).index t key.val i) = TOMBSTONE → Answer r tid .erase key m
  | _ => True

variable {r tid}

theorem Answer.later {op : Op} {key : Key} {m : ℕ} (hb : ¬ Action.Calls tid (r.act m))
    (h : Answer r tid op key m) : Answer r tid op key (m + 1) := by
  cases op with
  | insertIfAbsent => exact Run.Once.later (P := Present key) r hb h
  | erase => exact Run.Once.later (P := fun s => ¬ Present key s) r hb h

theorem Answer.present {key : Key} {m : ℕ} (h : Present key (r.state m)) :
    Answer r tid .insertIfAbsent key m := Run.Once.now r h

theorem Answer.absent {key : Key} {m : ℕ} (h : ¬ Present key (r.state m)) :
    Answer r tid .erase key m := Run.Once.now (P := fun s => ¬ Present key s) r h

/-- A step of the call itself that stores nothing. -/
theorem Seen.quiet {m : ℕ} {done : Nat → Finset Nat} (hinv : Inv (r.state m) done)
    (hsmall : (r.state m).Small) (htrack : Tracked (r.state m))
    (hcall : ¬ Action.Calls tid (r.act m)) {op : Op} {key : Key} {pc pc' : Pc}
    (hth : (r.state m).thread tid = .running op key pc) (hq : Quiet (r.state m) op key pc pc')
    (hstate : r.state (m + 1) = (r.state m).goto tid (.running op key pc'))
    (h : Seen r tid m (.running op key pc)) : Seen r tid (m + 1) (.running op key pc') := by
  have hok : PcOk (r.state m) op key.val pc := by
    have := hinv.threadOk tid
    rw [hth] at this
    exact this
  have hkeys : ∀ t x, (r.state (m + 1)).keys t x = (r.state m).keys t x := by
    intro t x
    rw [hstate]
    rfl
  have hindex : ∀ t k i, (r.state (m + 1)).index t k i = (r.state m).index t k i := by
    intro t k i
    rw [hstate]
    rfl
  cases hq with
  | load hi =>
      rcases iterate_ok hi with ⟨-, rfl⟩ | ⟨hno, -, -⟩
      · trivial
      · exact absurd (hinv.shape.capacity_pos _ (Nat.le_refl _)) hno
  | readExpected hd =>
      cases op with
      | insertIfAbsent => trivial
      | erase =>
          intro htomb
          rw [hkeys, hindex, keys_eq hd] at htomb
          exact absurd htomb key.ne_tombstone
  | casFailed hd =>
      cases op with
      | insertIfAbsent => trivial
      | erase =>
          intro htomb
          rw [hkeys, hindex] at htomb
          exact Answer.later hcall (h htomb)
  | readNext hm he hk hi =>
      rcases iterate_ok hi with ⟨-, rfl⟩ | ⟨hend, rfl, rfl⟩
      · trivial
      · exact Answer.later hcall
          (Answer.absent (absent_of_end hinv hsmall htrack hok.1 hok.2 hm he hk hend))
  | rereadNext hm hd hi =>
      rcases iterate_ok hi with ⟨-, rfl⟩ | ⟨-, rfl, rfl⟩
      · trivial
      · -- an erase that reads an unmarked bucket again finds a tombstone
        obtain ⟨-, -, hor⟩ := hok
        exfalso
        rcases hor with hm' | ⟨-, htomb⟩
        · rw [hm] at hm'
          exact absurd hm' (by simp)
        · exact hd (Bucket.eq_plain_iff.mpr ⟨htomb rfl, hm⟩)
  | insertReadFound hop hd =>
      subst hop
      exact Answer.later hcall (Answer.present (present_of_read hinv hsmall htrack hok.1 hok.2 hd))
  | insertRereadFound hop hd =>
      subst hop
      exact Answer.later hcall (Answer.present (present_of_read hinv hsmall htrack hok.1 hok.2.1 hd))
  | eraseEmpty hop hd =>
      subst hop
      exact Answer.later hcall (Answer.absent (absent_of_empty hinv hsmall htrack hok.1 hok.2 hd))
  | eraseTombstone hop hd =>
      subst hop
      exact Answer.later hcall (h (keys_eq hd))
  | _ => trivial

/-- A step of another thread. -/
theorem Seen.frame {m : ℕ} {done : Nat → Finset Nat} (hinv : Inv (r.state m) done)
    (hsmall : (r.state m).Small) (htrack : Tracked (r.state m))
    (hcall : ¬ Action.Calls tid (r.act m)) (ht : Transition (r.state m) (r.act m) (r.state (m + 1)))
    (hl : Later (r.state m) (r.state (m + 1))) {th : Thread} (hth : (r.state m).thread tid = th)
    (h : Seen r tid m th) : Seen r tid (m + 1) th := by
  -- a bucket that has become a tombstone: before this step, or by it
  have herase : ∀ {key : Key} {t i : Nat}, t ≤ (r.state m).currentTable →
      ((r.state m).keys t ((r.state m).index t key.val i) = key.val
        ∨ (r.state m).keys t ((r.state m).index t key.val i) = TOMBSTONE
        ∨ ((r.state m).data t ((r.state m).index t key.val i)).isMarked = true) →
      ((r.state m).keys t ((r.state m).index t key.val i) = TOMBSTONE →
        Answer r tid .erase key m) →
      (r.state (m + 1)).keys t ((r.state (m + 1)).index t key.val i) = TOMBSTONE →
      Answer r tid .erase key (m + 1) := by
    intro key t i hle hor hseen htomb
    rw [hl.index hle] at htomb
    by_cases hbefore : (r.state m).keys t ((r.state m).index t key.val i) = TOMBSTONE
    · exact Answer.later hcall (hseen hbefore)
    · rcases hor with hk | hk | hmark
      · apply Answer.absent
        generalize r.state (m + 1) = s' at ht htomb
        generalize r.act m = a at ht
        cases ht with
        | invoke op key' hidle =>
            exact absurd htomb hbefore
        | @call v op' key' pc pc' s₁ hrun he =>
            have habs : ¬ Present key s₁ := erased_absent hinv hsmall htrack hrun he hle hk htomb
            exact habs
        | ret hrun =>
            exact absurd htomb hbefore
      · exact absurd hk hbefore
      · -- a marked bucket does not change
        exfalso
        apply hbefore
        have := (hl.data t hle ((r.state m).index t key.val i)).marked hmark
        unfold State.keys keysOf at htomb ⊢
        rw [this] at htomb
        exact htomb
  have hok := hinv.threadOk tid
  rw [hth] at hok
  cases th with
  | idle => trivial
  | running op key pc =>
      cases pc with
      | ret result =>
          cases result with
          | true => trivial
          | false => exact Answer.later hcall h
      | probe p =>
          cases op with
          | insertIfAbsent => cases p <;> trivial
          | erase =>
              cases p with
              | cas t i =>
                  obtain ⟨hp, -, hk⟩ := hok
                  refine herase hp.1 ?_ h
                  rcases hk rfl with hk | hk
                  · exact Or.inl hk
                  · exact Or.inr (Or.inl hk)
              | reread t i =>
                  obtain ⟨hp, -, hor⟩ := hok
                  refine herase hp.1 ?_ h
                  rcases hor with hm | ⟨-, hk⟩
                  · exact Or.inr (Or.inr hm)
                  · exact Or.inr (Or.inl (hk rfl))
              | _ => trivial
      | _ => trivial

/-! ## §3. The step lemma and the run lemma. -/

/-- One action of any thread keeps what the call of thread `tid` has seen. -/
theorem Seen.step {m : ℕ} (hm : m < r.len) {done : Nat → Finset Nat} (hinv : Inv (r.state m) done)
    (hsmall : (r.state m).Small) (htrack : Tracked (r.state m))
    (h : Seen r tid m ((r.state m).thread tid)) :
    Seen r tid (m + 1) ((r.state (m + 1)).thread tid) := by
  have hnext : next (r.state m) (r.act m) = some (r.state (m + 1)) := r.step m hm
  by_cases hcall : Action.Calls tid (r.act m)
  · -- a new call has seen nothing yet
    obtain ⟨op, key, ha⟩ := hcall
    rw [ha] at hnext
    simp only [next] at hnext
    split at hnext
    · rw [← Option.some.inj hnext, goto_thread, if_pos rfl]
      trivial
    · exact absurd hnext (by simp)
  · have ht := next_transition hnext
    have hl := hinv.later ht
    by_cases hsame : (r.state (m + 1)).thread tid = (r.state m).thread tid
    · rw [hsame]
      exact Seen.frame hinv hsmall htrack hcall ht hl rfl h
    · -- the thread has moved: the step was its own
      generalize hs' : r.state (m + 1) = s' at ht hsame ⊢
      generalize r.act m = a at ht
      cases ht with
      | @invoke v op key hidle =>
          rw [goto_thread] at hsame ⊢
          split
          · trivial
          · next hv => exact absurd (if_neg hv) hsame
      | @call v op key pc pc' s₁ hth he =>
          rw [goto_thread, he.thread] at hsame ⊢
          split
          · next hv =>
            subst hv
            rw [hth] at h
            cases he with
            | quiet hq => exact Seen.quiet hinv hsmall htrack hcall hth hq hs' h
            | count hinc => cases op <;> trivial
            | cas hexp => cases op <;> trivial
            | _ => trivial
          · next hv => exact absurd (if_neg hv) hsame
      | @ret v op key result hth =>
          rw [goto_thread] at hsame ⊢
          split
          · trivial
          · next hv => exact absurd (if_neg hv) hsame

theorem seen_always (hc : 0 < c) (hsmall : ∀ i ≤ r.len, (r.state i).Small) (m : ℕ)
    (hm : m ≤ r.len) : Seen r tid m ((r.state m).thread tid) := by
  refine r.invariant (P := fun m s => Seen r tid m (s.thread tid)) trivial hm fun i _ hi h => ?_
  have hle : i ≤ r.len := Nat.le_of_lt hi
  have hreach := r.reachable i hle
  obtain ⟨⟨done, hinv⟩, -, -⟩ := reachable_inv hc hreach
  exact Seen.step hi hinv (hsmall i hle) (reachable_tracked hc hreach (hsmall i hle)) h

end Runs

/-! ## §4. Answers. -/

/-- Thread `tid` calls `op(key)` at time `a`, and at time `b` that call is about
to return false. -/
structure ReturnsFalse {n c : Nat} (r : Run (system n c)) (tid : Tid) (op : Op) (key : Key)
    (a b : ℕ) : Prop where
  before : a < b
  within : b ≤ r.len
  called : r.act a = .invoke tid op key
  same_call : ∀ j, a < j → j < b → ¬ Action.Calls tid (r.act j)
  returns : (r.state b).thread tid = .running op key (.ret false)

/-- **Unsuccessful operations answer right**: an insert that returns false has an
instant between its call and its return at which its key is present, an erase
that returns false has one at which it is not. -/
theorem false_answers (n c : Nat) (r : Run (system n c))
    (hsmall : ∀ i ≤ r.len, (r.state i).Small) (tid : Tid) (op : Op) (key : Key) (a b : ℕ)
    (h : ReturnsFalse r tid op key a b) :
    (op = .insertIfAbsent → ∃ i, a < i ∧ i ≤ b ∧ Present key (r.state i))
      ∧ (op = .erase → ∃ i, a < i ∧ i ≤ b ∧ ¬ Present key (r.state i)) := by
  rcases Nat.eq_zero_or_pos c with rfl | hc
  · -- there is no bucket, and no key is ever present
    have hno := noBuckets_reachable (r.reachable b h.within)
    have hth := hno.thread tid
    rw [h.returns] at hth
    have herase : op = .erase := hth
    subst herase
    refine ⟨fun hop => absurd hop (by simp), fun _ => ⟨b, h.before, Nat.le_refl b, ?_⟩⟩
    unfold Present
    rw [hno.wins]
    exact Nat.lt_irrefl 0
  have hseen : Seen r tid b ((r.state b).thread tid) := seen_always hc hsmall b h.within
  rw [h.returns] at hseen
  have hcalls : Action.Calls tid (r.act a) := ⟨op, key, h.called⟩
  constructor
  · intro hop
    subst hop
    exact Run.Once.between (P := Present key) r h.before hcalls h.same_call hseen
  · intro hop
    subst hop
    exact Run.Once.between (P := fun s => ¬ Present key s) r h.before hcalls h.same_call hseen

def key5 : Key := ⟨5, by decide, by decide⟩

/-- Threads 0 and 1 erase key 5; thread 1 reads its bucket first, and loses the
CAS. -/
def losingActions : List Action :=
  .invoke 0 .insertIfAbsent key5 :: List.replicate 8 (.step 0)
    ++ .invoke 1 .erase key5 :: List.replicate 5 (.step 1)
    ++ .invoke 0 .erase key5 :: List.replicate 8 (.step 0)
    ++ List.replicate 2 (.step 1)

def losingRun : Run (system 2 4) :=
  Run.ofActions (system 2 4) losingActions (.step 0) (by decide +kernel)

theorem false_answers_losing :
    ∃ i, 9 < i ∧ i ≤ 26 ∧ ¬ Present key5 (losingRun.state i) := by
  have hcall : ∀ j < 26, 9 < j → ¬ Action.Calls 1 (losingRun.act j) := by decide +kernel
  have hsmall : ∀ i ≤ losingRun.len, (losingRun.state i).Small := by
    have hcaps : ∀ i ≤ 26, (losingRun.state i).currentTable = 0
        ∧ (losingRun.state i).currCapacity 0 = 4 := by decide +kernel
    intro i hi t ht
    obtain ⟨hcur, hcap⟩ := hcaps i hi
    rw [hcur] at ht
    obtain rfl : t = 0 := by omega
    omega
  have h : ReturnsFalse losingRun 1 .erase key5 9 26 :=
    { before := by decide
      within := by decide +kernel
      called := by decide +kernel
      same_call := fun j h₁ h₂ => hcall j h₂ h₁
      returns := by decide +kernel }
  exact (false_answers 2 4 losingRun hsmall 1 .erase key5 9 26 h).2 rfl

end MultiCore.AlgorithmD.Concurrent
