/-
  MultiCore.AlgorithmD.Effect — what one step of a thread can do.

  Most steps only look at the shared words and move the thread (`Quiet`).  The
  others change one thing each: a counter, `chunksClaimed`, the mark of an old
  bucket, an empty bucket of the new table, `chunksDone`, `currentTable`, or
  the bucket of a client's CAS (`Effect`).  `next_effect` says that there is
  nothing else; the invariants are proved from it, effect by effect.
-/
import MultiCore.AlgorithmD.Concurrent

namespace MultiCore.AlgorithmD.Concurrent

open MultiCore.Lib MultiCore.Util

/-! ## §1. Words that a CAS expects and writes. -/

/-- The bucket that the CAS of `op` expects. -/
def expected (key : Nat) : Op → Bucket
  | .insertIfAbsent => Bucket.plain EMPTY
  | .erase => Bucket.plain key

/-- The bucket that the CAS of `op` writes. -/
def desired (key : Nat) : Op → Bucket
  | .insertIfAbsent => Bucket.plain key
  | .erase => Bucket.plain TOMBSTONE

/-! ### What a store leaves alone. -/

@[simp] theorem write_currentTable (s : State) (t x : Nat) (b : Bucket) :
    (s.write t x b).currentTable = s.currentTable := rfl

@[simp] theorem write_thread (s : State) (t x : Nat) (b : Bucket) :
    (s.write t x b).thread = s.thread := rfl

@[simp] theorem write_casWins (s : State) (t x : Nat) (b : Bucket) :
    (s.write t x b).casWins = s.casWins := rfl

@[simp] theorem write_returned (s : State) (t x : Nat) (b : Bucket) :
    (s.write t x b).returned = s.returned := rfl

@[simp] theorem win_currentTable (s : State) (op : Op) (key : Nat) :
    (s.win op key).currentTable = s.currentTable := rfl

@[simp] theorem win_thread (s : State) (op : Op) (key : Nat) :
    (s.win op key).thread = s.thread := rfl

@[simp] theorem win_returned (s : State) (op : Op) (key : Nat) :
    (s.win op key).returned = s.returned := rfl

/-! ## §2. Steps that change no shared word. -/

inductive Quiet (s : State) (op : Op) (key : Key) : Pc → Pc → Prop where
  | load {pc : Pc} (h : iterate s op s.currentTable 0 = .ok pc) : Quiet s op key .load pc
  -- `helpExpansion`
  | helpTest {k : After} {t : Nat} :
      Quiet s op key (.help k t .test)
        (.help k t (if s.chunksClaimed t < s.total t then .claim else .wait))
  | helpRead {k : After} {t c i : Nat} :
      Quiet s op key (.help k t (.read c i)) (.help k t (.mark c i (s.old t i)))
  | helpMarkFailed {k : After} {t c i : Nat} {found : Bucket} (h : s.old t i ≠ found) :
      Quiet s op key (.help k t (.mark c i found)) (.help k t (.read c i))
  | helpKey {k : After} {t c i : Nat} (h : IsKey (s.old t i).getKey) :
      Quiet s op key (.help k t (.getKey c i)) (.help k t (.load c i (s.old t i).getKey))
  | helpLoad {k : After} {t c i key' : Nat} {h : Help}
      (hr : reinsertAt s c i key' s.currentTable 0 = .ok h) :
      Quiet s op key (.help k t (.load c i key')) (.help k t h)
  | helpEmpty {k : After} {t c i key' t' j : Nat}
      (h : s.data t' (s.index t' key' j) = Bucket.plain EMPTY) :
      Quiet s op key (.help k t (.insert c i key' (.read t' j)))
        (.help k t (.insert c i key' (.cas t' j)))
  | helpCasFailed {k : After} {t c i key' t' j : Nat}
      (h : s.data t' (s.index t' key' j) ≠ Bucket.plain EMPTY) :
      Quiet s op key (.help k t (.insert c i key' (.cas t' j)))
        (.help k t (.insert c i key' (.reread t' j)))
  | helpReadNext {k : After} {t c i key' t' j : Nat} {h : Help}
      (he : s.data t' (s.index t' key' j) ≠ Bucket.plain EMPTY)
      (hk : s.data t' (s.index t' key' j) ≠ Bucket.plain key')
      (hr : reinsertAt s c i key' t' (j + 1) = .ok h) :
      Quiet s op key (.help k t (.insert c i key' (.read t' j))) (.help k t h)
  | helpRereadNext {k : After} {t c i key' t' j : Nat} {h : Help}
      (hk : s.data t' (s.index t' key' j) ≠ Bucket.plain key')
      (hr : reinsertAt s c i key' t' (j + 1) = .ok h) :
      Quiet s op key (.help k t (.insert c i key' (.reread t' j))) (.help k t h)
  | helpWait {k : After} {t : Nat} (h : s.chunksDone t ≠ s.total t) :
      Quiet s op key (.help k t .wait) (.help k t .wait)
  | helpToTest {i t : Nat} (h : s.chunksDone t = s.total t) :
      Quiet s op key (.help (.test i) t .wait) (.get t i)
  | helpToLoad {t : Nat} (h : s.chunksDone t = s.total t) :
      Quiet s op key (.help .restart t .wait) .load
  -- `expandAsNeeded`
  | getExpand {t i : Nat} : Quiet s op key (.get t i) (.current t)
  | getAccurate {t i : Nat} : Quiet s op key (.get t i) (.getAccurate t i 0 0)
  | getProbe {t i : Nat} : Quiet s op key (.get t i) (.probe (.read t i))
  | accurateNext {t i n : Nat} {ret : Int} :
      Quiet s op key (.getAccurate t i n ret)
        (.getAccurate t i (n + 1) (ret + (s.insertAC t).subcounters n))
  | accurateExpand {t i n : Nat} {ret : Int} :
      Quiet s op key (.getAccurate t i n ret) (.current t)
  | accurateProbe {t i n : Nat} {ret : Int} :
      Quiet s op key (.getAccurate t i n ret) (.probe (.read t i))
  -- `startExpansion`
  | current {t : Nat} (h : s.currentTable = t) : Quiet s op key (.current t) (.inserts t 0 0)
  | notCurrent {t : Nat} : Quiet s op key (.current t) .reload
  | insertsNext {t n : Nat} {ret : Int} (h : n < MAX_THREADS) :
      Quiet s op key (.inserts t n ret) (.inserts t (n + 1) (ret + (s.insertAC t).subcounters n))
  | insertsDone {t n : Nat} {ret : Int} (h : ¬ n < MAX_THREADS) :
      Quiet s op key (.inserts t n ret) (.deletes t (ret + (s.insertAC t).globalCounter) 0 0)
  | deletesNext {t n : Nat} {inserts ret : Int} (h : n < MAX_THREADS) :
      Quiet s op key (.deletes t inserts n ret)
        (.deletes t inserts (n + 1) (ret + (s.deleteAC t).subcounters n))
  | deletesDone {t n newCap : Nat} {inserts ret : Int} (h : ¬ n < MAX_THREADS)
      (hc : newCapacity inserts (ret + (s.deleteAC t).globalCounter) = .ok newCap) :
      Quiet s op key (.deletes t inserts n ret) (.publish t newCap)
  | publishFailed {t newCap : Nat} (h : s.currentTable ≠ t) :
      Quiet s op key (.publish t newCap) .reload
  | reload : Quiet s op key .reload (.help .restart s.currentTable .test)
  -- the probe loop
  | readMarked {t i : Nat} : Quiet s op key (.probe (.read t i)) .load
  | rereadMarked {t i : Nat} : Quiet s op key (.probe (.reread t i)) .load
  | readExpected {t i : Nat} (h : s.data t (s.index t key.val i) = expected key.val op) :
      Quiet s op key (.probe (.read t i)) (.probe (.cas t i))
  | casFailed {t i : Nat} (h : s.data t (s.index t key.val i) ≠ expected key.val op) :
      Quiet s op key (.probe (.cas t i)) (.probe (.reread t i))
  | readNext {t i : Nat} {pc : Pc}
      (hm : (s.data t (s.index t key.val i)).isMarked = false)
      (he : s.data t (s.index t key.val i) ≠ Bucket.plain EMPTY)
      (hk : s.data t (s.index t key.val i) ≠ Bucket.plain key.val)
      (hi : iterate s op t (i + 1) = .ok pc) :
      Quiet s op key (.probe (.read t i)) pc
  | rereadNext {t i : Nat} {pc : Pc}
      (hm : (s.data t (s.index t key.val i)).isMarked = false)
      (hd : s.data t (s.index t key.val i) ≠ desired key.val op)
      (hi : iterate s op t (i + 1) = .ok pc) :
      Quiet s op key (.probe (.reread t i)) pc
  | insertReadFound {t i : Nat} (hop : op = .insertIfAbsent)
      (h : s.data t (s.index t key.val i) = Bucket.plain key.val) :
      Quiet s op key (.probe (.read t i)) (.ret false)
  | insertRereadFound {t i : Nat} (hop : op = .insertIfAbsent)
      (h : s.data t (s.index t key.val i) = Bucket.plain key.val) :
      Quiet s op key (.probe (.reread t i)) (.ret false)
  | eraseEmpty {t i : Nat} (hop : op = .erase)
      (h : s.data t (s.index t key.val i) = Bucket.plain EMPTY) :
      Quiet s op key (.probe (.read t i)) (.ret false)
  | eraseTombstone {t i : Nat} (hop : op = .erase)
      (h : s.data t (s.index t key.val i) = Bucket.plain TOMBSTONE) :
      Quiet s op key (.probe (.reread t i)) (.ret false)

/-! ## §3. All steps of a call. -/

/-- Thread `tid`, in a call `op(key)` at the first `Pc`, changes the shared
words of `s` to those of the second state and moves to the second `Pc`. -/
inductive Effect (s : State) (tid : Tid) (op : Op) (key : Key) : Pc → State → Pc → Prop where
  | quiet {pc pc' : Pc} (h : Quiet s op key pc pc') : Effect s tid op key pc s pc'
  | count {t : Nat} {step step' : Inc} {c : Counter}
      (h : incStep (s.counter op t) tid step = (c, some step')) :
      Effect s tid op key (.probe (.inc t step)) (s.setCounter op t c) (.probe (.inc t step'))
  | counted {t : Nat} {step : Inc} {c : Counter}
      (h : incStep (s.counter op t) tid step = (c, none)) :
      Effect s tid op key (.probe (.inc t step)) (s.setCounter op t c) (.ret true)
  | helpCount {k : After} {t i key' c t' : Nat} {step step' : Inc} {ac : Counter}
      (h : incStep (s.insertAC t') tid step = (ac, some step')) :
      Effect s tid op key (.help k t (.insert c i key' (.inc t' step)))
        (s.setCounter .insertIfAbsent t' ac) (.help k t (.insert c i key' (.inc t' step')))
  | helpCounted {k : After} {t i key' c t' : Nat} {step : Inc} {ac : Counter}
      (h : incStep (s.insertAC t') tid step = (ac, none)) :
      Effect s tid op key (.help k t (.insert c i key' (.inc t' step)))
        (s.setCounter .insertIfAbsent t' ac) (.help k t (migrateAt s t c (i + 1)))
  | skip {k : After} {t c i : Nat} (h : ¬ IsKey (s.old t i).getKey) :
      Effect s tid op key (.help k t (.getKey c i)) s (.help k t (migrateAt s t c (i + 1)))
  | claim {k : After} {t : Nat} (h : s.chunksClaimed t < s.total t) :
      Effect s tid op key (.help k t .claim)
        { s with chunksClaimed := Function.update s.chunksClaimed t (s.chunksClaimed t + 1) }
        (.help k t (migrateAt s t (s.chunksClaimed t) (startIndex (s.chunksClaimed t))))
  | claimNone {k : After} {t : Nat} (h : s.total t ≤ s.chunksClaimed t) :
      Effect s tid op key (.help k t .claim)
        { s with chunksClaimed := Function.update s.chunksClaimed t (s.chunksClaimed t + 1) }
        (.help k t .test)
  | mark {k : After} {t c i : Nat} :
      Effect s tid op key (.help k t (.mark c i (s.old t i)))
        (s.write (s.table t).oldData i (s.old t i).mark) (.help k t (.getKey c i))
  | reinsert {k : After} {t c i key' t' j : Nat}
      (h : s.data t' (s.index t' key' j) = Bucket.plain EMPTY) :
      Effect s tid op key (.help k t (.insert c i key' (.cas t' j)))
        (s.write t' (s.index t' key' j) (Bucket.plain key'))
        (.help k t (.insert c i key' (.inc t' .bump)))
  | finish {k : After} {t c : Nat} :
      Effect s tid op key (.help k t (.done c))
        { s with chunksDone := Function.update s.chunksDone t (s.chunksDone t + 1) }
        (.help k t .test)
  | publish {newCap : Nat} :
      Effect s tid op key (.publish s.currentTable newCap) (s.publish s.currentTable newCap)
        .reload
  | cas {t i : Nat} (h : s.data t (s.index t key.val i) = expected key.val op) :
      Effect s tid op key (.probe (.cas t i))
        ((s.write t (s.index t key.val i) (desired key.val op)).win op key.val)
        (.probe (.inc t .bump))

/-- A step changes the thread that takes it only. -/
theorem Effect.thread {s s' : State} {tid : Tid} {op : Op} {key : Key} {pc pc' : Pc}
    (h : Effect s tid op key pc s' pc') : s'.thread = s.thread := by
  cases h with
  | mark => exact write_thread _ _ _ _
  | reinsert _ => exact write_thread _ _ _ _
  | cas _ => rw [win_thread, write_thread]
  | _ => rfl

/-! ## §4. Inversion. -/

theorem map_ok {ε α β : Type*} {x : Except ε α} {f : α → β} {b : β} (h : x.map f = .ok b) :
    ∃ a, x = .ok a ∧ f a = b := by
  cases x with
  | error e => exact absurd h (by simp [Except.map])
  | ok a => exact ⟨a, rfl, by simpa [Except.map] using h⟩

section Inversion

variable {s s' : State} {tid : Tid} {op : Op} {key : Key}

/-- The accesses of `inc`, whoever makes them. -/
theorem countStep_eq {t : Nat} {step : Inc} {o : Outcome}
    (h : countStep s tid op t step = (s', o)) :
    ∃ c r, incStep (s.counter op t) tid step = (c, r) ∧ s' = s.setCounter op t c
      ∧ o = match r with | some step' => .goto (.inc t step') | none => .ret true := by
  unfold countStep at h
  split at h
  · next c step' heq =>
    obtain ⟨rfl, rfl⟩ := Prod.mk.inj h
    exact ⟨c, some step', heq, rfl, rfl⟩
  · next c heq =>
    obtain ⟨rfl, rfl⟩ := Prod.mk.inj h
    exact ⟨c, none, heq, rfl, rfl⟩

theorem insertFound_disabled {k : Nat} {found : Bucket} {t i : Nat} {o : Outcome}
    (h : insertFound true k found t i = .ok o) :
    found ≠ Bucket.plain k ∧ o = .next t (i + 1) := by
  unfold insertFound at h
  simp only [Bool.not_true, Bool.false_and, Bool.false_eq_true, if_false, if_true] at h
  split at h
  · exact absurd h (by simp)
  · next hk => exact ⟨hk, by simpa using h.symm⟩

theorem insertFound_enabled {k : Nat} {found : Bucket} {t i : Nat} {o : Outcome}
    (h : insertFound false k found t i = .ok o) :
    o = .restart ∨ (found = Bucket.plain k ∧ o = .ret false)
      ∨ (found.isMarked = false ∧ found ≠ Bucket.plain k ∧ o = .next t (i + 1)) := by
  unfold insertFound at h
  simp only [Bool.not_false, Bool.true_and, Bool.false_eq_true, if_false] at h
  split at h
  · exact Or.inl (by simpa using h.symm)
  · next hm =>
    split at h
    · next hk => exact Or.inr (Or.inl ⟨hk, by simpa using h.symm⟩)
    · next hk => exact Or.inr (Or.inr ⟨by simpa using hm, hk, by simpa using h.symm⟩)

/-- One step of `helpExpansion`. -/
theorem helpStep_effect (op : Op) (key : Key) (k : After) {t : Nat} {h : Help} {r : Option Help}
    (hs : helpStep s tid t h = .ok (s', r)) :
    (∃ h', r = some h' ∧ Effect s tid op key (.help k t h) s' (.help k t h'))
      ∨ (r = none ∧ s' = s ∧ h = .wait ∧ s.chunksDone t = s.total t) := by
  cases h with
  | test =>
      obtain ⟨rfl, rfl⟩ := Prod.mk.inj (Except.ok.inj hs)
      exact Or.inl ⟨_, rfl, .quiet .helpTest⟩
  | claim =>
      rw [helpStep] at hs
      obtain ⟨rfl, rfl⟩ := Prod.mk.inj (Except.ok.inj hs)
      refine Or.inl ⟨_, rfl, ?_⟩
      split
      · next hlt => exact .claim hlt
      · next hle => exact .claimNone (Nat.le_of_not_lt hle)
  | read c i =>
      obtain ⟨rfl, rfl⟩ := Prod.mk.inj (Except.ok.inj hs)
      exact Or.inl ⟨_, rfl, .quiet .helpRead⟩
  | mark c i found =>
      rw [helpStep] at hs
      split at hs
      · next heq =>
        subst heq
        obtain ⟨rfl, rfl⟩ := Prod.mk.inj (Except.ok.inj hs)
        exact Or.inl ⟨_, rfl, .mark⟩
      · next hne =>
        obtain ⟨rfl, rfl⟩ := Prod.mk.inj (Except.ok.inj hs)
        exact Or.inl ⟨_, rfl, .quiet (.helpMarkFailed hne)⟩
  | getKey c i =>
      rw [helpStep] at hs
      obtain ⟨rfl, rfl⟩ := Prod.mk.inj (Except.ok.inj hs)
      refine Or.inl ⟨_, rfl, ?_⟩
      split
      · next hk => exact .quiet (.helpKey ⟨hk.2, hk.1⟩)
      · next hk => exact .skip (fun h => hk ⟨h.2, h.1⟩)
  | load c i key' =>
      obtain ⟨h', hr, heq⟩ := map_ok hs
      obtain ⟨rfl, rfl⟩ := Prod.mk.inj heq
      exact Or.inl ⟨h', rfl, .quiet (.helpLoad hr)⟩
  | insert c i key' p =>
      rw [helpStep] at hs
      left
      cases p with
      | read t' j =>
          simp only [insertStep] at hs
          by_cases he : s.data t' (s.index t' key' j) = Bucket.plain EMPTY
          · rw [if_pos he] at hs
            obtain ⟨rfl, rfl⟩ := Prod.mk.inj (Except.ok.inj hs)
            exact ⟨_, rfl, .quiet (.helpEmpty he)⟩
          · rw [if_neg he] at hs
            cases hf : insertFound true key' (s.data t' (s.index t' key' j)) t' j with
            | error e => simp [hf, Except.map] at hs
            | ok o =>
                obtain ⟨hk, rfl⟩ := insertFound_disabled hf
                rw [hf] at hs
                obtain ⟨h', hr, heq⟩ := map_ok hs
                obtain ⟨rfl, rfl⟩ := Prod.mk.inj heq
                exact ⟨h', rfl, .quiet (.helpReadNext he hk hr)⟩
      | cas t' j =>
          simp only [insertStep] at hs
          by_cases he : s.data t' (s.index t' key' j) = Bucket.plain EMPTY
          · rw [if_pos he] at hs
            obtain ⟨rfl, rfl⟩ := Prod.mk.inj (Except.ok.inj hs)
            exact ⟨_, rfl, .reinsert he⟩
          · rw [if_neg he] at hs
            obtain ⟨rfl, rfl⟩ := Prod.mk.inj (Except.ok.inj hs)
            exact ⟨_, rfl, .quiet (.helpCasFailed he)⟩
      | reread t' j =>
          simp only [insertStep] at hs
          cases hf : insertFound true key' (s.data t' (s.index t' key' j)) t' j with
          | error e => simp [hf, Except.map] at hs
          | ok o =>
              obtain ⟨hk, rfl⟩ := insertFound_disabled hf
              rw [hf] at hs
              obtain ⟨h', hr, heq⟩ := map_ok hs
              obtain ⟨rfl, rfl⟩ := Prod.mk.inj heq
              exact ⟨h', rfl, .quiet (.helpRereadNext hk hr)⟩
      | inc t' step =>
          simp only [insertStep] at hs
          cases hc : countStep s tid .insertIfAbsent t' step with
          | mk s₁ o =>
              obtain ⟨ac, r', hinc, rfl, rfl⟩ := countStep_eq hc
              rw [hc] at hs
              cases r' with
              | some step' =>
                  obtain ⟨rfl, rfl⟩ := Prod.mk.inj (Except.ok.inj hs)
                  exact ⟨_, rfl, .helpCount hinc⟩
              | none =>
                  obtain ⟨rfl, rfl⟩ := Prod.mk.inj (Except.ok.inj hs)
                  exact ⟨_, rfl, .helpCounted hinc⟩
  | done c =>
      obtain ⟨rfl, rfl⟩ := Prod.mk.inj (Except.ok.inj hs)
      exact Or.inl ⟨_, rfl, .finish⟩
  | wait =>
      rw [helpStep] at hs
      obtain ⟨rfl, rfl⟩ := Prod.mk.inj (Except.ok.inj hs)
      by_cases hd : s.chunksDone t = s.total t
      · exact Or.inr ⟨by rw [if_pos hd], rfl, rfl, hd⟩
      · exact Or.inl ⟨.wait, by rw [if_neg hd], .quiet (.helpWait hd)⟩

/-- One step of a client's probe loop. -/
theorem probe_effect {p : Probe} {pc' : Pc}
    (hs : callStep s tid op key (.probe p) = .ok (s', pc')) :
    Effect s tid op key (.probe p) s' pc' := by
  cases op with
  | insertIfAbsent =>
      simp only [callStep] at hs
      -- what `insertFound` says, with the loop around it
      have hfound : ∀ t i, p = .read t i ∨ p = .reread t i →
          (p = .read t i → s.data t (s.index t key.val i) ≠ Bucket.plain EMPTY) →
          insertStep s tid false key.val p
            = (insertFound false key.val (s.data t (s.index t key.val i)) t i).map
                (fun o => (s, o)) →
          Effect s tid .insertIfAbsent key (.probe p) s' pc' := by
        intro t i hp he hins
        rw [hins] at hs
        cases hf : insertFound false key.val (s.data t (s.index t key.val i)) t i with
        | error e => simp [hf, Except.map] at hs
        | ok o =>
            rw [hf] at hs
            rcases insertFound_enabled hf with rfl | ⟨hk, rfl⟩ | ⟨hm, hk, rfl⟩
            · obtain ⟨rfl, rfl⟩ := Prod.mk.inj (Except.ok.inj hs)
              rcases hp with rfl | rfl
              · exact .quiet .readMarked
              · exact .quiet .rereadMarked
            · obtain ⟨rfl, rfl⟩ := Prod.mk.inj (Except.ok.inj hs)
              rcases hp with rfl | rfl
              · exact .quiet (.insertReadFound rfl hk)
              · exact .quiet (.insertRereadFound rfl hk)
            · obtain ⟨pc, hi, heq⟩ := map_ok hs
              obtain ⟨rfl, rfl⟩ := Prod.mk.inj heq
              rcases hp with rfl | rfl
              · exact .quiet (.readNext hm (he rfl) hk hi)
              · exact .quiet (.rereadNext hm hk hi)
      cases p with
      | read t i =>
          by_cases he : s.data t (s.index t key.val i) = Bucket.plain EMPTY
          · simp only [insertStep, if_pos he] at hs
            obtain ⟨rfl, rfl⟩ := Prod.mk.inj (Except.ok.inj hs)
            exact .quiet (.readExpected he)
          · refine hfound t i (Or.inl rfl) (fun _ => he) ?_
            simp only [insertStep, if_neg he]
      | cas t i =>
          by_cases he : s.data t (s.index t key.val i) = Bucket.plain EMPTY
          · simp only [insertStep, if_pos he] at hs
            obtain ⟨rfl, rfl⟩ := Prod.mk.inj (Except.ok.inj hs)
            exact .cas he
          · simp only [insertStep, if_neg he] at hs
            obtain ⟨rfl, rfl⟩ := Prod.mk.inj (Except.ok.inj hs)
            exact .quiet (.casFailed he)
      | reread t i =>
          exact hfound t i (Or.inr rfl) (fun h => absurd h (by simp)) rfl
      | inc t step =>
          simp only [insertStep] at hs
          cases hc : countStep s tid .insertIfAbsent t step with
          | mk s₁ o =>
              obtain ⟨ac, r, hinc, rfl, rfl⟩ := countStep_eq hc
              rw [hc] at hs
              cases r with
              | some step' =>
                  obtain ⟨rfl, rfl⟩ := Prod.mk.inj (Except.ok.inj hs)
                  exact .count hinc
              | none =>
                  obtain ⟨rfl, rfl⟩ := Prod.mk.inj (Except.ok.inj hs)
                  exact .counted hinc
  | erase =>
      simp only [callStep] at hs
      cases p with
      | read t i =>
          simp only [eraseStep] at hs
          by_cases he : s.data t (s.index t key.val i) = Bucket.plain EMPTY
          · rw [if_pos he] at hs
            obtain ⟨rfl, rfl⟩ := Prod.mk.inj (Except.ok.inj hs)
            exact .quiet (.eraseEmpty rfl he)
          rw [if_neg he] at hs
          by_cases hm : (s.data t (s.index t key.val i)).isMarked = true
          · rw [if_pos hm] at hs
            obtain ⟨rfl, rfl⟩ := Prod.mk.inj (Except.ok.inj hs)
            exact .quiet .readMarked
          rw [if_neg hm] at hs
          by_cases hk : s.data t (s.index t key.val i) = Bucket.plain key.val
          · rw [if_pos hk] at hs
            obtain ⟨rfl, rfl⟩ := Prod.mk.inj (Except.ok.inj hs)
            exact .quiet (.readExpected hk)
          rw [if_neg hk] at hs
          obtain ⟨pc, hi, heq⟩ := map_ok hs
          obtain ⟨rfl, rfl⟩ := Prod.mk.inj heq
          exact .quiet (.readNext (by simpa using hm) he hk hi)
      | cas t i =>
          simp only [eraseStep] at hs
          by_cases hk : s.data t (s.index t key.val i) = Bucket.plain key.val
          · rw [if_pos hk] at hs
            obtain ⟨rfl, rfl⟩ := Prod.mk.inj (Except.ok.inj hs)
            exact .cas hk
          · rw [if_neg hk] at hs
            obtain ⟨rfl, rfl⟩ := Prod.mk.inj (Except.ok.inj hs)
            exact .quiet (.casFailed hk)
      | reread t i =>
          simp only [eraseStep] at hs
          by_cases hm : (s.data t (s.index t key.val i)).isMarked = true
          · rw [if_pos hm] at hs
            obtain ⟨rfl, rfl⟩ := Prod.mk.inj (Except.ok.inj hs)
            exact .quiet .rereadMarked
          rw [if_neg hm] at hs
          by_cases ht : s.data t (s.index t key.val i) = Bucket.plain TOMBSTONE
          · rw [if_pos ht] at hs
            obtain ⟨rfl, rfl⟩ := Prod.mk.inj (Except.ok.inj hs)
            exact .quiet (.eraseTombstone rfl ht)
          rw [if_neg ht] at hs
          obtain ⟨pc, hi, heq⟩ := map_ok hs
          obtain ⟨rfl, rfl⟩ := Prod.mk.inj heq
          exact .quiet (.rereadNext (by simpa using hm) ht hi)
      | inc t step =>
          simp only [eraseStep] at hs
          cases hc : countStep s tid .erase t step with
          | mk s₁ o =>
              obtain ⟨ac, r, hinc, rfl, rfl⟩ := countStep_eq hc
              rw [hc] at hs
              cases r with
              | some step' =>
                  obtain ⟨rfl, rfl⟩ := Prod.mk.inj (Except.ok.inj hs)
                  exact .count hinc
              | none =>
                  obtain ⟨rfl, rfl⟩ := Prod.mk.inj (Except.ok.inj hs)
                  exact .counted hinc

/-- **Inversion**: one step of a call is one of the listed effects. -/
theorem callStep_effect {pc pc' : Pc} (hret : ∀ r, pc ≠ .ret r)
    (hs : callStep s tid op key pc = .ok (s', pc')) : Effect s tid op key pc s' pc' := by
  cases pc with
  | load =>
      obtain ⟨pc, hi, heq⟩ := map_ok hs
      obtain ⟨rfl, rfl⟩ := Prod.mk.inj heq
      exact .quiet (.load hi)
  | help k t h =>
      rw [callStep] at hs
      cases hh : helpStep s tid t h with
      | error e => simp [hh] at hs
      | ok r =>
          obtain ⟨s₁, r⟩ := r
          rw [hh] at hs
          rcases helpStep_effect op key k hh with
            ⟨h', rfl, heff⟩ | ⟨rfl, rfl, rfl, hdone⟩
          · obtain ⟨rfl, rfl⟩ := Prod.mk.inj (Except.ok.inj hs)
            exact heff
          · cases k with
            | test i =>
                obtain ⟨rfl, rfl⟩ := Prod.mk.inj (Except.ok.inj hs)
                exact .quiet (.helpToTest hdone)
            | restart =>
                obtain ⟨rfl, rfl⟩ := Prod.mk.inj (Except.ok.inj hs)
                exact .quiet (.helpToLoad hdone)
  | get t i =>
      rw [callStep] at hs
      split at hs
      · obtain ⟨rfl, rfl⟩ := Prod.mk.inj (Except.ok.inj hs)
        exact .quiet .getExpand
      split at hs
      · obtain ⟨rfl, rfl⟩ := Prod.mk.inj (Except.ok.inj hs)
        exact .quiet .getAccurate
      · obtain ⟨rfl, rfl⟩ := Prod.mk.inj (Except.ok.inj hs)
        exact .quiet .getProbe
  | getAccurate t i n ret =>
      rw [callStep] at hs
      split at hs
      · obtain ⟨rfl, rfl⟩ := Prod.mk.inj (Except.ok.inj hs)
        exact .quiet .accurateNext
      split at hs
      · obtain ⟨rfl, rfl⟩ := Prod.mk.inj (Except.ok.inj hs)
        exact .quiet .accurateExpand
      · obtain ⟨rfl, rfl⟩ := Prod.mk.inj (Except.ok.inj hs)
        exact .quiet .accurateProbe
  | current t =>
      obtain ⟨rfl, rfl⟩ := Prod.mk.inj (Except.ok.inj hs)
      split
      · next h => exact .quiet (.current h)
      · exact .quiet .notCurrent
  | inserts t n ret =>
      rw [callStep] at hs
      split at hs
      · next hn =>
        obtain ⟨rfl, rfl⟩ := Prod.mk.inj (Except.ok.inj hs)
        exact .quiet (.insertsNext hn)
      · next hn =>
        obtain ⟨rfl, rfl⟩ := Prod.mk.inj (Except.ok.inj hs)
        exact .quiet (.insertsDone hn)
  | deletes t inserts n ret =>
      rw [callStep] at hs
      split at hs
      · next hn =>
        obtain ⟨rfl, rfl⟩ := Prod.mk.inj (Except.ok.inj hs)
        exact .quiet (.deletesNext hn)
      · next hn =>
        obtain ⟨newCap, hc, heq⟩ := map_ok hs
        obtain ⟨rfl, rfl⟩ := Prod.mk.inj heq
        exact .quiet (.deletesDone hn hc)
  | publish t newCap =>
      obtain ⟨rfl, rfl⟩ := Prod.mk.inj (Except.ok.inj hs)
      split
      · next h =>
        subst h
        exact .publish
      · next h => exact .quiet (.publishFailed h)
  | reload =>
      obtain ⟨rfl, rfl⟩ := Prod.mk.inj (Except.ok.inj hs)
      exact .quiet .reload
  | probe p => exact probe_effect hs
  | ret r => exact absurd rfl (hret r)

/-- Everything an action can do. -/
inductive Transition (s : State) : Action → State → Prop where
  | invoke {tid : Tid} (op : Op) (key : Key) (hth : s.thread tid = .idle) :
      Transition s (.invoke tid op key) (s.goto tid (.running op key .load))
  | call {tid : Tid} {op : Op} {key : Key} {pc pc' : Pc} {s' : State}
      (hth : s.thread tid = .running op key pc) (h : Effect s tid op key pc s' pc') :
      Transition s (.step tid) (s'.goto tid (.running op key pc'))
  | ret {tid : Tid} {op : Op} {key : Key} {result : Bool}
      (hth : s.thread tid = .running op key (.ret result)) :
      Transition s (.step tid)
        ({ s with returned := ⟨tid, op, key, result⟩ :: s.returned }.goto tid .idle)

theorem next_transition {a : Action} (h : next s a = some s') : Transition s a s' := by
  cases a with
  | invoke tid op key =>
      simp only [next] at h
      split at h
      · next hth =>
        obtain rfl := Option.some.inj h
        exact .invoke op key hth
      · exact absurd h (by simp)
  | step tid =>
      simp only [next] at h
      split at h
      · exact absurd h (by simp)
      · next op key pc hth =>
        have hok : step s tid op key pc = .ok s' := by
          cases hst : step s tid op key pc with
          | error e => simp [hst, Except.toOption] at h
          | ok s₁ => simpa [hst, Except.toOption] using h
        have hcall : (∀ r, pc ≠ .ret r) →
            (callStep s tid op key pc).map (fun r => r.1.goto tid (.running op key r.2)) = .ok s' →
            Transition s (.step tid) s' := by
          intro hret hmap
          obtain ⟨r, hr, rfl⟩ := map_ok hmap
          exact .call hth (callStep_effect hret hr)
        cases pc with
        | ret result =>
            obtain rfl := Except.ok.inj hok
            exact .ret hth
        | _ => exact hcall (by simp) hok

end Inversion

/-! ## §5. Steps that fail. -/

theorem map_error {ε α β : Type*} {x : Except ε α} {f : α → β} {e : ε}
    (h : x.map f = .error e) : x = .error e := by
  cases x with
  | error e' => simpa [Except.map] using h
  | ok a => exact absurd h (by simp [Except.map])

section Failure

variable {s : State} {tid : Tid} {op : Op} {key : Key} {e : Fault}

theorem iterate_error {t i : Nat} (h : iterate s op t i = .error e) : e = .insertFull := by
  unfold iterate at h
  split at h
  · exact absurd h (by simp)
  · cases op with
    | insertIfAbsent => exact (Except.error.inj h).symm
    | erase => exact absurd h (by simp)

theorem newCapacity_error {a b : Int} (h : newCapacity a b = .error e) :
    e = .noKeys ∨ e = .badAlloc := by
  unfold newCapacity at h
  simp only at h
  split at h
  · exact Or.inl (Except.error.inj h).symm
  split at h
  · exact Or.inr (Except.error.inj h).symm
  · exact absurd h (by simp)

theorem reinsertAt_error {c i key' t j : Nat} (h : reinsertAt s c i key' t j = .error e) :
    e = .migrateKey ∨ e = .migrateFull ∧ s.currCapacity t ≤ j := by
  unfold reinsertAt at h
  split at h
  · split at h
    · exact absurd h (by simp)
    · exact Or.inl (Except.error.inj h).symm
  · next hj => exact Or.inr ⟨(Except.error.inj h).symm, Nat.le_of_not_lt hj⟩

/-- Only a migrating insert asserts that it does not find its key. -/
theorem insertFound_error {d : Bool} {k : Nat} {found : Bucket} {t i : Nat}
    (h : insertFound d k found t i = .error e) :
    e = .migrateFound ∧ d = true ∧ found = Bucket.plain k := by
  unfold insertFound at h
  split at h
  · exact absurd h (by simp)
  split at h
  · next hk =>
    cases d with
    | true => exact ⟨(Except.error.inj h).symm, rfl, hk⟩
    | false => exact absurd h (by simp)
  · exact absurd h (by simp)

theorem insertStep_error {d : Bool} {k : Nat} {p : Probe} (h : insertStep s tid d k p = .error e) :
    e = .migrateFound ∧ d = true ∧ ∃ t j, (p = .read t j ∨ p = .reread t j)
      ∧ s.data t (s.index t k j) = Bucket.plain k := by
  cases p with
  | read t j =>
      rw [insertStep] at h
      split at h
      · exact absurd h (by simp)
      · obtain ⟨he, hd, hk⟩ := insertFound_error (map_error h)
        exact ⟨he, hd, t, j, Or.inl rfl, hk⟩
  | cas t j =>
      rw [insertStep] at h
      split at h
      · exact absurd h (by simp)
      · exact absurd h (by simp)
  | reread t j =>
      obtain ⟨he, hd, hk⟩ := insertFound_error (map_error h)
      exact ⟨he, hd, t, j, Or.inr rfl, hk⟩
  | inc t step => exact absurd h (by simp [insertStep])

/-- A migrating thread fails when it finds its key, or when its insert starts
over or goes on to a bucket that is not there. -/
theorem helpStep_error {t : Nat} {h : Help} (hs : helpStep s tid t h = .error e) :
    ∃ c i key', (h = .load c i key' ∧ reinsertAt s c i key' s.currentTable 0 = .error e)
      ∨ ∃ p, h = .insert c i key' p
        ∧ ((∃ s' t' j, insertStep s tid true key' p = .ok (s', .next t' j)
            ∧ reinsertAt s' c i key' t' j = .error e)
          ∨ e = .migrateFound ∧ ∃ t' j, (p = .read t' j ∨ p = .reread t' j)
            ∧ s.data t' (s.index t' key' j) = Bucket.plain key') := by
  cases h with
  | load c i key' => exact ⟨c, i, key', Or.inl ⟨rfl, map_error hs⟩⟩
  | mark c i found =>
      rw [helpStep] at hs
      split at hs
      · exact absurd hs (by simp)
      · exact absurd hs (by simp)
  | insert c i key' p =>
      rw [helpStep] at hs
      refine ⟨c, i, key', Or.inr ⟨p, rfl, ?_⟩⟩
      split at hs
      · next hins =>
        obtain rfl := Except.error.inj hs
        obtain ⟨he, -, hfound⟩ := insertStep_error hins
        exact Or.inr ⟨he, hfound⟩
      · exact absurd hs (by simp)
      · next s' t' j hins => exact Or.inl ⟨s', t', j, hins, map_error hs⟩
      · exact absurd hs (by simp)
      · exact absurd hs (by simp)
  | _ => exact absurd hs (by simp [helpStep])

/-- Outside of `helpExpansion` a call fails for want of buckets, of keys or of
memory. -/
theorem callStep_error {pc : Pc} (hs : callStep s tid op key pc = .error e) :
    (∃ k t h, pc = .help k t h ∧ helpStep s tid t h = .error e)
      ∨ e = .insertFull ∨ e = .noKeys ∨ e = .badAlloc := by
  cases pc with
  | load => exact Or.inr (Or.inl (iterate_error (map_error hs)))
  | help k t h =>
      rw [callStep] at hs
      split at hs
      · next e' hh =>
        obtain rfl := Except.error.inj hs
        exact Or.inl ⟨k, t, h, rfl, hh⟩
      · exact absurd hs (by simp)
      · split at hs
        · exact absurd hs (by simp)
        · exact absurd hs (by simp)
  | get t i =>
      rw [callStep] at hs
      split at hs
      · exact absurd hs (by simp)
      split at hs
      · exact absurd hs (by simp)
      · exact absurd hs (by simp)
  | getAccurate t i n ret =>
      rw [callStep] at hs
      split at hs
      · exact absurd hs (by simp)
      split at hs
      · exact absurd hs (by simp)
      · exact absurd hs (by simp)
  | inserts t n ret =>
      rw [callStep] at hs
      split at hs
      · exact absurd hs (by simp)
      · exact absurd hs (by simp)
  | deletes t inserts n ret =>
      rw [callStep] at hs
      split at hs
      · exact absurd hs (by simp)
      · exact Or.inr (Or.inr (newCapacity_error (map_error hs)))
  | probe p =>
      simp only [callStep] at hs
      split at hs
      · next e' hp =>
        cases op with
        | insertIfAbsent => exact absurd (insertStep_error hp).2.1 (by simp)
        | erase => exact absurd hp (by simp)
      · exact absurd hs (by simp)
      · exact Or.inr (Or.inl (iterate_error (map_error hs)))
      · exact absurd hs (by simp)
      · exact absurd hs (by simp)
  | _ => exact absurd hs (by simp [callStep])

theorem step_eq {pc : Pc} (hret : ∀ r, pc ≠ .ret r) :
    step s tid op key pc
      = (callStep s tid op key pc).map fun r => r.1.goto tid (.running op key r.2) := by
  cases pc with
  | ret r => exact absurd rfl (hret r)
  | _ => rfl

/-- **Inversion**: what makes a step fail. -/
theorem step_error {pc : Pc} (hs : step s tid op key pc = .error e) :
    (∃ k t h, pc = .help k t h ∧ helpStep s tid t h = .error e)
      ∨ e = .insertFull ∨ e = .noKeys ∨ e = .badAlloc := by
  by_cases hret : ∃ r, pc = .ret r
  · obtain ⟨r, rfl⟩ := hret
    exact absurd hs (by simp [step])
  · rw [step_eq (fun r hr => hret ⟨r, hr⟩)] at hs
    exact callStep_error (map_error hs)

end Failure

end MultiCore.AlgorithmD.Concurrent
