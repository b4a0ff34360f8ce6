/-
  MultiCore.AlgorithmD.BigEnough — whether the new table holds the keys of the
  old one.

  `newCap` is four times the difference of two counts that may both be off, so
  it is enough only if the errors are small against the keys (`Ample`).  In
  runs of such steps every published table has room for the keys of its
  predecessor, and for those that inserts under way can still add to it, twice
  over (`Fits`): the probe index wraps at `2^32`, so a full round of probes
  may see only half of the buckets.  Without the condition a stalled insert is
  enough to make the new table too small (`big_enough_fails`).
-/
import MultiCore.AlgorithmD.Ledger

namespace MultiCore.AlgorithmD.Concurrent

open MultiCore.Lib MultiCore.Util

/-! ## §1. The property and the condition. -/

/-- Every published table is big enough for what is migrated into it. -/
structure BigEnough (s : State) : Prop where
  positive : ∀ t < s.currentTable, 0 < s.currCapacity (t + 1)
  enough : ∀ t < s.currentTable, (∀ x < s.currCapacity t, (s.data t x).isMarked = true) →
    s.live t ≤ s.currCapacity (t + 1)
  room : ∀ tid op key pc, s.thread tid = .running op key pc →
    step s tid op key pc ≠ .error .migrateFull

/-- The call is in its loop over table `t`, before its CAS. -/
def Pc.probes (t : Nat) : Pc → Bool
  | .help (.test _) t' _ | .get t' _ | .getAccurate t' _ _ _ => decide (t' = t)
  | .probe (.read t' _) | .probe (.cas t' _) | .probe (.reread t' _) => decide (t' = t)
  | _ => false

/-- 1 for an insert that may still store into table `t`. -/
def Thread.inserting (t : Nat) : Thread → Nat
  | .running .insertIfAbsent _ pc => if pc.probes t then 1 else 0
  | _ => 0

/-- The inserts that may still store into table `t`. -/
def State.inflight (s : State) (t : Nat) : Nat := ∑ v, (s.thread v).inserting t

/-- What a step has to meet: a size is computed from fewer than `2^28` buckets
in use (the `int` arithmetic does not overflow), and a table is published only
if twice the errors of its size, and the inserts still under way in the old
table, are at most the keys that the old table holds. -/
def Ample (s : State) (missed : Tid → Nat) : Action → Prop
  | .invoke _ _ _ => True
  | .step tid =>
      match s.thread tid with
      | .running _ _ (.deletes t _ n _) => n < MAX_THREADS ∨ s.used t < 2 ^ 28
      | .running _ _ (.publish t _) =>
          s.currentTable = t → 2 * missed tid + s.inflight t ≤ s.live t
      | _ => True

/-- The table together with the ledger. -/
def sized (numThreads capacity : Nat) : Sys (State × (Tid → Nat)) Action where
  init := (init numThreads capacity, fun _ => 0)
  next p a := (next p.1 a).map fun s => (s, ledger p.1 p.2 a)

/-! ## §2. What is published fits. -/

structure Fits (s : State) : Prop where
  fits : ∀ t < s.currentTable, 2 * (s.live t + s.inflight t) ≤ s.currCapacity (t + 1)
  int : ∀ t < s.currentTable, s.currCapacity (t + 1) < 2 ^ 31

section Steps

variable {s s₁ : State} {done : Nat → Finset Nat} {tid : Tid} {op : Op} {key : Key} {pc pc' : Pc}

theorem Thread.inserting_help {t u : Nat} {k : After} {h h' : Help} :
    Thread.inserting t (.running op key (.help k u h))
      = Thread.inserting t (.running op key (.help k u h')) := by
  cases op <;> cases k <;> rfl

/-- A step that stores nothing brings nobody into a superseded table. -/
theorem Quiet.inserting_le (hq : Quiet s op key pc pc') {t : Nat} (ht : t < s.currentTable) :
    Thread.inserting t (.running op key pc') ≤ Thread.inserting t (.running op key pc) := by
  cases op with
  | erase => exact Nat.le_refl 0
  | insertIfAbsent =>
      cases hq with
      | load hi =>
          rcases iterate_ok hi with ⟨-, rfl⟩ | ⟨-, -, rfl⟩
          · have hne : ¬ decide (s.currentTable = t) = true := by
              rw [decide_eq_true_eq]
              omega
            exact Nat.le_of_eq (if_neg hne)
          · exact Nat.le_refl 0
      | readNext hm he hk hi =>
          rcases iterate_ok hi with ⟨-, rfl⟩ | ⟨-, -, rfl⟩
          · exact Nat.le_refl _
          · exact Nat.zero_le _
      | rereadNext hm hd hi =>
          rcases iterate_ok hi with ⟨-, rfl⟩ | ⟨-, -, rfl⟩
          · exact Nat.le_refl _
          · exact Nat.zero_le _
      | helpTest => exact Nat.le_of_eq Thread.inserting_help
      | helpRead => exact Nat.le_of_eq Thread.inserting_help
      | helpMarkFailed => exact Nat.le_of_eq Thread.inserting_help
      | helpKey hk => exact Nat.le_of_eq Thread.inserting_help
      | helpLoad hr =>
          obtain ⟨-, rfl⟩ := reinsertAt_ok hr
          exact Nat.le_of_eq Thread.inserting_help
      | helpEmpty he => exact Nat.le_of_eq Thread.inserting_help
      | helpCasFailed he => exact Nat.le_of_eq Thread.inserting_help
      | helpReadNext he hk hr =>
          obtain ⟨-, rfl⟩ := reinsertAt_ok hr
          exact Nat.le_of_eq Thread.inserting_help
      | helpRereadNext hk hr =>
          obtain ⟨-, rfl⟩ := reinsertAt_ok hr
          exact Nat.le_of_eq Thread.inserting_help
      | _ => first | exact Nat.le_refl _ | exact Nat.zero_le _

/-- **An insert under way stores once**: what a step adds to a superseded table
it takes from the inserts that may still store into it. -/
theorem Effect.inserting (hinv : Inv s done) (hth : s.thread tid = .running op key pc)
    (he : Effect s tid op key pc s₁ pc') {t : Nat} (ht : t < s.currentTable) :
    s.makes op key .insertIfAbsent t pc + Thread.inserting t (.running op key pc')
      ≤ Thread.inserting t (.running op key pc) := by
  have hhelp : ∀ {k u h h'}, s.makes op key .insertIfAbsent t (.help k u h) = 0 →
      s.makes op key .insertIfAbsent t (.help k u h)
        + Thread.inserting t (.running op key (.help k u h'))
      ≤ Thread.inserting t (.running op key (.help k u h)) := by
    intro k u h h' hmakes
    rw [hmakes, Nat.zero_add]
    exact Nat.le_of_eq Thread.inserting_help
  cases he with
  | quiet hq =>
      rw [hq.makes, Nat.zero_add]
      exact hq.inserting_le ht
  | reinsert hempty =>
      -- a migrating thread fills the current table
      obtain ⟨rfl, -⟩ := hinv.working hth rfl
      have hok := hinv.threadOk tid
      rw [hth] at hok
      obtain ⟨-, rfl, -⟩ := (PcOk.help hok).2
      exact hhelp (if_neg (fun h => by omega))
  | helpCount hinc => exact hhelp rfl
  | helpCounted hinc => exact hhelp rfl
  | skip hdead => exact hhelp rfl
  | claim hlt => exact hhelp rfl
  | claimNone hle => exact hhelp rfl
  | mark => exact hhelp rfl
  | finish => exact hhelp rfl
  | count hinc =>
      cases op <;> exact Nat.zero_le _
  | counted hinc =>
      cases op <;> exact Nat.zero_le _
  | publish =>
      cases op <;> exact Nat.zero_le _
  | @cas t' i hexp =>
      cases op with
      | erase =>
          have hzero : s.makes .erase key .insertIfAbsent t (.probe (.cas t' i)) = 0 := by
            simp only [State.makes, reduceCtorEq, false_and, if_false]
          rw [hzero]
          exact Nat.le_refl 0
      | insertIfAbsent =>
          by_cases htt : t' = t
          · have hone : Thread.inserting t (.running .insertIfAbsent key (.probe (.cas t' i))) = 1 :=
              if_pos (decide_eq_true htt)
            rw [hone]
            show (if _ then 1 else 0) + 0 ≤ 1
            split <;> omega
          · have hzero : s.makes .insertIfAbsent key .insertIfAbsent t (.probe (.cas t' i)) = 0 :=
              if_neg (fun h => htt h.2.1.symm)
            rw [hzero]
            exact Nat.zero_le _

theorem Fits.frame {s s' : State} (h : Fits s) (hcur : s'.currentTable = s.currentTable)
    (htable : s'.table = s.table)
    (hle : ∀ t < s.currentTable, s'.live t + s'.inflight t ≤ s.live t + s.inflight t) :
    Fits s' := by
  have hcap : ∀ t, s'.currCapacity t = s.currCapacity t := by
    intro t
    unfold State.currCapacity
    rw [htable]
  constructor
  · intro t ht
    rw [hcur] at ht
    have h₁ := h.fits t ht
    have h₂ := hle t ht
    rw [hcap]
    omega
  · intro t ht
    rw [hcur] at ht
    rw [hcap]
    exact h.int t ht

/-- The keys of a superseded table and the inserts that may still add to them
never become more. -/
theorem Effect.live_inflight (hinv : Inv s done) (hth : s.thread tid = .running op key pc)
    (he : Effect s tid op key pc s₁ pc') {t : Nat} (ht : t < s.currentTable) :
    (s₁.goto tid (.running op key pc')).live t + (s₁.goto tid (.running op key pc')).inflight t
      ≤ s.live t + s.inflight t := by
  obtain ⟨-, hused⟩ := he.split hinv hth .insertIfAbsent (Nat.le_of_lt ht)
  obtain ⟨-, htombs⟩ := he.split hinv hth .erase (Nat.le_of_lt ht)
  change (s₁.goto tid (.running op key pc')).used t = s.used t + _ at hused
  change (s₁.goto tid (.running op key pc')).tombs t = s.tombs t + _ at htombs
  have hins := he.inserting hinv hth ht
  have hsum := sum_goto s₁ tid (.running op key pc') (Thread.inserting t)
  rw [he.thread, hth] at hsum
  have h₁ := used_eq s t
  have h₂ := used_eq (s₁.goto tid (.running op key pc')) t
  unfold State.inflight
  omega

/-- **A published table has room** for the keys of its predecessor and for the
inserts under way, twice over. -/
theorem Fits.publish {bumps : Op → Nat → Tid → Nat} {missed : Nat} {newCap : Nat} (h : Fits s)
    (hth : s.thread tid = .running op key (.publish s.currentTable newCap))
    (hread : ReadOk s bumps missed (.running op key (.publish s.currentTable newCap)))
    (hample : 2 * missed + s.inflight s.currentTable ≤ s.live s.currentTable) :
    Fits ((s.publish s.currentTable newCap).goto tid (.running op key .reload)) := by
  set s' := (s.publish s.currentTable newCap).goto tid (.running op key .reload) with hs'
  have hlive : ∀ t ≤ s.currentTable, s'.live t = s.live t := by
    intro t ht
    obtain ⟨htable, hdata, -, -⟩ := @publish_old s newCap t ht
    show liveCount (keysOf ((s.publish s.currentTable newCap).data t))
      ((s.publish s.currentTable newCap).table t).currCapacity = _
    rw [htable, hdata]
    rfl
  have hinflight : ∀ t, s'.inflight t = s.inflight t := by
    intro t
    have hsum := sum_goto (s.publish s.currentTable newCap) tid (.running op key .reload)
      (Thread.inserting t)
    have hthread : (s.publish s.currentTable newCap).thread = s.thread := rfl
    have h₁ : Thread.inserting t (.running op key (.publish s.currentTable newCap)) = 0 := by
      cases op <;> rfl
    have h₂ : Thread.inserting t (.running op key .reload) = 0 := by
      cases op <;> rfl
    rw [hthread, hth, h₁, h₂] at hsum
    exact Nat.add_right_cancel hsum
  have hold : ∀ t < s.currentTable, s'.currCapacity (t + 1) = s.currCapacity (t + 1) := by
    intro t ht
    obtain ⟨htable, -, -, -⟩ := @publish_old s newCap (t + 1) ht
    show ((s.publish s.currentTable newCap).table (t + 1)).currCapacity = _
    rw [htable]
    rfl
  have hnew : s'.currCapacity (s.currentTable + 1) = newCap := by
    obtain ⟨htable, -, -, -⟩ := @publish_new s newCap
    show ((s.publish s.currentTable newCap).table (s.currentTable + 1)).currCapacity = _
    rw [htable]
  obtain ⟨hint, hcap⟩ := hread
  have hused := used_eq s s.currentTable
  constructor
  · intro t ht
    change t < s.currentTable + 1 at ht
    rw [hlive t (by omega), hinflight]
    by_cases hlt : t < s.currentTable
    · rw [hold t hlt]
      exact h.fits t hlt
    · obtain rfl : t = s.currentTable := by omega
      rw [hnew]
      omega
  · intro t ht
    change t < s.currentTable + 1 at ht
    by_cases hlt : t < s.currentTable
    · rw [hold t hlt]
      exact h.int t hlt
    · obtain rfl : t = s.currentTable := by omega
      rw [hnew]
      exact hint

end Steps

theorem Fits.transition {s s' : State} {done : Nat → Finset Nat} (hinv : Inv s done)
    {missed : Tid → Nat} {bumps : Op → Nat → Tid → Nat} (hm : Measured s missed bumps)
    (h : Fits s) {a : Action} (ht : Transition s a s') (ha : Ample s missed a) : Fits s' := by
  -- outside of a call nothing is inserted
  have hquiet : ∀ {tid : Tid} {th : Thread} {s₁ : State}, s₁.thread = s.thread →
      s₁.currentTable = s.currentTable → s₁.table = s.table → s₁.data = s.data →
      (∀ t, (s.thread tid).inserting t = 0) → (∀ t, th.inserting t = 0) →
      Fits (s₁.goto tid th) := by
    intro tid th s₁ hthread hcur htable hdata hbefore hafter
    apply h.frame
    · exact hcur
    · exact htable
    · intro t _
      have hsum := sum_goto s₁ tid th (Thread.inserting t)
      have hlive : (s₁.goto tid th).live t = s.live t := by
        show liveCount (keysOf (s₁.data t)) (s₁.table t).currCapacity = _
        rw [hdata, htable]
        rfl
      rw [hthread, hbefore, hafter] at hsum
      unfold State.inflight
      omega
  cases ht with
  | invoke op key hth =>
      apply hquiet rfl rfl rfl rfl
      · intro t
        rw [hth]
        rfl
      · intro t
        cases op <;> rfl
  | @call tid op key pc pc' s₁ hth he =>
      have hle := fun t => he.live_inflight hinv hth (t := t)
      cases he with
      | @publish newCap =>
          have hread := hm.readOk tid
          rw [hth] at hread
          apply h.publish hth hread
          simp only [Ample, hth] at ha
          exact ha trivial
      | mark => exact h.frame rfl rfl (fun t ht => hle t ht)
      | reinsert hempty => exact h.frame rfl rfl (fun t ht => hle t ht)
      | cas hexp => exact h.frame rfl rfl (fun t ht => hle t ht)
      | _ => exact h.frame rfl rfl (fun t ht => hle t ht)
  | @ret tid op key result hth =>
      refine hquiet rfl rfl rfl rfl ?_ (fun _ => rfl)
      intro t
      rw [hth]
      cases op <;> rfl

/-! ## §3. No migrating insert runs out of buckets. -/

/-- While a table is filled it has no tombstones. -/
def NoTombs (s : State) : Prop := ¬ s.Complete s.currentTable → s.tombs s.currentTable = 0

theorem NoTombs.transition {s s' : State} {done : Nat → Finset Nat} (hinv : Inv s done)
    (h : NoTombs s) {a : Action} (ht : Transition s a s') : NoTombs s' := by
  have hlater := hinv.later ht
  cases ht with
  | invoke op key hth => exact h
  | @call tid op key pc pc' s₁ hth he =>
      intro hnot
      by_cases hcur : s₁.currentTable = s.currentTable
      · obtain ⟨-, htombs⟩ := he.split hinv hth .erase (Nat.le_refl s.currentTable)
        have hbefore : ¬ s.Complete s.currentTable := by
          intro hc
          apply hnot
          have := hlater.complete _ (Nat.le_refl _) hc
          show (s₁.goto tid _).Complete s₁.currentTable
          rw [hcur]
          exact this
        have hmakes : s.makes op key .erase s.currentTable pc = 0 := by
          -- a client erases in complete tables only
          cases pc with
          | probe p =>
              cases p with
              | cas t i =>
                  apply if_neg
                  intro hmake
                  have hok := hinv.threadOk tid
                  rw [hth] at hok
                  obtain ⟨-, hc, -⟩ := hok
                  rw [← hmake.2.1] at hc
                  exact hbefore hc
              | _ => rfl
          | help k t h =>
              cases h with
              | insert c i key' p =>
                  cases p with
                  | cas t' j => simp only [State.makes, reduceCtorEq, false_and, if_false]
                  | _ => rfl
              | _ => rfl
          | _ => rfl
        have hzero := h hbefore
        change (s₁.goto tid _).tombs s.currentTable = s.tombs s.currentTable + _ at htombs
        show (s₁.goto tid _).tombs s₁.currentTable = 0
        rw [hcur]
        omega
      · cases he with
        | @publish newCap =>
            obtain ⟨-, hdata, -, -⟩ := @publish_new s newCap
            have hkeys : ((s.publish s.currentTable newCap).goto tid (.running op key .reload)).keys
                (s.currentTable + 1) = fun _ => EMPTY := by
              show keysOf ((s.publish s.currentTable newCap).data (s.currentTable + 1)) = _
              rw [hdata]
              rfl
            exact stored_blank hkeys .erase
        | mark => exact absurd rfl hcur
        | reinsert hempty => exact absurd rfl hcur
        | cas hexp => exact absurd rfl hcur
        | _ => exact absurd rfl hcur
  | ret hth => exact h

/-- While a key is being moved the new table holds fewer keys than the old
one. -/
theorem Inv.live_lt {s : State} {done : Nat → Finset Nat} (h : Inv s done)
    (hnot : ¬ s.Complete s.currentTable) {c i key : Nat} (hm : Moving s s.currentTable c i key)
    (habs : ∀ x < s.currCapacity s.currentTable, s.keys s.currentTable x ≠ key) :
    s.live s.currentTable < s.live s.last := by
  obtain ⟨hsucc, hold, hcap⟩ := h.pred hnot
  obtain ⟨hin, -, hkey, hk⟩ := hm
  have hkeys : ∀ x, (s.old s.currentTable x).getKey = s.keys s.last x := by
    intro x
    rw [← hold]
    rfl
  have hi : i < s.currCapacity s.last := by
    rw [← hcap]
    exact Nat.lt_of_lt_of_le hin.2 (endIndex_le _ _)
  set new := keySet (s.keys s.currentTable) (s.currCapacity s.currentTable) with hnew
  set old := keySet (s.keys s.last) (s.currCapacity s.last) with holdset
  have hcardNew : new.card = s.live s.currentTable := card_keySet (h.shape.placed _ (Nat.le_refl _))
  have hcardOld : old.card = s.live s.last := card_keySet (h.shape.placed _ (by omega))
  have hnotin : key ∉ new := by
    intro hmem
    obtain ⟨-, x, hx, hxk⟩ := mem_keySet.mp hmem
    exact habs x hx hxk
  have hsub : insert key new ⊆ old := by
    intro v hv
    apply mem_keySet.mpr
    rcases Finset.mem_insert.mp hv with rfl | hv
    · exact ⟨hk, i, hi, by rw [← hkeys, hkey]⟩
    · obtain ⟨hvk, y, hy, rfl⟩ := mem_keySet.mp hv
      obtain ⟨x, hx, -, heq⟩ := h.source hnot y hy hvk
      exact ⟨hvk, x, by rw [← hcap]; exact hx, by rw [← hkeys, heq]⟩
  have hle := Finset.card_le_card hsub
  rw [Finset.card_insert_of_notMem hnotin] at hle
  omega

/-- A migrating thread finds an empty bucket before its round of probes ends. -/
theorem Fits.probe_ends {s : State} {done : Nat → Finset Nat} (h : Inv s done) (hfits : Fits s)
    (htombs : NoTombs s) (hnot : ¬ s.Complete s.currentTable) {c i key : Nat}
    (hm : Moving s s.currentTable c i key) :
    ¬ Clear (s.keys s.currentTable) EMPTY key (path (s.currCapacity s.currentTable) key)
      (s.currCapacity s.currentTable) := by
  intro hclear
  have hkey : IsKey key := hm.2.2.2
  have hplaced := h.shape.placed s.currentTable (Nat.le_refl _)
  have habs := hplaced.absent hkey hkey.1 hclear (fun hlt => absurd hlt (Nat.lt_irrefl _))
  have hlt := h.live_lt hnot hm habs
  obtain ⟨hsucc, -, -⟩ := h.pred hnot
  have hroom := hfits.fits s.last (by omega)
  have hint := hfits.int s.last (by omega)
  rw [hsucc] at hroom hint
  have hused := used_eq s s.currentTable
  rw [htombs hnot] at hused
  have hfew : 2 * bucketCount (fun v => v ≠ EMPTY) (s.keys s.currentTable)
      (s.currCapacity s.currentTable) < s.currCapacity s.currentTable := by
    change s.used s.currentTable = _ at hused
    show 2 * s.used s.currentTable < _
    omega
  obtain ⟨j, hj, hempty⟩ := exists_probe_not (hash_lt key) (by omega) hfew
  exact hempty (hclear j hj).1

/-- When a migrating insert goes on to the next bucket, the one before was in
use, and by another key. -/
theorem insertStep_next {s s' : State} {tid : Tid} {key t t' j' : Nat} {p : Probe}
    (h : insertStep s tid true key p = .ok (s', .next t' j'))
    (hfresh : ∀ x, (s.data t x).isMarked = false) (hr : ReinsertOk s t key p) :
    s' = s ∧ t' = t ∧ j' ≤ s.currCapacity t
      ∧ Clear (s.keys t) EMPTY key (path (s.currCapacity t) key) j' := by
  have hfound : ∀ {i : Nat}, Probing s t key i → s.keys t (s.index t key i) ≠ EMPTY →
      (insertFound true key (s.data t (s.index t key i)) t i).map (fun o => (s, o))
        = .ok (s', .next t' j') →
      s' = s ∧ t' = t ∧ j' ≤ s.currCapacity t
        ∧ Clear (s.keys t) EMPTY key (path (s.currCapacity t) key) j' := by
    intro i hprobe hne hmap
    obtain ⟨o, ho, heq⟩ := map_ok hmap
    obtain ⟨rfl, rfl⟩ := Prod.mk.inj heq
    unfold insertFound at ho
    simp only [Bool.not_true, Bool.false_and, Bool.false_eq_true, if_false, if_true] at ho
    split at ho
    · exact absurd ho (by simp)
    · next hk =>
      simp only [Except.ok.injEq, Outcome.next.injEq] at ho
      obtain ⟨rfl, rfl⟩ := ho
      exact ⟨rfl, rfl, hprobe.2.1, hprobe.2.2.succ hne (keys_ne (hfresh _) hk)⟩
  cases p with
  | read t₁ i =>
      obtain ⟨rfl, hprobe⟩ := hr
      rw [insertStep] at h
      split at h
      · exact absurd h (by simp)
      · next hne => exact hfound hprobe (keys_ne (hfresh _) hne) h
  | cas t₁ i =>
      rw [insertStep] at h
      split at h
      · exact absurd h (by simp)
      · exact absurd h (by simp)
  | reread t₁ i =>
      obtain ⟨rfl, hprobe, hne⟩ := hr
      exact hfound hprobe hne h
  | inc t₁ step =>
      obtain ⟨c, r, -, -, ho⟩ := countStep_eq (Except.ok.inj h)
      cases r with
      | none => exact absurd ho (by simp)
      | some step' => exact absurd ho (by simp)

theorem helpStep_not_full {s : State} {done : Nat → Finset Nat} (hinv : Inv s done)
    (hfits : Fits s) (htombs : NoTombs s) {tid : Tid} {op : Op} {key : Key} {k : After} {t : Nat}
    {h : Help} (hth : s.thread tid = .running op key (.help k t h)) :
    helpStep s tid t h ≠ .error .migrateFull := by
  intro hfull
  have hok : HelpOk s t h := by
    have := hinv.threadOk tid
    rw [hth] at this
    exact (PcOk.help this).2
  obtain ⟨c, i, key', ⟨rfl, herr⟩ | ⟨p, rfl, ⟨s', t', j, hs, herr⟩ | ⟨he, -⟩⟩⟩ := helpStep_error hfull
  · have hpos := hinv.shape.capacity_pos s.currentTable (Nat.le_refl _)
    rcases reinsertAt_error herr with he | ⟨-, hle⟩
    · exact absurd he (by simp)
    · omega
  · obtain ⟨hm, hr⟩ := hok
    have hposition : ∃ n, (Help.insert c i key' p).position = some (c, n) := by
      cases p <;> exact ⟨_, rfl⟩
    obtain ⟨n, hn⟩ := hposition
    obtain ⟨rfl, hnot⟩ := hinv.working hth hn
    obtain ⟨rfl, rfl, hle, hclear⟩ := insertStep_next hs hinv.shape.fresh hr
    rcases reinsertAt_error herr with he | ⟨-, hge⟩
    · exact absurd he (by simp)
    · have hj : j = s'.currCapacity s'.currentTable := Nat.le_antisymm hle hge
      rw [hj] at hclear
      exact hfits.probe_ends hinv htombs hnot hm hclear
  · exact absurd he (by simp)

/-- **No step fails the assertion behind the loop of a migrating insert.** -/
theorem step_not_full {s : State} {done : Nat → Finset Nat} (hinv : Inv s done)
    (hfits : Fits s) (htombs : NoTombs s) {tid : Tid} {op : Op} {key : Key} {pc : Pc}
    (hth : s.thread tid = .running op key pc) : step s tid op key pc ≠ .error .migrateFull := by
  intro hfull
  rcases step_error hfull with ⟨k, t, h, rfl, hh⟩ | he | he | he
  · exact helpStep_not_full hinv hfits htombs hth hh
  · exact absurd he (by simp)
  · exact absurd he (by simp)
  · exact absurd he (by simp)

/-! ## §4. Every run. -/

/-- What every state of a run of ample steps satisfies. -/
structure Sound (s : State) (missed : Tid → Nat) : Prop where
  inv : ∃ done, Inv s done
  measured : ∃ bumps, Measured s missed bumps
  fits : Fits s
  noTombs : NoTombs s

theorem sized_sound {n c : Nat} (hc : 0 < c) {p : State × (Tid → Nat)}
    (h : Reach (sized n c) (fun p a => Ample p.1 p.2 a) p) : Sound p.1 p.2 := by
  induction h with
  | init =>
      refine ⟨⟨_, init_inv hc⟩, ⟨_, init_measured n c⟩, ?_, ?_⟩
      · constructor
        · intro t ht
          exact absurd ht (Nat.not_lt_zero t)
        · intro t ht
          exact absurd ht (Nat.not_lt_zero t)
      · intro hnot
        exact absurd totalOldChunks_zero.symm hnot
  | @step p p' a _ ha hn ih =>
      obtain ⟨⟨done, hinv⟩, ⟨bumps, hm⟩, hfits, htombs⟩ := ih
      obtain ⟨s', hs', rfl⟩ := Option.map_eq_some_iff.mp hn
      have ht := next_transition hs'
      refine ⟨hinv.transition ht, ?_, hfits.transition hinv hm ht ha, htombs.transition hinv ht⟩
      apply hm.transition hinv ht
      intro tid op key t inserts n ret heq hth hend
      subst heq
      simp only [Ample, hth] at ha
      omega

/-- A table without buckets has no successor. -/
theorem NoBuckets.bigEnough {s : State} (h : NoBuckets s) : BigEnough s := by
  have hnone : ∀ t, ¬ t < s.currentTable := by
    intro t ht
    rw [h.current] at ht
    exact absurd ht (Nat.not_lt_zero t)
  refine ⟨fun t ht => absurd ht (hnone t), fun t ht => absurd ht (hnone t), ?_⟩
  intro tid op key pc hth
  have hok := h.thread tid
  rw [hth] at hok
  cases pc with
  | load =>
      cases op with
      | insertIfAbsent =>
          rw [h.step_insert]
          exact fun heq => absurd heq (by simp)
      | erase =>
          rw [h.step_erase]
          exact fun heq => absurd heq (by simp)
  | ret result => exact fun heq => absurd heq (by simp [step])
  | _ => exact hok.elim

/-- **The new table is big enough** in every run of ample steps, for every number
of threads and every interleaving. -/
theorem big_enough (n c : Nat) (s : State) (missed : Tid → Nat)
    (h : Reach (sized n c) (fun p a => Ample p.1 p.2 a) (s, missed)) : BigEnough s := by
  rcases Nat.eq_zero_or_pos c with rfl | hc
  · refine NoBuckets.bigEnough (Reach.induct (P := fun p => NoBuckets p.1) (NoBuckets.init n) ?_ h)
    intro p a p' _ hp _ hn
    obtain ⟨s', hs', rfl⟩ := Option.map_eq_some_iff.mp hn
    exact hp.next hs'
  obtain ⟨⟨done, hinv⟩, -, hfits, htombs⟩ := sized_sound hc h
  refine ⟨?_, ?_, ?_⟩
  · intro t ht
    exact hinv.shape.capacity_pos (t + 1) ht
  · intro t ht _
    have hroom : 2 * (s.live t + s.inflight t) ≤ s.currCapacity (t + 1) := hfits.fits t ht
    omega
  · intro tid op key pc hth
    exact step_not_full hinv hfits htombs hth

/-! ## §5. Two runs. -/

/-- `Ample`, if at most `k` inserts are under way. -/
def ampleTest (k : Nat) (p : State × (Tid → Nat)) : Action → Bool
  | .invoke _ _ _ => true
  | .step tid =>
      match p.1.thread tid with
      | .running _ _ (.deletes t _ n _) => decide (n < MAX_THREADS ∨ p.1.used t < 2 ^ 28)
      | .running _ _ (.publish t _) => decide (2 * p.2 tid + k ≤ p.1.live t)
      | _ => true

theorem ample_of_test {k : Nat} {p : State × (Tid → Nat)} {a : Action}
    (h : ampleTest k p a = true) (hk : ∀ t, p.1.inflight t ≤ k) : Ample p.1 p.2 a := by
  cases a with
  | invoke tid op key => trivial
  | step tid =>
      cases hth : p.1.thread tid with
      | idle => simp only [Ample, hth]
      | running op key pc =>
          cases pc with
          | deletes t inserts n ret =>
              simp only [ampleTest, hth, decide_eq_true_eq] at h
              simp only [Ample, hth]
              exact h
          | publish t newCap =>
              simp only [ampleTest, hth, decide_eq_true_eq] at h
              simp only [Ample, hth]
              intro _
              have := hk t
              omega
          | _ => simp only [Ample, hth]

/-- Only threads that act can be inserting. -/
theorem inflight_le {s : State} {actors : Finset Tid} (h : ∀ v, v ∉ actors → s.thread v = .idle)
    (t : Nat) : s.inflight t ≤ actors.card := by
  have hle : ∀ v, (s.thread v).inserting t ≤ if v ∈ actors then 1 else 0 := by
    intro v
    split
    · unfold Thread.inserting
      split
      · split <;> omega
      · omega
    · next hv =>
      rw [h v hv]
      exact Nat.le_refl 0
  calc s.inflight t ≤ ∑ v, if v ∈ actors then 1 else 0 := Finset.sum_le_sum (fun v _ => hle v)
    _ = actors.card := by simp

theorem ample_of_actors {n c : Nat} {actors : Finset Tid} {p : State × (Tid → Nat)}
    (h : Reach (sized n c) (fun p a => a.tid ∈ actors ∧ ampleTest actors.card p a = true) p) :
    Reach (sized n c) (fun p a => Ample p.1 p.2 a) p ∧ ∀ v, v ∉ actors → p.1.thread v = .idle := by
  induction h with
  | init => exact ⟨Reach.init, fun _ _ => rfl⟩
  | @step p p' a _ ha hn ih =>
      obtain ⟨hreach, hidle⟩ := ih
      refine ⟨Reach.step hreach (ample_of_test ha.2 (inflight_le hidle)) hn, ?_⟩
      intro v hv
      obtain ⟨s', hs', rfl⟩ := Option.map_eq_some_iff.mp hn
      have hne : a.tid ≠ v := fun heq => hv (heq ▸ ha.1)
      show s'.thread v = .idle
      rw [next_thread hs' hne]
      exact hidle v hv

/-- Thread 0 fills 51 of 52 buckets, and thread 5, inserting 128, publishes a
table of 204. -/
def growingActions : List Action :=
  (shortLived ++ [32, 38, 20, 39, 149]).flatMap (callSteps 0 .insertIfAbsent 8)
    ++ callSteps 5 .insertIfAbsent 982 128

set_option maxRecDepth 100000 in
theorem big_enough_growing : ∃ s missed,
    Reach (sized 6 52) (fun p a => Ample p.1 p.2 a) (s, missed) ∧ s.currentTable = 1
      ∧ BigEnough s := by
  have hcheck : (sized 6 52).check
      (fun p a => decide (a.tid ∈ ({0, 5} : Finset Tid)) && ampleTest 2 p a)
      (fun p => decide (p.1.currentTable = 1)) (sized 6 52).init growingActions = true := by
    decide +kernel
  have hreach := (sized 6 52).reach_of_check
    (C := fun p a => a.tid ∈ ({0, 5} : Finset Tid) ∧ ampleTest 2 p a = true)
    (fun p a h => by simpa using h) growingActions hcheck
  obtain ⟨hactors, hcur⟩ := hreach
  obtain ⟨hample, -⟩ := ample_of_actors hactors
  generalize (sized 6 52).after growingActions = p at hample hcur
  exact ⟨p.1, p.2, hample, of_decide_eq_true hcur, big_enough 6 52 p.1 p.2 hample⟩

/-- Thread 0 fills 47 of 52 buckets, the threads 1 to 4 one each, but they stall
between their CAS and the increment that counts it.  Thread 0 erases all keys
but one, and thread 5, inserting 128, computes the size of a new table: for one
key, where there are five. -/
def stalledActions : List Action :=
  (shortLived ++ [32]).flatMap (callSteps 0 .insertIfAbsent 8)
    ++ callSteps 1 .insertIfAbsent 6 38 ++ callSteps 2 .insertIfAbsent 6 20
    ++ callSteps 3 .insertIfAbsent 6 39 ++ callSteps 4 .insertIfAbsent 6 149
    ++ shortLived.flatMap (callSteps 0 .erase 8) ++ callSteps 5 .insertIfAbsent 1160 128

set_option maxRecDepth 100000 in
theorem big_enough_fails : ∃ s, Reachable (system 6 52) s ∧ ¬ BigEnough s := by
  have hrun : ((system 6 52).exec (init 6 52) stalledActions).any (fun s =>
      decide (s.currentTable = 1 ∧ s.currCapacity 0 = 52 ∧ s.currCapacity 1 = 4 ∧ s.live 0 = 5
        ∧ ∀ x ∈ List.range 52, (s.data 0 x).isMarked = true)) = true := by
    decide +kernel
  rw [Option.any_eq_true] at hrun
  obtain ⟨s, hexec, hfacts⟩ := hrun
  obtain ⟨hcur, hcap, hnew, hlive, hmarked⟩ := of_decide_eq_true hfacts
  refine ⟨s, Reach.exec stalledActions Reach.init hexec, ?_⟩
  intro h
  have hle : s.live 0 ≤ s.currCapacity 1 := by
    apply h.enough 0
    · omega
    · rw [hcap]
      intro x hx
      exact hmarked x (List.mem_range.mpr hx)
  omega

end MultiCore.AlgorithmD.Concurrent
