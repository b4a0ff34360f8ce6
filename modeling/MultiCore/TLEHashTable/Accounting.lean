/-
  MultiCore.TLEHashTable.Accounting — what the two counters say about the
  number of keys in the table.

  Outside `expand`, every key that enters or leaves `data` is counted once, so
  the accurate size and the number of live keys move together (`put_counted`,
  `sequentialErase_counted`).  `expand` re-inserts the keys through the insert
  that counts, and then folds the sum back with `set`: the keys it moves are
  counted a second time (`expand_counted`).  A surplus, once there, is never
  worked off, so the accurate size is right exactly as long as no expansion
  has run (`size_accounting`).
-/
import MultiCore.TLEHashTable.Model
import MultiCore.Lib.Loop

namespace MultiCore.TLEHashTable

open MultiCore.Lib MultiCore.Util

/-! ## §1. The probe loop of an insert. -/

/-- The call expands the table it starts from: its probe gets to an index at
which the expansion test succeeds. -/
def Expands (t : Table) (call : Call) : Prop :=
  call.op = .insertIfAbsent ∧
    ∃ i < min t.capacity (2 ^ 32),
      Clear t.data EMPTY call.key.val (path t.capacity call.key.val) i ∧ t.isExpandNeeded i = true

theorem insertBody_eq_none {t : Table} {key i : Nat} {disable : Bool} :
    insertBody t key disable i = none ↔
      (disable = false → t.isExpandNeeded i = false)
        ∧ t.data (path t.capacity key i) ≠ EMPTY ∧ t.data (path t.capacity key i) ≠ key := by
  unfold insertBody
  cases disable with
  | true =>
      simp only [Bool.not_true, Bool.false_and]
      split_ifs <;> simp_all
  | false =>
      simp only [Bool.not_false, Bool.true_and]
      split_ifs <;> simp_all

theorem insertBody_eq_expand {t : Table} {key i : Nat} {disable : Bool} :
    insertBody t key disable i = some .expand ↔ disable = false ∧ t.isExpandNeeded i = true := by
  unfold insertBody
  cases disable with
  | true =>
      simp only [Bool.not_true, Bool.false_and]
      split_ifs <;> simp_all
  | false =>
      simp only [Bool.not_false, Bool.true_and]
      split_ifs <;> simp_all

theorem insertBody_eq_empty {t : Table} {key i x : Nat} {disable : Bool}
    (h : insertBody t key disable i = some (.empty x)) :
    x = path t.capacity key i ∧ t.data x = EMPTY := by
  unfold insertBody at h
  split at h
  · exact absurd h (by simp)
  · simp only at h
    split_ifs at h with h₁ h₂
    · exact absurd h (by simp)
    · obtain rfl : path t.capacity key i = x := by simpa using h
      exact ⟨rfl, h₂⟩

theorem insertBody_eq_found {t : Table} {key i : Nat} {disable : Bool}
    (h : insertBody t key disable i = some .found) :
    t.data (path t.capacity key i) = key := by
  unfold insertBody at h
  split at h
  · exact absurd h (by simp)
  · simp only at h
    split_ifs at h with h₁ h₂
    · exact h₁
    · exact absurd h (by simp)

/-- A probe that has left `i` buckets behind has a clear path up to `i`. -/
theorem clear_of_insertBody {t : Table} {key i : Nat} {disable : Bool}
    (h : ∀ j < i, insertBody t key disable j = none) :
    Clear t.data EMPTY key (path t.capacity key) i := by
  intro j hj
  exact (insertBody_eq_none.mp (h j hj)).2

/-- The loop leaves to expand exactly when the call expands: the first index on
the clear path at which the test succeeds is the one that leaves. -/
theorem insertLoop_expand_iff {t : Table} {key : Nat} :
    (probes t.capacity).findSome? (insertBody t key false) = some .expand ↔
      ∃ i < min t.capacity (2 ^ 32),
        Clear t.data EMPTY key (path t.capacity key) i ∧ t.isExpandNeeded i = true := by
  unfold probes
  rw [findSome?_range_some]
  constructor
  · intro h
    obtain ⟨i, hi, hbody, hbefore⟩ := h
    exact ⟨i, hi, clear_of_insertBody hbefore, (insertBody_eq_expand.mp hbody).2⟩
  · intro h
    classical
    -- the least index that qualifies: before it, the test has failed
    have hmin := Nat.find_spec h
    have hleast : ∀ j < Nat.find h, ¬ (j < min t.capacity (2 ^ 32) ∧
        Clear t.data EMPTY key (path t.capacity key) j ∧ t.isExpandNeeded j = true) :=
      fun j hj => Nat.find_min h hj
    obtain ⟨hlt, hclear, hneed⟩ := hmin
    refine ⟨Nat.find h, hlt, insertBody_eq_expand.mpr ⟨rfl, hneed⟩, ?_⟩
    intro j hj
    have hno : t.isExpandNeeded j = false := by
      by_contra hne
      exact hleast j hj ⟨hj.trans hlt, hclear.mono hj.le, by simpa using hne⟩
    exact insertBody_eq_none.mpr ⟨fun _ => hno, hclear j hj⟩

/-! ## §2. Counted tables. -/

/-- The table is well placed, and its accurate size exceeds the number of live
keys by `surplus`. -/
structure Counted (t : Table) (surplus : Nat) : Prop where
  placed : WellPlaced t.data t.capacity
  size : t.getAccurateSize = (liveCount t.data t.capacity + surplus : Nat)

theorem getAccurateSize_eq (t : Table) :
    t.getAccurateSize = t.approxInserts.getAccurate - t.approxDeletes.getAccurate := rfl

theorem init_counted (n c : Nat) : Counted (init n c) 0 := by
  constructor
  · exact Placed.blank not_isKey_empty
  · have hlive : liveCount (fun _ => EMPTY) c = 0 := bucketCount_blank not_isKey_empty c
    unfold init Table.getAccurateSize
    simp [hlive]

/-- A key put where its probe ended is one more live key, counted once. -/
theorem put_counted {t : Table} {surplus tid key i : Nat} (h : Counted t surplus)
    (ht : tid < MAX_THREADS) (hk : IsKey key) (hi : i < t.capacity)
    (hclear : Clear t.data EMPTY key (path t.capacity key) i)
    (hempty : t.data (path t.capacity key i) = EMPTY) :
    Counted (t.put tid (path t.capacity key i) key) surplus := by
  have hlive := liveCount_put hk (path_lt (by omega)) hempty
  constructor
  · exact h.placed.insert hi hempty hclear
  · have hsize := h.size
    rw [getAccurateSize_eq] at hsize ⊢
    show (t.approxInserts.inc tid).getAccurate - t.approxDeletes.getAccurate
      = (liveCount (Function.update t.data (path t.capacity key i) key) t.capacity + surplus : Nat)
    rw [Counter.getAccurate_inc _ ht, hlive]
    omega

/-- A successful erase takes one live key away, counted once. -/
theorem sequentialErase_counted {t t' : Table} {surplus tid : Nat} {key : Nat} {r : Bool}
    (h : Counted t surplus) (ht : tid < MAX_THREADS) (hk : IsKey key)
    (herase : sequentialErase t tid key = .ok (r, t')) : Counted t' surplus := by
  unfold sequentialErase at herase
  split at herase
  · rename_i index hloop
    obtain ⟨-, rfl⟩ : true = r ∧ _ = t' := by simpa using herase
    -- the loop left at a bucket that holds the key
    unfold probes at hloop
    obtain ⟨i, hi, hbody, -⟩ := (findSome?_range_some _ _ _).mp hloop
    have hfound : index = path t.capacity key i ∧ t.data index = key := by
      unfold eraseBody at hbody
      simp only at hbody
      split_ifs at hbody with h₁ h₂
      · exact absurd hbody (by simp)
      · obtain rfl : path t.capacity key i = index := by simpa using hbody
        exact ⟨rfl, h₂⟩
    obtain ⟨hindex, hdata⟩ := hfound
    have hlt : index < t.capacity := by
      rw [hindex]
      exact path_lt (by omega)
    have hlive := liveCount_erase (b := t.data) (by rw [hdata]; exact hk) hlt
    constructor
    · exact h.placed.erase not_isKey_tombstone tombstone_ne_empty
    · have hsize := h.size
      rw [getAccurateSize_eq] at hsize ⊢
      show t.approxInserts.getAccurate - (t.approxDeletes.inc tid).getAccurate
        = (liveCount (Function.update t.data index TOMBSTONE) t.capacity + surplus : Nat)
      rw [Counter.getAccurate_inc _ ht]
      omega
  · obtain ⟨-, rfl⟩ : false = r ∧ t = t' := by simpa using herase
    exact h
  · unfold afterLoop at herase
    split at herase
    · obtain ⟨-, rfl⟩ : false = r ∧ t = t' := by simpa using herase
      exact h
    · exact absurd herase (by simp)

/-! ## §3. Expansion counts the moved keys twice. -/

/-- After `i` iterations of the loop of `expand` on `t`: the keys of the first
`i` old buckets are in the new table, and **each has been counted again**. -/
structure Moving (t : Table) (i : Nat) (s : Table) : Prop where
  old : s.old = t.data
  capacity : s.capacity = (t.getAccurateSize * 4).toNat
  deletes : s.approxDeletes = t.approxDeletes
  placed : WellPlaced s.data s.capacity
  live : liveCount s.data s.capacity = liveCount t.data i
  inserts : s.approxInserts.getAccurate = t.approxInserts.getAccurate + liveCount t.data i
  source : ∀ x < s.capacity, IsKey (s.data x) → ∃ j < i, t.data j = s.data x

theorem expandBody_moving {t : Table} {tid i : Nat} {s s' : Table} (ht : tid < MAX_THREADS)
    (hplaced : WellPlaced t.data t.capacity) (hi : i < t.capacity) (h : Moving t i s)
    (hbody : expandBody tid s i = .ok s') : Moving t (i + 1) s' := by
  have hsucc : liveCount t.data (i + 1)
      = liveCount t.data i + if IsKey (t.data i) then 1 else 0 := bucketCount_succ _ _ _
  unfold expandBody at hbody
  simp only [h.old] at hbody
  split at hbody
  · -- ===== a key moves =====
    rename_i hkey
    have hk : IsKey (t.data i) := ⟨hkey.2, hkey.1⟩
    rw [if_pos hk] at hsucc
    cases hre : sequentialReinsert s tid (t.data i) with
    | error e =>
        rw [hre] at hbody
        exact absurd hbody (by simp [Except.map])
    | ok r =>
        rw [hre] at hbody
        obtain rfl : r.2 = s' := by simpa [Except.map] using hbody
        unfold sequentialReinsert at hre
        split at hre
        · rename_i index hloop
          obtain rfl : (true, s.put tid index (t.data i)) = r := by simpa using hre
          unfold probes at hloop
          obtain ⟨j, hj, hb, hbefore⟩ := (findSome?_range_some _ _ _).mp hloop
          have hclear := clear_of_insertBody hbefore
          obtain ⟨rfl, hempty⟩ := insertBody_eq_empty hb
          have hjc : j < s.capacity := by omega
          have hlt : path s.capacity (t.data i) j < s.capacity := path_lt (by omega)
          have hlive := liveCount_put hk hlt hempty
          refine ⟨h.old, h.capacity, h.deletes, h.placed.insert hjc hempty hclear, ?_, ?_, ?_⟩
          · show liveCount (Function.update s.data _ (t.data i)) s.capacity = _
            rw [hlive, h.live, hsucc]
          · show (s.approxInserts.inc tid).getAccurate = _
            rw [Counter.getAccurate_inc _ ht, h.inserts, hsucc]
            omega
          · intro x hx hxk
            show ∃ j' < i + 1, t.data j' = Function.update s.data _ (t.data i) x
            change IsKey (Function.update s.data _ (t.data i) x) at hxk
            by_cases hxe : x = path s.capacity (t.data i) j
            · rw [hxe, Function.update_self]
              exact ⟨i, Nat.lt_succ_self i, rfl⟩
            · rw [Function.update_of_ne hxe] at hxk ⊢
              obtain ⟨j', hj', hsrc⟩ := h.source x hx hxk
              exact ⟨j', Nat.lt_succ_of_lt hj', hsrc⟩
        · -- the key cannot be there yet: it would come from an earlier old bucket
          rename_i e hne hloop
          exfalso
          unfold probes at hloop
          obtain ⟨j, hj, hb, -⟩ := (findSome?_range_some _ _ _).mp hloop
          cases e with
          | expand => exact absurd (insertBody_eq_expand.mp hb).1 (by simp)
          | empty x => exact hne x rfl
          | found =>
              have hfound := insertBody_eq_found hb
              have hlt : path s.capacity (t.data i) j < s.capacity := path_lt (by omega)
              obtain ⟨j', hj', hsrc⟩ := h.source _ hlt (by rw [hfound]; exact hk)
              rw [hfound] at hsrc
              have heq : j' = i :=
                hplaced.unique (hj'.trans hi) hi (by rw [hsrc]; exact hk) hsrc
              omega
        · unfold afterLoop at hre
          split at hre <;> exact absurd hre (by simp)
  · -- ===== nothing to move =====
    rename_i hkey
    have hk : ¬ IsKey (t.data i) := fun hk => hkey ⟨hk.2, hk.1⟩
    rw [if_neg hk] at hsucc
    obtain rfl : s = s' := by simpa using hbody
    refine ⟨h.old, h.capacity, h.deletes, h.placed, ?_, ?_, ?_⟩
    · rw [h.live, hsucc, Nat.add_zero]
    · rw [h.inserts, hsucc, Nat.add_zero]
    · intro x hx hxk
      obtain ⟨j', hj', hsrc⟩ := h.source x hx hxk
      exact ⟨j', Nat.lt_succ_of_lt hj', hsrc⟩

/-- The table `expand` sets up before its loop. -/
def fresh (t : Table) : Table :=
  { t with
    old := t.data, oldCapacity := t.capacity, capacity := (t.getAccurateSize * 4).toNat,
    data := fun _ => EMPTY }

theorem fresh_moving (t : Table) : Moving t 0 (fresh t) := by
  refine ⟨rfl, rfl, rfl, Placed.blank not_isKey_empty, ?_, ?_, ?_⟩
  · show bucketCount IsKey (fun _ => EMPTY) _ = bucketCount IsKey t.data 0
    rw [bucketCount_blank not_isKey_empty]
    rfl
  · show t.approxInserts.getAccurate = _
    have hzero : liveCount t.data 0 = 0 := rfl
    rw [hzero]
    simp
  · intro x _ hx
    exact absurd hx not_isKey_empty

/-- `expand` is its loop, followed by the two `set`s on the counters. -/
theorem expand_moving {t t' : Table} {surplus tid : Nat} (ht : tid < MAX_THREADS)
    (h : Counted t surplus) (hexp : expand tid t = .ok t') :
    ∃ moved, Moving t t.capacity moved
      ∧ t' = { moved with
          approxInserts := moved.approxInserts.set moved.getAccurateSize
          approxDeletes := moved.approxDeletes.set 0 } := by
  unfold expand at hexp
  simp only at hexp
  split at hexp
  · exact absurd hexp (by simp)
  split at hexp
  · exact absurd hexp (by simp)
  cases hloop : (List.range t.capacity).foldlM (expandBody tid) (fresh t) with
  | error e =>
      rw [fresh] at hloop
      rw [hloop] at hexp
      exact absurd hexp (by simp [bind, Except.bind])
  | ok moved =>
      refine ⟨moved, ?_, ?_⟩
      · exact foldlM_range_inv (fun i s => Moving t i s) t.capacity
          (fun i hi s s' hs hb => expandBody_moving ht h.placed hi hs hb) (fresh_moving t) hloop
      · rw [fresh] at hloop
        rw [hloop] at hexp
        obtain rfl : _ = t' := by simpa [bind, Except.bind] using hexp
        rfl

/-- **An expansion turns the whole old size into surplus**: the keys stay, the
accurate size grows by their number, and the new capacity is four times the
old accurate size. -/
theorem expand_counted {t t' : Table} {surplus tid : Nat} (ht : tid < MAX_THREADS)
    (h : Counted t surplus) (hexp : expand tid t = .ok t') :
    Counted t' (liveCount t.data t.capacity + surplus)
      ∧ liveCount t'.data t'.capacity = liveCount t.data t.capacity
      ∧ t'.capacity = 4 * (liveCount t.data t.capacity + surplus) := by
  obtain ⟨moved, hend, rfl⟩ := expand_moving ht h hexp
  have hsize := h.size
  rw [getAccurateSize_eq] at hsize
  have hmoved : moved.getAccurateSize
      = (liveCount t.data t.capacity + (liveCount t.data t.capacity + surplus) : Nat) := by
    rw [getAccurateSize_eq, hend.inserts, hend.deletes]
    omega
  refine ⟨⟨hend.placed, ?_⟩, hend.live, ?_⟩
  · show (moved.approxInserts.set moved.getAccurateSize).getAccurate
      - (moved.approxDeletes.set 0).getAccurate = _
    rw [Counter.getAccurate_set, Counter.getAccurate_set, hmoved, sub_zero]
    show _ = ((liveCount moved.data moved.capacity + _ : Nat) : Int)
    rw [hend.live]
  · show moved.capacity = _
    rw [hend.capacity, h.size]
    omega

/-! ## §4. Calls. -/

theorem insertLoop_empty_counted {t : Table} {surplus tid key index : Nat}
    (h : Counted t surplus) (ht : tid < MAX_THREADS) (hk : IsKey key)
    (hloop : (probes t.capacity).findSome? (insertBody t key false) = some (.empty index)) :
    Counted (t.put tid index key) surplus := by
  unfold probes at hloop
  obtain ⟨i, hi, hbody, hbefore⟩ := (findSome?_range_some _ _ _).mp hloop
  obtain ⟨rfl, hempty⟩ := insertBody_eq_empty hbody
  exact put_counted h ht hk (by omega) (clear_of_insertBody hbefore) hempty

theorem sequentialInsert_counted {tid key : Nat} (ht : tid < MAX_THREADS) (hk : IsKey key) :
    ∀ (fuel : Nat) {t t' : Table} {surplus : Nat} {r : Bool}, Counted t surplus →
      sequentialInsert fuel t tid key = .ok (r, t') →
      ∃ surplus', Counted t' surplus' ∧ surplus ≤ surplus'
        ∧ ((probes t.capacity).findSome? (insertBody t key false) = some .expand → 0 < surplus')
        ∧ ((probes t.capacity).findSome? (insertBody t key false) ≠ some .expand →
            surplus' = surplus) := by
  intro fuel
  induction fuel with
  | zero =>
      intro t t' surplus r h hins
      unfold sequentialInsert at hins
      split at hins
      · exact absurd hins (by simp)
      · rename_i hloop
        obtain ⟨-, rfl⟩ : false = r ∧ t = t' := by simpa using hins
        exact ⟨surplus, h, le_refl _, by simp [hloop], fun _ => rfl⟩
      · rename_i index hloop
        obtain ⟨-, rfl⟩ : true = r ∧ _ = t' := by simpa using hins
        refine ⟨surplus, ?_, le_refl _, by simp [hloop], fun _ => rfl⟩
        exact insertLoop_empty_counted h ht hk hloop
      · unfold afterLoop at hins
        split at hins <;> exact absurd hins (by simp)
  | succ fuel ih =>
      intro t t' surplus r h hins
      unfold sequentialInsert at hins
      split at hins
      · -- ===== expand and start again =====
        rename_i hloop
        cases hexp : expand tid t with
        | error e =>
            rw [hexp] at hins
            exact absurd hins (by simp [Except.bind])
        | ok t₁ =>
            rw [hexp] at hins
            change sequentialInsert fuel t₁ tid key = .ok (r, t') at hins
            obtain ⟨h₁, -, hcap⟩ := expand_counted ht h hexp
            obtain ⟨surplus', hc, hle, -, -⟩ := ih h₁ hins
            refine ⟨surplus', hc, by omega, ?_, fun hno => absurd hloop hno⟩
            intro _
            -- an empty table has no bucket for the key: the insert would not have returned
            by_contra hzero
            have hcap0 : t₁.capacity = 0 := by omega
            cases fuel with
            | zero => simp [sequentialInsert, probes, hcap0, afterLoop] at hins
            | succ fuel => simp [sequentialInsert, probes, hcap0, afterLoop] at hins
      · rename_i hloop
        obtain ⟨-, rfl⟩ : false = r ∧ t = t' := by simpa using hins
        exact ⟨surplus, h, le_refl _, by simp [hloop], fun _ => rfl⟩
      · rename_i index hloop
        obtain ⟨-, rfl⟩ : true = r ∧ _ = t' := by simpa using hins
        refine ⟨surplus, ?_, le_refl _, by simp [hloop], fun _ => rfl⟩
        exact insertLoop_empty_counted h ht hk hloop
      · unfold afterLoop at hins
        split at hins <;> exact absurd hins (by simp)

/-- One call: the surplus never shrinks, it is positive after a call that
expands, and any other call leaves it as it is. -/
theorem perform_counted {t t' : Table} {fuel surplus : Nat} {call : Call} {r : Bool}
    (h : Counted t surplus) (hcall : perform fuel t call = .ok (r, t')) :
    ∃ surplus', Counted t' surplus' ∧ surplus ≤ surplus'
      ∧ (Expands t call → 0 < surplus') ∧ (¬ Expands t call → surplus' = surplus) := by
  unfold perform at hcall
  cases hop : call.op with
  | insertIfAbsent =>
      rw [hop] at hcall
      obtain ⟨surplus', hc, hle, hyes, hno⟩ :=
        sequentialInsert_counted call.tid_lt call.key.isKey fuel h hcall
      refine ⟨surplus', hc, hle, ?_, ?_⟩
      · intro hexp
        exact hyes (insertLoop_expand_iff.mpr hexp.2)
      · intro hexp
        apply hno
        intro hloop
        exact hexp ⟨hop, insertLoop_expand_iff.mp hloop⟩
  | erase =>
      rw [hop] at hcall
      refine ⟨surplus, sequentialErase_counted h call.tid_lt call.key.isKey hcall, le_refl _, ?_,
        fun _ => rfl⟩
      intro hexp
      exact absurd (hop ▸ hexp.1) (by simp)

/-- A step of the system is a call that returns. -/
theorem system_next {n c : Nat} {t t' : Table} {a : Nat × Call}
    (h : (system n c).next t a = some t') : ∃ r, perform a.1 t a.2 = .ok (r, t') := by
  cases hp : perform a.1 t a.2 with
  | error e => simp [system, hp, Except.toOption] at h
  | ok p =>
      obtain rfl : p.2 = t' := by simpa [system, hp, Except.toOption] using h
      exact ⟨p.1, rfl⟩

theorem exec_counted (n c : Nat) :
    ∀ (acts : List (Nat × Call)) {t t' : Table} {surplus : Nat}, Counted t surplus →
      (system n c).exec t acts = some t' →
      ∃ surplus', Counted t' surplus' ∧ surplus ≤ surplus'
        ∧ (surplus' = 0 ↔
            surplus = 0 ∧ (system n c).Along (fun t a => ¬ Expands t a.2) t acts) := by
  intro acts
  induction acts with
  | nil =>
      intro t t' surplus h hexec
      obtain rfl : t = t' := by simpa [Sys.exec] using hexec
      exact ⟨surplus, h, le_refl _, by simp [Sys.Along]⟩
  | cons a acts ih =>
      intro t t' surplus h hexec
      simp only [Sys.exec, Option.bind_eq_some_iff] at hexec
      obtain ⟨t₁, hnext, hrest⟩ := hexec
      obtain ⟨r, hcall⟩ := system_next hnext
      obtain ⟨surplus₁, h₁, hle₁, hyes, hno⟩ := perform_counted h hcall
      obtain ⟨surplus', h', hle', hiff⟩ := ih h₁ hrest
      refine ⟨surplus', h', by omega, ?_⟩
      rw [hiff]
      have halong : (system n c).Along (fun t a => ¬ Expands t a.2) t (a :: acts)
          ↔ ¬ Expands t a.2 ∧ (system n c).Along (fun t a => ¬ Expands t a.2) t₁ acts := by
        simp only [Sys.Along, hnext, Option.some.injEq, forall_eq']
      rw [halong]
      constructor
      · intro hzero
        have hnotexp : ¬ Expands t a.2 := by
          intro hexp
          have := hyes hexp
          omega
        have := hno hnotexp
        exact ⟨by omega, hnotexp, hzero.2⟩
      · intro hzero
        have := hno hzero.2.1
        exact ⟨by omega, hzero.2.2⟩

/-- **The size accounting is right exactly until the first expansion**: after
any calls, the accurate size is the number of live keys if and only if none of
them started an expansion. -/
theorem size_accounting (n c : Nat) (acts : List (Nat × Call)) (t : Table)
    (h : (system n c).exec (init n c) acts = some t) :
    t.getAccurateSize = liveCount t.data t.capacity ↔
      (system n c).Along (fun t a => ¬ Expands t a.2) (init n c) acts := by
  obtain ⟨surplus, hc, -, hiff⟩ := exec_counted n c acts (init_counted n c) h
  have hsize := hc.size
  constructor
  · intro heq
    exact (hiff.mp (by omega)).2
  · intro halong
    have hzero : surplus = 0 := hiff.mpr ⟨rfl, halong⟩
    rw [hsize, hzero, Nat.add_zero]

/-- Thread 0 inserts the keys `1 .. n`. -/
def insertsUpTo (n : Nat) : List (Nat × Call) :=
  (List.range n).filterMap fun k =>
    if h : k + 1 ≤ 0x7FFFFFFE then
      some (1, { op := .insertIfAbsent, tid := 0, key := ⟨k + 1, by omega, h⟩, tid_lt := maxThreads_pos })
    else none

set_option maxRecDepth 100000 in
/-- A table of 102 that is filled and expands. -/
theorem size_accounting_expanding :
    ((system 1 102).after (insertsUpTo 103)).capacity = 408
      ∧ (((system 1 102).after (insertsUpTo 103)).getAccurateSize
            = liveCount ((system 1 102).after (insertsUpTo 103)).data
                ((system 1 102).after (insertsUpTo 103)).capacity ↔
          (system 1 102).Along (fun t a => ¬ Expands t a.2) (init 1 102) (insertsUpTo 103)) := by
  have hexec : ((system 1 102).exec (init 1 102) (insertsUpTo 103)).isSome = true := by
    decide +kernel
  have hcap : ((system 1 102).after (insertsUpTo 103)).capacity = 408 := by decide +kernel
  exact ⟨hcap, size_accounting 1 102 _ _ ((system 1 102).exec_eq_after _ hexec)⟩

set_option maxRecDepth 100000 in
/-- The 103rd insert into a table of 102 finds the table full and expands it:
103 keys are then counted as 205. -/
theorem size_accounting_doubled :
    ∃ t, (system 1 102).exec (init 1 102) (insertsUpTo 103) = some t
      ∧ liveCount t.data t.capacity = 103 ∧ t.getAccurateSize = 205
      ∧ t.getAccurateSize ≠ liveCount t.data t.capacity := by
  have hrun : ((system 1 102).exec (init 1 102) (insertsUpTo 103)).map
      (fun t => (liveCount t.data t.capacity, t.getAccurateSize)) = some (103, 205) := by
    decide +kernel
  obtain ⟨t, hexec, hcounts⟩ := Option.map_eq_some_iff.mp hrun
  rw [Prod.mk.injEq] at hcounts
  obtain ⟨hlive, hsize⟩ := hcounts
  refine ⟨t, hexec, hlive, hsize, ?_⟩
  rw [hlive, hsize]
  decide

end MultiCore.TLEHashTable
