/-
  MultiCore.TLEHashTable.Completion — when the expanding table gets stuck.

  Two defects make an insert of an absent key fail.  An expansion sizes the new
  table by the accurate size alone, so it allocates nothing when every key has
  been erased; and a small table fills up without an expansion, because the
  counter lags and 100 probes never happen.  Neither test is made where it
  would help, and the insert runs into `assert(false)`.

  `Safe` is the condition on the table before a call that rules both out, and
  `never_stuck_iff` shows it exact: an expansion that moves at least one key
  always has room, since the new capacity is at least four times what it moves.
-/
import MultiCore.TLEHashTable.Reference

namespace MultiCore.TLEHashTable

open MultiCore.Lib MultiCore.Util

/-! ## §1. The property and the condition. -/

/-- The call does not get stuck: an insert returns, with `true` if the key is
absent, and the expansion it makes, if any, allocates room for the keys. -/
def Unstuck (t : Table) (call : Call) : Prop :=
  call.op = .insertIfAbsent →
    (∃ r t', (∀ fuel, perform (fuel + 1) t call = .ok (r, t'))
      ∧ (call.key.val ∉ t.keys → r = true))
      ∧ (Expands t call → ∃ t', expand call.tid t = .ok t'
          ∧ 0 < t'.capacity ∧ liveCount t.data t.capacity ≤ t'.capacity)

/-- What an insert needs of the table it starts from: if it expands, a positive
size and a capacity within `int`; if not, an empty bucket or the key on its
probe path. -/
def Safe (t : Table) (call : Call) : Prop :=
  call.op = .insertIfAbsent →
    (Expands t call → 0 < t.getAccurateSize ∧ t.capacity < 2 ^ 31)
      ∧ (¬ Expands t call → ∃ i < min t.capacity (2 ^ 32),
          t.data (path t.capacity call.key.val i) = EMPTY
            ∨ t.data (path t.capacity call.key.val i) = call.key.val)

/-! ## §2. An expansion of a table with a positive size. -/

/-- No bucket of a table under expansion is a tombstone. -/
def Clean (t : Table) : Prop := usedCount t.data t.capacity = liveCount t.data t.capacity

theorem Clean.fresh (t : Table) : Clean (fresh t) := by
  show bucketCount _ (fun _ => EMPTY) _ = bucketCount _ (fun _ => EMPTY) _
  rw [bucketCount_blank (fun h => h rfl), bucketCount_blank not_isKey_empty]

theorem Clean.put {t : Table} {tid key index : Nat} (h : Clean t) (hk : IsKey key)
    (hx : index < t.capacity) (hempty : t.data index = EMPTY) : Clean (t.put tid index key) := by
  show usedCount (Function.update t.data index key) t.capacity
    = liveCount (Function.update t.data index key) t.capacity
  rw [usedCount_put hk hx hempty, liveCount_put hk hx hempty]
  exact congrArg (· + 1) h

/-- A sparse table shows an empty bucket to the probe of any key. -/
theorem exists_empty {t : Table} (key : Nat)
    (hfew : 2 * usedCount t.data t.capacity < t.capacity)
    (hcount : usedCount t.data t.capacity < 2 ^ 32) :
    ∃ i < min t.capacity (2 ^ 32), t.data (path t.capacity key i) = EMPTY := by
  obtain ⟨i, hi, hnot⟩ := exists_probe_not_below (b := t.data) (hash_lt key) hfew hcount
  exact ⟨i, hi, not_not.mp hnot⟩

/-- While keys are moved the new table is sparse: it is four times as large as
all the keys to come. -/
theorem Moving.exists_empty {t s : Table} {surplus i : Nat} (hc : Counted t surplus)
    (hpos : 0 < t.getAccurateSize) (hcap : t.capacity < 2 ^ 31) (h : Moving t i s)
    (hi : i ≤ t.capacity) (hclean : Clean s) (key : Nat) :
    ∃ i < min s.capacity (2 ^ 32), s.data (path s.capacity key i) = EMPTY := by
  have hsize := hc.size
  have hlive : liveCount t.data i ≤ liveCount t.data t.capacity := bucketCount_mono _ _ hi
  have hle : liveCount t.data t.capacity ≤ t.capacity := bucketCount_le _ _ _
  have hused : usedCount s.data s.capacity = liveCount t.data i := hclean.trans h.live
  have hscap := h.capacity
  apply MultiCore.TLEHashTable.exists_empty key
  · omega
  · omega

/-- A probe that comes to an empty bucket ends there or before. -/
theorem insertLoop_ends {t : Table} {key : Nat} (disable : Bool)
    (h : ∃ i < min t.capacity (2 ^ 32),
      t.data (path t.capacity key i) = EMPTY ∨ t.data (path t.capacity key i) = key) :
    (probes t.capacity).findSome? (insertBody t key disable) ≠ none := by
  intro hnone
  obtain ⟨i, hi, hend⟩ := h
  unfold probes at hnone
  have hbody := insertBody_eq_none.mp ((findSome?_range_none _ _).mp hnone i hi)
  rcases hend with hend | hend
  · exact hbody.2.1 hend
  · exact hbody.2.2 hend

theorem expandBody_ok {t s : Table} {surplus tid i : Nat} (ht : tid < MAX_THREADS)
    (hc : Counted t surplus) (hpos : 0 < t.getAccurateSize) (hcap : t.capacity < 2 ^ 31)
    (hi : i < t.capacity) (h : Moving t i s) (hclean : Clean s) :
    ∃ s', expandBody tid s i = .ok s' ∧ Moving t (i + 1) s' ∧ Clean s' := by
  have hends : ∃ s', expandBody tid s i = .ok s' ∧ Clean s' := by
    unfold expandBody
    simp only
    split
    · rename_i hkey
      have hk : IsKey (s.old i) := ⟨hkey.2, hkey.1⟩
      obtain ⟨j, hj, hempty⟩ := h.exists_empty hc hpos hcap hi.le hclean (s.old i)
      have hsome : _ ≠ none := insertLoop_ends true ⟨j, hj, Or.inl hempty⟩
      unfold sequentialReinsert
      split
      · rename_i index hloop
        refine ⟨_, rfl, ?_⟩
        unfold probes at hloop
        obtain ⟨i', hi', hbody, -⟩ := (findSome?_range_some _ _ _).mp hloop
        obtain ⟨rfl, hempty'⟩ := insertBody_eq_empty hbody
        exact hclean.put hk (path_lt (by omega)) hempty'
      · exact ⟨_, rfl, hclean⟩
      · rename_i hloop
        exact absurd hloop hsome
    · exact ⟨s, rfl, hclean⟩
  obtain ⟨s', hbody, hclean'⟩ := hends
  exact ⟨s', hbody, expandBody_moving ht hc.placed hi h hbody, hclean'⟩

/-- **An expansion of a table with a positive size succeeds**, in a new table
that shows an empty bucket to every probe. -/
theorem expand_ok {t : Table} {surplus tid : Nat} (ht : tid < MAX_THREADS)
    (hc : Counted t surplus) (hpos : 0 < t.getAccurateSize) (hcap : t.capacity < 2 ^ 31) :
    ∃ t', expand tid t = .ok t' ∧ ∀ key, ∃ i < min t'.capacity (2 ^ 32),
      t'.data (path t'.capacity key i) = EMPTY := by
  obtain ⟨moved, hloop, hmoving, hclean⟩ :=
    foldlM_range_ok (fun i s => Moving t i s ∧ Clean s) t.capacity
      (fun i hi s hs => expandBody_ok ht hc hpos hcap hi hs.1 hs.2)
      ⟨fresh_moving t, Clean.fresh t⟩
  refine ⟨{ moved with
    approxInserts := moved.approxInserts.set moved.getAccurateSize
    approxDeletes := moved.approxDeletes.set 0 }, ?_, ?_⟩
  · rw [fresh] at hloop
    unfold expand
    simp only
    rw [if_neg (by omega), if_neg (by omega), hloop]
    rfl
  · intro key
    exact hmoving.exists_empty hc hpos hcap (le_refl _) hclean key

/-! ## §3. One insert. -/

/-- An insert that does not expand and whose probe ends has a result. -/
theorem insert_still {t : Table} {key : Nat} (tid : Nat)
    (hstill : (probes t.capacity).findSome? (insertBody t key false) ≠ some .expand)
    (hends : (probes t.capacity).findSome? (insertBody t key false) ≠ none) :
    ∃ r t', ∀ fuel, sequentialInsert fuel t tid key = .ok (r, t') := by
  cases hloop : (probes t.capacity).findSome? (insertBody t key false) with
  | none => exact absurd hloop hends
  | some e =>
      cases e with
      | expand => exact absurd hloop hstill
      | found =>
          refine ⟨false, t, ?_⟩
          intro fuel
          unfold sequentialInsert
          rw [hloop]
      | empty index =>
          refine ⟨true, t.put tid index key, ?_⟩
          intro fuel
          unfold sequentialInsert
          rw [hloop]

/-- A safe insert returns. -/
theorem insert_safe {t : Table} {surplus : Nat} (hc : Counted t surplus) {call : Call}
    (hop : call.op = .insertIfAbsent) (hsafe : Safe t call) :
    ∃ r t', ∀ fuel, perform (fuel + 1) t call = .ok (r, t') := by
  obtain ⟨hyes, hno⟩ := hsafe hop
  have hperform : ∀ fuel,
      perform (fuel + 1) t call = sequentialInsert (fuel + 1) t call.tid call.key.val := by
    intro fuel
    unfold perform
    rw [hop]
  by_cases hexp : Expands t call
  · -- ===== expand, then insert into the new table =====
    obtain ⟨hpos, hcap⟩ := hyes hexp
    obtain ⟨t₁, hok, hempty⟩ := expand_ok call.tid_lt hc hpos hcap
    obtain ⟨i, hi, hbucket⟩ := hempty call.key.val
    obtain ⟨r, t', hins⟩ := insert_still call.tid
      (expand_loop_settled call.key.val call.tid_lt hc hok)
      (insertLoop_ends false ⟨i, hi, Or.inl hbucket⟩)
    refine ⟨r, t', ?_⟩
    intro fuel
    rw [hperform]
    unfold sequentialInsert
    rw [insertLoop_expand_iff.mpr hexp.2]
    show (expand call.tid t).bind _ = _
    rw [hok]
    exact hins fuel
  · have hstill : (probes t.capacity).findSome? (insertBody t call.key.val false)
        ≠ some .expand := fun hloop => hexp ⟨hop, insertLoop_expand_iff.mp hloop⟩
    obtain ⟨r, t', hins⟩ := insert_still call.tid hstill (insertLoop_ends false (hno hexp))
    refine ⟨r, t', ?_⟩
    intro fuel
    rw [hperform]
    exact hins (fuel + 1)

/-- **The condition is exact for one call.** -/
theorem unstuck_iff_safe {t : Table} {surplus : Nat} (hc : Counted t surplus) (call : Call) :
    Unstuck t call ↔ Safe t call := by
  have hsize := hc.size
  constructor
  · intro hun hop
    obtain ⟨⟨r, t', hret, -⟩, hexpand⟩ := hun hop
    constructor
    · intro hexp
      obtain ⟨t₁, hok, hcap, -⟩ := hexpand hexp
      obtain ⟨-, -, hcap₁⟩ := expand_counted call.tid_lt hc hok
      constructor
      · omega
      · -- the `int` loop index would have overflowed
        by_contra hbig
        unfold expand at hok
        simp only at hok
        rw [if_neg (by omega), if_pos (by omega)] at hok
        exact absurd hok (by simp)
    · intro hexp
      by_contra hfull
      push Not at hfull
      have hloop : (probes t.capacity).findSome? (insertBody t call.key.val false) = none := by
        unfold probes
        rw [findSome?_range_none]
        intro i
        induction i using Nat.strong_induction_on with
        | _ i ih =>
            intro hi
            -- no test has asked for an expansion, or the call would expand
            have hclear : Clear t.data EMPTY call.key.val (path t.capacity call.key.val) i :=
              fun j hj => hfull j (hj.trans hi)
            refine insertBody_eq_none.mpr ⟨fun _ => ?_, hfull i hi⟩
            by_contra hneed
            exact hexp ⟨hop, i, hi, hclear, by simpa using hneed⟩
      have hstuck := hret 0
      unfold perform sequentialInsert afterLoop at hstuck
      rw [hop] at hstuck
      simp only [hloop] at hstuck
      split at hstuck
      · exact absurd hstuck (by simp)
      · exact absurd hstuck (by simp)
  · intro hsafe hop
    obtain ⟨r, t', hret⟩ := insert_safe hc hop hsafe
    refine ⟨⟨r, t', hret, ?_⟩, ?_⟩
    · intro habsent
      obtain ⟨hr, -⟩ := perform_agrees hc (hret 0)
      rw [hr]
      unfold refResult
      rw [hop]
      exact decide_eq_true habsent
    · intro hexp
      obtain ⟨hpos, hcap⟩ := (hsafe hop).1 hexp
      obtain ⟨t₁, hok, -⟩ := expand_ok call.tid_lt hc hpos hcap
      obtain ⟨-, -, hcap₁⟩ := expand_counted call.tid_lt hc hok
      refine ⟨t₁, hok, ?_, ?_⟩
      · omega
      · omega

/-! ## §4. Any sequence of calls. -/

theorem along_unstuck_iff (n c : Nat) :
    ∀ (acts : List (Nat × Call)) {t : Table} {surplus : Nat}, Counted t surplus →
      ((system n c).Along (fun t a => Unstuck t a.2) t acts
        ↔ (system n c).Along (fun t a => Safe t a.2) t acts) := by
  intro acts
  induction acts with
  | nil => intro t surplus hc; exact Iff.rfl
  | cons a acts ih =>
      intro t surplus hc
      unfold Sys.Along
      refine and_congr (unstuck_iff_safe hc a.2) ?_
      apply forall_congr'
      intro t'
      apply forall_congr'
      intro hnext
      obtain ⟨r, hcall⟩ := system_next hnext
      obtain ⟨surplus', hc', -⟩ := perform_counted hc hcall
      exact ih hc'

/-- **When the expanding table does not get stuck**: in a sequence of calls
every insert returns, with `true` if the key is absent, and every expansion
makes room, exactly when every insert finds the table `Safe`. -/
theorem never_stuck_iff (n c : Nat) (acts : List (Nat × Call)) :
    (system n c).Along (fun t a => Unstuck t a.2) (init n c) acts
      ↔ (system n c).Along (fun t a => Safe t a.2) (init n c) acts :=
  along_unstuck_iff n c acts (init_counted n c)

/-- Thread 0 inserts `k`, with one unit of fuel. -/
def insertCall (k : Nat) (h₁ : 1 ≤ k) (h₂ : k ≤ 0x7FFFFFFE) : Nat × Call :=
  (1, { op := .insertIfAbsent, tid := 0, key := ⟨k, h₁, h₂⟩, tid_lt := maxThreads_pos })

/-- A table of one bucket is full after one insert, and the second insert
reaches `assert(false)`. -/
theorem never_stuck_fails :
    ¬ (system 1 1).Along (fun t a => Unstuck t a.2) (init 1 1)
      [insertCall 1 (by decide) (by decide), insertCall 2 (by decide) (by decide)] := by
  set first := insertCall 1 (by decide) (by decide)
  set second := insertCall 2 (by decide) (by decide)
  intro h
  have hfirst : ((system 1 1).next (init 1 1) first).isSome = true := by decide +kernel
  obtain ⟨t, hnext⟩ := Option.isSome_iff_exists.mp hfirst
  have hstuck : (((system 1 1).next (init 1 1) first).bind
      fun t => (perform 1 t second.2).toOption).isNone = true := by decide +kernel
  rw [hnext, Option.bind_some] at hstuck
  obtain ⟨⟨r, t', hret, -⟩, -⟩ := (h.2 t hnext).1 rfl
  rw [hret 0] at hstuck
  exact absurd hstuck (by simp [Except.toOption])

end MultiCore.TLEHashTable
