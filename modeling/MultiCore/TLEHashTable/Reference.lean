/-
  MultiCore.TLEHashTable.Reference — the calls that return agree with a set.

  The reference is a finite set of keys that an insert adds to and an erase
  removes from.  The table agrees with it call by call: the keys in the
  buckets are the reference set, and each result is the one the set gives
  (`perform_agrees`).  An expansion moves every key (`expand_keys`): what the
  new table holds comes from the old one, and it holds equally many.  The
  insert that expanded starts again on a table whose counters do not ask for
  another expansion (`expand_settled`), so a call expands at most once.

  Which calls return is the subject of `Completion` and `OneExpansion`.
-/
import MultiCore.TLEHashTable.Accounting

namespace MultiCore.TLEHashTable

open MultiCore.Lib MultiCore.Util

/-! ## §1. The reference set. -/

/-- The result of a call on a set of keys. -/
def refResult (call : Call) (S : Finset Nat) : Bool :=
  match call.op with
  | .insertIfAbsent => decide (call.key.val ∉ S)
  | .erase => decide (call.key.val ∈ S)

/-- The set after a call. -/
def refStep (S : Finset Nat) (call : Call) : Finset Nat :=
  match call.op with
  | .insertIfAbsent => insert call.key.val S
  | .erase => S.erase call.key.val

/-- The set after a sequence of calls. -/
def refSet (calls : List Call) : Finset Nat := calls.foldl refStep ∅

/-- The keys in the table. -/
def Table.keys (t : Table) : Finset Nat := keySet t.data t.capacity

theorem getSumOfKeys_eq {t : Table} {surplus : Nat} (h : Counted t surplus) :
    t.getSumOfKeys = ∑ k ∈ t.keys, k :=
  sum_keySet h.placed

/-! ## §2. An expansion keeps the keys. -/

theorem Moving.keys_subset {t s : Table} {i : Nat} (h : Moving t i s) (hi : i ≤ t.capacity) :
    s.keys ⊆ t.keys := by
  intro v hv
  obtain ⟨hk, x, hx, rfl⟩ := mem_keySet.mp hv
  obtain ⟨j, hj, hjx⟩ := h.source x hx hk
  exact mem_keySet.mpr ⟨hk, j, by omega, hjx⟩

/-- **Every expansion leaves the set as it is**: the keys of the new table are
keys of the old one, and there are as many. -/
theorem expand_keys {t t' : Table} {surplus tid : Nat} (ht : tid < MAX_THREADS)
    (h : Counted t surplus) (hexp : expand tid t = .ok t') : t'.keys = t.keys := by
  obtain ⟨hcounted, hlive, -⟩ := expand_counted ht h hexp
  obtain ⟨moved, hmoving, rfl⟩ := expand_moving ht h hexp
  apply Finset.eq_of_subset_of_card_le
  · exact hmoving.keys_subset (le_refl _)
  · unfold Table.keys
    rw [card_keySet h.placed, card_keySet hcounted.placed, hlive]

/-- **An expansion leaves room**: the new table does not ask to be expanded, at
any probe. -/
theorem expand_settled {t t' : Table} {surplus tid : Nat} (ht : tid < MAX_THREADS)
    (h : Counted t surplus) (hexp : expand tid t = .ok t') (i : Nat) :
    t'.isExpandNeeded i = false := by
  obtain ⟨hcounted, hlive, hcap⟩ := expand_counted ht h hexp
  obtain ⟨moved, hmoving, rfl⟩ := expand_moving ht h hexp
  have hsize := hcounted.size
  rw [getAccurateSize_eq] at hsize
  change (moved.approxInserts.set moved.getAccurateSize).getAccurate
    - (moved.approxDeletes.set 0).getAccurate = _ at hsize
  rw [Counter.getAccurate_set, Counter.getAccurate_set, sub_zero, hlive] at hsize
  -- the inserts are `2 * live + surplus`, the capacity is `4 * (live + surplus)`
  unfold Table.isExpandNeeded
  show (decide ((moved.approxInserts.set moved.getAccurateSize).get > _)
    || (decide (i > 100)
      && decide ((moved.approxInserts.set moved.getAccurateSize).getAccurate > _))) = false
  rw [Counter.get_set, Counter.getAccurate_set, hsize, hcap, Bool.or_eq_false_iff,
    decide_eq_false_iff_not, Bool.and_eq_false_iff, decide_eq_false_iff_not]
  refine ⟨?_, Or.inr (decide_eq_false ?_)⟩
  · omega
  · omega

theorem expand_loop_settled {t t' : Table} {surplus tid : Nat} (key : Nat)
    (ht : tid < MAX_THREADS) (h : Counted t surplus) (hexp : expand tid t = .ok t') :
    (probes t'.capacity).findSome? (insertBody t' key false) ≠ some .expand := by
  intro hloop
  obtain ⟨i, -, -, hneed⟩ := insertLoop_expand_iff.mp hloop
  rw [expand_settled ht h hexp i] at hneed
  exact absurd hneed (by simp)

/-! ## §3. One call. -/

theorem insertLoop_found {t : Table} {key : Nat} {disable : Bool} (hk : IsKey key)
    (hloop : (probes t.capacity).findSome? (insertBody t key disable) = some .found) :
    key ∈ t.keys := by
  unfold probes at hloop
  obtain ⟨i, hi, hbody, -⟩ := (findSome?_range_some _ _ _).mp hloop
  exact mem_keySet.mpr ⟨hk, _, path_lt (by omega), insertBody_eq_found hbody⟩

/-- The first empty bucket of the path shows that the key is absent, and the
write there adds it. -/
theorem insertLoop_empty {t : Table} {surplus key index : Nat} {disable : Bool} (tid : Nat)
    (h : Counted t surplus) (hk : IsKey key)
    (hloop : (probes t.capacity).findSome? (insertBody t key disable) = some (.empty index)) :
    key ∉ t.keys ∧ (t.put tid index key).keys = insert key t.keys := by
  unfold probes at hloop
  obtain ⟨i, hi, hbody, hbefore⟩ := (findSome?_range_some _ _ _).mp hloop
  obtain ⟨rfl, hempty⟩ := insertBody_eq_empty hbody
  have habsent := h.placed.absent hk hk.1 (clear_of_insertBody hbefore) (fun _ => hempty)
  constructor
  · intro hmem
    obtain ⟨-, x, hx, hxk⟩ := mem_keySet.mp hmem
    exact habsent x hx hxk
  · exact keySet_put hk (path_lt (by omega)) hempty

theorem sequentialInsert_agrees {tid key : Nat} (ht : tid < MAX_THREADS) (hk : IsKey key) :
    ∀ (fuel : Nat) {t t' : Table} {surplus : Nat} {r : Bool}, Counted t surplus →
      sequentialInsert fuel t tid key = .ok (r, t') →
      r = decide (key ∉ t.keys) ∧ t'.keys = insert key t.keys := by
  intro fuel
  induction fuel with
  | zero =>
      intro t t' surplus r h hins
      unfold sequentialInsert at hins
      split at hins
      · exact absurd hins (by simp)
      · rename_i hloop
        obtain ⟨rfl, rfl⟩ : false = r ∧ t = t' := by simpa using hins
        have hmem := insertLoop_found hk hloop
        exact ⟨by simp [hmem], (Finset.insert_eq_of_mem hmem).symm⟩
      · rename_i index hloop
        obtain ⟨rfl, rfl⟩ : true = r ∧ _ = t' := by simpa using hins
        obtain ⟨hnot, hkeys⟩ := insertLoop_empty tid h hk hloop
        exact ⟨by simp [hnot], hkeys⟩
      · unfold afterLoop at hins
        split at hins <;> exact absurd hins (by simp)
  | succ fuel ih =>
      intro t t' surplus r h hins
      unfold sequentialInsert at hins
      split at hins
      · -- ===== expand and start again: on the same keys =====
        cases hexp : expand tid t with
        | error e =>
            rw [hexp] at hins
            exact absurd hins (by simp [Except.bind])
        | ok t₁ =>
            rw [hexp] at hins
            change sequentialInsert fuel t₁ tid key = .ok (r, t') at hins
            obtain ⟨h₁, -, -⟩ := expand_counted ht h hexp
            have hagree := ih h₁ hins
            rw [expand_keys ht h hexp] at hagree
            exact hagree
      · rename_i hloop
        obtain ⟨rfl, rfl⟩ : false = r ∧ t = t' := by simpa using hins
        have hmem := insertLoop_found hk hloop
        exact ⟨by simp [hmem], (Finset.insert_eq_of_mem hmem).symm⟩
      · rename_i index hloop
        obtain ⟨rfl, rfl⟩ : true = r ∧ _ = t' := by simpa using hins
        obtain ⟨hnot, hkeys⟩ := insertLoop_empty tid h hk hloop
        exact ⟨by simp [hnot], hkeys⟩
      · unfold afterLoop at hins
        split at hins <;> exact absurd hins (by simp)

theorem eraseBody_eq_none {t : Table} {key i : Nat} :
    eraseBody t key i = none ↔
      t.data (path t.capacity key i) ≠ EMPTY ∧ t.data (path t.capacity key i) ≠ key := by
  unfold eraseBody
  simp only
  split_ifs with h₁ h₂
  · simp [h₁]
  · simp [h₂]
  · simp [h₁, h₂]

/-- An erase that meets an empty bucket, or the end of its probe, has shown the
key absent. -/
theorem erase_absent {t : Table} {surplus key i : Nat} (h : Counted t surplus) (hk : IsKey key)
    (hbefore : ∀ j < i, eraseBody t key j = none)
    (hend : i < t.capacity → t.data (path t.capacity key i) = EMPTY) : key ∉ t.keys := by
  intro hmem
  obtain ⟨-, x, hx, hxk⟩ := mem_keySet.mp hmem
  have hclear : Clear t.data EMPTY key (path t.capacity key) i :=
    fun j hj => eraseBody_eq_none.mp (hbefore j hj)
  exact h.placed.absent hk hk.1 hclear hend x hx hxk

theorem sequentialErase_agrees {t t' : Table} {surplus tid key : Nat} {r : Bool}
    (h : Counted t surplus) (hk : IsKey key) (herase : sequentialErase t tid key = .ok (r, t')) :
    r = decide (key ∈ t.keys) ∧ t'.keys = t.keys.erase key := by
  unfold sequentialErase at herase
  split at herase
  · -- ===== the key is found =====
    rename_i index hloop
    obtain ⟨rfl, rfl⟩ : true = r ∧ _ = t' := by simpa using herase
    unfold probes at hloop
    obtain ⟨i, hi, hbody, -⟩ := (findSome?_range_some _ _ _).mp hloop
    unfold eraseBody at hbody
    simp only at hbody
    split_ifs at hbody with h₁ h₂
    · exact absurd hbody (by simp)
    · obtain rfl : path t.capacity key i = index := by simpa using hbody
      have hlt : path t.capacity key i < t.capacity := path_lt (by omega)
      have hmem : key ∈ t.keys := mem_keySet.mpr ⟨hk, _, hlt, h₂⟩
      refine ⟨by simp [hmem], ?_⟩
      show keySet (Function.update t.data (path t.capacity key i) TOMBSTONE) t.capacity = _
      rw [keySet_erase h.placed hlt, h₂]
      rfl
  · -- ===== an empty bucket =====
    rename_i hloop
    obtain ⟨rfl, rfl⟩ : false = r ∧ t = t' := by simpa using herase
    unfold probes at hloop
    obtain ⟨i, hi, hbody, hbefore⟩ := (findSome?_range_some _ _ _).mp hloop
    unfold eraseBody at hbody
    simp only at hbody
    split_ifs at hbody with h₁ h₂
    · have hnot := erase_absent h hk hbefore (fun _ => h₁)
      exact ⟨by simp [hnot], (Finset.erase_eq_of_notMem hnot).symm⟩
    · exact absurd hbody (by simp)
  · -- ===== the end of the probe =====
    rename_i hloop
    unfold afterLoop at herase
    split at herase
    · rename_i hcap
      obtain ⟨rfl, rfl⟩ : false = r ∧ t = t' := by simpa using herase
      unfold probes at hloop
      have hbefore := (findSome?_range_none _ _).mp hloop
      have hnot : key ∉ t.keys :=
        erase_absent h hk hbefore (fun hlt => absurd hlt (by omega))
      exact ⟨by simp [hnot], (Finset.erase_eq_of_notMem hnot).symm⟩
    · exact absurd herase (by simp)

/-- **One call agrees with the reference set**: the result is the one the keys
of the table give, and the keys change as the set does. -/
theorem perform_agrees {t t' : Table} {fuel surplus : Nat} {call : Call} {r : Bool}
    (h : Counted t surplus) (hcall : perform fuel t call = .ok (r, t')) :
    r = refResult call t.keys ∧ t'.keys = refStep t.keys call := by
  unfold perform at hcall
  unfold refResult refStep
  cases hop : call.op with
  | insertIfAbsent =>
      rw [hop] at hcall
      exact sequentialInsert_agrees call.tid_lt call.key.isKey fuel h hcall
  | erase =>
      rw [hop] at hcall
      exact sequentialErase_agrees h call.key.isKey hcall

/-! ## §4. Any sequence of calls. -/

theorem exec_agrees (n c : Nat) :
    ∀ (acts : List (Nat × Call)) {t t' : Table} {surplus : Nat}, Counted t surplus →
      (system n c).exec t acts = some t' →
      t'.keys = (acts.map Prod.snd).foldl refStep t.keys ∧ ∃ surplus', Counted t' surplus' := by
  intro acts
  induction acts with
  | nil =>
      intro t t' surplus h hexec
      obtain rfl : t = t' := by simpa [Sys.exec] using hexec
      exact ⟨rfl, surplus, h⟩
  | cons a acts ih =>
      intro t t' surplus h hexec
      simp only [Sys.exec, Option.bind_eq_some_iff] at hexec
      obtain ⟨t₁, hnext, hrest⟩ := hexec
      obtain ⟨r, hcall⟩ := system_next hnext
      obtain ⟨surplus₁, h₁, -⟩ := perform_counted h hcall
      have hkeys := (perform_agrees h hcall).2
      have hrec := ih h₁ hrest
      rw [hkeys] at hrec
      exact hrec

end MultiCore.TLEHashTable
