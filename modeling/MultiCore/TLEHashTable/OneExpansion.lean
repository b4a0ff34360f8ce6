/-
  MultiCore.TLEHashTable.OneExpansion — an insert expands the table at most
  once, and when it ends.

  After an expansion that found `size` keys by the counters, the insert counter
  is at most `2 * size` and the capacity is `4 * size`: the counter may land on
  the threshold, and is not above it (`expand_settled`).  So one restart is
  enough.  The loops are another matter: `capacity` is an `int64_t`, the probe
  index a `uint32_t` and the index of `expand` an `int`, and a loop whose index
  cannot reach the capacity does not end.
-/
import MultiCore.TLEHashTable.Completion
import MultiCore.AlgorithmD.OneExpansion

namespace MultiCore.TLEHashTable

open MultiCore.Lib MultiCore.Util

/-! ## §1. The property and the condition. -/

/-- The insert expands at most once, as long as no assertion fails: the new
table does not ask for an expansion at any probe, more restarts than one make no
difference, and the call ends. -/
structure OneExpansion (t : Table) (call : Call) : Prop where
  settled : ∀ t', expand call.tid t = .ok t' → ∀ i, t'.isExpandNeeded i = false
  once : ∀ fuel, perform (fuel + 1) t call = perform 1 t call
  ends : (∃ r t', perform 1 t call = .ok (r, t')) ∨ perform 1 t call = .error .assertFalse

/-- The loops of the insert get to their ends: it expands no table whose
capacity is beyond `int`, and it does not probe a table whose capacity is beyond
`uint32_t` without coming to an empty bucket or to the key. -/
structure LoopsEnd (t : Table) (call : Call) : Prop where
  expands : Expands t call → t.capacity < 2 ^ 31
  probes : ¬ Expands t call → t.capacity < 2 ^ 32 ∨ ∃ i < 2 ^ 32,
    t.data (path t.capacity call.key.val i) = EMPTY
      ∨ t.data (path t.capacity call.key.val i) = call.key.val

/-! ## §2. One insert. -/

section Insert

variable {t t' : Table} {surplus tid : Nat} {call : Call}

/-- An expansion of a table of size zero allocates nothing. -/
theorem expand_empty (ht : tid < MAX_THREADS) (hc : Counted t surplus) (hzero : t.getAccurateSize = 0)
    (hcap : t.capacity < 2 ^ 31) : ∃ t', expand tid t = .ok t' ∧ t'.capacity = 0 := by
  have hsize := hc.size
  have hnone : ∀ i < t.capacity, ¬ IsKey (t.data i) := by
    intro i hi hk
    have hpos : 0 < liveCount t.data t.capacity := bucketCount_pos_iff.mpr ⟨i, hi, hk⟩
    omega
  obtain ⟨moved, hloop, -⟩ := foldlM_range_ok (f := expandBody tid) (fun i s => Moving t i s)
    t.capacity
    (by
      intro i hi s hs
      have hbody : expandBody tid s i = .ok s := by
        unfold expandBody
        simp only [hs.old]
        rw [if_neg]
        exact fun hkey => hnone i hi ⟨hkey.2, hkey.1⟩
      exact ⟨s, hbody, expandBody_moving ht hc.placed hi hs hbody⟩)
    (fresh_moving t)
  have hok : expand tid t = .ok { moved with
      approxInserts := moved.approxInserts.set moved.getAccurateSize
      approxDeletes := moved.approxDeletes.set 0 } := by
    rw [fresh] at hloop
    unfold expand
    simp only
    rw [if_neg (by omega), if_neg (by omega), hloop]
    rfl
  refine ⟨_, hok, ?_⟩
  obtain ⟨-, -, hcap'⟩ := expand_counted ht hc hok
  omega

/-- An insert that does not expand has the same end with any fuel. -/
theorem insert_ends {key : Nat} (tid : Nat)
    (hstill : (probes t.capacity).findSome? (insertBody t key false) ≠ some .expand) :
    (∃ r t', ∀ fuel, sequentialInsert fuel t tid key = .ok (r, t'))
      ∨ (probes t.capacity).findSome? (insertBody t key false) = none
        ∧ ∀ fuel, sequentialInsert fuel t tid key = afterLoop t.capacity (.error .assertFalse) := by
  by_cases hends : (probes t.capacity).findSome? (insertBody t key false) = none
  · refine Or.inr ⟨hends, fun fuel => ?_⟩
    unfold sequentialInsert
    rw [hends]
  · exact Or.inl (insert_still tid hstill hends)

/-- How an insert ends whose loops do. -/
theorem insert_once (hc : Counted t surplus) (hop : call.op = .insertIfAbsent)
    (hl : LoopsEnd t call) :
    (∃ r t', ∀ fuel, perform (fuel + 1) t call = .ok (r, t'))
      ∨ ∀ fuel, perform (fuel + 1) t call = .error .assertFalse := by
  have hperform : ∀ fuel,
      perform (fuel + 1) t call = sequentialInsert (fuel + 1) t call.tid call.key.val := by
    intro fuel
    unfold perform
    rw [hop]
  by_cases hexp : Expands t call
  · have hcap := hl.expands hexp
    have hrestart : ∀ fuel, perform (fuel + 1) t call
        = (expand call.tid t).bind fun t' => sequentialInsert fuel t' call.tid call.key.val := by
      intro fuel
      rw [hperform]
      conv_lhs => unfold sequentialInsert
      rw [insertLoop_expand_iff.mpr hexp.2]
    have hsize := hc.size
    rcases (by omega : t.getAccurateSize = 0 ∨ 0 < t.getAccurateSize) with hzero | hpos
    · -- the new table has no bucket
      obtain ⟨t₁, hok, hcap₁⟩ := expand_empty call.tid_lt hc hzero hcap
      right
      intro fuel
      rw [hrestart, hok]
      show sequentialInsert fuel t₁ call.tid call.key.val = _
      unfold sequentialInsert
      simp [probes, hcap₁, afterLoop]
    · obtain ⟨t₁, hok, hempty⟩ := expand_ok call.tid_lt hc hpos hcap
      obtain ⟨i, hi, hbucket⟩ := hempty call.key.val
      obtain ⟨r, t', hins⟩ := insert_still call.tid
        (expand_loop_settled call.key.val call.tid_lt hc hok)
        (insertLoop_ends false ⟨i, hi, Or.inl hbucket⟩)
      refine Or.inl ⟨r, t', fun fuel => ?_⟩
      rw [hrestart, hok]
      exact hins fuel
  · have hstill : (probes t.capacity).findSome? (insertBody t call.key.val false)
        ≠ some .expand := fun hloop => hexp ⟨hop, insertLoop_expand_iff.mp hloop⟩
    rcases insert_ends call.tid hstill with ⟨r, t', hret⟩ | ⟨hnone, hafter⟩
    · exact Or.inl ⟨r, t', fun fuel => (hperform fuel).trans (hret (fuel + 1))⟩
    · right
      intro fuel
      rw [hperform, hafter]
      unfold afterLoop
      rw [if_pos]
      rcases hl.probes hexp with hlt | ⟨i, hi, hend⟩
      · exact hlt
      · -- a loop of `2^32` probes would have come to that bucket
        by_contra hge
        exact insertLoop_ends false ⟨i, by omega, hend⟩ hnone

/-- **An insert expands at most once and ends** exactly when its loops do. -/
theorem oneExpansion_iff (hc : Counted t surplus) (hop : call.op = .insertIfAbsent) :
    OneExpansion t call ↔ LoopsEnd t call := by
  have hsize := hc.size
  constructor
  · intro h
    have hperform : perform 1 t call = sequentialInsert 1 t call.tid call.key.val := by
      unfold perform
      rw [hop]
    have hends := h.ends
    rw [hperform] at hends
    constructor
    · intro hexp
      by_contra hbig
      have hover : sequentialInsert 1 t call.tid call.key.val = .error .overflow := by
        unfold sequentialInsert
        rw [insertLoop_expand_iff.mpr hexp.2]
        show (expand call.tid t).bind _ = _
        unfold expand
        simp only
        rw [if_neg (by omega), if_pos (by omega)]
        rfl
      rw [hover] at hends
      simp at hends
    · intro hexp
      by_contra hno
      push Not at hno
      obtain ⟨hbig, hfull⟩ := hno
      have hstill : (probes t.capacity).findSome? (insertBody t call.key.val false)
          ≠ some .expand := fun hloop => hexp ⟨hop, insertLoop_expand_iff.mp hloop⟩
      have hnone : (probes t.capacity).findSome? (insertBody t call.key.val false) = none := by
        cases hloop : (probes t.capacity).findSome? (insertBody t call.key.val false) with
        | none => rfl
        | some e =>
            unfold probes at hloop
            obtain ⟨i, hi, hbody, -⟩ := (findSome?_range_some _ _ _).mp hloop
            have hbucket := hfull i (by omega)
            cases e with
            | expand => exact absurd hloop hstill
            | found => exact absurd (insertBody_eq_found hbody) hbucket.2
            | empty x =>
                obtain ⟨rfl, hempty⟩ := insertBody_eq_empty hbody
                exact absurd hempty hbucket.1
      have hdiv : sequentialInsert 1 t call.tid call.key.val = .error .diverges := by
        unfold sequentialInsert
        rw [hnone]
        unfold afterLoop
        simp only
        rw [if_neg (by omega)]
      rw [hdiv] at hends
      simp at hends
  · intro hl
    refine ⟨fun t' hexp i => expand_settled call.tid_lt hc hexp i, ?_, ?_⟩
    · intro fuel
      rcases insert_once hc hop hl with ⟨r, t', hret⟩ | herr
      · exact (hret fuel).trans (hret 0).symm
      · exact (herr fuel).trans (herr 0).symm
    · rcases insert_once hc hop hl with ⟨r, t', hret⟩ | herr
      · exact Or.inl ⟨r, t', hret 0⟩
      · exact Or.inr (herr 0)

end Insert

theorem counted_reachable {n c : Nat} {t : Table} (h : Reachable (system n c) t) :
    ∃ surplus, Counted t surplus := by
  refine Reach.induct (P := fun t => ∃ surplus, Counted t surplus) ⟨0, init_counted n c⟩ ?_ h
  intro t a t' _ ⟨surplus, hc⟩ _ hn
  obtain ⟨r, hcall⟩ := system_next hn
  obtain ⟨surplus', hc', -⟩ := perform_counted hc hcall
  exact ⟨surplus', hc'⟩

/-! ## §3. Both tables. -/

/-- **One expansion per call**: in `alg_d.h` every call expands at most once and
ends; in `hashtable.h` so does an insert exactly when its loops end. -/
theorem one_expansion_iff (n c d : Nat) (hn : n ≤ MAX_THREADS) (hc : c < 2 ^ 31) :
    (∀ t, AlgorithmD.Sequential.Reached n c t →
        ∀ call, AlgorithmD.Sequential.OneExpansion t call)
    ∧ ∀ t, Reachable (system n d) t → ∀ call, call.op = .insertIfAbsent →
        (OneExpansion t call ↔ LoopsEnd t call) := by
  refine ⟨fun t h call => h.oneExpansion hc hn call, fun t h call hop => ?_⟩
  obtain ⟨surplus, hcounted⟩ := counted_reachable h
  exact oneExpansion_iff hcounted hop

set_option maxRecDepth 100000 in
/-- A table of 60 in `alg_d.h`, and one of 102 in `hashtable.h`: both are full,
and the next insert expands. -/
theorem one_expansion_iff_expanding :
    (∃ t r t', AlgorithmD.Sequential.Reached 1 60 t
        ∧ AlgorithmD.Sequential.perform 1 t (insertCall 61 (by decide) (by decide)).2 = .ok (r, t')
        ∧ t'.currCapacity = 240
        ∧ AlgorithmD.Sequential.OneExpansion t (insertCall 61 (by decide) (by decide)).2)
      ∧ ((system 1 102).after (insertsUpTo 103)).capacity = 408
      ∧ (OneExpansion ((system 1 102).after (insertsUpTo 102))
          (insertCall 103 (by decide) (by decide)).2
        ↔ LoopsEnd ((system 1 102).after (insertsUpTo 102))
          (insertCall 103 (by decide) (by decide)).2) := by
  have hboth := one_expansion_iff 1 60 102 (by decide) (by decide)
  refine ⟨?_, by decide +kernel, hboth.2 _ ((system 1 102).after_reachable (insertsUpTo 102)
    (by decide +kernel)) _ rfl⟩
  have hrun : (AlgorithmD.Sequential.runs (AlgorithmD.Sequential.init 1 60)
      (AlgorithmD.Sequential.insertsUpTo 60)).bind (fun t =>
        (AlgorithmD.Sequential.perform 1 t (insertCall 61 (by decide) (by decide)).2).toOption.map
          fun r => r.2.currCapacity) = some 240 := by decide +kernel
  obtain ⟨t, hruns, hmap⟩ := Option.bind_eq_some_iff.mp hrun
  obtain ⟨⟨r, t'⟩, hcall, hcap⟩ := Option.map_eq_some_iff.mp hmap
  have hreach : AlgorithmD.Sequential.Reached 1 60 t :=
    AlgorithmD.Sequential.Reached.init.runs hruns
  refine ⟨t, r, t', hreach, ?_, hcap, hboth.1 t hreach _⟩
  cases hperform : AlgorithmD.Sequential.perform 1 t (insertCall 61 (by decide) (by decide)).2 with
  | error e =>
      rw [hperform] at hcall
      exact absurd hcall (by simp [Except.toOption])
  | ok p =>
      rw [hperform] at hcall
      rw [Option.some.inj hcall]

/-! ## §4. A loop that does not end. -/

/-- The key 1 has been inserted and erased `k` times, into a table of `d` buckets. -/
structure Buried (d k : Nat) (t : Table) : Prop where
  capacity : t.capacity = d
  inserts : t.approxInserts.getAccurate = k
  data : ∀ i < 2 ^ 32, t.data (path d 1 i) = if i < k then TOMBSTONE else EMPTY

/-- Thread 0 erases `k`. -/
def eraseCall (k : Nat) (h₁ : 1 ≤ k) (h₂ : k ≤ 0x7FFFFFFE) : Nat × Call :=
  (1, { op := .erase, tid := 0, key := ⟨k, h₁, h₂⟩, tid_lt := maxThreads_pos })

theorem minKey_le_one : 1 ≤ 1 := Nat.le_refl 1

theorem one_le_maxKey : 1 ≤ 0x7FFFFFFE := by decide

/-- Thread 0 inserts the key 1. -/
def insertOne : Nat × Call := insertCall 1 minKey_le_one one_le_maxKey

/-- Thread 0 erases it. -/
def eraseOne : Nat × Call := eraseCall 1 minKey_le_one one_le_maxKey

section Buried

variable {d k : Nat} {t : Table}

theorem Buried.still (h : Buried d k t) (hk : 2 * k ≤ d) (i : Nat) : t.isExpandNeeded i = false := by
  have hget := Counter.get_le_getAccurate t.approxInserts
  have hins := h.inserts
  have hcap := h.capacity
  unfold Table.isExpandNeeded
  rw [Bool.or_eq_false_iff, Bool.and_eq_false_iff, decide_eq_false_iff_not, decide_eq_false_iff_not,
    decide_eq_false_iff_not]
  constructor
  · omega
  · right
    omega

/-- The first `2^32` probes of a wide table meet different buckets. -/
theorem path_ne {i j : Nat} (hd : 2 ^ 32 ≤ d) (hi : i < 2 ^ 32) (hj : j < 2 ^ 32) (hne : i ≠ j) :
    path d 1 i ≠ path d 1 j := by
  have hmod : ∀ i, path d 1 i = (Util.hash 1 + i) % 2 ^ 32 := fun i =>
    Nat.mod_eq_of_lt (Nat.lt_of_lt_of_le (Nat.mod_lt _ (by decide)) hd)
  rw [hmod, hmod]
  omega

/-- Another insert takes the next bucket, and another erase buries the key there. -/
theorem Buried.next (h : Buried d k t) (hk : k < 2 ^ 32) (hd : 2 ^ 33 ≤ d) :
    ∃ t₁ t₂, perform 1 t insertOne.2 = .ok (true, t₁)
      ∧ perform 1 t₁ eraseOne.2 = .ok (true, t₂)
      ∧ Buried d (k + 1) t₂ := by
  have hstill := h.still (by omega)
  have hempty : t.data (path d 1 k) = EMPTY := by
    rw [h.data k hk, if_neg (Nat.lt_irrefl k)]
  have hbefore : ∀ j < k, t.data (path d 1 j) = TOMBSTONE := by
    intro j hj
    rw [h.data j (hj.trans hk), if_pos hj]
  have hinsert : (probes t.capacity).findSome? (insertBody t 1 false)
      = some (.empty (path d 1 k)) := by
    unfold probes
    rw [findSome?_range_some, h.capacity]
    refine ⟨k, by omega, ?_, fun j hj => ?_⟩
    · unfold insertBody
      simp only [hstill, h.capacity, hempty]
      rfl
    · rw [insertBody_eq_none, h.capacity, hbefore j hj]
      exact ⟨fun _ => hstill j, by decide, by decide⟩
  have hdata : ∀ j < 2 ^ 32, (t.put 0 (path d 1 k) 1).data (path d 1 j)
      = if j = k then 1 else t.data (path d 1 j) := by
    intro j hj
    show Function.update t.data (path d 1 k) 1 (path d 1 j) = _
    by_cases hjk : j = k
    · rw [if_pos hjk, hjk, Function.update_self]
    · rw [if_neg hjk, Function.update_of_ne (path_ne (by omega) hj hk hjk)]
  have herase : (probes (t.put 0 (path d 1 k) 1).capacity).findSome?
      (eraseBody (t.put 0 (path d 1 k) 1) 1) = some (some (path d 1 k)) := by
    have hcap : (t.put 0 (path d 1 k) 1).capacity = d := h.capacity
    unfold probes
    rw [findSome?_range_some, hcap]
    refine ⟨k, by omega, ?_, fun j hj => ?_⟩
    · unfold eraseBody
      simp only [hcap, hdata k hk]
      rfl
    · unfold eraseBody
      simp only [hcap, hdata j (hj.trans hk), if_neg (Nat.ne_of_lt hj), hbefore j hj]
      rfl
  refine ⟨t.put 0 (path d 1 k) 1, { t.put 0 (path d 1 k) 1 with
    data := Function.update (t.put 0 (path d 1 k) 1).data (path d 1 k) TOMBSTONE
    approxDeletes := t.approxDeletes.inc 0 }, ?_, ?_, ?_⟩
  · show sequentialInsert 1 t 0 1 = _
    unfold sequentialInsert
    rw [hinsert]
  · show sequentialErase (t.put 0 (path d 1 k) 1) 0 1 = _
    unfold sequentialErase
    rw [herase]
    rfl
  · refine ⟨h.capacity, ?_, fun i hi => ?_⟩
    · show (t.approxInserts.inc 0).getAccurate = _
      rw [Counter.getAccurate_inc _ (by decide), h.inserts]
      rfl
    · show Function.update (Function.update t.data (path d 1 k) 1) (path d 1 k) TOMBSTONE
        (path d 1 i) = _
      rw [Function.update_idem]
      by_cases hik : i = k
      · rw [hik, Function.update_self, if_pos (Nat.lt_succ_self k)]
      · rw [Function.update_of_ne (path_ne (by omega) hi hk hik), h.data i hi]
        have hiff : i < k ↔ i < k + 1 := by omega
        simp only [hiff]

/-- The key 1 is inserted and erased `k` times. -/
def bury : Nat → List (Nat × Call)
  | 0 => []
  | k + 1 => bury k ++ [insertOne, eraseOne]

theorem bury_buried (hd : 2 ^ 33 ≤ d) (hk : k ≤ 2 ^ 32) :
    ∃ t, (system 1 d).exec (init 1 d) (bury k) = some t ∧ Buried d k t := by
  induction k with
  | zero =>
      refine ⟨init 1 d, rfl, rfl, Counter.getAccurate_new 1, fun i _ => ?_⟩
      rw [if_neg (Nat.not_lt_zero i)]
      rfl
  | succ k ih =>
      obtain ⟨t, hexec, hb⟩ := ih (Nat.le_of_succ_le hk)
      obtain ⟨t₁, t₂, hinsert, herase, hb₂⟩ := hb.next hk hd
      refine ⟨t₂, ?_, hb₂⟩
      have h₁ : (system 1 d).next t insertOne = some t₁ := by
        show (perform 1 t insertOne.2).toOption.map Prod.snd = _
        rw [hinsert]
        rfl
      have h₂ : (system 1 d).next t₁ eraseOne = some t₂ := by
        show (perform 1 t₁ eraseOne.2).toOption.map Prod.snd = _
        rw [herase]
        rfl
      show (system 1 d).exec (init 1 d) (bury k ++ _) = _
      rw [Sys.exec_append, hexec, Option.bind_some]
      simp only [Sys.exec, h₁, h₂, Option.bind_some]

/-- The `2^32` buckets that the probe of the key can reach are all taken: the
next insert does not end. -/
theorem Buried.not_loopsEnd (h : Buried d (2 ^ 32) t) (hd : 2 ^ 33 ≤ d) :
    ¬ LoopsEnd t insertOne.2 := by
  intro hends
  have hnot : ¬ Expands t insertOne.2 := by
    rintro ⟨-, i, -, -, hneed⟩
    rw [h.still (by omega) i] at hneed
    exact absurd hneed (by simp)
  rcases hends.probes hnot with hlt | ⟨i, hi, hbucket⟩
  · rw [h.capacity] at hlt
    omega
  · rw [h.capacity] at hbucket
    have hdata := h.data i hi
    rw [if_pos hi] at hdata
    change t.data (path d 1 i) = EMPTY ∨ t.data (path d 1 i) = 1 at hbucket
    rw [hdata] at hbucket
    exact absurd hbucket (by decide)

end Buried

/-- After `2^32` inserts and erases of one key, the next insert of it probes a
table of `2^33` buckets for ever. -/
theorem one_expansion_fails : ¬ ∀ n d t, Reachable (system n d) t → ∀ call,
    call.op = .insertIfAbsent → OneExpansion t call := by
  intro h
  obtain ⟨t, hexec, hb⟩ := bury_buried (d := 2 ^ 33) (k := 2 ^ 32) (Nat.le_refl _) (Nat.le_refl _)
  have hr : Reachable (system 1 (2 ^ 33)) t := Reach.exec _ Reach.init hexec
  obtain ⟨surplus, hcounted⟩ := counted_reachable hr
  exact hb.not_loopsEnd (Nat.le_refl _) ((oneExpansion_iff hcounted rfl).mp
    (h 1 (2 ^ 33) t hr insertOne.2 rfl))

end MultiCore.TLEHashTable
