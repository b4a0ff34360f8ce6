/-
  MultiCore.AlgorithmD.Completion — which calls complete, when calls are
  executed one after another.

  Between calls the counters are exact (`Inv`): `insertAC` counts the buckets
  in use, tombstones included, and its difference with `deleteAC` the live
  keys.  A new table has four times as many buckets as live keys, so a call
  that has expanded once completes (`startExpansion_ok`, `insert_still`).
  Two things can go wrong: an expansion while no key is live (`newCap == 0`),
  and a probe for an absent key that finds every bucket of its path in use
  while the expansion test, blind below `max(1000, 30 * numThreads)` inserts
  and 51 probes, stays false.  `completes_iff` says that nothing else can.
-/
import MultiCore.AlgorithmD.Sequential

namespace MultiCore.AlgorithmD.Sequential

open MultiCore.Lib MultiCore.Util

/-! ## §1. Conditions on the table before a call. -/

/-- The probe for `key` gets to an index at which the expansion test succeeds. -/
def Expands (t : Table) (key : Nat) : Prop :=
  ∃ i < t.currCapacity,
    Clear (keysOf t.currData) EMPTY key (path t.currCapacity key) i ∧ t.isExpandNeeded i = true

/-- The call has somewhere to go: if it expands, some key is live; if it is an
insert that does not expand, its path meets an empty bucket or the key. -/
def Safe (t : Table) (call : Call) : Prop :=
  (Expands t call.key.val → ∃ x < t.currCapacity, IsKey (keysOf t.currData x))
    ∧ (call.op = .insertIfAbsent → ¬ Expands t call.key.val →
        ∃ i < t.currCapacity,
          keysOf t.currData (path t.currCapacity call.key.val i) = EMPTY
            ∨ keysOf t.currData (path t.currCapacity call.key.val i) = call.key.val)

/-- The key is in the set. -/
def InSet (t : Table) (key : Nat) : Prop := ∃ x < t.currCapacity, keysOf t.currData x = key

/-- The call returns, with `true` if it inserts a key that is not in the set. -/
def Completes (t : Table) (call : Call) : Prop :=
  ∃ r t', Returns t call r t' ∧
    (call.op = .insertIfAbsent → ¬ InSet t call.key.val → r = true)

/-! ## §2. The invariant between calls. -/

structure Inv (t : Table) : Prop where
  claimed : t.chunksClaimed = totalOldChunks t.oldCapacity
  done : t.chunksDone = totalOldChunks t.oldCapacity
  unmarked : ∀ x, (t.currData x).isMarked = false
  placed : WellPlaced (keysOf t.currData) t.currCapacity
  inserts : t.insertAC.getAccurate = usedCount (keysOf t.currData) t.currCapacity
  size : t.insertAC.getAccurate - t.deleteAC.getAccurate
    = liveCount (keysOf t.currData) t.currCapacity
  pos : 0 < t.currCapacity
  small : t.currCapacity < 2 ^ 31

theorem init_inv (n : Nat) {c : Nat} (hc : 1 ≤ c) (hc' : c < 2 ^ 31) : Inv (init n c) := by
  have hlive : liveCount (fun _ => EMPTY) c = 0 := bucketCount_blank not_isKey_empty c
  have hused : usedCount (fun _ => EMPTY) c = 0 := bucketCount_blank (fun h => h rfl) c
  refine ⟨totalOldChunks_zero.symm, totalOldChunks_zero.symm, fun _ => rfl,
    Placed.blank not_isKey_empty, ?_, ?_, hc, hc'⟩
  · show (Counter.new n).getAccurate = usedCount (fun _ => EMPTY) c
    rw [Counter.getAccurate_new, hused]
    rfl
  · show (Counter.new n).getAccurate - (Counter.new n).getAccurate = liveCount (fun _ => EMPTY) c
    rw [Counter.getAccurate_new, hlive]
    rfl

theorem put_inv {t : Table} {tid key i : Nat} (h : Inv t) (ht : tid < MAX_THREADS)
    (hk : IsKey key) (hi : i < t.currCapacity)
    (hclear : Clear (keysOf t.currData) EMPTY key (path t.currCapacity key) i)
    (hempty : keysOf t.currData (path t.currCapacity key i) = EMPTY) :
    Inv (t.put tid (path t.currCapacity key i) key) := by
  have hlt : path t.currCapacity key i < t.currCapacity := path_lt h.pos
  have hkeys : keysOf (Function.update t.currData (path t.currCapacity key i) (Bucket.plain key))
      = Function.update (keysOf t.currData) (path t.currCapacity key i) key := keysOf_update _ _ _
  refine ⟨h.claimed, h.done, ?_, ?_, ?_, ?_, h.pos, h.small⟩
  · intro x
    show (Function.update t.currData _ (Bucket.plain key) x).isMarked = false
    by_cases hx : x = path t.currCapacity key i
    · rw [hx, Function.update_self]
      rfl
    · rw [Function.update_of_ne hx]
      exact h.unmarked x
  · show WellPlaced (keysOf (Function.update t.currData _ (Bucket.plain key))) t.currCapacity
    rw [hkeys]
    exact h.placed.insert hi hempty hclear
  · show (t.insertAC.inc tid).getAccurate
      = usedCount (keysOf (Function.update t.currData _ (Bucket.plain key))) t.currCapacity
    rw [Counter.getAccurate_inc _ ht, hkeys, usedCount_put hk hlt hempty, h.inserts]
    rfl
  · have hsize := h.size
    show (t.insertAC.inc tid).getAccurate - t.deleteAC.getAccurate
      = liveCount (keysOf (Function.update t.currData _ (Bucket.plain key))) t.currCapacity
    rw [Counter.getAccurate_inc _ ht, hkeys, liveCount_put hk hlt hempty]
    omega

theorem erase_inv {t : Table} {tid x : Nat} (h : Inv t) (ht : tid < MAX_THREADS)
    (hx : x < t.currCapacity) (hk : IsKey (keysOf t.currData x)) :
    Inv { t with
      currData := Function.update t.currData x (Bucket.plain TOMBSTONE)
      deleteAC := t.deleteAC.inc tid } := by
  have hkeys : keysOf (Function.update t.currData x (Bucket.plain TOMBSTONE))
      = Function.update (keysOf t.currData) x TOMBSTONE := keysOf_update _ _ _
  refine ⟨h.claimed, h.done, ?_, ?_, ?_, ?_, h.pos, h.small⟩
  · intro y
    show (Function.update t.currData x (Bucket.plain TOMBSTONE) y).isMarked = false
    by_cases hy : y = x
    · rw [hy, Function.update_self]
      rfl
    · rw [Function.update_of_ne hy]
      exact h.unmarked y
  · show WellPlaced (keysOf (Function.update t.currData x (Bucket.plain TOMBSTONE))) t.currCapacity
    rw [hkeys]
    exact h.placed.erase not_isKey_tombstone tombstone_ne_empty
  · show t.insertAC.getAccurate
      = usedCount (keysOf (Function.update t.currData x (Bucket.plain TOMBSTONE))) t.currCapacity
    rw [hkeys, usedCount_erase hk hx, h.inserts]
  · have hsize := h.size
    have hlive := liveCount_erase hk hx
    show t.insertAC.getAccurate - (t.deleteAC.inc tid).getAccurate
      = liveCount (keysOf (Function.update t.currData x (Bucket.plain TOMBSTONE))) t.currCapacity
    rw [Counter.getAccurate_inc _ ht, hkeys]
    omega

/-! ## §3. The probe loop. -/

theorem helpExpansion_settled {t : Table} (h : Inv t) (tid : Nat) : helpExpansion tid t = .ok t := by
  unfold helpExpansion
  rw [h.claimed, Nat.sub_self]
  show (if t.chunksDone = totalOldChunks t.oldCapacity then Except.ok t
    else Except.error Fault.waitsForever) = _
  rw [if_pos h.done]

theorem probeBody_expand {t : Table} (h : Inv t) {tid key i : Nat}
    (hneed : t.isExpandNeeded i = true) :
    probeBody tid key t i = (startExpansion tid t).map fun t' => (t', some .restart) := by
  unfold probeBody expandAsNeeded
  rw [helpExpansion_settled h]
  show Except.map _ (if t.isExpandNeeded i = true then _ else _) = _
  rw [if_pos hneed]
  cases startExpansion tid t with
  | error e => rfl
  | ok t' => rfl

theorem probeBody_still {t : Table} (h : Inv t) {tid key i : Nat}
    (hneed : t.isExpandNeeded i = false) :
    probeBody tid key t i = .ok (t,
      if keysOf t.currData (path t.currCapacity key i) = key then
        some (.found (path t.currCapacity key i))
      else if keysOf t.currData (path t.currCapacity key i) = EMPTY then
        some (.empty (path t.currCapacity key i))
      else none) := by
  have hplain : ∀ v, t.currData (path t.currCapacity key i) = Bucket.plain v
      ↔ keysOf t.currData (path t.currCapacity key i) = v := by
    intro v
    rw [Bucket.eq_plain_iff, h.unmarked]
    simp [keysOf]
  unfold probeBody expandAsNeeded
  rw [helpExpansion_settled h]
  simp only [Except.bind, hneed, Bool.false_eq_true, if_false, Except.map, h.unmarked, hplain]
  split_ifs <;> rfl

/-- How the probe loop of a call ends. -/
theorem probe_cases {t : Table} (h : Inv t) (tid key : Nat) :
    (Expands t key ∧
      forUntil (probeBody tid key) (List.range t.currCapacity) t
        = (startExpansion tid t).map fun t' => (t', some .restart))
    ∨ (¬ Expands t key ∧ ∃ i < t.currCapacity,
        Clear (keysOf t.currData) EMPTY key (path t.currCapacity key) i
        ∧ keysOf t.currData (path t.currCapacity key i) = key
        ∧ forUntil (probeBody tid key) (List.range t.currCapacity) t
            = .ok (t, some (.found (path t.currCapacity key i))))
    ∨ (¬ Expands t key ∧ ∃ i < t.currCapacity,
        Clear (keysOf t.currData) EMPTY key (path t.currCapacity key) i
        ∧ keysOf t.currData (path t.currCapacity key i) = EMPTY
        ∧ keysOf t.currData (path t.currCapacity key i) ≠ key
        ∧ forUntil (probeBody tid key) (List.range t.currCapacity) t
            = .ok (t, some (.empty (path t.currCapacity key i))))
    ∨ (¬ Expands t key
        ∧ Clear (keysOf t.currData) EMPTY key (path t.currCapacity key) t.currCapacity
        ∧ forUntil (probeBody tid key) (List.range t.currCapacity) t = .ok (t, none)) := by
  classical
  -- an index stops the loop when the test succeeds there or its bucket ends the probe
  let Stops : Nat → Prop := fun i =>
    t.isExpandNeeded i = true
      ∨ keysOf t.currData (path t.currCapacity key i) = key
      ∨ keysOf t.currData (path t.currCapacity key i) = EMPTY
  have hgoesOn : ∀ i, ¬ Stops i → probeBody tid key t i = .ok (t, none) := by
    intro i hi
    have hneed : t.isExpandNeeded i = false := by
      by_contra hne
      exact hi (Or.inl (by simpa using hne))
    have hkey : keysOf t.currData (path t.currCapacity key i) ≠ key :=
      fun he => hi (Or.inr (Or.inl he))
    have hempty : keysOf t.currData (path t.currCapacity key i) ≠ EMPTY :=
      fun he => hi (Or.inr (Or.inr he))
    rw [probeBody_still h hneed, if_neg hkey, if_neg hempty]
  have hclearTo : ∀ i, (∀ j < i, ¬ Stops j) →
      Clear (keysOf t.currData) EMPTY key (path t.currCapacity key) i := by
    intro i hno j hj
    exact ⟨fun he => hno j hj (Or.inr (Or.inr he)), fun he => hno j hj (Or.inr (Or.inl he))⟩
  -- no expansion when the first index that stops is not one that expands
  have hnoExpand : ∀ i, (∀ j < i, ¬ Stops j) → t.isExpandNeeded i = false →
      (i < t.currCapacity → keysOf t.currData (path t.currCapacity key i) = key
        ∨ keysOf t.currData (path t.currCapacity key i) = EMPTY) → ¬ Expands t key := by
    intro i hno hneed hend hexp
    obtain ⟨m, hm, hclear, hm'⟩ := hexp
    rcases Nat.lt_trichotomy m i with hlt | heq | hgt
    · exact hno m hlt (Or.inl hm')
    · rw [heq, hneed] at hm'
      exact absurd hm' (by simp)
    · rcases hend (hgt.trans hm) with he | he
      · exact (hclear i hgt).2 he
      · exact (hclear i hgt).1 he
  by_cases hex : ∃ i < t.currCapacity, Stops i
  · have hfirst := Nat.find_spec hex
    have hbefore : ∀ j < Nat.find hex, ¬ Stops j := by
      intro j hj hstop
      exact Nat.find_min hex hj ⟨hj.trans hfirst.1, hstop⟩
    obtain ⟨hi, hstop⟩ := hfirst
    set i := Nat.find hex with hidef
    have hclear := hclearTo i hbefore
    cases hneed : t.isExpandNeeded i with
    | true =>
        refine Or.inl ⟨⟨i, hi, hclear, hneed⟩, ?_⟩
        rw [forUntil_range_stop hi (fun j hj => hgoesOn j (hbefore j hj)), probeBody_expand h hneed]
        intro s'
        rw [probeBody_expand h hneed]
        cases startExpansion tid t <;> simp [Except.map]
    | false =>
        have hend : keysOf t.currData (path t.currCapacity key i) = key
            ∨ keysOf t.currData (path t.currCapacity key i) = EMPTY := by
          rcases hstop with hs | hs
          · exact absurd hs (by simp [hneed])
          · exact hs
        have hnot := hnoExpand i hbefore hneed (fun _ => hend)
        have hloop : forUntil (probeBody tid key) (List.range t.currCapacity) t
            = probeBody tid key t i := by
          apply forUntil_range_stop hi (fun j hj => hgoesOn j (hbefore j hj))
          intro s'
          rw [probeBody_still h hneed]
          split_ifs with h₁ h₂
          · simp
          · simp
          · exact absurd hend (by simp [h₁, h₂])
        rw [probeBody_still h hneed] at hloop
        by_cases hfound : keysOf t.currData (path t.currCapacity key i) = key
        · rw [if_pos hfound] at hloop
          exact Or.inr (Or.inl ⟨hnot, i, hi, hclear, hfound, hloop⟩)
        · have hempty := hend.resolve_left hfound
          rw [if_neg hfound, if_pos hempty] at hloop
          exact Or.inr (Or.inr (Or.inl ⟨hnot, i, hi, hclear, hempty, hfound, hloop⟩))
  · have hno : ∀ j < t.currCapacity, ¬ Stops j := fun j hj hs => hex ⟨j, hj, hs⟩
    refine Or.inr (Or.inr (Or.inr ⟨?_, hclearTo _ hno, ?_⟩))
    · intro hexp
      obtain ⟨m, hm, -, hneed⟩ := hexp
      exact hno m hm (Or.inl hneed)
    · exact forUntil_range_none (fun j hj => hgoesOn j (hno j hj))

/-! ## §4. Migration. -/

/-- The table that replaces `t₀`, when the buckets of `t₀` below `i` have been
dealt with, `claimed` chunks are claimed and `done` chunks are done. -/
structure Migrating (t₀ : Table) (claimed done i : Nat) (t : Table) : Prop where
  claimed : t.chunksClaimed = claimed
  done : t.chunksDone = done
  oldData : keysOf t.oldData = keysOf t₀.currData
  oldCapacity : t.oldCapacity = t₀.currCapacity
  capacity : t.currCapacity = 4 * liveCount (keysOf t₀.currData) t₀.currCapacity
  unmarked : ∀ x, (t.currData x).isMarked = false
  placed : WellPlaced (keysOf t.currData) t.currCapacity
  inserts : t.insertAC.getAccurate = usedCount (keysOf t.currData) t.currCapacity
  deletes : t.deleteAC.getAccurate = 0
  live : liveCount (keysOf t.currData) t.currCapacity = usedCount (keysOf t.currData) t.currCapacity
  few : usedCount (keysOf t.currData) t.currCapacity ≤ liveCount (keysOf t₀.currData) i
  source : ∀ x < t.currCapacity, IsKey (keysOf t.currData x) →
    ∃ j < i, keysOf t₀.currData j = keysOf t.currData x

theorem Migrating.mono {t₀ t : Table} {claimed done i i' : Nat} (h : Migrating t₀ claimed done i t)
    (hi : i ≤ i') : Migrating t₀ claimed done i' t := by
  refine { h with few := ?_, source := ?_ }
  · exact h.few.trans (bucketCount_mono _ _ hi)
  · intro x hx hk
    obtain ⟨j, hj, hsrc⟩ := h.source x hx hk
    exact ⟨j, Nat.lt_of_lt_of_le hj hi, hsrc⟩

/-- The insert of a migrating thread finds an empty bucket, and never its key. -/
theorem reinsert_ok {t₀ t : Table} {claimed done i tid : Nat} (ht : tid < MAX_THREADS)
    (h₀ : Inv t₀) (hlive : liveCount (keysOf t₀.currData) t₀.currCapacity < 2 ^ 29)
    (hi : i < t₀.currCapacity) (hk : IsKey (keysOf t₀.currData i))
    (h : Migrating t₀ claimed done i t) :
    ∃ t', reinsert tid t (keysOf t₀.currData i) = .ok t' ∧ Migrating t₀ claimed done (i + 1) t' := by
  set key := keysOf t₀.currData i with hkey
  have hsucc : liveCount (keysOf t₀.currData) (i + 1) = liveCount (keysOf t₀.currData) i + 1 := by
    have := bucketCount_succ IsKey (keysOf t₀.currData) i
    rw [if_pos hk] at this
    exact this
  have hlt : liveCount (keysOf t₀.currData) i < liveCount (keysOf t₀.currData) t₀.currCapacity := by
    have hmono : liveCount (keysOf t₀.currData) (i + 1)
        ≤ liveCount (keysOf t₀.currData) t₀.currCapacity := bucketCount_mono _ _ hi
    omega
  have hcap := h.capacity
  have hfew := h.few
  have hplain : ∀ x v, t.currData x = Bucket.plain v ↔ keysOf t.currData x = v := by
    intro x v
    rw [Bucket.eq_plain_iff, h.unmarked]
    simp [keysOf]
  -- ===== the key is not in the new table: it would come from an earlier bucket =====
  have hnew : ∀ x < t.currCapacity, keysOf t.currData x ≠ key := by
    intro x hx he
    obtain ⟨j, hj, hsrc⟩ := h.source x hx (by rw [he]; exact hk)
    rw [he, hkey] at hsrc
    have hji : j = i := h₀.placed.unique (hj.trans hi) hi (by rw [hsrc]; exact hk) hsrc
    omega
  -- ===== fewer than half of the new buckets are in use =====
  obtain ⟨m, hm, hmempty⟩ : ∃ m < t.currCapacity,
      ¬ (keysOf t.currData (path t.currCapacity key m) ≠ EMPTY) := by
    apply exists_probe_not (p := fun v => v ≠ EMPTY) (hash_lt key)
    · omega
    · show 2 * usedCount (keysOf t.currData) t.currCapacity < t.currCapacity
      omega
  -- ===== so the loop leaves at an empty bucket =====
  cases hloop : (List.range t.currCapacity).findSome? (reinsertBody t key) with
  | none =>
      have hno := (findSome?_range_none _ _).mp hloop m hm
      unfold reinsertBody at hno
      simp only [hplain] at hno
      split_ifs at hno with h₁ h₂
      exact absurd (not_not.mp hmempty) h₂
  | some o =>
      obtain ⟨j, hj, hbody, hbefore⟩ := (findSome?_range_some _ _ _).mp hloop
      have hjlt : path t.currCapacity key j < t.currCapacity := path_lt (by omega)
      have hne := hnew _ hjlt
      unfold reinsertBody at hbody
      simp only [hplain] at hbody
      rw [if_neg hne] at hbody
      split_ifs at hbody with hempty
      obtain rfl : some (path t.currCapacity key j) = o := by simpa using hbody
      have hclear : Clear (keysOf t.currData) EMPTY key (path t.currCapacity key) j := by
        intro j' hj'
        have hb := hbefore j' hj'
        unfold reinsertBody at hb
        simp only [hplain] at hb
        split_ifs at hb with h₁ h₂
        exact ⟨h₂, h₁⟩
      refine ⟨t.put tid (path t.currCapacity key j) key, ?_, ?_⟩
      · unfold reinsert
        rw [hloop, if_neg]
        rw [not_not]
        exact ⟨Nat.pos_of_ne_zero hk.1, hk.2⟩
      · have hkeys : keysOf
            (Function.update t.currData (path t.currCapacity key j) (Bucket.plain key))
              = Function.update (keysOf t.currData) (path t.currCapacity key j) key :=
          keysOf_update _ _ _
        have hused := usedCount_put hk hjlt hempty
        have hliv := liveCount_put hk hjlt hempty
        refine ⟨h.claimed, h.done, h.oldData, h.oldCapacity, h.capacity, ?_, ?_, ?_, h.deletes,
          ?_, ?_, ?_⟩
        · intro x
          show (Function.update t.currData _ (Bucket.plain key) x).isMarked = false
          by_cases hx : x = path t.currCapacity key j
          · rw [hx, Function.update_self]
            rfl
          · rw [Function.update_of_ne hx]
            exact h.unmarked x
        · show WellPlaced (keysOf (Function.update t.currData _ _)) t.currCapacity
          rw [hkeys]
          exact h.placed.insert hj hempty hclear
        · show (t.insertAC.inc tid).getAccurate
            = usedCount (keysOf (Function.update t.currData _ _)) t.currCapacity
          rw [Counter.getAccurate_inc _ ht, hkeys, hused, h.inserts]
          rfl
        · show liveCount (keysOf (Function.update t.currData _ _)) t.currCapacity
            = usedCount (keysOf (Function.update t.currData _ _)) t.currCapacity
          rw [hkeys, hused, hliv, h.live]
        · show usedCount (keysOf (Function.update t.currData _ _)) t.currCapacity ≤ _
          rw [hkeys, hused, hsucc]
          omega
        · intro x hx hxk
          show ∃ j' < i + 1, _ = keysOf (Function.update t.currData _ (Bucket.plain key)) x
          change IsKey (keysOf (Function.update t.currData _ (Bucket.plain key)) x) at hxk
          rw [hkeys] at hxk ⊢
          by_cases hxe : x = path t.currCapacity key j
          · rw [hxe, Function.update_self]
            exact ⟨i, Nat.lt_succ_self i, rfl⟩
          · rw [Function.update_of_ne hxe] at hxk ⊢
            obtain ⟨j', hj', hsrc⟩ := h.source x hx hxk
            exact ⟨j', Nat.lt_succ_of_lt hj', hsrc⟩

theorem migrateBody_ok {t₀ t : Table} {claimed done i tid : Nat} (ht : tid < MAX_THREADS)
    (h₀ : Inv t₀) (hlive : liveCount (keysOf t₀.currData) t₀.currCapacity < 2 ^ 29)
    (hi : i < t₀.currCapacity) (h : Migrating t₀ claimed done i t) :
    ∃ t', migrateBody tid t i = .ok t' ∧ Migrating t₀ claimed done (i + 1) t' := by
  have hmarked : Migrating t₀ claimed done i
      { t with oldData := Function.update t.oldData i (t.oldData i).mark } := by
    refine { h with oldData := ?_ }
    show keysOf (Function.update t.oldData i (t.oldData i).mark) = _
    rw [keysOf_mark, h.oldData]
  have hread : (Function.update t.oldData i (t.oldData i).mark i).getKey
      = keysOf t₀.currData i := by
    rw [Function.update_self, Bucket.getKey_mark, ← h.oldData]
    rfl
  unfold migrateBody
  simp only [hread]
  split
  · rename_i hkey
    exact reinsert_ok ht h₀ hlive hi ⟨hkey.2, hkey.1⟩ hmarked
  · exact ⟨_, rfl, hmarked.mono (Nat.le_succ i)⟩

theorem migrate_ok {t₀ t : Table} {claimed done chunk tid : Nat} (ht : tid < MAX_THREADS)
    (h₀ : Inv t₀) (hlive : liveCount (keysOf t₀.currData) t₀.currCapacity < 2 ^ 29)
    (h : Migrating t₀ claimed done (min (startIndex chunk) t₀.currCapacity) t) :
    ∃ t', migrate tid t chunk = .ok t'
      ∧ Migrating t₀ claimed done (min (startIndex (chunk + 1)) t₀.currCapacity) t' := by
  have hend := endIndex_le chunk t₀.currCapacity
  have hend' := endIndex_le_succ chunk t₀.currCapacity
  unfold migrate
  simp only [h.oldCapacity]
  rcases Nat.lt_or_ge (startIndex chunk) (endIndex chunk t₀.currCapacity) with hlt | hge
  · have hstart : Migrating t₀ claimed done (startIndex chunk + 0) t := by
      rw [Nat.min_eq_left (by omega)] at h
      rw [Nat.add_zero]
      exact h
    have hstep : ∀ k < endIndex chunk t₀.currCapacity - startIndex chunk, ∀ s,
        Migrating t₀ claimed done (startIndex chunk + k) s →
        ∃ s', migrateBody tid s (startIndex chunk + k) = .ok s'
          ∧ Migrating t₀ claimed done (startIndex chunk + (k + 1)) s' := by
      intro k hk s hs
      rw [← Nat.add_assoc]
      exact migrateBody_ok ht h₀ hlive (by omega) hs
    obtain ⟨t', hloop, ht'⟩ := foldlM_range_ok
      (fun k t => Migrating t₀ claimed done (startIndex chunk + k) t) _ hstep hstart
    refine ⟨t', hloop, ht'.mono ?_⟩
    omega
  · rw [Nat.sub_eq_zero_of_le hge]
    refine ⟨t, rfl, h.mono ?_⟩
    rw [startIndex_succ]
    omega

/-- `helpExpansion` by the thread that has published the new table: it migrates
every chunk itself. -/
theorem helpExpansion_ok {t₀ t : Table} {tid : Nat} (ht : tid < MAX_THREADS) (h₀ : Inv t₀)
    (hlive : liveCount (keysOf t₀.currData) t₀.currCapacity < 2 ^ 29)
    (h : Migrating t₀ 0 0 0 t) :
    ∃ t', helpExpansion tid t = .ok t'
      ∧ Migrating t₀ (totalOldChunks t₀.currCapacity) (totalOldChunks t₀.currCapacity)
          t₀.currCapacity t' := by
  obtain ⟨t', hloop, ht'⟩ := foldlM_range_ok (f := claimBody tid)
    (fun k t => Migrating t₀ k k (min (startIndex k) t₀.currCapacity) t)
    (totalOldChunks t₀.currCapacity)
    (by
      intro k hk s hs
      have hclaim : Migrating t₀ (k + 1) k (min (startIndex k) t₀.currCapacity)
          { s with chunksClaimed := s.chunksClaimed + 1 } := by
        refine { hs with claimed := ?_ }
        show s.chunksClaimed + 1 = k + 1
        rw [hs.claimed]
      obtain ⟨s', hmig, hs'⟩ := migrate_ok ht h₀ hlive hclaim
      refine ⟨{ s' with chunksDone := s'.chunksDone + 1 }, ?_, { hs' with done := ?_ }⟩
      · unfold claimBody
        simp only [hs.claimed] at hmig ⊢
        rw [hmig]
        rfl
      · show s'.chunksDone + 1 = k + 1
        rw [hs'.done])
    (s := t) (h.mono (Nat.zero_le _))
  refine ⟨t', ?_, ht'.mono (Nat.min_le_right _ _)⟩
  unfold helpExpansion
  rw [h.oldCapacity, h.claimed, Nat.sub_zero, hloop]
  show (if t'.chunksDone = totalOldChunks t'.oldCapacity then Except.ok t'
    else Except.error Fault.waitsForever) = _
  rw [if_pos]
  rw [ht'.done, ht'.oldCapacity]

/-! ## §5. Expansion. -/

/-- Fewer than half of the buckets are in use. -/
def Roomy (t : Table) : Prop := 2 * usedCount (keysOf t.currData) t.currCapacity < t.currCapacity

theorem noOfKeys_eq {t : Table} (h : Inv t) :
    t.noOfKeys = liveCount (keysOf t.currData) t.currCapacity := by
  have hle : liveCount (keysOf t.currData) t.currCapacity ≤ t.currCapacity := bucketCount_le _ _ _
  have hsmall := h.small
  unfold Table.noOfKeys
  rw [h.size]
  apply toInt_eq <;> omega

/-- An expansion of an empty set runs into `assert(false)`. -/
theorem startExpansion_empty {t : Table} (h : Inv t) (tid : Nat)
    (hlive : liveCount (keysOf t.currData) t.currCapacity = 0) :
    startExpansion tid t = .error .assertFalse := by
  unfold startExpansion
  rw [noOfKeys_eq h, hlive]
  rfl

/-- **Any other expansion succeeds**, and leaves a table with room: its keys
are keys of the old one. -/
theorem startExpansion_ok {t : Table} (h : Inv t) {tid : Nat} (ht : tid < MAX_THREADS)
    (hpos : liveCount (keysOf t.currData) t.currCapacity ≠ 0)
    (hlive : liveCount (keysOf t.currData) t.currCapacity < 2 ^ 29) :
    ∃ t', startExpansion tid t = .ok t' ∧ Inv t' ∧ Roomy t'
      ∧ ∀ key, IsKey key → InSet t' key → InSet t key := by
  have hcap : toInt (4 * t.noOfKeys)
      = (4 * liveCount (keysOf t.currData) t.currCapacity : Nat) := by
    rw [noOfKeys_eq h, toInt_eq] <;> omega
  have hnew : ∀ c, usedCount (keysOf fun _ => Bucket.plain EMPTY) c = 0 :=
    fun c => bucketCount_blank (fun h => h rfl) c
  have hstart : Migrating t 0 0 0
      (Table.new t.currCapacity t.currData (toInt (4 * t.noOfKeys)).toNat t.insertAC.numThreads) := by
    refine ⟨rfl, rfl, rfl, rfl, ?_, fun _ => rfl, Placed.blank not_isKey_empty, ?_, ?_, ?_, ?_, ?_⟩
    · show (toInt (4 * t.noOfKeys)).toNat = _
      rw [hcap, Int.toNat_natCast]
    · show (Counter.new _).getAccurate = (usedCount (keysOf fun _ => Bucket.plain EMPTY) _ : Nat)
      rw [Counter.getAccurate_new, hnew]
      rfl
    · exact Counter.getAccurate_new _
    · show liveCount (keysOf fun _ => Bucket.plain EMPTY) _
        = usedCount (keysOf fun _ => Bucket.plain EMPTY) _
      rw [hnew]
      exact bucketCount_blank not_isKey_empty _
    · show usedCount (keysOf fun _ => Bucket.plain EMPTY) _ ≤ _
      rw [hnew]
      exact Nat.zero_le _
    · intro x _ hx
      exact absurd hx not_isKey_empty
  obtain ⟨t', hhelp, ht'⟩ := helpExpansion_ok ht h hlive hstart
  have hcap' := ht'.capacity
  have hfew : usedCount (keysOf t'.currData) t'.currCapacity
      ≤ liveCount (keysOf t.currData) t.currCapacity := ht'.few
  refine ⟨t', ?_, ⟨?_, ?_, ht'.unmarked, ht'.placed, ht'.inserts, ?_, ?_, ?_⟩, ?_, ?_⟩
  · unfold startExpansion
    rw [if_neg, if_neg]
    · exact hhelp
    · rw [hcap]
      omega
    · rw [hcap]
      omega
  · rw [ht'.claimed, ht'.oldCapacity]
  · rw [ht'.done, ht'.oldCapacity]
  · rw [ht'.inserts, ht'.deletes, ht'.live, sub_zero]
  · omega
  · omega
  · unfold Roomy
    omega
  · intro key hk hin
    obtain ⟨x, hx, hkey⟩ := hin
    obtain ⟨j, hj, hsrc⟩ := ht'.source x hx (by rw [hkey]; exact hk)
    exact ⟨j, hj, by rw [hsrc, hkey]⟩

/-- The expansion test fails in a roomy table, at every probe. -/
theorem Roomy.not_needed {t : Table} (h : Inv t) (hroomy : Roomy t) (i : Nat) :
    t.isExpandNeeded i = false := by
  have hget := Counter.get_le_getAccurate t.insertAC
  have hins := h.inserts
  unfold Roomy at hroomy
  unfold Table.isExpandNeeded
  rw [Bool.or_eq_false_iff, Bool.and_eq_false_iff, decide_eq_false_iff_not, decide_eq_false_iff_not,
    decide_eq_false_iff_not]
  constructor
  · omega
  · right
    omega

/-- A roomy table does not expand, whatever the key. -/
theorem Roomy.not_expands {t : Table} (h : Inv t) (hroomy : Roomy t) (key : Nat) :
    ¬ Expands t key := by
  rintro ⟨i, -, -, hneed⟩
  rw [hroomy.not_needed h i] at hneed
  exact absurd hneed (by simp)

/-- Every probe of a roomy table meets an empty bucket. -/
theorem Roomy.exists_empty {t : Table} (h : Inv t) (hroomy : Roomy t) (key : Nat) :
    ∃ i < t.currCapacity, keysOf t.currData (path t.currCapacity key i) = EMPTY := by
  have hsmall := h.small
  obtain ⟨i, hi, hempty⟩ := exists_probe_not (p := fun v => v ≠ EMPTY) (b := keysOf t.currData)
    (hash_lt key) (by omega : t.currCapacity ≤ 2 ^ 32) hroomy
  exact ⟨i, hi, not_not.mp hempty⟩

/-! ## §6. Calls. -/

/-- An insert that neither expands nor runs off its path returns at once. -/
theorem insert_still {t : Table} (h : Inv t) {tid key : Nat} (ht : tid < MAX_THREADS)
    (hk : IsKey key) (hnot : ¬ Expands t key)
    (hend : ∃ i < t.currCapacity, keysOf t.currData (path t.currCapacity key i) = EMPTY
      ∨ keysOf t.currData (path t.currCapacity key i) = key) :
    ∃ r t', (∀ fuel, insertIfAbsent fuel t tid key = .ok (r, t')) ∧ Inv t'
      ∧ (¬ InSet t key → r = true) := by
  rcases probe_cases h tid key with ⟨hexp, _⟩ | ⟨_, i, hi, _, hfound, hloop⟩
    | ⟨_, i, hi, hclear, hempty, _, hloop⟩ | ⟨_, hclear, _⟩
  · exact absurd hexp hnot
  · refine ⟨false, t, ?_, h, ?_⟩
    · intro fuel
      unfold insertIfAbsent
      rw [hloop]
      rfl
    · intro hout
      exact absurd ⟨_, path_lt h.pos, hfound⟩ hout
  · refine ⟨true, t.put tid (path t.currCapacity key i) key, ?_, ?_, fun _ => rfl⟩
    · intro fuel
      unfold insertIfAbsent
      rw [hloop]
      rfl
    · exact put_inv h ht hk hi hclear hempty
  · obtain ⟨i, hi, hor⟩ := hend
    rcases hor with he | he
    · exact absurd he (hclear i hi).1
    · exact absurd he (hclear i hi).2

/-- An erase that does not expand returns at once. -/
theorem erase_still {t : Table} (h : Inv t) {tid key : Nat} (ht : tid < MAX_THREADS)
    (hk : IsKey key) (hnot : ¬ Expands t key) :
    ∃ r t', (∀ fuel, erase fuel t tid key = .ok (r, t')) ∧ Inv t' := by
  rcases probe_cases h tid key with ⟨hexp, _⟩ | ⟨_, i, hi, _, hfound, hloop⟩
    | ⟨_, i, hi, hclear, hempty, _, hloop⟩ | ⟨_, hclear, hloop⟩
  · exact absurd hexp hnot
  · refine ⟨true, _, ?_, erase_inv h ht (path_lt h.pos) (by rw [hfound]; exact hk)⟩
    intro fuel
    unfold erase
    rw [hloop]
    rfl
  · refine ⟨false, t, ?_, h⟩
    intro fuel
    unfold erase
    rw [hloop]
    rfl
  · refine ⟨false, t, ?_, h⟩
    intro fuel
    unfold erase
    rw [hloop]
    rfl

/-- A call that is not safe runs into `assert(false)`. -/
theorem perform_stuck {t : Table} (h : Inv t) {call : Call} (hbad : ¬ Safe t call) (fuel : Nat) :
    perform fuel t call = .error .assertFalse := by
  have hkeyless : Expands t call.key.val →
      (¬ ∃ x < t.currCapacity, IsKey (keysOf t.currData x)) →
      liveCount (keysOf t.currData) t.currCapacity = 0 := by
    intro _ hno
    by_contra hne
    exact hno (bucketCount_pos_iff.mp (Nat.pos_of_ne_zero hne))
  rcases probe_cases h call.tid call.key.val with ⟨hexp, hloop⟩ | ⟨hnot, i, hi, _, hfound, _⟩
    | ⟨hnot, i, hi, _, hempty, _, _⟩ | ⟨hnot, _, hloop⟩
  · -- it expands, so no key is live
    have hlive := hkeyless hexp (fun hlive => hbad ⟨fun _ => hlive, fun _ hno => absurd hexp hno⟩)
    rw [startExpansion_empty h call.tid hlive] at hloop
    unfold perform
    cases call.op with
    | insertIfAbsent =>
        show insertIfAbsent fuel t call.tid call.key.val = _
        unfold insertIfAbsent
        rw [hloop]
        rfl
    | erase =>
        show erase fuel t call.tid call.key.val = _
        unfold erase
        rw [hloop]
        rfl
  · exact absurd ⟨fun hexp => absurd hexp hnot, fun _ _ => ⟨i, hi, Or.inr hfound⟩⟩ hbad
  · exact absurd ⟨fun hexp => absurd hexp hnot, fun _ _ => ⟨i, hi, Or.inl hempty⟩⟩ hbad
  · -- it does not expand, so it is an insert that runs off its path
    unfold perform
    cases hop : call.op with
    | insertIfAbsent =>
        show insertIfAbsent fuel t call.tid call.key.val = _
        unfold insertIfAbsent
        rw [hloop]
        rfl
    | erase =>
        refine absurd ⟨fun hexp => absurd hexp hnot, fun hins => ?_⟩ hbad
        rw [hop] at hins
        exact absurd hins (by simp)

/-- **A safe call returns**, after one restart at most, and keeps the invariant. -/
theorem perform_safe {t : Table} (h : Inv t) {call : Call} (hsafe : Safe t call)
    (hlive : liveCount (keysOf t.currData) t.currCapacity < 2 ^ 29) :
    ∃ r t', (∀ fuel, perform (fuel + 1) t call = .ok (r, t'))
      ∧ (∀ r' t'', perform 0 t call = .ok (r', t'') → r' = r ∧ t'' = t') ∧ Inv t'
      ∧ (call.op = .insertIfAbsent → ¬ InSet t call.key.val → r = true) := by
  have hk := call.key.isKey
  by_cases hexp : Expands t call.key.val
  · -- ===== the call expands, and runs on a roomy table =====
    have hpos : liveCount (keysOf t.currData) t.currCapacity ≠ 0 := by
      have := bucketCount_pos_iff.mpr (hsafe.1 hexp)
      unfold liveCount
      omega
    obtain ⟨t₁, hstart, h₁, hroomy, hsub⟩ := startExpansion_ok h call.tid_lt hpos hlive
    have hloop : forUntil (probeBody call.tid call.key.val) (List.range t.currCapacity) t
        = .ok (t₁, some .restart) := by
      rcases probe_cases h call.tid call.key.val with ⟨_, hloop⟩ | ⟨hnot, _⟩ | ⟨hnot, _⟩ | ⟨hnot, _⟩
      · rw [hloop, hstart]
        rfl
      · exact absurd hexp hnot
      · exact absurd hexp hnot
      · exact absurd hexp hnot
    have hnot₁ := hroomy.not_expands h₁ call.key.val
    unfold perform
    cases hop : call.op with
    | insertIfAbsent =>
        obtain ⟨i, hi, hempty⟩ := hroomy.exists_empty h₁ call.key.val
        obtain ⟨r, t', hret, hinv, htrue⟩ :=
          insert_still h₁ call.tid_lt hk hnot₁ ⟨i, hi, Or.inl hempty⟩
        refine ⟨r, t', ?_, ?_, hinv, ?_⟩
        · intro fuel
          show insertIfAbsent (fuel + 1) t call.tid call.key.val = _
          unfold insertIfAbsent
          rw [hloop]
          exact hret fuel
        · intro r' t'' hzero
          change insertIfAbsent 0 t call.tid call.key.val = _ at hzero
          unfold insertIfAbsent at hzero
          rw [hloop] at hzero
          exact absurd hzero (by simp [Except.bind])
        · intro _ hout
          exact htrue (fun hin => hout (hsub _ hk hin))
    | erase =>
        obtain ⟨r, t', hret, hinv⟩ := erase_still h₁ call.tid_lt hk hnot₁
        refine ⟨r, t', ?_, ?_, hinv, fun hins => absurd hins (by simp)⟩
        · intro fuel
          show erase (fuel + 1) t call.tid call.key.val = _
          unfold erase
          rw [hloop]
          exact hret fuel
        · intro r' t'' hzero
          change erase 0 t call.tid call.key.val = _ at hzero
          unfold erase at hzero
          rw [hloop] at hzero
          exact absurd hzero (by simp [Except.bind])
  · -- ===== the call stays on its table =====
    unfold perform
    cases hop : call.op with
    | insertIfAbsent =>
        obtain ⟨r, t', hret, hinv, htrue⟩ :=
          insert_still h call.tid_lt hk hexp (hsafe.2 hop hexp)
        refine ⟨r, t', fun fuel => hret (fuel + 1), ?_, hinv, fun _ => htrue⟩
        intro r' t'' hzero
        have hzero' : Except.ok (r, t') = Except.ok (r', t'') := (hret 0).symm.trans hzero
        simpa [eq_comm] using hzero'
    | erase =>
        obtain ⟨r, t', hret, hinv⟩ := erase_still h call.tid_lt hk hexp
        refine ⟨r, t', fun fuel => hret (fuel + 1), ?_, hinv, fun hins => absurd hins (by simp)⟩
        intro r' t'' hzero
        have hzero' : Except.ok (r, t') = Except.ok (r', t'') := (hret 0).symm.trans hzero
        simpa [eq_comm] using hzero'

/-- What a call returns is determined, and keeps the invariant. -/
theorem returns_inv {t t' : Table} (h : Inv t) {call : Call} {r : Bool}
    (hlive : liveCount (keysOf t.currData) t.currCapacity < 2 ^ 29)
    (hret : Returns t call r t') : Inv t' := by
  obtain ⟨fuel, hfuel⟩ := hret
  by_cases hsafe : Safe t call
  · obtain ⟨r₁, t₁, hsucc, hzero, hinv, -⟩ := perform_safe h hsafe hlive
    cases fuel with
    | zero =>
        rw [(hzero r t' hfuel).2]
        exact hinv
    | succ fuel =>
        rw [hsucc fuel] at hfuel
        obtain ⟨-, rfl⟩ : r₁ = r ∧ t₁ = t' := by simpa using hfuel
        exact hinv
  · rw [perform_stuck h hsafe fuel] at hfuel
    exact absurd hfuel (by simp)

/-- Every fuel with which a call returns gives the same table. -/
theorem returns_eq {t t₁ t₂ : Table} (h : Inv t) {call : Call} {r₁ r₂ : Bool}
    (hlive : liveCount (keysOf t.currData) t.currCapacity < 2 ^ 29)
    (h₁ : Returns t call r₁ t₁) (h₂ : Returns t call r₂ t₂) : t₁ = t₂ := by
  have hsafe : Safe t call := by
    by_contra hbad
    obtain ⟨fuel, hfuel⟩ := h₁
    rw [perform_stuck h hbad fuel] at hfuel
    exact absurd hfuel (by simp)
  obtain ⟨r, t', hsucc, hzero, -, -⟩ := perform_safe h hsafe hlive
  have hsame : ∀ {r₁ t₁}, Returns t call r₁ t₁ → t₁ = t' := by
    rintro r₁ t₁ ⟨fuel, hfuel⟩
    cases fuel with
    | zero => exact (hzero r₁ t₁ hfuel).2
    | succ fuel =>
        rw [hsucc fuel] at hfuel
        exact (Prod.mk.inj (Except.ok.inj hfuel)).2.symm
  rw [hsame h₁, hsame h₂]

theorem completes_iff_safe {t : Table} (h : Inv t) {call : Call}
    (hlive : liveCount (keysOf t.currData) t.currCapacity < 2 ^ 29) :
    Completes t call ↔ Safe t call := by
  constructor
  · intro hcomp
    obtain ⟨r, t', ⟨fuel, hfuel⟩, -⟩ := hcomp
    by_contra hbad
    rw [perform_stuck h hbad fuel] at hfuel
    exact absurd hfuel (by simp)
  · intro hsafe
    obtain ⟨r, t', hret, -, -, htrue⟩ := perform_safe h hsafe hlive
    exact ⟨r, t', ⟨1, hret 0⟩, htrue⟩

/-- **Which sequences of calls complete**: with fewer than `2^29` live keys
throughout, every call completes if and only if every call is safe in the table
it starts from. -/
theorem completes_iff (n c : Nat) (calls : List Call) (hc : 1 ≤ c) (hc' : c < 2 ^ 31)
    (hlive : Along (fun t _ => liveCount (keysOf t.currData) t.currCapacity < 2 ^ 29)
      (init n c) calls) :
    Along Completes (init n c) calls ↔ Along Safe (init n c) calls := by
  have hstep : ∀ (calls : List Call) (t : Table), Inv t →
      Along (fun t _ => liveCount (keysOf t.currData) t.currCapacity < 2 ^ 29) t calls →
      (Along Completes t calls ↔ Along Safe t calls) := by
    intro calls
    induction calls with
    | nil =>
        intro t _ _
        exact Iff.rfl
    | cons call calls ih =>
        intro t h hl
        have hrest : ∀ r t', Returns t call r t' →
            (Along Completes t' calls ↔ Along Safe t' calls) := by
          intro r t' hret
          exact ih t' (returns_inv h hl.1 hret) (hl.2 r t' hret)
        unfold Along
        rw [completes_iff_safe h hl.1]
        constructor
        · intro hall
          exact ⟨hall.1, fun r t' hret => (hrest r t' hret).mp (hall.2 r t' hret)⟩
        · intro hall
          exact ⟨hall.1, fun r t' hret => (hrest r t' hret).mpr (hall.2 r t' hret)⟩
  exact hstep calls (init n c) (init_inv n hc hc') hlive

/-- Thread 0 inserts `k`. -/
def inserts (k : Nat) (h₁ : 1 ≤ k) (h₂ : k ≤ 0x7FFFFFFE) : Call :=
  { op := .insertIfAbsent, tid := 0, key := ⟨k, h₁, h₂⟩, tid_lt := maxThreads_pos }

/-- Thread 0 inserts the keys `1 .. n`. -/
def insertsUpTo (n : Nat) : List Call :=
  (List.range n).filterMap fun k =>
    if h : k + 1 ≤ 0x7FFFFFFE then some (inserts (k + 1) (Nat.le_add_left 1 k) h) else none

theorem minKey_le_one : 1 ≤ 1 := Nat.le_refl 1

theorem one_le_maxKey : 1 ≤ 0x7FFFFFFE := by decide

/-- Thread 0 erases the key 1. -/
def erasesOne : Call :=
  { op := .erase, tid := 0, key := ⟨1, minKey_le_one, one_le_maxKey⟩, tid_lt := maxThreads_pos }

/-- The table after the calls, if each of them returns after one restart at most
and starts from a table of fewer than `2^29` buckets. -/
def runs : Table → List Call → Option Table
  | t, [] => some t
  | t, call :: calls =>
      if t.currCapacity < 2 ^ 29 then (perform 1 t call).toOption.bind fun r => runs r.2 calls
      else none

theorem runs_cons {t t' : Table} {call : Call} {calls : List Call}
    (h : runs t (call :: calls) = some t') :
    t.currCapacity < 2 ^ 29 ∧ ∃ r t₁, perform 1 t call = .ok (r, t₁) ∧ runs t₁ calls = some t' := by
  unfold runs at h
  split at h
  · rename_i hsmall
    cases hcall : perform 1 t call with
    | error e =>
        rw [hcall] at h
        exact absurd h (by simp [Except.toOption])
    | ok r =>
        rw [hcall] at h
        exact ⟨hsmall, r.1, r.2, rfl, h⟩
  · exact absurd h (by simp)

/-- The live keys stay few along such calls. -/
theorem along_of_runs {calls : List Call} : ∀ {t t' : Table}, Inv t → runs t calls = some t' →
    Along (fun t _ => liveCount (keysOf t.currData) t.currCapacity < 2 ^ 29) t calls := by
  induction calls with
  | nil =>
      intro t t' _ _
      trivial
  | cons call calls ih =>
      intro t t' h hruns
      obtain ⟨hsmall, r, t₁, hcall, hrest⟩ := runs_cons hruns
      have hlive : liveCount (keysOf t.currData) t.currCapacity < 2 ^ 29 :=
        Nat.lt_of_le_of_lt (bucketCount_le _ _ _) hsmall
      refine ⟨hlive, fun r' t₂ hret => ?_⟩
      obtain rfl : t₁ = t₂ := returns_eq h hlive ⟨1, hcall⟩ hret
      exact ih (returns_inv h hlive ⟨1, hcall⟩) hrest

/-- A table of 60 is filled, a key is erased, and the next insert expands. -/
def expandingCalls : List Call :=
  insertsUpTo 60 ++ erasesOne :: (insertsUpTo 61).drop 60

theorem expandingCalls_runs :
    (runs (init 1 60) expandingCalls).map Table.currCapacity = some 236 := by
  decide +kernel

theorem completes_iff_expanding :
    (runs (init 1 60) expandingCalls).map Table.currCapacity = some 236
      ∧ (Along Completes (init 1 60) expandingCalls ↔ Along Safe (init 1 60) expandingCalls) := by
  obtain ⟨t, hruns, -⟩ := Option.map_eq_some_iff.mp expandingCalls_runs
  exact ⟨expandingCalls_runs, completes_iff 1 60 expandingCalls (by decide) (by decide)
    (along_of_runs (init_inv 1 (by decide) (by decide)) hruns)⟩

/-- An assertion that fails without a restart fails with any number of them. -/
theorem insertIfAbsent_fault {t : Table} {tid key : Nat}
    (h : insertIfAbsent 0 t tid key = .error .assertFalse) (fuel : Nat) :
    insertIfAbsent fuel t tid key = .error .assertFalse := by
  unfold insertIfAbsent at h ⊢
  cases hloop : forUntil (probeBody tid key) (List.range t.currCapacity) t with
  | error e =>
      rw [hloop] at h
      exact h
  | ok r =>
      obtain ⟨t', exit⟩ := r
      rw [hloop] at h
      cases exit with
      | none => exact h
      | some exit =>
          cases exit with
          | restart => exact absurd h (by simp [Except.bind])
          | found index => exact h
          | empty index => exact h

/-- The second of two inserts into a table of one bucket finds it in use, and no
expansion is asked for. -/
def secondInsertFails : Bool :=
  match perform 0 (init 1 1) (inserts 1 (by decide) (by decide)) with
  | .ok (true, t) =>
      match insertIfAbsent 0 t 0 2 with
      | .error e => decide (e = Fault.assertFalse)
      | .ok _ => false
  | _ => false

theorem completes_fails :
    ¬ Along Completes (init 1 1)
      [inserts 1 (by decide) (by decide), inserts 2 (by decide) (by decide)] := by
  intro hall
  have hrun : secondInsertFails = true := by decide +kernel
  unfold secondInsertFails at hrun
  split at hrun
  · rename_i t hfirst
    obtain ⟨r, t', ⟨fuel, hsecond⟩, -⟩ := (hall.2 true t ⟨0, hfirst⟩).1
    split at hrun
    · rename_i e hzero
      rw [decide_eq_true_eq] at hrun
      rw [hrun] at hzero
      change insertIfAbsent fuel t 0 2 = .ok (r, t') at hsecond
      rw [insertIfAbsent_fault hzero fuel] at hsecond
      exact absurd hsecond (by simp)
    · exact absurd hrun (by simp)
  · exact absurd hrun (by simp)

end MultiCore.AlgorithmD.Sequential
