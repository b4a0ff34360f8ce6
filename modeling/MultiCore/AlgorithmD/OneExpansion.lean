/-
  MultiCore.AlgorithmD.OneExpansion — a call expands the table at most once,
  when calls are executed one after another.

  A new table is roomy, so the restarted call does not expand it.  With `2^29`
  live keys and more `4 * noOfKeys` is no `int`; then the expansion fails.  A
  newCap that wraps around to a positive one would need more than `2^30` live
  keys, and the expansion test does not let a table come far beyond half of its
  capacity (`Kept.few`): such a newCap is tiny, and the migrating thread runs
  out of buckets.
-/
import MultiCore.AlgorithmD.Completion
import MultiCore.AlgorithmD.Chunks

namespace MultiCore.AlgorithmD.Sequential

open MultiCore.Lib MultiCore.Util

/-! ## §1. The table in which a migration ends. -/

/-- The table that replaces `t₀`, when `claimed` chunks are claimed and the keys
of the buckets of `t₀` below `i` have moved. -/
structure Filling (n : Nat) (t₀ : Table) (m claimed i : Nat) (t : Table) : Prop where
  claimed : t.chunksClaimed = claimed
  oldData : keysOf t.oldData = keysOf t₀.currData
  oldCapacity : t.oldCapacity = t₀.currCapacity
  capacity : t.currCapacity = m
  numThreads : t.insertAC.numThreads = n
  settled : t.insertAC.Settled
  moved : liveCount (keysOf t₀.currData) i ≤ usedCount (keysOf t.currData) m

section Filling

variable {n m claimed i i' tid : Nat} {t₀ t t' : Table}

theorem Filling.mono (h : Filling n t₀ m claimed i t) (hi : i' ≤ i) : Filling n t₀ m claimed i' t :=
  { h with moved := (bucketCount_mono _ _ hi).trans h.moved }

/-- A migrating insert that succeeds takes a bucket. -/
theorem Filling.reinsert (h : Filling n t₀ m claimed i t) {key : Nat} (hk : IsKey key)
    (hsucc : liveCount (keysOf t₀.currData) i' ≤ liveCount (keysOf t₀.currData) i + 1)
    (hre : reinsert tid t key = .ok t') : Filling n t₀ m claimed i' t' := by
  unfold Sequential.reinsert at hre
  split at hre
  · exact absurd hre (by simp)
  split at hre
  · rename_i index hloop
    obtain rfl := Except.ok.inj hre
    obtain ⟨j, hj, hbody, -⟩ := (findSome?_range_some _ _ _).mp hloop
    have hindex : index = path t.currCapacity key j ∧ t.currData index = Bucket.plain EMPTY := by
      unfold reinsertBody at hbody
      simp only at hbody
      split_ifs at hbody with h₁ h₂
      · exact absurd hbody (by simp)
      · obtain rfl := Option.some.inj (Option.some.inj hbody)
        exact ⟨rfl, h₂⟩
    obtain ⟨rfl, hempty⟩ := hindex
    have hlt : path t.currCapacity key j < m := by
      rw [← h.capacity]
      exact path_lt (by omega)
    have hused := usedCount_put (b := keysOf t.currData) hk hlt (congrArg Bucket.getKey hempty)
    refine ⟨h.claimed, h.oldData, h.oldCapacity, h.capacity, ?_, h.settled.inc tid, ?_⟩
    · exact (Counter.numThreads_inc _ _).trans h.numThreads
    · have hmoved := h.moved
      show _ ≤ usedCount (keysOf (Function.update t.currData _ (Bucket.plain key))) m
      rw [keysOf_update]
      show _ ≤ usedCount (Function.update (keysOf t.currData) _ key) m
      omega
  · exact absurd hre (by simp)
  · exact absurd hre (by simp)

theorem Filling.migrateBody (h : Filling n t₀ m claimed i t)
    (hbody : migrateBody tid t i = .ok t') : Filling n t₀ m claimed (i + 1) t' := by
  have hsucc : liveCount (keysOf t₀.currData) (i + 1)
      = liveCount (keysOf t₀.currData) i + if IsKey (keysOf t₀.currData i) then 1 else 0 :=
    bucketCount_succ _ _ _
  have hmarked : Filling n t₀ m claimed i
      { t with oldData := Function.update t.oldData i (t.oldData i).mark } := by
    refine { h with oldData := ?_ }
    show keysOf (Function.update t.oldData i (t.oldData i).mark) = _
    rw [keysOf_mark, h.oldData]
  have hread : (Function.update t.oldData i (t.oldData i).mark i).getKey
      = keysOf t₀.currData i := by
    rw [Function.update_self, Bucket.getKey_mark, ← h.oldData]
    rfl
  unfold Sequential.migrateBody at hbody
  simp only [hread] at hbody
  split at hbody
  · rename_i hkey
    have hk : IsKey (keysOf t₀.currData i) := ⟨hkey.2, hkey.1⟩
    rw [if_pos hk] at hsucc
    exact hmarked.reinsert hk (Nat.le_of_eq hsucc) hbody
  · rename_i hkey
    have hk : ¬ IsKey (keysOf t₀.currData i) := fun hk => hkey ⟨hk.2, hk.1⟩
    rw [if_neg hk] at hsucc
    have hmoved := hmarked.moved
    obtain rfl := Except.ok.inj hbody
    refine { hmarked with moved := ?_ }
    rw [hsucc]
    exact hmoved

/-- A chunk moves the keys of its buckets. -/
theorem Filling.migrate {chunk e : Nat} (h : Filling n t₀ m claimed (startIndex chunk) t)
    (he : e ≤ max (startIndex chunk) (endIndex chunk t₀.currCapacity))
    (hmigrate : migrate tid t chunk = .ok t') : Filling n t₀ m claimed e t' := by
  unfold Sequential.migrate at hmigrate
  simp only [h.oldCapacity] at hmigrate
  have hstep : ∀ k < endIndex chunk t₀.currCapacity - startIndex chunk, ∀ s s',
      Filling n t₀ m claimed (startIndex chunk + k) s →
      Sequential.migrateBody tid s (startIndex chunk + k) = .ok s' →
      Filling n t₀ m claimed (startIndex chunk + (k + 1)) s' := by
    intro k _ s s' hs hb
    rw [← Nat.add_assoc]
    exact hs.migrateBody hb
  have hstart : Filling n t₀ m claimed (startIndex chunk + 0) t := by
    rw [Nat.add_zero]
    exact h
  have hloop := foldlM_range_inv (fun k t => Filling n t₀ m claimed (startIndex chunk + k) t) _
    hstep hstart hmigrate
  exact hloop.mono (by omega)

/-- The claiming loop of the thread that has published the new table.  The
bounds of all chunks but the last are exact. -/
theorem Filling.claims (hcap : t₀.currCapacity < 2 ^ 31) (h : Filling n t₀ m 0 0 t)
    (hloop : (List.range (totalOldChunks t₀.currCapacity)).foldlM (claimBody tid) t = .ok t') :
    Filling n t₀ m (totalOldChunks t₀.currCapacity)
      (startIndex (totalOldChunks t₀.currCapacity - 1)) t' := by
  have htotal := totalOldChunks_cases hcap
  set total := totalOldChunks t₀.currCapacity
  have hlast : total ≤ (t₀.currCapacity + 4095) / 4096 := by
    split at htotal <;> omega
  have hstep : ∀ k < total, ∀ s s', Filling n t₀ m k (startIndex (min k (total - 1))) s →
      claimBody tid s k = .ok s' →
        Filling n t₀ m (k + 1) (startIndex (min (k + 1) (total - 1))) s' := by
    intro k hk s s' hs hclaim
    rw [Nat.min_eq_left (by omega)] at hs
    have hclaimed : Filling n t₀ m (k + 1) (startIndex k)
        { s with chunksClaimed := s.chunksClaimed + 1 } := by
      refine { hs with claimed := ?_ }
      show s.chunksClaimed + 1 = k + 1
      rw [hs.claimed]
    unfold claimBody at hclaim
    simp only at hclaim
    rw [hs.claimed] at hclaim hclaimed
    cases hmigrate : Sequential.migrate tid { s with chunksClaimed := k + 1 } k with
    | error e =>
        rw [hmigrate] at hclaim
        exact absurd hclaim (by simp [Except.map])
    | ok s₁ =>
        rw [hmigrate] at hclaim
        obtain rfl := Except.ok.inj hclaim
        have hmoved : Filling n t₀ m (k + 1) (startIndex (min (k + 1) (total - 1))) s₁ := by
          refine hclaimed.migrate ?_ hmigrate
          rcases Nat.lt_or_ge (k + 1) total with hlt | hge
          · -- chunk `k` ends where the next one starts
            rw [Nat.min_eq_left (by omega), startIndex_succ]
            have hstart : startIndex k = k * 4096 := rfl
            have hin : InChunk t₀.currCapacity k (startIndex k + 4095) :=
              (inChunk_iff (by omega)).mpr (by omega)
            have hend := hin.2
            omega
          · rw [Nat.min_eq_right (by omega)]
            have heq : total - 1 = k := by omega
            rw [heq]
            exact Nat.le_max_left _ _
        exact { hmoved with }
  have hstart : Filling n t₀ m 0 (startIndex (min 0 (total - 1))) t := by
    rw [Nat.zero_min]
    exact h
  have hend := foldlM_range_inv (fun k t => Filling n t₀ m k (startIndex (min k (total - 1))) t) _
    hstep hstart hloop
  rw [Nat.min_eq_right (by omega)] at hend
  exact hend

/-- A migration into `m` buckets that succeeds has had few keys to move. -/
theorem Filling.live_le (hcap : t₀.currCapacity < 2 ^ 31)
    (h : Filling n t₀ m claimed (startIndex (totalOldChunks t₀.currCapacity - 1)) t) :
    liveCount (keysOf t₀.currData) t₀.currCapacity ≤ m + 8191 := by
  have htotal := totalOldChunks_cases hcap
  have hfew : t₀.currCapacity / 4096 ≤ totalOldChunks t₀.currCapacity := by
    split at htotal <;> omega
  have hstart : startIndex (totalOldChunks t₀.currCapacity - 1)
      = (totalOldChunks t₀.currCapacity - 1) * 4096 := rfl
  have hused : usedCount (keysOf t.currData) m ≤ m := bucketCount_le _ _ _
  have hmoved := h.moved
  have hmono : liveCount (keysOf t₀.currData) t₀.currCapacity
      ≤ liveCount (keysOf t₀.currData) (startIndex (totalOldChunks t₀.currCapacity - 1) + 8191) :=
    bucketCount_mono _ _ (by omega)
  have hadd : liveCount (keysOf t₀.currData) (startIndex (totalOldChunks t₀.currCapacity - 1) + 8191)
      ≤ liveCount (keysOf t₀.currData) (startIndex (totalOldChunks t₀.currCapacity - 1)) + 8191 :=
    bucketCount_le_add _ _ _ _
  omega

end Filling

/-! ## §2. The only fault of a migration is an `assert(false)`. -/

theorem reinsert_error {tid key : Nat} {t : Table} {e : Fault} (h : reinsert tid t key = .error e) :
    e = .assertFalse := by
  unfold reinsert at h
  split at h
  · exact (Except.error.inj h).symm
  · split at h
    · exact absurd h (by simp)
    · exact (Except.error.inj h).symm
    · exact (Except.error.inj h).symm

theorem claimBody_error {tid k : Nat} {t : Table} {e : Fault} (h : claimBody tid t k = .error e) :
    e = .assertFalse := by
  unfold claimBody at h
  simp only at h
  cases hmigrate : migrate tid { t with chunksClaimed := t.chunksClaimed + 1 } t.chunksClaimed with
  | error e' =>
      rw [hmigrate] at h
      obtain rfl := Except.error.inj h
      refine foldlM_range_error (P := fun e => e = .assertFalse) _ ?_ hmigrate
      intro i s e he
      unfold migrateBody at he
      simp only at he
      split at he
      · exact reinsert_error he
      · exact absurd he (by simp)
  | ok t' =>
      rw [hmigrate] at h
      exact absurd h (by simp [Except.map])

/-! ## §3. The invariant between calls. -/

/-- The counters of at most `n` threads lag behind by less than this. -/
def lag (n : Nat) : Nat := MAX_THREADS * max 1000 (30 * n)

/-- The invariant, with what the expansion test keeps: the table is not far
beyond half of its capacity. -/
structure Kept (n : Nat) (t : Table) : Prop extends Inv t where
  numThreads : t.insertAC.numThreads = n
  settled : t.insertAC.Settled
  few : usedCount (keysOf t.currData) t.currCapacity ≤ t.currCapacity / 2 + lag n + 1

section Calls

variable {n c tid key : Nat} {t t' : Table} {call : Call} {r : Bool}

theorem init_kept (n : Nat) (hc : 1 ≤ c) (hc' : c < 2 ^ 31) : Kept n (init n c) where
  toInv := init_inv n hc hc'
  numThreads := rfl
  settled := Counter.settled_new n
  few := by
    have hused : usedCount (keysOf fun _ => Bucket.plain EMPTY) c = 0 :=
      bucketCount_blank (fun h => h rfl) c
    show usedCount (keysOf fun _ => Bucket.plain EMPTY) c ≤ _
    rw [hused]
    exact Nat.zero_le _

theorem new_filling (n m : Nat) (t : Table) :
    Filling n t m 0 0 (Table.new t.currCapacity t.currData m n) :=
  ⟨rfl, rfl, rfl, rfl, rfl, Counter.settled_new n, Nat.zero_le _⟩

/-- How the migration into a new table of `m` buckets ends. -/
theorem helpExpansion_cases (hcap : t.currCapacity < 2 ^ 31) (n m tid : Nat) :
    helpExpansion tid (Table.new t.currCapacity t.currData m n) = .error .assertFalse
      ∨ ∃ t₁, Filling n t m (totalOldChunks t.currCapacity)
          (startIndex (totalOldChunks t.currCapacity - 1)) t₁
        ∧ helpExpansion tid (Table.new t.currCapacity t.currData m n)
          = if t₁.chunksDone = totalOldChunks t₁.oldCapacity then .ok t₁ else .error .waitsForever := by
  have hhelp : helpExpansion tid (Table.new t.currCapacity t.currData m n)
      = ((List.range (totalOldChunks t.currCapacity)).foldlM (claimBody tid)
          (Table.new t.currCapacity t.currData m n)).bind fun t =>
        if t.chunksDone = totalOldChunks t.oldCapacity then .ok t else .error .waitsForever := rfl
  cases hloop : (List.range (totalOldChunks t.currCapacity)).foldlM (claimBody tid)
      (Table.new t.currCapacity t.currData m n) with
  | error e =>
      left
      rw [hhelp, hloop]
      exact congrArg Except.error
        (foldlM_range_error (P := fun e => e = .assertFalse) _ (fun _ _ _ => claimBody_error) hloop)
  | ok t₁ =>
      right
      refine ⟨t₁, (new_filling n m t).claims hcap hloop, ?_⟩
      rw [hhelp, hloop]
      rfl

/-- **An expansion leaves a roomy table**, or fails. -/
theorem startExpansion_cases (h : Kept n t) (hn : n ≤ MAX_THREADS) (ht : tid < MAX_THREADS) :
    (∃ t', startExpansion tid t = .ok t' ∧ Kept n t' ∧ Roomy t')
      ∨ startExpansion tid t = .error .assertFalse ∨ startExpansion tid t = .error .badAlloc := by
  have hcap := h.small
  have hnoOfKeys := noOfKeys_eq h.toInv
  set live := liveCount (keysOf t.currData) t.currCapacity with hlive
  rcases Nat.eq_zero_or_pos live with hzero | hpos
  · exact Or.inr (Or.inl (startExpansion_empty h.toInv tid hzero))
  rcases Nat.lt_or_ge live (2 ^ 29) with hlt | hge
  · obtain ⟨t', hstart, hinv, hroomy, -⟩ := startExpansion_ok h.toInv ht hpos.ne' hlt
    have hcounter : t'.insertAC.numThreads = n ∧ t'.insertAC.Settled := by
      unfold startExpansion at hstart
      simp only [h.numThreads] at hstart
      split_ifs at hstart
      rcases helpExpansion_cases hcap n (toInt (4 * t.noOfKeys)).toNat tid with herr | ⟨t₁, ht₁, hok⟩
      · rw [herr] at hstart
        exact absurd hstart (by simp)
      · rw [hok] at hstart
        split at hstart
        · obtain rfl := Except.ok.inj hstart
          exact ⟨ht₁.numThreads, ht₁.settled⟩
        · exact absurd hstart (by simp)
    refine Or.inl ⟨t', hstart, ⟨hinv, hcounter.1, hcounter.2, ?_⟩, hroomy⟩
    unfold Roomy at hroomy
    omega
  · -- ===== `4 * noOfKeys` is no `int` =====
    right
    have hlag : lag n ≤ 1966080 := by
      unfold lag MAX_THREADS
      unfold MAX_THREADS at hn
      omega
    have hfew := h.few
    have hused : live ≤ usedCount (keysOf t.currData) t.currCapacity := liveCount_le_usedCount _ _
    have hwrap : toInt (4 * t.noOfKeys) = 4 * live - 2 ^ 32 := by
      rw [hnoOfKeys]
      unfold toInt
      rw [Int.bmod_def]
      split <;> omega
    rcases Nat.lt_trichotomy live (2 ^ 30) with hneg | hnull | hmany
    · right
      unfold startExpansion
      simp only
      rw [if_neg (by omega), if_pos (by omega)]
    · left
      unfold startExpansion
      simp only
      rw [if_pos (by omega)]
    · left
      unfold startExpansion
      simp only [h.numThreads]
      rw [if_neg (by omega), if_neg (by omega)]
      rcases helpExpansion_cases hcap n (toInt (4 * t.noOfKeys)).toNat tid with herr | ⟨t₁, ht₁, -⟩
      · exact herr
      · -- so many keys do not fit
        have hmoved := ht₁.live_le hcap
        omega

/-! ## §4. One call. -/

/-- A key that is put where the expansion test has failed. -/
theorem put_kept (h : Kept n t) (ht : tid < MAX_THREADS) (hk : IsKey key) (hnot : ¬ Expands t key)
    {i : Nat} (hi : i < t.currCapacity)
    (hclear : Clear (keysOf t.currData) EMPTY key (path t.currCapacity key) i)
    (hempty : keysOf t.currData (path t.currCapacity key i) = EMPTY) :
    Kept n (t.put tid (path t.currCapacity key i) key) where
  toInv := put_inv h.toInv ht hk hi hclear hempty
  numThreads := (Counter.numThreads_inc _ _).trans h.numThreads
  settled := h.settled.inc tid
  few := by
    have hget : t.insertAC.get ≤ (t.currCapacity / 2 : Nat) := by
      by_contra hlt
      refine hnot ⟨i, hi, hclear, ?_⟩
      unfold Table.isExpandNeeded
      rw [Bool.or_eq_true, decide_eq_true_eq]
      exact Or.inl (by omega)
    have hlag : MAX_THREADS * t.insertAC.threshold = lag n := by
      unfold Counter.threshold
      rw [h.numThreads]
      rfl
    have hle := h.settled.getAccurate_le
    have hins := h.inserts
    have hused := usedCount_put hk (path_lt h.pos) hempty
    show usedCount (keysOf (Function.update t.currData _ (Bucket.plain key))) t.currCapacity
      ≤ t.currCapacity / 2 + lag n + 1
    rw [keysOf_update]
    show usedCount (Function.update (keysOf t.currData) _ key) t.currCapacity ≤ _
    omega

/-- An insert that does not expand ends at once. -/
theorem insert_kept (h : Kept n t) (ht : tid < MAX_THREADS) (hk : IsKey key)
    (hnot : ¬ Expands t key) :
    (∃ r t', (∀ fuel, insertIfAbsent fuel t tid key = .ok (r, t')) ∧ Kept n t')
      ∨ ∀ fuel, insertIfAbsent fuel t tid key = .error .assertFalse := by
  rcases probe_cases h.toInv tid key with ⟨hexp, _⟩ | ⟨_, i, hi, _, _, hloop⟩
    | ⟨_, i, hi, hclear, hempty, _, hloop⟩ | ⟨_, _, hloop⟩
  · exact absurd hexp hnot
  · refine Or.inl ⟨false, t, fun fuel => ?_, h⟩
    unfold insertIfAbsent
    rw [hloop]
    rfl
  · refine Or.inl ⟨true, _, fun fuel => ?_, put_kept h ht hk hnot hi hclear hempty⟩
    unfold insertIfAbsent
    rw [hloop]
    rfl
  · refine Or.inr fun fuel => ?_
    unfold insertIfAbsent
    rw [hloop]
    rfl

/-- An erase that does not expand returns at once. -/
theorem erase_kept (h : Kept n t) (ht : tid < MAX_THREADS) (hk : IsKey key)
    (hnot : ¬ Expands t key) :
    ∃ r t', (∀ fuel, erase fuel t tid key = .ok (r, t')) ∧ Kept n t' := by
  rcases probe_cases h.toInv tid key with ⟨hexp, _⟩ | ⟨_, i, hi, _, hfound, hloop⟩
    | ⟨_, i, hi, _, _, _, hloop⟩ | ⟨_, _, hloop⟩
  · exact absurd hexp hnot
  · have hx : path t.currCapacity key i < t.currCapacity := path_lt h.pos
    have hkey : IsKey (keysOf t.currData (path t.currCapacity key i)) := by
      rw [hfound]
      exact hk
    refine ⟨true, _, fun fuel => ?_, ⟨erase_inv h.toInv ht hx hkey, h.numThreads, h.settled, ?_⟩⟩
    · unfold erase
      rw [hloop]
      rfl
    · have hused := usedCount_erase hkey hx
      have hfew := h.few
      show usedCount (keysOf (Function.update t.currData _ (Bucket.plain TOMBSTONE))) t.currCapacity
        ≤ t.currCapacity / 2 + lag n + 1
      rw [keysOf_update]
      show usedCount (Function.update (keysOf t.currData) _ TOMBSTONE) t.currCapacity ≤ _
      omega
  · refine ⟨false, t, fun fuel => ?_, h⟩
    unfold erase
    rw [hloop]
    rfl
  · refine ⟨false, t, fun fuel => ?_, h⟩
    unfold erase
    rw [hloop]
    rfl

/-- How a call ends whose restarts are not counted. -/
def Ends (n : Nat) (f : Nat → Except Fault (Bool × Table)) : Prop :=
  (∃ r t', (∀ fuel, f fuel = .ok (r, t')) ∧ Kept n t')
    ∨ (∀ fuel, f fuel = .error .assertFalse) ∨ ∀ fuel, f fuel = .error .badAlloc

/-- A call that does not expand needs no restart. -/
theorem perform_still (h : Kept n t) (call : Call) (hnot : ¬ Expands t call.key.val) :
    Ends n fun fuel => perform fuel t call := by
  unfold perform
  cases call.op with
  | insertIfAbsent =>
      rcases insert_kept h call.tid_lt call.key.isKey hnot with hret | herr
      · exact Or.inl hret
      · exact Or.inr (Or.inl herr)
  | erase => exact Or.inl (erase_kept h call.tid_lt call.key.isKey hnot)

/-- A call that expands is restarted on the new table. -/
theorem perform_restart (h : Kept n t) {call : Call} (hexp : Expands t call.key.val) :
    perform 0 t call = ((startExpansion call.tid t).bind fun _ => .error .outOfFuel)
      ∧ ∀ fuel, perform (fuel + 1) t call
        = (startExpansion call.tid t).bind fun t' => perform fuel t' call := by
  have hloop : forUntil (probeBody call.tid call.key.val) (List.range t.currCapacity) t
      = (startExpansion call.tid t).map fun t' => (t', some .restart) := by
    rcases probe_cases h.toInv call.tid call.key.val with ⟨_, hloop⟩ | ⟨hnot, _⟩ | ⟨hnot, _⟩
      | ⟨hnot, _⟩
    · exact hloop
    · exact absurd hexp hnot
    · exact absurd hexp hnot
    · exact absurd hexp hnot
  unfold perform
  cases call.op with
  | insertIfAbsent =>
      constructor
      · show insertIfAbsent 0 t call.tid call.key.val = _
        rw [insertIfAbsent, hloop]
        cases startExpansion call.tid t <;> rfl
      · intro fuel
        show insertIfAbsent (fuel + 1) t call.tid call.key.val = _
        rw [insertIfAbsent, hloop]
        cases startExpansion call.tid t <;> rfl
  | erase =>
      constructor
      · show erase 0 t call.tid call.key.val = _
        rw [erase, hloop]
        cases startExpansion call.tid t <;> rfl
      · intro fuel
        show erase (fuel + 1) t call.tid call.key.val = _
        rw [erase, hloop]
        cases startExpansion call.tid t <;> rfl

/-- **A call needs one restart at most.** -/
theorem perform_once (h : Kept n t) (hn : n ≤ MAX_THREADS) (call : Call) :
    Ends n fun fuel => perform (fuel + 1) t call := by
  by_cases hexp : Expands t call.key.val
  · simp only [(perform_restart h hexp).2]
    rcases startExpansion_cases h hn call.tid_lt with ⟨t', hstart, hkept, hroomy⟩ | herr | herr
    · rw [hstart]
      exact perform_still hkept call (hroomy.not_expands hkept.toInv _)
    · rw [herr]
      exact Or.inr (Or.inl fun _ => rfl)
    · rw [herr]
      exact Or.inr (Or.inr fun _ => rfl)
  · have hends := perform_still h call hexp
    rcases hends with ⟨r, t', hret, hkept⟩ | herr | herr
    · exact Or.inl ⟨r, t', fun fuel => hret (fuel + 1), hkept⟩
    · exact Or.inr (Or.inl fun fuel => herr (fuel + 1))
    · exact Or.inr (Or.inr fun fuel => herr (fuel + 1))

end Calls

/-! ## §5. Every reachable table. -/

/-- The tables that calls lead to. -/
inductive Reached (numThreads capacity : Nat) : Table → Prop where
  | init : Reached numThreads capacity (init numThreads capacity)
  | call {t t' : Table} {call : Call} {r : Bool} : Reached numThreads capacity t →
      Returns t call r t' → Reached numThreads capacity t'

/-- The call expands at most once, as long as no assertion fails: the new table
does not ask for an expansion at any probe, more restarts than one make no
difference, and the call ends. -/
structure OneExpansion (t : Table) (call : Call) : Prop where
  settled : ∀ t', startExpansion call.tid t = .ok t' → ∀ i, t'.isExpandNeeded i = false
  once : ∀ fuel, perform (fuel + 1) t call = perform 1 t call
  ends : (∃ r t', perform 1 t call = .ok (r, t')) ∨ perform 1 t call = .error .assertFalse
    ∨ perform 1 t call = .error .badAlloc

section Reached

variable {n c : Nat} {t t' : Table} {call : Call} {r : Bool}

theorem Kept.oneExpansion (h : Kept n t) (hn : n ≤ MAX_THREADS) (call : Call) :
    OneExpansion t call where
  settled t' hstart i := by
    rcases startExpansion_cases h hn call.tid_lt with ⟨t₁, hok, hkept, hroomy⟩ | herr | herr
    · obtain rfl := Except.ok.inj (hok.symm.trans hstart)
      exact hroomy.not_needed hkept.toInv i
    · rw [herr] at hstart
      exact absurd hstart (by simp)
    · rw [herr] at hstart
      exact absurd hstart (by simp)
  once fuel := by
    rcases perform_once h hn call with ⟨r, t', hret, -⟩ | herr | herr
    · exact (hret fuel).trans (hret 0).symm
    · exact (herr fuel).trans (herr 0).symm
    · exact (herr fuel).trans (herr 0).symm
  ends := by
    rcases perform_once h hn call with ⟨r, t', hret, -⟩ | herr | herr
    · exact Or.inl ⟨r, t', hret 0⟩
    · exact Or.inr (Or.inl (herr 0))
    · exact Or.inr (Or.inr (herr 0))

theorem Ends.kept {f : Nat → Except Fault (Bool × Table)} (h : Ends n f) {fuel : Nat}
    (hret : f fuel = .ok (r, t')) : Kept n t' := by
  rcases h with ⟨r₁, t₁, hok, hkept⟩ | herr | herr
  · obtain ⟨-, rfl⟩ := Prod.mk.inj (Except.ok.inj ((hok fuel).symm.trans hret))
    exact hkept
  · exact absurd ((herr fuel).symm.trans hret) (by simp)
  · exact absurd ((herr fuel).symm.trans hret) (by simp)

theorem Kept.returns (h : Kept n t) (hn : n ≤ MAX_THREADS) (hret : Returns t call r t') :
    Kept n t' := by
  obtain ⟨fuel, hfuel⟩ := hret
  by_cases hexp : Expands t call.key.val
  · cases fuel with
    | zero =>
        rw [(perform_restart h hexp).1] at hfuel
        cases hstart : startExpansion call.tid t <;> rw [hstart] at hfuel <;>
          exact absurd hfuel (by simp [Except.bind])
    | succ fuel => exact (perform_once h hn call).kept hfuel
  · exact (perform_still h call hexp).kept hfuel

theorem Reached.kept (hc : 1 ≤ c) (hc' : c < 2 ^ 31) (hn : n ≤ MAX_THREADS) (h : Reached n c t) :
    Kept n t := by
  induction h with
  | init => exact init_kept n hc hc'
  | call _ hret ih => exact ih.returns hn hret

/-- A call on a table without buckets ends at once. -/
theorem perform_zero (n : Nat) (call : Call) (fuel : Nat) :
    perform fuel (Sequential.init n 0) call
      = match call.op with
        | .insertIfAbsent => .error .assertFalse
        | .erase => .ok (false, Sequential.init n 0) := by
  unfold perform
  cases call.op with
  | insertIfAbsent =>
      show insertIfAbsent fuel (Sequential.init n 0) call.tid call.key.val = _
      unfold insertIfAbsent
      rfl
  | erase =>
      show erase fuel (Sequential.init n 0) call.tid call.key.val = _
      unfold erase
      rfl

theorem Reached.runs {calls : List Call} (h : Reached n c t) (hruns : runs t calls = some t') :
    Reached n c t' := by
  induction calls generalizing t with
  | nil =>
      obtain rfl : t = t' := Option.some.inj hruns
      exact h
  | cons call calls ih =>
      obtain ⟨-, r, t₁, hcall, hrest⟩ := runs_cons hruns
      exact ih (.call h ⟨1, hcall⟩) hrest

theorem Reached.zero (h : Reached n 0 t) : t = Sequential.init n 0 := by
  induction h with
  | init => rfl
  | @call t t' call r _ hret ih =>
      obtain ⟨fuel, hfuel⟩ := hret
      rw [ih, perform_zero] at hfuel
      split at hfuel
      · exact absurd hfuel (by simp)
      · exact (Prod.mk.inj (Except.ok.inj hfuel)).2.symm

theorem init_zero_oneExpansion (n : Nat) (call : Call) : OneExpansion (Sequential.init n 0) call where
  settled t' hstart := by
    have hnone : startExpansion call.tid (Sequential.init n 0) = .error .assertFalse := by
      have hkeys : (Sequential.init n 0).noOfKeys = 0 := by
        show toInt ((Counter.new n).getAccurate - (Counter.new n).getAccurate) = 0
        rw [sub_self]
        rfl
      unfold startExpansion
      rw [hkeys]
      rfl
    rw [hnone] at hstart
    exact absurd hstart (by simp)
  once fuel := by rw [perform_zero, perform_zero]
  ends := by
    rw [perform_zero]
    cases call.op with
    | insertIfAbsent => exact Or.inr (Or.inl rfl)
    | erase => exact Or.inl ⟨_, _, rfl⟩

/-- **One expansion per call**, for every table that calls lead to. -/
theorem Reached.oneExpansion (h : Reached n c t) (hc : c < 2 ^ 31) (hn : n ≤ MAX_THREADS)
    (call : Call) : OneExpansion t call := by
  rcases Nat.eq_zero_or_pos c with rfl | hpos
  · rw [h.zero]
    exact init_zero_oneExpansion n call
  · exact (h.kept hpos hc hn).oneExpansion hn call

end Reached

end MultiCore.AlgorithmD.Sequential
