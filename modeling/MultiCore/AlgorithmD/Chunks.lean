/-
  MultiCore.AlgorithmD.Chunks — do the chunks of a migration partition the old
  table?

  Their number goes through a `float`.  From `2^24` on the conversion rounds: a
  capacity just above a multiple of 4096 becomes that multiple, and the last
  chunk is not counted.  The bounds of a chunk are `int`s: from the last
  multiple of 4096 below `2^31` on, `start_index + 4096` is not one.
-/
import MultiCore.AlgorithmD.Bucket

namespace MultiCore.AlgorithmD

/-- Bucket `x` belongs to chunk `myChunk`. -/
def InChunk (oldCapacity myChunk x : Nat) : Prop :=
  startIndex myChunk ≤ x ∧ x < endIndex myChunk oldCapacity

/-- The chunks partition the old table, in `int` arithmetic. -/
structure ChunksPartition (oldCapacity : Nat) : Prop where
  disjoint : ∀ k < totalOldChunks oldCapacity, ∀ k' < totalOldChunks oldCapacity, k ≠ k' →
    ∀ x, InChunk oldCapacity k x → ¬ InChunk oldCapacity k' x
  covers : ∀ x < oldCapacity, ∃ k < totalOldChunks oldCapacity, InChunk oldCapacity k x
  inside : ∀ k < totalOldChunks oldCapacity, ∀ x, InChunk oldCapacity k x → x < oldCapacity
  no_overflow : totalOldChunks oldCapacity < 2 ^ 31
    ∧ ∀ k < totalOldChunks oldCapacity, startIndex k + 4096 < 2 ^ 31

/-- The distance between neighbouring `float`s at `n` (1 below `2^24`). -/
def floatUnit (n : Nat) : Nat := 2 ^ (Nat.log2 n - 23)

/-- A capacity that the conversion rounds down to a multiple of 4096. -/
def LastChunkDropped (c : Nat) : Prop := c % 4096 ≠ 0 ∧ 2 * (c % 4096) ≤ floatUnit c

instance (c : Nat) : Decidable (LastChunkDropped c) :=
  inferInstanceAs (Decidable (c % 4096 ≠ 0 ∧ 2 * (c % 4096) ≤ floatUnit c))

/-- The unit is one of 2, 4, .., 128 there, and divides 4096 an even number of
times: a tie at a multiple of 4096 goes down. -/
theorem ceil_round {c u : Nat} (hu : ∃ l, 1 ≤ l ∧ l < 8 ∧ u = 2 ^ l) :
    ((if u < 2 * (c % u) ∨ u = 2 * (c % u) ∧ c / u % 2 = 1 then c / u + 1 else c / u) * u + 4095) / 4096
      = if c % 4096 ≠ 0 ∧ 2 * (c % 4096) ≤ u then c / 4096 else (c + 4095) / 4096 := by
  obtain ⟨l, hlo, hhi, rfl⟩ := hu
  obtain rfl | rfl | rfl | rfl | rfl | rfl | rfl :
      l = 1 ∨ l = 2 ∨ l = 3 ∨ l = 4 ∨ l = 5 ∨ l = 6 ∨ l = 7 := by omega
  all_goals
    split <;> split <;> omega

/-- **The number of chunks, at every capacity.** -/
theorem totalOldChunks_cases {c : Nat} (hc : c < 2 ^ 31) :
    totalOldChunks c = if LastChunkDropped c then c / 4096 else (c + 4095) / 4096 := by
  rcases Nat.lt_or_ge c (2 ^ 24) with hsmall | hlarge
  · rw [totalOldChunks_eq (by omega)]
    have hlog : Nat.log2 c < 24 := by
      rcases Nat.eq_zero_or_pos c with rfl | hpos
      · decide
      · exact (Nat.log2_lt (by omega)).mpr hsmall
    have hunit : Nat.log2 c - 23 = 0 := by omega
    have hno : ¬ LastChunkDropped c := by
      rintro ⟨hrest, hle⟩
      unfold floatUnit at hle
      rw [hunit] at hle
      omega
    rw [if_neg hno]
  · unfold totalOldChunks toFloat
    rw [if_neg (by omega)]
    have hlo : 24 ≤ Nat.log2 c := (Nat.le_log2 (by omega)).mpr hlarge
    have hhi : Nat.log2 c < 31 := (Nat.log2_lt (by omega)).mpr hc
    exact ceil_round ⟨Nat.log2 c - 23, by omega, by omega, rfl⟩

/-- A chunk ends at most 4096 buckets behind its start. -/
theorem InChunk.lt_succ {c k x : Nat} (h : InChunk c k x) : x < startIndex k + 4096 := by
  have hend := endIndex_le_succ k c
  rw [startIndex_succ] at hend
  exact Nat.lt_of_lt_of_le h.2 hend

/-- Without overflow a chunk is what its bounds say. -/
theorem inChunk_iff {c k x : Nat} (hk : startIndex k + 4096 < 2 ^ 31) :
    InChunk c k x ↔ startIndex k ≤ x ∧ x < startIndex k + 4096 ∧ x < c := by
  unfold InChunk endIndex
  rw [toInt_eq (by omega) (by omega)]
  omega

/-- **The chunks partition the old table exactly when** its capacity is at most
`2^31 - 4096` and is not rounded down to a multiple of 4096. -/
theorem chunks_partition_iff (c : Nat) (hc : c ≤ 2 ^ 31 - 1) :
    ChunksPartition c ↔ c ≤ 2 ^ 31 - 4096 ∧ ¬ LastChunkDropped c := by
  have htotal := totalOldChunks_cases (c := c) (by omega)
  constructor
  · intro h
    by_contra hno
    -- the last bucket is in no chunk, unless the bounds of the last chunk overflow
    by_cases hdrop : LastChunkDropped c
    · rw [if_pos hdrop] at htotal
      have hrest := hdrop.1
      obtain ⟨k, hk, hin⟩ := h.covers (c - 1) (by omega)
      have hlt := hin.lt_succ
      unfold startIndex at hlt
      omega
    · rw [if_neg hdrop] at htotal
      have hlarge : 2 ^ 31 - 4096 < c := by
        by_contra hle
        exact hno ⟨by omega, hdrop⟩
      have hover := h.no_overflow.2 524287 (by omega)
      unfold startIndex at hover
      omega
  · rintro ⟨hle, hdrop⟩
    rw [if_neg hdrop] at htotal
    have hno : ∀ k < totalOldChunks c, startIndex k + 4096 < 2 ^ 31 := by
      intro k hk
      unfold startIndex
      omega
    refine ⟨?_, ?_, ?_, ⟨by omega, hno⟩⟩
    · intro k hk k' hk' hne x hin hin'
      rw [inChunk_iff (hno k hk)] at hin
      rw [inChunk_iff (hno k' hk')] at hin'
      unfold startIndex at hin hin'
      omega
    · intro x hx
      have hk : x / 4096 < totalOldChunks c := by omega
      refine ⟨x / 4096, hk, ?_⟩
      rw [inChunk_iff (hno _ hk)]
      unfold startIndex
      omega
    · intro k hk x hin
      exact ((inChunk_iff (hno k hk)).mp hin).2.2

/-- A `float` holds 20000001 as 20000000, and no chunk is lost by that. -/
theorem chunks_partition_rounded : toFloat 20000001 = 20000000
    ∧ ChunksPartition 20000001 := by
  refine ⟨by decide, (chunks_partition_iff 20000001 (by decide)).mpr ⟨by decide, by decide⟩⟩

/-- The last bucket of a table of `2^24 + 1` is in none of its 4096 chunks. -/
theorem chunks_partition_fails : ¬ ChunksPartition (2 ^ 24 + 1) := by
  intro h
  have htotal : totalOldChunks (2 ^ 24 + 1) = 4096 := by decide
  obtain ⟨k, hk, hin⟩ := h.covers (2 ^ 24) (by omega)
  have hlt := hin.lt_succ
  unfold startIndex at hlt
  omega

end MultiCore.AlgorithmD
