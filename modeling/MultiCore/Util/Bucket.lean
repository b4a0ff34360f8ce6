/-
  MultiCore.Util.Bucket — keys, bucket values and the hash function of the
  open-addressing tables (assignments 4 and 7).

  A bucket is a 32-bit word: `EMPTY`, `TOMBSTONE` or a key, the last two below
  `2^31`; assignment 4 additionally sets the top bit (`MARKED_MASK`) of a
  bucket of a table that is being migrated.  The real keys are
  `1 .. 0x7FFFFFFE`.
-/
import Mathlib.Data.Nat.Bitwise
import MultiCore.Lib.OpenAddressing
import MultiCore.Util.Counter

namespace MultiCore.Util

open MultiCore.Lib

/-! ## §1. Bucket values. -/

def EMPTY : Nat := 0

/-- The largest value without the mark bit. -/
def TOMBSTONE : Nat := 0x7FFFFFFF

def MARKED_MASK : Nat := 0x80000000

/-- A bucket value that is a key. -/
def IsKey (v : Nat) : Prop := v ≠ EMPTY ∧ v ≠ TOMBSTONE

instance : DecidablePred IsKey := fun v => inferInstanceAs (Decidable (v ≠ EMPTY ∧ v ≠ TOMBSTONE))

/-- The keys the tables accept. -/
structure Key where
  val : Nat
  pos : 1 ≤ val
  le : val ≤ 0x7FFFFFFE
  deriving Repr, DecidableEq

theorem Key.ext_val {k k' : Key} (h : k.val = k'.val) : k = k' := by
  cases k
  cases k'
  simpa using h

theorem Key.isKey (k : Key) : IsKey k.val := by
  have h₁ := k.pos
  have h₂ := k.le
  constructor
  · show k.val ≠ 0
    omega
  · show k.val ≠ 0x7FFFFFFF
    omega

theorem Key.ne_empty (k : Key) : k.val ≠ EMPTY := k.isKey.1

theorem Key.ne_tombstone (k : Key) : k.val ≠ TOMBSTONE := k.isKey.2

theorem not_isKey_empty : ¬ IsKey EMPTY := fun h => h.1 rfl

theorem not_isKey_tombstone : ¬ IsKey TOMBSTONE := fun h => h.2 rfl

theorem tombstone_ne_empty : TOMBSTONE ≠ EMPTY := by decide

/-! ## §2. The hash function. -/

/-- `murmur3`, in `uint32_t` arithmetic. -/
def murmur3 (key : UInt32) : UInt32 :=
  let seed : UInt32 := 0x1a8b714c
  let c1 : UInt32 := 0xCC9E2D51
  let c2 : UInt32 := 0x1B873593
  let n : UInt32 := 0xE6546B64
  let k := key * c1
  let k := (k <<< 15) ||| (k >>> 17)
  let k := k * c2
  let h := k ^^^ seed
  let h := (h <<< 13) ||| (h >>> 19)
  let h := h * 5 + n
  let h := h ^^^ 4
  let h := h ^^^ (h >>> 16)
  let h := h * 0x85EBCA6B
  let h := h ^^^ (h >>> 13)
  let h := h * 0xC2B2AE35
  h ^^^ (h >>> 16)

/-- `uint32_t h = murmur3(key)`. -/
def hash (key : Nat) : Nat := (murmur3 (UInt32.ofNat key)).toNat

theorem hash_lt (key : Nat) : hash key < 2 ^ 32 := UInt32.toNat_lt _

/-- The probe path of a key in a table of capacity `c`:
`index = (h + i) % capacity`. -/
def path (c key i : Nat) : Nat := probeIndex (hash key) c i

theorem path_lt {c key i : Nat} (hc : 0 < c) : path c key i < c := probeIndex_lt hc

/-- The buckets that hold keys. -/
def liveCount (b : Nat → Nat) (c : Nat) : Nat := bucketCount IsKey b c

/-- The buckets that are not empty: keys and tombstones. -/
def usedCount (b : Nat → Nat) (c : Nat) : Nat := bucketCount (fun v => v ≠ EMPTY) b c

theorem liveCount_le_usedCount (b : Nat → Nat) (c : Nat) : liveCount b c ≤ usedCount b c := by
  unfold liveCount usedCount bucketCount
  refine Finset.card_le_card ?_
  intro x hx
  rw [Finset.mem_filter] at hx ⊢
  exact ⟨hx.1, hx.2.1⟩

/-- A key put into an empty bucket is one more live bucket, and one more used. -/
theorem liveCount_put {b : Nat → Nat} {c x key : Nat} (hk : IsKey key) (hx : x < c)
    (hempty : b x = EMPTY) : liveCount (Function.update b x key) c = liveCount b c + 1 := by
  unfold liveCount
  apply bucketCount_update_add hx
  · rw [hempty]
    exact not_isKey_empty
  · exact hk

theorem usedCount_put {b : Nat → Nat} {c x key : Nat} (hk : IsKey key) (hx : x < c)
    (hempty : b x = EMPTY) : usedCount (Function.update b x key) c = usedCount b c + 1 := by
  unfold usedCount
  apply bucketCount_update_add hx
  · rw [hempty]
    exact fun h => h rfl
  · exact hk.1

/-- A key replaced by a tombstone is one live bucket less; the bucket stays in
use. -/
theorem liveCount_erase {b : Nat → Nat} {c x : Nat} (hk : IsKey (b x)) (hx : x < c) :
    liveCount (Function.update b x TOMBSTONE) c + 1 = liveCount b c := by
  unfold liveCount
  exact bucketCount_update_sub hx hk not_isKey_tombstone

theorem usedCount_erase {b : Nat → Nat} {c x : Nat} (hk : IsKey (b x)) (hx : x < c) :
    usedCount (Function.update b x TOMBSTONE) c = usedCount b c := by
  unfold usedCount
  exact bucketCount_update_same hx ⟨fun _ => tombstone_ne_empty, fun _ => hk.1⟩

/-- A table well placed for the probe paths of its capacity. -/
abbrev WellPlaced (b : Nat → Nat) (c : Nat) : Prop := Placed b EMPTY IsKey (path c) c

/-! ## §3. The keys of a table. -/

/-- The keys the buckets hold. -/
def keySet (b : Nat → Nat) (c : Nat) : Finset Nat :=
  ((Finset.range c).filter (fun x => IsKey (b x))).image b

theorem mem_keySet {b : Nat → Nat} {c v : Nat} : v ∈ keySet b c ↔ IsKey v ∧ ∃ x < c, b x = v := by
  unfold keySet
  rw [Finset.mem_image]
  constructor
  · intro h
    obtain ⟨x, hx, rfl⟩ := h
    rw [Finset.mem_filter, Finset.mem_range] at hx
    exact ⟨hx.2, x, hx.1, rfl⟩
  · intro h
    obtain ⟨hk, x, hx, rfl⟩ := h
    refine ⟨x, ?_, rfl⟩
    rw [Finset.mem_filter, Finset.mem_range]
    exact ⟨hx, hk⟩

theorem keySet_blank (c : Nat) : keySet (fun _ => EMPTY) c = ∅ := by
  unfold keySet
  rw [Finset.filter_false_of_mem (fun _ _ => not_isKey_empty), Finset.image_empty]

/-- A well placed table has no two buckets with one key. -/
theorem WellPlaced.injOn {b : Nat → Nat} {c : Nat} (h : WellPlaced b c) :
    Set.InjOn b ((Finset.range c).filter (fun x => IsKey (b x))) := by
  intro x hx y hy hxy
  rw [Finset.mem_coe, Finset.mem_filter, Finset.mem_range] at hx hy
  exact h.unique hx.1 hy.1 hx.2 hxy

/-- The keys of a well placed table are as many as its live buckets. -/
theorem card_keySet {b : Nat → Nat} {c : Nat} (h : WellPlaced b c) :
    (keySet b c).card = liveCount b c := by
  unfold liveCount bucketCount
  exact Finset.card_image_of_injOn h.injOn

/-- Adding up the buckets of a well placed table adds up its keys. -/
theorem sum_keySet {b : Nat → Nat} {c : Nat} (h : WellPlaced b c) :
    (∑ x ∈ Finset.range c, if b x ≠ TOMBSTONE ∧ b x ≠ EMPTY then b x else 0)
      = ∑ k ∈ keySet b c, k := by
  have hkey : ∀ v, (v ≠ TOMBSTONE ∧ v ≠ EMPTY) ↔ IsKey v := fun v => and_comm
  unfold keySet
  rw [Finset.sum_image h.injOn, Finset.sum_filter]
  simp only [hkey]

theorem keySet_put {b : Nat → Nat} {c x key : Nat} (hk : IsKey key) (hx : x < c)
    (hempty : b x = EMPTY) : keySet (Function.update b x key) c = insert key (keySet b c) := by
  ext v
  rw [Finset.mem_insert, mem_keySet, mem_keySet]
  constructor
  · intro h
    obtain ⟨hv, y, hy, hyv⟩ := h
    by_cases hyx : y = x
    · rw [hyx, Function.update_self] at hyv
      exact Or.inl hyv.symm
    · rw [Function.update_of_ne hyx] at hyv
      exact Or.inr ⟨hv, y, hy, hyv⟩
  · intro h
    rcases h with rfl | h
    · exact ⟨hk, x, hx, Function.update_self ..⟩
    · obtain ⟨hv, y, hy, hyv⟩ := h
      have hyx : y ≠ x := by
        intro heq
        rw [heq, hempty] at hyv
        exact not_isKey_empty (hyv ▸ hv)
      exact ⟨hv, y, hy, by rw [Function.update_of_ne hyx, hyv]⟩

/-- A tombstone takes its key out of the set: no other bucket holds it. -/
theorem keySet_erase {b : Nat → Nat} {c x : Nat} (h : WellPlaced b c) (hx : x < c) :
    keySet (Function.update b x TOMBSTONE) c = (keySet b c).erase (b x) := by
  ext v
  rw [Finset.mem_erase, mem_keySet, mem_keySet]
  constructor
  · intro hmem
    obtain ⟨hv, y, hy, hyv⟩ := hmem
    have hyx : y ≠ x := by
      intro heq
      rw [heq, Function.update_self] at hyv
      exact not_isKey_tombstone (hyv ▸ hv)
    rw [Function.update_of_ne hyx] at hyv
    refine ⟨?_, hv, y, hy, hyv⟩
    intro heq
    exact hyx (h.unique hy hx (hyv ▸ hv) (by rw [hyv, heq]))
  · intro hmem
    obtain ⟨hne, hv, y, hy, hyv⟩ := hmem
    have hyx : y ≠ x := by
      intro heq
      exact hne (by rw [← hyv, heq])
    exact ⟨hv, y, hy, by rw [Function.update_of_ne hyx, hyv]⟩

/-! ## §4. Calls. -/

inductive Op where
  | insertIfAbsent
  | erase
  deriving Repr, DecidableEq

/-- A call on a table, by a thread whose id indexes the subcounters. -/
structure Call where
  op : Op
  tid : Nat
  key : Key
  tid_lt : tid < MAX_THREADS

end MultiCore.Util
