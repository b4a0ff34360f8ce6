/-
  MultiCore.AlgorithmD.Bucket — the buckets and the chunks of `alg_d.h`.

  A bucket is a 32-bit word whose top bit (`MARKED_MASK`) says that it has
  been claimed for migration; `Bucket` keeps the bit and the other 31 bits
  apart.  `EMPTY` and a key are unmarked words, so comparing a bucket with one
  of them compares the mark as well.

  A migration is cut into chunks of 4096 buckets.  Their number is computed in
  single precision (`ceil((float) oldCapacity / 4096)`): `toFloat` is that
  conversion, and up to `2^24` it is exact (`totalOldChunks_eq`).
-/
import MultiCore.Util.Bucket

namespace MultiCore.AlgorithmD

open MultiCore.Lib MultiCore.Util

/-! ## §1. Buckets. -/

structure Bucket where
  /-- `getKey`: the word without the mark bit. -/
  getKey : Nat
  isMarked : Bool
  deriving Repr, DecidableEq

namespace Bucket

/-- The word of an unmarked value. -/
def plain (v : Nat) : Bucket := ⟨v, false⟩

/-- `found | MARKED_MASK`. -/
def mark (b : Bucket) : Bucket := { b with isMarked := true }

@[simp] theorem getKey_plain (v : Nat) : (plain v).getKey = v := rfl

@[simp] theorem isMarked_plain (v : Nat) : (plain v).isMarked = false := rfl

@[simp] theorem getKey_mark (b : Bucket) : b.mark.getKey = b.getKey := rfl

@[simp] theorem isMarked_mark (b : Bucket) : b.mark.isMarked = true := rfl

theorem eq_plain_iff {b : Bucket} {v : Nat} : b = plain v ↔ b.getKey = v ∧ b.isMarked = false := by
  cases b
  simp [plain]

end Bucket

/-- The values of an array of buckets, marked or not. -/
def keysOf (data : Nat → Bucket) (x : Nat) : Nat := (data x).getKey

theorem keysOf_update (data : Nat → Bucket) (x : Nat) (b : Bucket) :
    keysOf (Function.update data x b) = Function.update (keysOf data) x b.getKey :=
  Function.comp_update Bucket.getKey data x b

/-- A mark does not change what a bucket holds. -/
theorem keysOf_mark (data : Nat → Bucket) (x : Nat) :
    keysOf (Function.update data x (data x).mark) = keysOf data := by
  rw [keysOf_update]
  exact Function.update_eq_self x (keysOf data)

/-! ## §2. Chunks. -/

/-- `(float) n` for an `int` that is not negative: the nearest number with 24
significant bits, ties to the even one. -/
def toFloat (n : Nat) : Nat :=
  if n < 2 ^ 24 then n
  else
    let unit := 2 ^ (Nat.log2 n - 23)
    let quotient := n / unit
    let rest := n % unit
    let up := unit < 2 * rest ∨ unit = 2 * rest ∧ quotient % 2 = 1
    (if up then quotient + 1 else quotient) * unit

/-- `ceil((float) oldCapacity / 4096)`: dividing by a power of two is exact. -/
def totalOldChunks (oldCapacity : Nat) : Nat := (toFloat oldCapacity + 4095) / 4096

@[simp] theorem totalOldChunks_zero : totalOldChunks 0 = 0 := by decide

/-- Up to `2^24` the number of chunks is the exact ceiling. -/
theorem totalOldChunks_eq {c : Nat} (hc : c ≤ 2 ^ 24) : totalOldChunks c = (c + 4095) / 4096 := by
  unfold totalOldChunks
  rcases Nat.lt_or_eq_of_le hc with hlt | heq
  · unfold toFloat
    rw [if_pos hlt]
  · rw [heq]
    decide

/-- A table has chunks. -/
theorem totalOldChunks_pos {c : Nat} (hc : 0 < c) : 0 < totalOldChunks c := by
  have hfloat : 0 < toFloat c := by
    unfold toFloat
    split
    · exact hc
    · next hlarge =>
      have hunit : 2 ^ (Nat.log2 c - 23) ≤ c :=
        calc 2 ^ (Nat.log2 c - 23) ≤ 2 ^ Nat.log2 c :=
              Nat.pow_le_pow_right (by omega) (Nat.sub_le _ _)
          _ ≤ c := Nat.log2_self_le (by omega)
      have hquotient : 0 < c / 2 ^ (Nat.log2 c - 23) := Nat.div_pos hunit (Nat.two_pow_pos _)
      apply Nat.mul_pos
      · split
        · omega
        · exact hquotient
      · exact Nat.two_pow_pos _
  unfold totalOldChunks
  omega

/-- One more bucket than `2^24` is one too many for a `float`: its chunk is
not counted. -/
example : totalOldChunks (2 ^ 24 + 1) = 4096 := by decide

/-- A value kept in an `int`. -/
def toInt (x : Int) : Int := Int.bmod x (2 ^ 32)

theorem toInt_eq {x : Int} (h0 : -2 ^ 31 ≤ x) (h1 : x < 2 ^ 31) : toInt x = x := by
  unfold toInt
  apply Int.bmod_eq_of_le <;> omega

/-- The buckets of chunk `myChunk`: from `start_index` to before `end_index`. -/
def startIndex (myChunk : Nat) : Nat := myChunk * 4096

def endIndex (myChunk oldCapacity : Nat) : Nat :=
  (min (toInt (startIndex myChunk + 4096)) oldCapacity).toNat

theorem endIndex_le (myChunk oldCapacity : Nat) : endIndex myChunk oldCapacity ≤ oldCapacity := by
  unfold endIndex
  omega

theorem startIndex_succ (myChunk : Nat) : startIndex (myChunk + 1) = startIndex myChunk + 4096 := by
  unfold startIndex
  omega

/-- A chunk ends where the next one starts, or earlier. -/
theorem endIndex_le_succ (myChunk oldCapacity : Nat) :
    endIndex myChunk oldCapacity ≤ startIndex (myChunk + 1) := by
  have hmod : toInt (startIndex myChunk + 4096) ≤ startIndex myChunk + 4096 := by
    unfold toInt
    rw [Int.bmod_def]
    split <;> omega
  rw [startIndex_succ]
  unfold endIndex
  omega

-- the elaborator is not to compute with `2 ^ 32` when it compares indices
attribute [irreducible] endIndex

end MultiCore.AlgorithmD
