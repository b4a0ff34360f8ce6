/-
  MultiCore.Util.Murmur3 — `murmur3` loses nothing.

  Each of its lines can be undone: a multiplication by an odd constant, a
  rotation, an xor with a constant and an xor with the word's own high bits are
  injective on `uint32_t`.  So two keys have different hashes, and meet in a
  table only because of `% capacity`.
-/
import MultiCore.Util.Bucket

namespace MultiCore.Util

/-! ## §1. The lines of `murmur3`. -/

section Lines

variable {x y : UInt32}

theorem mul_inj {c d : UInt32} (hinv : c * d = 1) (h : x * c = y * c) : x = y := by
  have hback : ∀ z : UInt32, z * c * d = z := by
    intro z
    rw [UInt32.mul_assoc, hinv, UInt32.mul_one]
  rw [← hback x, h, hback]

theorem xor_inj {c : UInt32} (h : x ^^^ c = y ^^^ c) : x = y := by
  have hback : ∀ z : UInt32, z ^^^ c ^^^ c = z := by
    intro z
    rw [UInt32.xor_assoc, UInt32.xor_self, UInt32.xor_zero]
  rw [← hback x, h, hback]

end Lines

section Bits

variable {w : ℕ} {x y : BitVec w}

/-- A rotation by `k`. -/
theorem rotate_inj {k : ℕ} (hk : k ≤ w) (h : x <<< k ||| x >>> (w - k) = y <<< k ||| y >>> (w - k)) :
    x = y := by
  have hbit : ∀ (z : BitVec w) (i : ℕ), i < w → (z <<< k ||| z >>> (w - k)).getLsbD i
      = if i < k then z.getLsbD (w - k + i) else z.getLsbD (i - k) := by
    intro z i hi
    rw [BitVec.getLsbD_or, BitVec.getLsbD_shiftLeft, BitVec.getLsbD_ushiftRight]
    by_cases hik : i < k
    · simp [hi, hik]
    · have hout : w ≤ w - k + i := by omega
      simp [hi, hik, BitVec.getLsbD_of_ge z _ hout]
  apply BitVec.eq_of_getLsbD_eq
  intro j hj
  -- where bit `j` has gone
  by_cases hjk : j < w - k
  · have hat := congrArg (fun z => z.getLsbD (j + k)) h
    simp only [hbit _ _ (show j + k < w by omega), if_neg (show ¬ j + k < k by omega),
      Nat.add_sub_cancel] at hat
    exact hat
  · have hat := congrArg (fun z => z.getLsbD (j - (w - k))) h
    simp only [hbit _ _ (show j - (w - k) < w by omega), if_pos (show j - (w - k) < k by omega),
      show w - k + (j - (w - k)) = j by omega] at hat
    exact hat

/-- The high bits are as they were, and each bit is recovered from a higher one. -/
theorem xor_shift_inj {k : ℕ} (hk : 0 < k) (h : x ^^^ x >>> k = y ^^^ y >>> k) : x = y := by
  have hbit : ∀ n j, w ≤ j + n → x.getLsbD j = y.getLsbD j := by
    intro n
    induction n with
    | zero =>
        intro j hj
        rw [BitVec.getLsbD_of_ge x j hj, BitVec.getLsbD_of_ge y j hj]
    | succ n ih =>
        intro j hj
        have hhigh := ih (k + j) (by omega)
        have hat := congrArg (fun z => z.getLsbD j) h
        simp only [BitVec.getLsbD_xor, BitVec.getLsbD_ushiftRight, hhigh] at hat
        exact Bool.xor_left_inj.mp hat
  apply BitVec.eq_of_getLsbD_eq
  intro j hj
  exact hbit w j (by omega)

end Bits

/-! ## §2. The hash. -/

section Hash

variable {x y : UInt32}

theorem rotate15_inj (h : x <<< 15 ||| x >>> 17 = y <<< 15 ||| y >>> 17) : x = y := by
  apply UInt32.toBitVec_inj.mp
  apply rotate_inj (show 15 ≤ 32 by decide)
  simpa using congrArg UInt32.toBitVec h

theorem rotate13_inj (h : x <<< 13 ||| x >>> 19 = y <<< 13 ||| y >>> 19) : x = y := by
  apply UInt32.toBitVec_inj.mp
  apply rotate_inj (show 13 ≤ 32 by decide)
  simpa using congrArg UInt32.toBitVec h

theorem xor_shift16_inj (h : x ^^^ x >>> 16 = y ^^^ y >>> 16) : x = y := by
  apply UInt32.toBitVec_inj.mp
  apply xor_shift_inj (show 0 < 16 by decide)
  simpa using congrArg UInt32.toBitVec h

theorem xor_shift13_inj (h : x ^^^ x >>> 13 = y ^^^ y >>> 13) : x = y := by
  apply UInt32.toBitVec_inj.mp
  apply xor_shift_inj (show 0 < 13 by decide)
  simpa using congrArg UInt32.toBitVec h

end Hash

/-- **Two keys have different hashes.** -/
theorem murmur3_injective : Function.Injective murmur3 := by
  intro x y h
  -- from the last line to the first
  have h₁ := xor_shift16_inj h
  have h₂ := mul_inj (d := 0x7ED1B41D) (by decide) h₁
  have h₃ := xor_shift13_inj h₂
  have h₄ := mul_inj (d := 0xA5CB9243) (by decide) h₃
  have h₅ := xor_inj (xor_shift16_inj h₄)
  have h₆ := mul_inj (d := 0xCCCCCCCD) (by decide) ((UInt32.add_left_inj _).mp h₅)
  have h₇ := xor_inj (rotate13_inj h₆)
  have h₈ := mul_inj (d := 0x56ED309B) (by decide) h₇
  exact mul_inj (d := 0xDEE13BB1) (by decide) (rotate15_inj h₈)

end MultiCore.Util
