/-
  MultiCore.KCASLockFree.Encoding — the words of the model as the 64 bits of the
  source.

  `Word`, `Tag` and `SeqBits` are triples and pairs in the model; in the source
  they are fields of one machine word, which the macros of `kcas_reuse_impl.h`
  pack, unpack and compare.  A sequence number has `WIDTH_SEQ` bits, a thread id
  the bits between the tag bits and `OFFSET_SEQ`.

    * `decode_encode` — a word that fits is read back from its bits;
    * `represented` — the words of a run fit, so that a CAS compares bits as the
      model compares words, and `KCAS_SEQBITS_NEW`, `DESC_INITIALIZED` and
      `DESC_READ_FIELD` do on the bits what the model does on `SeqBits`, as long
      as no sequence number overflows.
-/
import MultiCore.KCASLockFree.Atomic
import Mathlib.Data.Nat.Bitwise

namespace MultiCore.KCASLockFree

open MultiCore.Lib MultiCore.Kcas

/-! ## §1. Bit fields. -/

/-- Masking the `w` bits from bit `k` on. -/
theorem and_mask (x w k : ℕ) : x &&& ((2 ^ w - 1) * 2 ^ k) = x / 2 ^ k % 2 ^ w * 2 ^ k := by
  apply Nat.eq_of_testBit_eq
  intro i
  rw [Nat.testBit_and, Nat.testBit_mul_two_pow, Nat.testBit_mul_two_pow]
  by_cases hi : k ≤ i
  · have hbit : (x / 2 ^ k).testBit (i - k) = x.testBit i := by
      rw [Nat.testBit_div_two_pow]
      congr 1
      omega
    rw [Nat.testBit_two_pow_sub_one, Nat.testBit_mod_two_pow, hbit, Bool.and_comm]
    simp [hi]
  · simp [hi]

/-- An or of disjoint fields is a sum. -/
theorem or_eq_add {a b k : ℕ} (hb : b < 2 ^ k) : a * 2 ^ k ||| b = a * 2 ^ k + b := by
  rw [← Nat.shiftLeft_eq, Nat.shiftLeft_add_eq_or_of_lt hb]

/-! ## §2. The macros. -/

/-- `casword_t`, `tagptr_t` and `seqbits_t`. -/
abbrev Bits := BitVec 64

def WIDTH_SEQ : ℕ := 48

def MASK_SEQ : Bits := ((1#64 <<< WIDTH_SEQ) - 1#64) <<< OFFSET_SEQ

def UNPACK_SEQ (tagptrOrSeqbits : Bits) : Bits := tagptrOrSeqbits >>> OFFSET_SEQ

def TAGPTR_OFFSET_TID : ℕ := 3

def TAGPTR_MASK_USER : Bits := (1#64 <<< TAGPTR_OFFSET_TID) - 1#64

def TAGPTR_MASK_TID : Bits := ((1#64 <<< OFFSET_SEQ) - 1#64) &&& ~~~TAGPTR_MASK_USER

def TAGPTR_UNPACK_TID (tagptr : Bits) : Bits := (tagptr &&& TAGPTR_MASK_TID) >>> TAGPTR_OFFSET_TID

def TAGPTR_NEW (tid seqBits userBits : Bits) : Bits :=
  (UNPACK_SEQ seqBits <<< OFFSET_SEQ) ||| ((tid <<< TAGPTR_OFFSET_TID) ||| userBits)

def LAST_TID : Bits := TAGPTR_MASK_TID >>> TAGPTR_OFFSET_TID

def RDCSS_TAGBIT : Bits := 0x1#64

def KCAS_TAGBIT : Bits := 0x2#64

def isRdcss (val : Bits) : Bool := val &&& RDCSS_TAGBIT != 0#64

def isKcas (val : Bits) : Bool := val &&& KCAS_TAGBIT != 0#64

def KCAS_SEQBITS_MASK_STATE : Bits := 0xf#64

def KCAS_SEQBITS_OFFSET_STATE : ℕ := 0

/-- The values of `KCAS_STATE_UNDECIDED`, `KCAS_STATE_SUCCEEDED` and
`KCAS_STATE_FAILED`. -/
def KState.bits : KState → Bits
  | undecided => 0#64
  | succeeded => 4#64
  | failed => 8#64

def SEQBITS_UNPACK_FIELD (seqBits mask : Bits) (offset : ℕ) : Bits := (seqBits &&& mask) >>> offset

def KCAS_SEQBITS_NEW (seqBits : Bits) : Bits :=
  ((seqBits &&& MASK_SEQ) + (1#64 <<< OFFSET_SEQ))
    ||| (KState.undecided.bits <<< KCAS_SEQBITS_OFFSET_STATE)

/-- What `DESC_INITIALIZED` assigns to the field. -/
def DESC_INITIALIZED (seqBits : Bits) : Bits := seqBits + (1#64 <<< OFFSET_SEQ)

/-- `successBit` and the value of `DESC_READ_FIELD`. -/
def DESC_READ_FIELD (fldSeqBits tagptr mask : Bits) (offset : ℕ) : Bool × Bits :=
  (decide (fldSeqBits &&& MASK_SEQ = tagptr &&& MASK_SEQ),
    SEQBITS_UNPACK_FIELD fldSeqBits mask offset)

section Macros

variable (x : Bits)

theorem unpack_seq_toNat : (UNPACK_SEQ x).toNat = x.toNat / 2 ^ 14 := by
  rw [UNPACK_SEQ, BitVec.toNat_ushiftRight, Nat.shiftRight_eq_div_pow]
  rfl

theorem and_mask_seq_toNat : (x &&& MASK_SEQ).toNat = x.toNat / 2 ^ 14 % 2 ^ 48 * 2 ^ 14 := by
  rw [BitVec.toNat_and]
  exact and_mask x.toNat 48 14

theorem unpack_tid_toNat : (TAGPTR_UNPACK_TID x).toNat = x.toNat / 2 ^ 3 % 2 ^ 11 := by
  rw [TAGPTR_UNPACK_TID, BitVec.toNat_ushiftRight, BitVec.toNat_and]
  have hmask : x.toNat &&& TAGPTR_MASK_TID.toNat = x.toNat / 2 ^ 3 % 2 ^ 11 * 2 ^ 3 :=
    and_mask x.toNat 11 3
  rw [hmask, Nat.shiftRight_eq_div_pow]
  exact Nat.mul_div_cancel _ (by decide)

theorem isRdcss_iff : isRdcss x = true ↔ x.toNat % 2 = 1 := by
  have hmask : (x &&& RDCSS_TAGBIT).toNat = x.toNat / 2 ^ 0 % 2 ^ 1 * 2 ^ 0 := by
    rw [BitVec.toNat_and]
    exact and_mask x.toNat 1 0
  rw [isRdcss, bne_iff_ne, ne_eq, ← BitVec.toNat_inj, hmask, BitVec.toNat_ofNat]
  omega

theorem isKcas_iff : isKcas x = true ↔ x.toNat / 2 % 2 = 1 := by
  have hmask : (x &&& KCAS_TAGBIT).toNat = x.toNat / 2 ^ 1 % 2 ^ 1 * 2 ^ 1 := by
    rw [BitVec.toNat_and]
    exact and_mask x.toNat 1 1
  rw [isKcas, bne_iff_ne, ne_eq, ← BitVec.toNat_inj, hmask, BitVec.toNat_ofNat]
  omega

theorem unpack_state_toNat : (SEQBITS_UNPACK_FIELD x KCAS_SEQBITS_MASK_STATE
    KCAS_SEQBITS_OFFSET_STATE).toNat = x.toNat % 2 ^ 4 := by
  have hmask : (x &&& KCAS_SEQBITS_MASK_STATE).toNat = x.toNat / 2 ^ 0 % 2 ^ 4 * 2 ^ 0 := by
    rw [BitVec.toNat_and]
    exact and_mask x.toNat 4 0
  rw [SEQBITS_UNPACK_FIELD, BitVec.toNat_ushiftRight, hmask]
  show (x.toNat / 2 ^ 0 % 2 ^ 4 * 2 ^ 0) >>> 0 = _
  rw [Nat.shiftRight_zero, pow_zero, Nat.div_one, Nat.mul_one]

end Macros

/-! ## §3. Words. -/

/-- The fields of `tagptr_t` are wide enough. -/
def Tag.Fits (t : Tag) : Prop := t.tid ≤ LAST_TID.toNat ∧ t.seq < 2 ^ WIDTH_SEQ

/-- The word has a representation: a value leaves the tag bits clear. -/
def Word.Fits : Word → Prop
  | plain v => v % 2 ^ KCAS_LEFTSHIFT = 0 ∧ v < 2 ^ 64
  | rdcss t => t.Fits
  | kcas t => t.Fits

def Tag.bits (t : Tag) (userBits : Bits) : Bits :=
  TAGPTR_NEW (BitVec.ofNat 64 t.tid) (BitVec.ofNat 64 t.seq <<< OFFSET_SEQ) userBits

def Word.bits : Word → Bits
  | plain v => BitVec.ofNat 64 v
  | rdcss t => t.bits RDCSS_TAGBIT
  | kcas t => t.bits KCAS_TAGBIT

/-- What the code takes the bits of a word for. -/
def decode (x : Bits) : Word :=
  if isRdcss x then .rdcss ⟨(TAGPTR_UNPACK_TID x).toNat, (UNPACK_SEQ x).toNat⟩
  else if isKcas x then .kcas ⟨(TAGPTR_UNPACK_TID x).toNat, (UNPACK_SEQ x).toNat⟩
  else .plain x.toNat

section Words

variable {t : Tag} {w w' : Word}

/-- The two fields, as numbers. -/
theorem Tag.Fits.fields (h : t.Fits) :
    ∃ tid seq : ℕ, t = ⟨tid, seq⟩ ∧ tid < 2 ^ 11 ∧ seq < 2 ^ 48 := by
  have hlast : LAST_TID.toNat = 2047 := by decide
  have htid := h.1
  rw [hlast] at htid
  exact ⟨t.tid, t.seq, rfl, Nat.lt_succ_of_le htid, h.2⟩

theorem tagBits_toNat {tid seq : ℕ} (htid : tid < 2 ^ 11) (hseq : seq < 2 ^ 48) {u : Bits}
    (hu : u.toNat < 2 ^ 3) :
    (Tag.bits ⟨tid, seq⟩ u).toNat = seq * 2 ^ 14 + (tid * 2 ^ 3 + u.toNat) := by
  have hhigh : (UNPACK_SEQ (BitVec.ofNat 64 seq <<< OFFSET_SEQ) <<< OFFSET_SEQ).toNat
      = seq * 2 ^ 14 := by
    rw [BitVec.toNat_shiftLeft, unpack_seq_toNat, BitVec.toNat_shiftLeft, BitVec.toNat_ofNat,
      Nat.shiftLeft_eq, Nat.shiftLeft_eq, OFFSET_SEQ]
    omega
  have hlow : (BitVec.ofNat 64 tid <<< TAGPTR_OFFSET_TID).toNat = tid * 2 ^ 3 := by
    rw [BitVec.toNat_shiftLeft, BitVec.toNat_ofNat, Nat.shiftLeft_eq, TAGPTR_OFFSET_TID]
    omega
  rw [Tag.bits, TAGPTR_NEW, BitVec.toNat_or, BitVec.toNat_or, hhigh, hlow, or_eq_add hu]
  exact or_eq_add (by omega)

theorem Tag.Fits.unpack (h : t.Fits) {u : Bits} (hu : u.toNat < 2 ^ 3) :
    (⟨(TAGPTR_UNPACK_TID (t.bits u)).toNat, (UNPACK_SEQ (t.bits u)).toNat⟩ : Tag) = t := by
  obtain ⟨tid, seq, rfl, htid, hseq⟩ := h.fields
  rw [unpack_tid_toNat, unpack_seq_toNat, tagBits_toNat htid hseq hu]
  have htid' : (seq * 2 ^ 14 + (tid * 2 ^ 3 + u.toNat)) / 2 ^ 3 % 2 ^ 11 = tid := by omega
  have hseq' : (seq * 2 ^ 14 + (tid * 2 ^ 3 + u.toNat)) / 2 ^ 14 = seq := by omega
  rw [htid', hseq']

/-- The tag bits of a tag. -/
theorem Tag.Fits.low (h : t.Fits) {u : Bits} (hu : u.toNat < 2 ^ 3) :
    (t.bits u).toNat % 2 ^ 3 = u.toNat := by
  obtain ⟨tid, seq, rfl, htid, hseq⟩ := h.fields
  rw [tagBits_toNat htid hseq hu]
  omega

/-- **Round trip**: the code takes the bits of a word for what the word is. -/
theorem decode_encode (h : w.Fits) : decode w.bits = w := by
  cases w with
  | plain v =>
      obtain ⟨hval, hlt⟩ := h
      have hbits : (Word.plain v).bits.toNat = v := by
        rw [Word.bits, BitVec.toNat_ofNat, Nat.mod_eq_of_lt hlt]
      rw [KCAS_LEFTSHIFT] at hval
      have hr : ¬ isRdcss (Word.plain v).bits = true := by
        rw [isRdcss_iff, hbits]
        omega
      have hk : ¬ isKcas (Word.plain v).bits = true := by
        rw [isKcas_iff, hbits]
        omega
      rw [decode, if_neg hr, if_neg hk, hbits]
  | rdcss t =>
      have hu : RDCSS_TAGBIT.toNat < 2 ^ 3 := by decide
      have hone : RDCSS_TAGBIT.toNat = 1 := by decide
      have hr : isRdcss (Word.rdcss t).bits = true := by
        have hlow := Tag.Fits.low h hu
        rw [isRdcss_iff, Word.bits]
        omega
      rw [decode, if_pos hr, Word.bits, Tag.Fits.unpack h hu]
  | kcas t =>
      have hu : KCAS_TAGBIT.toNat < 2 ^ 3 := by decide
      have htwo : KCAS_TAGBIT.toNat = 2 := by decide
      have hlow := Tag.Fits.low h hu
      have hr : ¬ isRdcss (Word.kcas t).bits = true := by
        rw [isRdcss_iff, Word.bits]
        omega
      have hk : isKcas (Word.kcas t).bits = true := by
        rw [isKcas_iff, Word.bits]
        omega
      rw [decode, if_neg hr, if_pos hk, Word.bits, Tag.Fits.unpack h hu]

/-- A CAS on the bits compares the words. -/
theorem bits_inj (h : w.Fits) (h' : w'.Fits) : w.bits = w'.bits ↔ w = w' := by
  constructor
  · intro heq
    rw [← decode_encode h, heq, decode_encode h']
  · rintro rfl
    rfl

end Words

/-! ## §4. The words of a descriptor. -/

def SeqBits.bits (b : SeqBits) : Bits := (BitVec.ofNat 64 b.seq <<< OFFSET_SEQ) ||| b.state.bits

section Descriptors

variable {b : SeqBits} {t : Tag}

theorem state_lt (st : KState) : st.bits.toNat < 2 ^ 4 := by
  cases st <;> decide

theorem seqBits_toNat (h : b.seq < 2 ^ 50) : b.bits.toNat = b.seq * 2 ^ 14 + b.state.bits.toNat := by
  have hstate := state_lt b.state
  have hhigh : (BitVec.ofNat 64 b.seq <<< OFFSET_SEQ).toNat = b.seq * 2 ^ 14 := by
    rw [BitVec.toNat_shiftLeft, BitVec.toNat_ofNat, Nat.shiftLeft_eq, OFFSET_SEQ]
    omega
  rw [SeqBits.bits, BitVec.toNat_or, hhigh]
  exact or_eq_add (by omega)

/-- A new descriptor is undecided and has the next sequence number. -/
theorem seqBits_new (h : b.seq < 2 ^ WIDTH_SEQ) :
    KCAS_SEQBITS_NEW b.bits = SeqBits.bits ⟨b.seq + 1, .undecided⟩ := by
  rw [WIDTH_SEQ] at h
  have hstate := state_lt b.state
  have hzero : KState.undecided.bits <<< KCAS_SEQBITS_OFFSET_STATE = 0#64 := by decide
  have hunit : (1#64 <<< OFFSET_SEQ).toNat = 2 ^ 14 := by decide
  have hund : KState.undecided.bits.toNat = 0 := by decide
  apply BitVec.eq_of_toNat_eq
  rw [KCAS_SEQBITS_NEW, hzero, BitVec.or_zero, BitVec.toNat_add, and_mask_seq_toNat, hunit,
    seqBits_toNat (by omega), seqBits_toNat (b := ⟨b.seq + 1, .undecided⟩) (by show b.seq + 1 < _; omega)]
  show _ = (b.seq + 1) * 2 ^ 14 + KState.undecided.bits.toNat
  rw [hund]
  omega

/-- `DESC_INITIALIZED` counts on and leaves the state alone. -/
theorem seqBits_initialized (h : b.seq < 2 ^ WIDTH_SEQ) :
    DESC_INITIALIZED b.bits = SeqBits.bits ⟨b.seq + 1, b.state⟩ := by
  rw [WIDTH_SEQ] at h
  have hstate := state_lt b.state
  have hunit : (1#64 <<< OFFSET_SEQ).toNat = 2 ^ 14 := by decide
  apply BitVec.eq_of_toNat_eq
  rw [DESC_INITIALIZED, BitVec.toNat_add, hunit, seqBits_toNat (by omega),
    seqBits_toNat (b := ⟨b.seq + 1, b.state⟩) (by show b.seq + 1 < _; omega)]
  show _ = (b.seq + 1) * 2 ^ 14 + b.state.bits.toNat
  omega

/-- `DESC_READ_FIELD` compares the sequence numbers and reads the state. -/
theorem seqBits_read (h : b.seq < 2 ^ WIDTH_SEQ) (ht : t.Fits) :
    DESC_READ_FIELD b.bits (Word.kcas t).bits KCAS_SEQBITS_MASK_STATE KCAS_SEQBITS_OFFSET_STATE
      = (decide (b.seq = t.seq), b.state.bits) := by
  rw [WIDTH_SEQ] at h
  have hstate := state_lt b.state
  obtain ⟨tid, seq, rfl, htid, hseq⟩ := ht.fields
  have hu : KCAS_TAGBIT.toNat < 2 ^ 3 := by decide
  have hsame : b.bits &&& MASK_SEQ = (Word.kcas ⟨tid, seq⟩).bits &&& MASK_SEQ ↔ b.seq = seq := by
    rw [← BitVec.toNat_inj, and_mask_seq_toNat, and_mask_seq_toNat, seqBits_toNat (by omega),
      Word.bits, tagBits_toNat htid hseq hu]
    omega
  have hfield : SEQBITS_UNPACK_FIELD b.bits KCAS_SEQBITS_MASK_STATE KCAS_SEQBITS_OFFSET_STATE
      = b.state.bits := by
    apply BitVec.eq_of_toNat_eq
    rw [unpack_state_toNat, seqBits_toNat (by omega)]
    omega
  rw [DESC_READ_FIELD, hfield]
  simp only [hsame]

end Descriptors

/-! ## §5. Sequence numbers grow slowly. -/

/-- No sequence number goes up by more than one. -/
def SeqStep (m m' : Shared) : Prop :=
  ∀ q, (m'.kcas q).seqBits.seq ≤ (m.kcas q).seqBits.seq + 1
    ∧ (m'.rdcss q).seq ≤ (m.rdcss q).seq + 1

section Sequence

variable {K : ℕ} {m m' : Shared} {p : Tid} {f : Help} {o : Outcome} {th th' : Thread}

theorem SeqStep.of_eq (hkcas : m'.kcas = m.kcas) (hrdcss : m'.rdcss = m.rdcss) : SeqStep m m' := by
  intro q
  rw [hkcas, hrdcss]
  exact ⟨Nat.le_succ _, Nat.le_succ _⟩

theorem SeqStep.setKcas {d : KcasDesc} (h : d.seqBits.seq ≤ (m.kcas p).seqBits.seq + 1) :
    SeqStep m (m.setKcas p d) := by
  intro q
  refine ⟨?_, Nat.le_succ _⟩
  rw [setKcas_apply]
  split
  · next hq =>
    rw [hq]
    exact h
  · exact Nat.le_succ _

theorem SeqStep.setRdcss {d : RdcssDesc} (h : d.seq ≤ (m.rdcss p).seq + 1) :
    SeqStep m (m.setRdcss p d) := by
  intro q
  refine ⟨Nat.le_succ _, ?_⟩
  rw [setRdcss_apply]
  split
  · next hq =>
    rw [hq]
    exact h
  · exact Nat.le_succ _

theorem SeqStep.cas (a : Loc) (old new : Word) : SeqStep m (m.cas a old new) := by
  obtain ⟨word, hword⟩ := cas_eq (m := m) a old new
  rw [hword]
  exact SeqStep.of_eq rfl rfl

theorem RdcssHelp.step_seq {h : RdcssHelp} {r : Option RdcssHelp} (hs : h.step m = (m', r)) :
    SeqStep m m' := by
  obtain ⟨word, hword⟩ := h.step_eq (m := m)
  rw [hs] at hword
  obtain rfl : m' = { m with word := word } := hword
  exact SeqStep.of_eq rfl rfl

theorem fill_seq (d : RdcssDesc) (t : Tag) (e : Entry Loc Word) (j : ℕ) :
    (d.fill t e j).seq = d.seq := by
  unfold RdcssDesc.fill
  split <;> rfl

theorem Help.step_seq (hstep : f.step K p m = some (m', o)) : SeqStep m m' := by
  have hsame : SeqStep m m := SeqStep.of_eq rfl rfl
  have hread : ∀ {o₁ : Outcome}, some (m, o₁) = some (m', o) → SeqStep m m' := by
    intro o₁ heq
    obtain ⟨rfl, -⟩ := Prod.mk.inj (Option.some.inj heq)
    exact hsame
  unfold Help.step at hstep
  split at hstep
  · -- `copy`
    split at hstep
    · exact hread hstep
    · split at hstep
      · exact hread hstep
      · exact hread hstep
  · -- `readState`
    dsimp only at hstep
    split at hstep
    · split at hstep
      · exact hread hstep
      · exact hread hstep
    · split at hstep
      · exact hread hstep
      · exact absurd hstep (by simp)
  · -- `entry`: `RDCSS_SEQBITS_NEW`
    split at hstep
    · obtain ⟨rfl, -⟩ := Prod.mk.inj (Option.some.inj hstep)
      exact SeqStep.setRdcss (Nat.le_refl _)
    · exact hread hstep
  · -- `fill`
    obtain ⟨rfl, -⟩ := Prod.mk.inj (Option.some.inj hstep)
    apply SeqStep.setRdcss
    rw [fill_seq]
    exact Nat.le_succ _
  · -- `initialized`
    obtain ⟨rfl, -⟩ := Prod.mk.inj (Option.some.inj hstep)
    have hset : SeqStep m (m.setRdcss p { m.rdcss p with seq := (m.rdcss p).seq + 1 }) :=
      SeqStep.setRdcss (Nat.le_refl _)
    exact hset
  · -- `rdcss`
    dsimp only at hstep
    split at hstep
    · obtain ⟨rfl, -⟩ := Prod.mk.inj (Option.some.inj hstep)
      exact SeqStep.cas _ _ _
    · split at hstep
      · obtain ⟨rfl, -⟩ := Prod.mk.inj (Option.some.inj hstep)
        exact SeqStep.cas (m := m) (m.rdcss p).addr2 (m.rdcss p).old2 (.rdcss ⟨p, (m.rdcss p).seq⟩)
      · split at hstep
        · split at hstep
          · exact hread hstep
          · exact hread hstep
        · obtain ⟨rfl, -⟩ := Prod.mk.inj (Option.some.inj hstep)
          exact SeqStep.of_eq rfl rfl
  · -- `rdcssOther`
    split at hstep
    · next hs =>
      obtain ⟨rfl, -⟩ := Prod.mk.inj (Option.some.inj hstep)
      exact RdcssHelp.step_seq hs
    · next hs =>
      obtain ⟨rfl, -⟩ := Prod.mk.inj (Option.some.inj hstep)
      exact RdcssHelp.step_seq hs
  · -- `rdcssOwn`
    split at hstep
    · next hs =>
      obtain ⟨rfl, -⟩ := Prod.mk.inj (Option.some.inj hstep)
      exact RdcssHelp.step_seq hs
    · next hs =>
      obtain ⟨rfl, -⟩ := Prod.mk.inj (Option.some.inj hstep)
      exact RdcssHelp.step_seq hs
  · -- `stateRead`
    dsimp only at hstep
    split at hstep
    · exact hread hstep
    · exact hread hstep
  · -- `stateCas`
    rename_i newstate v hpc
    dsimp only at hstep
    split at hstep
    · next heq =>
      obtain ⟨rfl, -⟩ := Prod.mk.inj (Option.some.inj hstep)
      have hset : SeqStep m (m.setKcas f.tag.tid
          { m.kcas f.tag.tid with seqBits := ⟨v.seq, newstate⟩ }) :=
        SeqStep.setKcas (by rw [heq]; exact Nat.le_succ _)
      exact hset
    · exact hread hstep
  · -- `stateReread`
    dsimp only at hstep
    split at hstep
    · exact hread hstep
    · exact hread hstep
  · -- `finalRead`
    dsimp only at hstep
    split at hstep
    · exact hread hstep
    · exact hread hstep
  · -- `unlock`
    split at hstep
    · obtain ⟨rfl, -⟩ := Prod.mk.inj (Option.some.inj hstep)
      exact SeqStep.cas _ _ _
    · exact hread hstep

theorem callStep_seq (hok : ThreadOk m p th) (hstep : callStep K m p th = some (m', th')) :
    SeqStep m m' := by
  have hread : ∀ {th₁ : Thread}, some (m, th₁) = some (m', th') → SeqStep m m' := by
    intro th₁ heq
    obtain ⟨rfl, -⟩ := Prod.mk.inj (Option.some.inj heq)
    exact SeqStep.of_eq rfl rfl
  unfold callStep at hstep
  dsimp only at hstep
  split at hstep
  · -- `start`
    obtain ⟨rfl, -⟩ := Prod.mk.inj (Option.some.inj hstep)
    exact SeqStep.setKcas (Nat.le_succ _)
  · -- `addPtrAddr`
    split at hstep
    · obtain ⟨rfl, -⟩ := Prod.mk.inj (Option.some.inj hstep)
      exact SeqStep.setKcas (Nat.le_succ _)
    · obtain ⟨rfl, -⟩ := Prod.mk.inj (Option.some.inj hstep)
      exact SeqStep.setKcas (Nat.le_succ _)
    · obtain ⟨rfl, -⟩ := Prod.mk.inj (Option.some.inj hstep)
      exact SeqStep.setKcas (Nat.le_succ _)
    · split at hstep
      · obtain ⟨rfl, -⟩ := Prod.mk.inj (Option.some.inj hstep)
        exact SeqStep.setKcas (Nat.le_succ _)
      · exact absurd hstep (by simp)
  · exact hread hstep
  · -- `DESC_INITIALIZED`
    next v hcall =>
    obtain rfl := hok.initWrite v hcall
    obtain ⟨rfl, -⟩ := Prod.mk.inj (Option.some.inj hstep)
    have hset : SeqStep m (m.setKcas p { m.kcas p with
        seqBits := { (m.kcas p).seqBits with seq := (m.kcas p).seqBits.seq + 1 } }) :=
      SeqStep.setKcas (Nat.le_refl _)
    exact hset
  · -- `readPtr`
    split at hstep
    · exact hread hstep
    · exact hread hstep
    · exact hread hstep
  · -- `rdcssHelpOther`
    split at hstep
    · next hs =>
      obtain ⟨rfl, -⟩ := Prod.mk.inj (Option.some.inj hstep)
      exact RdcssHelp.step_seq hs
    · next hs =>
      obtain ⟨rfl, -⟩ := Prod.mk.inj (Option.some.inj hstep)
      exact RdcssHelp.step_seq hs
  · exact absurd hstep (by simp)

theorem call_seq {a : Action} (hstep : call m th a = some (m', th')) : SeqStep m m' := by
  unfold call at hstep
  split at hstep
  · -- `KCAS_SEQBITS_NEW`
    obtain ⟨rfl, -⟩ := Prod.mk.inj (Option.some.inj hstep)
    exact SeqStep.setKcas (Nat.le_refl _)
  · split at hstep
    · obtain ⟨rfl, -⟩ := Prod.mk.inj (Option.some.inj hstep)
      exact SeqStep.of_eq rfl rfl
    · exact absurd hstep (by simp)
  · split at hstep
    · obtain ⟨rfl, -⟩ := Prod.mk.inj (Option.some.inj hstep)
      exact SeqStep.setKcas (Nat.le_succ _)
    · exact absurd hstep (by simp)
  · obtain ⟨rfl, -⟩ := Prod.mk.inj (Option.some.inj hstep)
    exact SeqStep.of_eq rfl rfl
  · exact absurd hstep (by simp)

theorem step_seq (hok : ThreadOk m p th)
    (hstep : KCASLockFree.step K m p th = some (m', th')) : SeqStep m m' := by
  cases hf : th.frames with
  | nil =>
      unfold KCASLockFree.step at hstep
      rw [hf] at hstep
      exact callStep_seq hok hstep
  | cons f fs =>
      obtain ⟨o, hs, -⟩ := step_help hf hstep
      exact Help.step_seq hs

theorem next_seq {s s' : State} {a : Action} (h : Sound K s) (hn : next K s a = some s') :
    SeqStep s.mem s'.mem := by
  unfold next at hn
  rw [Option.map_eq_some_iff] at hn
  obtain ⟨⟨m', th'⟩, hmoved, rfl⟩ := hn
  show SeqStep s.mem m'
  have hcall : ∀ {b : Action}, (if (s.thread a.tid).call.Returned then
      call s.mem (s.thread a.tid) b else none) = some (m', th') → SeqStep s.mem m' := by
    intro b hx
    split at hx
    · exact call_seq hx
    · exact absurd hx (by simp)
  cases a with
  | step p => exact step_seq (h.thread p) hmoved
  | start p => exact hcall hmoved
  | add p a oldval newval => exact hcall hmoved
  | execute p => exact hcall hmoved
  | readPtr p a => exact hcall hmoved

end Sequence

/-! ## §6. The words of a run fit. -/

section Runs

variable {K : ℕ} {word : Loc → ℕ} {r : Run (system K word)}

theorem seq_le (hc : ∀ i < r.len, Promised (r.state i) (r.act i)) {i : ℕ} (hi : i ≤ r.len) (q : Tid) :
    ((r.state i).mem.kcas q).seqBits.seq ≤ i + 1 ∧ ((r.state i).mem.rdcss q).seq ≤ i + 1 := by
  induction i with
  | zero =>
      rw [r.start]
      exact ⟨Nat.le_refl _, Nat.le_refl _⟩
  | succ i ih =>
      have hbefore := ih (Nat.le_of_succ_le hi)
      have hstep := next_seq (run_sound hc (Nat.le_of_succ_le hi)) (r.step i hi) q
      omega

/-- Only the threads that act publish operations. -/
theorem tids_le (hc : ∀ i < r.len, Promised (r.state i) (r.act i)) {L : ℕ}
    (htid : ∀ i < r.len, (r.act i).tid ≤ L) {i : ℕ} (hi : i ≤ r.len) (q : Tid) (hq : ¬ q ≤ L)
    (n : ℕ) : (r.state i).mem.ops ⟨q, n⟩ = none ∧ (r.state i).mem.rops ⟨q, n⟩ = none := by
  induction i with
  | zero =>
      rw [r.start]
      exact ⟨rfl, rfl⟩
  | succ i ih =>
      obtain ⟨hops, hrops⟩ := ih (Nat.le_of_succ_le hi)
      have hsteady := (run_moves hc hi).1.steady
      have hne : q ≠ (r.act i).tid := by
        rintro rfl
        exact hq (htid i hi)
      refine ⟨hsteady.ops q n hne hops, ?_⟩
      rw [hsteady.rops q n hne]
      exact hrops

/-- What callers promise of the bits: they have a thread id, and store values
that leave the tag bits clear. -/
def Fitting (s : State) (a : Action) : Prop :=
  a.tid ≤ LAST_TID.toNat ∧ ∀ p, a = .execute p → ∀ e ∈ (s.mem.kcas p).list, e.newval.Fits

/-- The plain words are initial values, or were stored by a client. -/
theorem memory_fits (hc : ∀ i < r.len, Promised (r.state i) (r.act i))
    (hfit : ∀ i < r.len, Fitting (r.state i) (r.act i)) (hword : ∀ a, (Word.plain (word a)).Fits)
    {i : ℕ} (hi : i ≤ r.len) (a : Loc) : (memory r i a).Fits := by
  induction i with
  | zero =>
      unfold memory
      rw [r.start]
      exact hword a
  | succ i ih =>
      have hbefore := ih (Nat.le_of_succ_le hi)
      cases hcom : KCASLockFree.commits r i with
      | none =>
          rw [quiet_step hc hi hcom]
          exact hbefore
      | some x =>
          obtain ⟨p, b⟩ := x
          obtain ⟨hact, hin, -, hcommit⟩ := commit_step hc hi hcom
          rw [hcommit, commit_apply]
          cases hfirst : firstAt (entriesAt r p b) a with
          | none => exact hbefore
          | some e =>
              have hstored := (hfit b (Nat.lt_trans hin.1 hi)).2 p hact
              exact hstored e (List.mem_of_find?_eq_some hfirst)

theorem word_fits (hc : ∀ i < r.len, Promised (r.state i) (r.act i))
    (hfit : ∀ i < r.len, Fitting (r.state i) (r.act i)) (hword : ∀ a, (Word.plain (word a)).Fits)
    (hlen : r.len + 1 < 2 ^ WIDTH_SEQ) {i : ℕ} (hi : i ≤ r.len) (a : Loc) :
    ((r.state i).mem.word a).Fits := by
  have hinv := (run_sound hc hi).inv
  have htids := tids_le hc (fun j hj => (hfit j hj).1) hi
  cases hw : (r.state i).mem.word a with
  | plain v =>
      have hfits := memory_fits hc hfit hword hi a
      unfold memory at hfits
      rw [value_plain hw] at hfits
      exact hfits
  | rdcss t =>
      obtain ⟨rop, hrop, -⟩ := hinv.tag_rop a t hw
      have hseq := hinv.rop_seq t rop hrop
      have hle := (seq_le hc hi t.tid).2
      refine ⟨?_, by omega⟩
      by_contra hq
      exact absurd (hrop.symm.trans (htids t.tid hq t.seq).2) (by simp)
  | kcas t =>
      obtain ⟨op, hop, -⟩ := hinv.tag_op a t hw
      have hseq := hinv.op_seq t op hop
      have hle := (seq_le hc hi t.tid).1
      refine ⟨?_, by omega⟩
      by_contra hq
      exact absurd (hop.symm.trans (htids t.tid hq t.seq).1) (by simp)

/-- The 64 bits stand for the words of the model, and the macros do on them what
the steps of the model do. -/
structure Represented (m : Shared) : Prop where
  word : ∀ a, decode (m.word a).bits = m.word a
  /-- A CAS compares bits. -/
  cas : ∀ a w, w.Fits → ((m.word a).bits = w.bits ↔ m.word a = w)
  /-- `start`. -/
  start : ∀ q, KCAS_SEQBITS_NEW (m.kcas q).seqBits.bits
    = SeqBits.bits ⟨(m.kcas q).seqBits.seq + 1, .undecided⟩
  /-- `execute`. -/
  initialized : ∀ q, DESC_INITIALIZED (m.kcas q).seqBits.bits
    = SeqBits.bits ⟨(m.kcas q).seqBits.seq + 1, (m.kcas q).seqBits.state⟩
  /-- `help`, with the tag of a word. -/
  read : ∀ a t q, m.word a = .kcas t →
    DESC_READ_FIELD (m.kcas q).seqBits.bits (Word.kcas t).bits KCAS_SEQBITS_MASK_STATE
        KCAS_SEQBITS_OFFSET_STATE
      = (decide ((m.kcas q).seqBits.seq = t.seq), (m.kcas q).seqBits.state.bits)

/-- **64 bits are enough** for a run of fewer than `2 ^ 48 - 1` steps. -/
theorem represented (K : ℕ) (word : Loc → ℕ) (r : Run (system K word))
    (hc : ∀ i < r.len, Promised (r.state i) (r.act i))
    (hfit : ∀ i < r.len, Fitting (r.state i) (r.act i)) (hword : ∀ a, (Word.plain (word a)).Fits)
    (hlen : r.len + 1 < 2 ^ WIDTH_SEQ) (i : ℕ) (hi : i ≤ r.len) :
    Represented (r.state i).mem := by
  have hfits := word_fits hc hfit hword hlen hi
  have hseq : ∀ q, ((r.state i).mem.kcas q).seqBits.seq < 2 ^ WIDTH_SEQ := by
    intro q
    have hle := (seq_le hc hi q).1
    omega
  exact
    { word := fun a => decode_encode (hfits a)
      cas := fun a w hw => bits_inj (hfits a) hw
      start := fun q => seqBits_new (hseq q)
      initialized := fun q => seqBits_initialized (hseq q)
      read := by
        intro a t q hw
        have ht := hfits a
        rw [hw] at ht
        exact seqBits_read (hseq q) ht }

/-- Thread 0 has locked word 0. -/
def lockedActions : List Action :=
  prepares 0 [⟨0, .plain 0, .plain 4⟩, ⟨1, .plain 0, .plain 4⟩] ++ .execute 0 :: steps 0 14

/-- The promise, as a test. -/
def fittingTest (s : State) (a : Action) : Bool :=
  decide (a.tid ≤ 2047) && match a with
    | .execute p => (s.mem.kcas p).list.all fun e => e.newval = .plain 4
    | _ => true

theorem fitting_of_test (s : State) (a : Action) (h : fittingTest s a = true) : Fitting s a := by
  obtain ⟨htid, hstored⟩ := Bool.and_eq_true_iff.mp h
  have hlast : LAST_TID.toNat = 2047 := by decide
  refine ⟨by rw [hlast]; exact of_decide_eq_true htid, ?_⟩
  rintro p rfl e he
  have hnew := of_decide_eq_true (List.all_eq_true.mp hstored e he)
  rw [hnew]
  exact ⟨by decide, by decide⟩

set_option maxRecDepth 4000 in
theorem represented_locked : ∃ r : Run (system 2 fun _ => 0),
    (r.state r.len).mem.word 0 = .kcas ⟨0, 3⟩ ∧ Represented (r.state r.len).mem := by
  obtain ⟨r, hlen, hc, -, hend⟩ := Run.exists_of_check_length (M := system 2 fun _ => 0)
    (C := fun s a => Promised s a ∧ Fitting s a) (c := fun s a => promisedTest s a && fittingTest s a)
    (f := fun s => decide (s.mem.word 0 = .kcas ⟨0, 3⟩))
    (fun s a h => ⟨promised_of_test s a (Bool.and_eq_true_iff.mp h).1,
      fitting_of_test s a (Bool.and_eq_true_iff.mp h).2⟩)
    lockedActions (.step 0) (by decide +kernel)
  have hshort : lockedActions.length = 27 := by decide
  refine ⟨r, of_decide_eq_true hend, represented 2 (fun _ => 0) r (fun i hi => (hc i hi).1)
    (fun i hi => (hc i hi).2) (fun _ => ⟨rfl, by decide⟩) ?_ r.len (Nat.le_refl _)⟩
  rw [hlen, hshort]
  decide

end Runs

end MultiCore.KCASLockFree
