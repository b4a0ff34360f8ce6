/-
  MultiCore.Util.Probe — what a full round of probes sees.

  Every table of assignments 4 and 7 probes `index = (h + i) % capacity` for
  `i = 0, 1, .., capacity - 1`, and takes the end of that loop for a look at the
  whole table.  `h + i` is a `uint32_t`: behind `2^32` the index starts again at
  0, which is the next bucket only if the capacity divides `2^32`.
-/
import MultiCore.Util.Bucket

namespace MultiCore.Util

open MultiCore.Lib

/-- The probes of a key go to every bucket once. -/
structure ProbesAll (c key : Nat) : Prop where
  distinct : ∀ i < c, ∀ j < c, path c key i = path c key j → i = j
  once : ∀ x < c, ∃! i, i < c ∧ path c key i = x
  /-- A loop that has run to its end has seen the whole table. -/
  seen : ∀ P : Nat → Prop, (∀ i < c, P (path c key i)) → ∀ x < c, P x

/-- Probes that do not meet go everywhere. -/
theorem ProbesAll.of_injOn {c key : Nat} (h : Set.InjOn (path c key) (Finset.range c)) :
    ProbesAll c key := by
  have hdistinct : ∀ i < c, ∀ j < c, path c key i = path c key j → i = j := by
    intro i hi j hj heq
    exact h (by simpa using hi) (by simpa using hj) heq
  have hall : ∀ x < c, ∃ i < c, path c key i = x := by
    intro x hx
    have hmaps : Set.MapsTo (path c key) (Finset.range c) (Finset.range c) := by
      intro i _
      have hlt : path c key i < c := path_lt (Nat.lt_of_le_of_lt (Nat.zero_le x) hx)
      simpa using hlt
    have hsurj := Finset.surjOn_of_injOn_of_card_le (path c key) hmaps h (le_refl _)
    obtain ⟨i, hi, heq⟩ := hsurj (by simpa using hx : x ∈ (Finset.range c : Set Nat))
    exact ⟨i, by simpa using hi, heq⟩
  refine ⟨hdistinct, ?_, ?_⟩
  · intro x hx
    obtain ⟨i, hi, heq⟩ := hall x hx
    exact ⟨i, ⟨hi, heq⟩, fun j hj => hdistinct j hj.1 i hi (hj.2.trans heq.symm)⟩
  · intro P hP x hx
    obtain ⟨i, hi, rfl⟩ := hall x hx
    exact hP i hi

/-- **The probe sequence covers the table exactly when `h + i` does not wrap, or
the capacity divides `2^32`.** -/
theorem probes_all_iff (c key : Nat) (hc : c ≤ 2 ^ 31 - 1) :
    ProbesAll c key ↔ hash key + c ≤ 2 ^ 32 ∨ c ∣ 2 ^ 32 := by
  have hiff := probeIndex_injOn_iff (h := hash key) (c := c) (hash_lt key) (by omega)
  constructor
  · intro h
    refine hiff.mp ?_
    intro i hi j hj heq
    exact h.distinct i (by simpa using hi) j (by simpa using hj) heq
  · exact fun h => ProbesAll.of_injOn (hiff.mpr h)

theorem probes_all_thousand : (1000 : Nat) ≤ 2 ^ 31 - 1
    ∧ (ProbesAll 1000 7 ↔ hash 7 + 1000 ≤ 2 ^ 32 ∨ 1000 ∣ 2 ^ 32) :=
  ⟨by decide, probes_all_iff 1000 7 (by decide)⟩

/-- The hash of this key is `2^32 - 1`: in a table of three buckets its probes go
to buckets 0, 0 and 1. -/
theorem probes_all_fails : ¬ ProbesAll 3 1058430814 := by
  intro h
  have heq : path 3 1058430814 0 = path 3 1058430814 1 := by decide +kernel
  exact absurd (h.distinct 0 (by omega) 1 (by omega) heq) (by omega)

end MultiCore.Util
