/-
  MultiCore.Lib.Partition — a finite set that is shared out among lists.

  `Partition part s` says that the lists `part i` have no repetitions, have
  nothing in common, and together hold the elements of `s`.  A part may be where
  memory is kept by somebody; then the rules say that nothing gets lost and
  nothing gets two owners:

    * `Partition.exchange` — two parts share out anew what they hold;
    * `Partition.gain`, `Partition.lose` — an element comes in, or goes.

  Nothing here mentions a concrete program.
-/
import Mathlib.Data.Finset.Basic
import Mathlib.Data.List.Nodup
import Mathlib.Data.List.Perm.Basic

namespace MultiCore.Lib

variable {ι α : Type*}

structure Partition (part : ι → List α) (s : Finset α) : Prop where
  nodup : ∀ i, (part i).Nodup
  disjoint : ∀ i j, i ≠ j → (part i).Disjoint (part j)
  mem_iff : ∀ a, a ∈ s ↔ ∃ i, a ∈ part i

namespace Partition

variable {part part' : ι → List α} {s : Finset α} {i j : ι} {a : α}

theorem mem (h : Partition part s) (ha : a ∈ part i) : a ∈ s := (h.mem_iff a).mpr ⟨i, ha⟩

theorem eq_of_mem (h : Partition part s) (hi : a ∈ part i) (hj : a ∈ part j) : i = j := by
  by_contra hne
  exact h.disjoint i j hne hi hj

/-- What changes in one part, and the set it is a part of after that. -/
theorem change {s' : Finset α} (h : Partition part s) (hrest : ∀ k, k ≠ i → part' k = part k)
    (hnodup : (part' i).Nodup) (hother : ∀ k, k ≠ i → ∀ b ∈ part k, b ∉ part' i)
    (hmem : ∀ b, b ∈ s' ↔ b ∈ part' i ∨ ∃ k, k ≠ i ∧ b ∈ part k) : Partition part' s' where
  nodup k := by
    by_cases hk : k = i
    · rw [hk]
      exact hnodup
    · rw [hrest k hk]
      exact h.nodup k
  disjoint k l hkl := by
    intro b hbk hbl
    by_cases hk : k = i
    · rw [hk] at hbk
      have hl : l ≠ i := fun hl => hkl (hk.trans hl.symm)
      rw [hrest l hl] at hbl
      exact hother l hl b hbl hbk
    · rw [hrest k hk] at hbk
      by_cases hl : l = i
      · rw [hl] at hbl
        exact hother k hk b hbk hbl
      · rw [hrest l hl] at hbl
        exact h.disjoint k l hkl hbk hbl
  mem_iff b := by
    rw [hmem]
    constructor
    · rintro (hb | ⟨k, hk, hb⟩)
      · exact ⟨i, hb⟩
      · exact ⟨k, by rw [hrest k hk]; exact hb⟩
    · intro ⟨k, hb⟩
      by_cases hk : k = i
      · exact Or.inl (hk ▸ hb)
      · rw [hrest k hk] at hb
        exact Or.inr ⟨k, hk, hb⟩

/-- The element `a` comes in. -/
theorem gain [DecidableEq α] (h : Partition part s) (hrest : ∀ k, k ≠ i → part' k = part k)
    (hperm : (part' i).Perm (a :: part i)) (ha : a ∉ s) : Partition part' (insert a s) := by
  have hnot : ∀ k, a ∉ part k := fun k hk => ha (h.mem hk)
  refine h.change hrest ?_ ?_ ?_
  · rw [hperm.nodup_iff, List.nodup_cons]
    exact ⟨hnot i, h.nodup i⟩
  · intro k hk b hb hb'
    rw [hperm.mem_iff, List.mem_cons] at hb'
    rcases hb' with rfl | hb'
    · exact hnot k hb
    · exact h.disjoint k i hk hb hb'
  · intro b
    rw [hperm.mem_iff, Finset.mem_insert, List.mem_cons, h.mem_iff, or_assoc]
    refine or_congr_right ⟨fun ⟨k, hk⟩ => ?_, fun hb => ?_⟩
    · by_cases hki : k = i
      · exact Or.inl (hki ▸ hk)
      · exact Or.inr ⟨k, hki, hk⟩
    · rcases hb with hb | ⟨k, -, hb⟩
      · exact ⟨i, hb⟩
      · exact ⟨k, hb⟩

/-- The element `a` goes. -/
theorem lose [DecidableEq α] (h : Partition part s) (hrest : ∀ k, k ≠ i → part' k = part k)
    (hperm : (part i).Perm (a :: part' i)) : Partition part' (s.erase a) := by
  have hnodup := h.nodup i
  rw [hperm.nodup_iff, List.nodup_cons] at hnodup
  have hhad : ∀ b, b ∈ part i ↔ b = a ∨ b ∈ part' i := fun b => by
    rw [hperm.mem_iff, List.mem_cons]
  refine h.change hrest hnodup.2 ?_ ?_
  · intro k hk b hb hb'
    exact h.disjoint k i hk hb ((hhad b).mpr (Or.inr hb'))
  · intro b
    rw [Finset.mem_erase, h.mem_iff]
    constructor
    · rintro ⟨hne, k, hk⟩
      by_cases hki : k = i
      · rw [hki, hhad] at hk
        exact Or.inl (hk.resolve_left hne)
      · exact Or.inr ⟨k, hki, hk⟩
    · rintro (hb | ⟨k, hki, hk⟩)
      · refine ⟨?_, i, (hhad b).mpr (Or.inr hb)⟩
        rintro rfl
        exact hnodup.1 hb
      · refine ⟨?_, k, hk⟩
        rintro rfl
        exact h.disjoint k i hki hk ((hhad b).mpr (Or.inl rfl))

/-- **Two parts share out anew what they hold.** -/
theorem exchange (h : Partition part s) (hij : i ≠ j)
    (hrest : ∀ k, k ≠ i → k ≠ j → part' k = part k)
    (hperm : (part' i ++ part' j).Perm (part i ++ part j)) : Partition part' s := by
  have hboth : (part' i ++ part' j).Nodup := by
    rw [hperm.nodup_iff]
    exact List.nodup_append'.mpr ⟨h.nodup i, h.nodup j, h.disjoint i j hij⟩
  obtain ⟨hni, hnj, hdisj⟩ := List.nodup_append'.mp hboth
  have hmem : ∀ b, b ∈ part' i ∨ b ∈ part' j ↔ b ∈ part i ∨ b ∈ part j := fun b => by
    rw [← List.mem_append, hperm.mem_iff, List.mem_append]
  -- what one of the two holds now one of them held before
  have hout : ∀ k, k ≠ i → k ≠ j → ∀ b ∈ part k, b ∉ part' i ∧ b ∉ part' j := by
    intro k hki hkj b hb
    constructor
    · intro hb'
      rcases (hmem b).mp (Or.inl hb') with hbi | hbj
      · exact h.disjoint k i hki hb hbi
      · exact h.disjoint k j hkj hb hbj
    · intro hb'
      rcases (hmem b).mp (Or.inr hb') with hbi | hbj
      · exact h.disjoint k i hki hb hbi
      · exact h.disjoint k j hkj hb hbj
  have hcases : ∀ k, k = i ∨ k = j ∨ k ≠ i ∧ k ≠ j := by
    intro k
    by_cases hki : k = i
    · exact Or.inl hki
    · by_cases hkj : k = j
      · exact Or.inr (Or.inl hkj)
      · exact Or.inr (Or.inr ⟨hki, hkj⟩)
  refine ⟨fun k => ?_, fun k l hkl => ?_, fun b => ?_⟩
  · rcases hcases k with rfl | rfl | ⟨hki, hkj⟩
    · exact hni
    · exact hnj
    · rw [hrest k hki hkj]
      exact h.nodup k
  · rcases hcases k with rfl | rfl | ⟨hki, hkj⟩ <;> rcases hcases l with rfl | rfl | ⟨hli, hlj⟩
    · exact absurd rfl hkl
    · exact hdisj
    · rw [hrest l hli hlj]
      exact fun b hb hb' => (hout l hli hlj b hb').1 hb
    · exact hdisj.symm
    · exact absurd rfl hkl
    · rw [hrest l hli hlj]
      exact fun b hb hb' => (hout l hli hlj b hb').2 hb
    · rw [hrest k hki hkj]
      exact fun b hb hb' => (hout k hki hkj b hb).1 hb'
    · rw [hrest k hki hkj]
      exact fun b hb hb' => (hout k hki hkj b hb).2 hb'
    · rw [hrest k hki hkj, hrest l hli hlj]
      exact h.disjoint k l hkl
  · rw [h.mem_iff]
    constructor
    · rintro ⟨k, hk⟩
      rcases hcases k with rfl | rfl | ⟨hki, hkj⟩
      · rcases (hmem b).mpr (Or.inl hk) with hb | hb
        · exact ⟨k, hb⟩
        · exact ⟨j, hb⟩
      · rcases (hmem b).mpr (Or.inr hk) with hb | hb
        · exact ⟨i, hb⟩
        · exact ⟨k, hb⟩
      · exact ⟨k, by rw [hrest k hki hkj]; exact hk⟩
    · rintro ⟨k, hk⟩
      rcases hcases k with rfl | rfl | ⟨hki, hkj⟩
      · rcases (hmem b).mp (Or.inl hk) with hb | hb
        · exact ⟨k, hb⟩
        · exact ⟨j, hb⟩
      · rcases (hmem b).mp (Or.inr hk) with hb | hb
        · exact ⟨i, hb⟩
        · exact ⟨k, hb⟩
      · rw [hrest k hki hkj] at hk
        exact ⟨k, hk⟩

end Partition

end MultiCore.Lib
