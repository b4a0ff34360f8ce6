/-
  MultiCore.Lib.Sharing — a fixed number of chunks of work, shared out by a
  fetch-and-add.

  A worker claims chunk `claimed` by incrementing `claimed`, holds it while it
  works on it, and increments `finished` when it is through.  `Sharing` relates
  the two counters to who holds what: every claimed chunk is held by exactly
  one worker or is finished, and `finished` counts the finished ones.  So
  `finished = total` means that all chunks are done and nobody works any more
  (`Sharing.done_eq_range`, `Sharing.free_of_complete`).

  Nothing here mentions a concrete program.
-/
import Mathlib.Data.Finset.Card
import Mathlib.Data.Finset.Range

namespace MultiCore.Lib

/-- `done` is the set of finished chunks, `holds w` the chunk worker `w` is
working on. -/
structure Sharing {ι : Type*} (total claimed finished : ℕ) (holds : ι → Option ℕ)
    (done : Finset ℕ) : Prop where
  card : done.card = finished
  done_lt : ∀ c ∈ done, c < total ∧ c < claimed
  held_lt : ∀ w c, holds w = some c → c < total ∧ c < claimed ∧ c ∉ done
  unique : ∀ w w' c, holds w = some c → holds w' = some c → w = w'
  cover : ∀ c < total, c < claimed → c ∈ done ∨ ∃ w, holds w = some c

namespace Sharing

variable {ι : Type*} {total claimed finished : ℕ} {holds holds' : ι → Option ℕ}
  {done : Finset ℕ}

theorem start (total : ℕ) (h : ∀ w, holds w = none) : Sharing total 0 0 holds ∅ where
  card := rfl
  done_lt := by simp
  held_lt := by simp [h]
  unique := by simp [h]
  cover := by simp

theorem congr (h : Sharing total claimed finished holds done) (hh : ∀ w, holds' w = holds w) :
    Sharing total claimed finished holds' done := by
  obtain rfl : holds' = holds := funext hh
  exact h

theorem done_subset (h : Sharing total claimed finished holds done) :
    done ⊆ Finset.range total := by
  intro c hc
  exact Finset.mem_range.mpr (h.done_lt c hc).1

/-- All chunks are finished exactly when the counter says so. -/
theorem done_eq_range (h : Sharing total claimed finished holds done) (hf : finished = total) :
    done = Finset.range total := by
  apply Finset.eq_of_subset_of_card_le h.done_subset
  rw [h.card, Finset.card_range, hf]

theorem free_of_complete (h : Sharing total claimed finished holds done) (hf : finished = total)
    (w : ι) : holds w = none := by
  cases hw : holds w with
  | none => rfl
  | some c =>
      have hc := h.held_lt w c hw
      rw [h.done_eq_range hf, Finset.mem_range] at hc
      exact absurd hc.1 hc.2.2

theorem ne_total_of_held (h : Sharing total claimed finished holds done) {w : ι} {c : ℕ}
    (hw : holds w = some c) : finished ≠ total := by
  intro hf
  rw [h.free_of_complete hf w] at hw
  exact absurd hw (by simp)

/-- Chunks that have all been claimed, and not all been finished, have a worker. -/
theorem exists_held (h : Sharing total claimed finished holds done) (hall : total ≤ claimed)
    (hf : finished ≠ total) : ∃ w c, holds w = some c := by
  by_contra hnone
  have hdone : done = Finset.range total := by
    apply Finset.Subset.antisymm h.done_subset
    intro c hc
    have hlt := Finset.mem_range.mp hc
    rcases h.cover c hlt (Nat.lt_of_lt_of_le hlt hall) with hin | ⟨w, hw⟩
    · exact hin
    · exact absurd ⟨w, c, hw⟩ hnone
  apply hf
  rw [← h.card, hdone, Finset.card_range]

section Update

variable [DecidableEq ι] {w : ι} {c : ℕ}

/-- **Claim**: the fetch-and-add returned a chunk that exists, and worker `w`
now holds it. -/
theorem claim (h : Sharing total claimed finished holds done) (hlt : claimed < total)
    (hw : holds w = none) (hh : ∀ v, holds' v = if v = w then some claimed else holds v) :
    Sharing total (claimed + 1) finished holds' done := by
  have hfresh : ∀ v, holds v ≠ some claimed := by
    intro v hv
    have := (h.held_lt v claimed hv).2.1
    omega
  refine ⟨h.card, ?_, ?_, ?_, ?_⟩
  · intro d hd
    have := h.done_lt d hd
    omega
  · intro v d hv
    rw [hh] at hv
    split at hv
    · obtain rfl : claimed = d := Option.some.inj hv
      refine ⟨hlt, by omega, ?_⟩
      intro hd
      have := (h.done_lt claimed hd).2
      omega
    · have := h.held_lt v d hv
      exact ⟨this.1, by omega, this.2.2⟩
  · intro v v' d hv hv'
    rw [hh] at hv hv'
    split at hv <;> split at hv'
    · next h₁ h₂ => rw [h₁, h₂]
    · exact absurd (hv'.trans hv.symm) (hfresh v')
    · exact absurd (hv.trans hv'.symm) (hfresh v)
    · exact h.unique v v' d hv hv'
  · intro d hd hdc
    rcases Nat.lt_succ_iff_lt_or_eq.mp hdc with hlt' | heq
    · rcases h.cover d hd hlt' with hin | ⟨v, hv⟩
      · exact Or.inl hin
      · refine Or.inr ⟨v, ?_⟩
        have hvw : v ≠ w := by
          intro hvw
          rw [hvw, hw] at hv
          exact absurd hv (by simp)
        rw [hh, if_neg hvw]
        exact hv
    · exact Or.inr ⟨w, by rw [hh, if_pos rfl, heq]⟩

omit [DecidableEq ι] in
/-- A claim behind the last chunk gives nothing. -/
theorem claim_none (h : Sharing total claimed finished holds done) (hle : total ≤ claimed) :
    Sharing total (claimed + 1) finished holds done := by
  refine ⟨h.card, ?_, ?_, h.unique, ?_⟩
  · intro d hd
    have := h.done_lt d hd
    omega
  · intro v d hv
    have := h.held_lt v d hv
    exact ⟨this.1, by omega, this.2.2⟩
  · intro d hd _
    exact h.cover d hd (by omega)

/-- **Finish**: worker `w` gives its chunk back, done. -/
theorem finish (h : Sharing total claimed finished holds done) (hw : holds w = some c)
    (hh : ∀ v, holds' v = if v = w then none else holds v) :
    Sharing total claimed (finished + 1) holds' (insert c done) := by
  have hc := h.held_lt w c hw
  have hsub : ∀ v d, holds' v = some d → v ≠ w ∧ holds v = some d := by
    intro v d hv
    rw [hh] at hv
    split at hv
    · exact absurd hv (by simp)
    · next hvw => exact ⟨hvw, hv⟩
  refine ⟨?_, ?_, ?_, ?_, ?_⟩
  · rw [Finset.card_insert_of_notMem hc.2.2, h.card]
  · intro d hd
    rcases Finset.mem_insert.mp hd with heq | hd
    · rw [heq]
      exact ⟨hc.1, hc.2.1⟩
    · exact h.done_lt d hd
  · intro v d hv
    obtain ⟨hvw, hv⟩ := hsub v d hv
    have hd := h.held_lt v d hv
    refine ⟨hd.1, hd.2.1, ?_⟩
    rw [Finset.mem_insert, not_or]
    refine ⟨?_, hd.2.2⟩
    intro heq
    exact hvw (h.unique v w c (by rw [hv, heq]) hw)
  · intro v v' d hv hv'
    exact h.unique v v' d (hsub v d hv).2 (hsub v' d hv').2
  · intro d hd hdc
    rcases h.cover d hd hdc with hin | ⟨v, hv⟩
    · exact Or.inl (Finset.mem_insert_of_mem hin)
    · by_cases hvw : v = w
      · rw [hvw, hw] at hv
        obtain rfl : c = d := Option.some.inj hv
        exact Or.inl (Finset.mem_insert_self c done)
      · exact Or.inr ⟨v, by rw [hh, if_neg hvw]; exact hv⟩

end Update

end Sharing

end MultiCore.Lib
