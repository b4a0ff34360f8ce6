/-
  MultiCore.Lib.RacingTable — an open-addressing table that several writers
  race on.

  A `Scheme` fixes the probe paths and the special values of a table; a `Board`
  is its buckets, with the numbers of keys put into it and taken out of it so
  far.  The only writes (`Board.Step`) put a key into an empty bucket behind a
  clear path, and replace a key by the tombstone.  So

    * the board stays `Ok`: every key sits in at most one bucket, and in one
      exactly when it was put in once more than it was taken out;
    * what a prober has left behind stays left behind (`Step.clear`), a bucket
      in use stays in use (`Step.used`), and a key that vanishes from its bucket
      is nowhere in the table right after (`Step.gone`).

  Nothing here mentions a concrete program.
-/
import MultiCore.Lib.OpenAddressing

namespace MultiCore.Lib

variable {β : Type*}

/-! ## §1. Boards. -/

/-- What a table fixes: its special values, its capacity and its probe paths. -/
structure Scheme (β : Type*) where
  empty : β
  tomb : β
  live : β → Prop
  path : β → ℕ → ℕ
  capacity : ℕ
  path_lt : ∀ k i, i < capacity → path k i < capacity
  empty_not_live : ¬ live empty
  tomb_not_live : ¬ live tomb
  tomb_ne_empty : tomb ≠ empty

/-- The buckets, and how often each key has been put in and taken out. -/
structure Board (β : Type*) where
  data : ℕ → β
  inserted : β → ℕ
  erased : β → ℕ

namespace Board

variable [DecidableEq β]

/-- The board at the start. -/
def blank (e : β) : Board β := { data := fun _ => e, inserted := fun _ => 0, erased := fun _ => 0 }

/-- `k` is put into bucket `x`. -/
def put (b : Board β) (x : ℕ) (k : β) : Board β :=
  { b with
    data := Function.update b.data x k
    inserted := Function.update b.inserted k (b.inserted k + 1) }

/-- `k` is taken out of bucket `x`. -/
def bury (b : Board β) (x : ℕ) (k tomb : β) : Board β :=
  { b with
    data := Function.update b.data x tomb
    erased := Function.update b.erased k (b.erased k + 1) }

/-- Some bucket holds `k`. -/
def Has (S : Scheme β) (b : Board β) (k : β) : Prop := ∃ x < S.capacity, b.data x = k

/-- The first `i` buckets of the path of `k` are neither empty nor `k`. -/
abbrev Passed (S : Scheme β) (b : Board β) (k : β) (i : ℕ) : Prop :=
  Clear b.data S.empty k (S.path k) i

/-- The writes of the table. -/
inductive Step (S : Scheme β) (b : Board β) : Board β → Prop where
  | same : Step S b b
  | put {k : β} {i : ℕ} (hk : S.live k) (hi : i < S.capacity)
      (hempty : b.data (S.path k i) = S.empty) (hpassed : b.Passed S k i) :
      Step S b (b.put (S.path k i) k)
  | bury {x : ℕ} {k : β} (hk : S.live k) (hx : x < S.capacity) (hdata : b.data x = k) :
      Step S b (b.bury x k S.tomb)

/-- The keys are well placed, and the counts say which are in the table. -/
structure Ok (S : Scheme β) (b : Board β) : Prop where
  placed : Placed b.data S.empty S.live S.path S.capacity
  count : ∀ k, S.live k →
    b.inserted k = b.erased k + bucketCount (fun v => v = k) b.data S.capacity

variable {S : Scheme β} {b b' : Board β} {k : β} {i x : ℕ}

theorem Ok.blank (S : Scheme β) : Ok S (Board.blank S.empty) := by
  constructor
  · exact Placed.blank S.empty_not_live
  · intro k hk
    have hne : ¬ S.empty = k := fun h => S.empty_not_live (h ▸ hk)
    show 0 = 0 + bucketCount (fun v => v = k) (fun _ => S.empty) S.capacity
    rw [bucketCount_blank (p := fun v => v = k) hne]

/-! ## §2. What an ok board says. -/

theorem Ok.unique (h : Ok S b) (hk : S.live k) {y : ℕ} (hx : x < S.capacity)
    (hy : y < S.capacity) (hxk : b.data x = k) (hyk : b.data y = k) : x = y :=
  h.placed.unique hx hy (hxk ▸ hk) (hxk.trans hyk.symm)

/-- A key is in one bucket, or in none. -/
theorem Ok.count_eq (h : Ok S b) (hk : S.live k) [Decidable (b.Has S k)] :
    bucketCount (fun v => v = k) b.data S.capacity = if b.Has S k then 1 else 0 := by
  split
  · rename_i hhas
    have hpos : 0 < bucketCount (fun v => v = k) b.data S.capacity := bucketCount_pos_iff.mpr hhas
    have hle : bucketCount (fun v => v = k) b.data S.capacity ≤ 1 := by
      unfold bucketCount
      rw [Finset.card_le_one]
      intro x hx y hy
      rw [Finset.mem_filter, Finset.mem_range] at hx hy
      exact h.unique hk hx.1 hy.1 hx.2 hy.2
    omega
  · rename_i hnot
    have hzero : ¬ 0 < bucketCount (fun v => v = k) b.data S.capacity :=
      fun hpos => hnot (bucketCount_pos_iff.mp hpos)
    omega

/-- A passed path that ends at an empty bucket, or at the end of the table,
shows that the key is absent. -/
theorem Ok.absent (h : Ok S b) (hk : S.live k) (hpassed : b.Passed S k i)
    (hend : i < S.capacity → b.data (S.path k i) = S.empty) : ¬ b.Has S k := by
  intro hhas
  obtain ⟨x, hx, hxk⟩ := hhas
  have hke : k ≠ S.empty := fun heq => S.empty_not_live (heq ▸ hk)
  exact h.placed.absent hk hke hpassed hend x hx hxk

/-! ## §3. What a step keeps. -/

/-- The ledger of a single write: the key it counts is the key whose buckets
change. -/
theorem Step.ok (h : Step S b b') (hok : Ok S b) : Ok S b' := by
  cases h with
  | same => exact hok
  | @put k i hk hi hempty hpassed =>
      constructor
      · exact hok.placed.insert hi hempty hpassed
      · intro k' hk'
        have hcount := hok.count k' hk'
        have hne : ¬ S.empty = k' := fun h => S.empty_not_live (h ▸ hk')
        have hlt := S.path_lt k i hi
        show Function.update b.inserted k (b.inserted k + 1) k'
          = b.erased k' + bucketCount _ (Function.update b.data (S.path k i) k) S.capacity
        by_cases heq : k' = k
        · subst heq
          rw [Function.update_self,
            bucketCount_update_add (p := fun v => v = k') hlt (by rw [hempty]; exact hne) rfl]
          omega
        · rw [Function.update_of_ne heq, bucketCount_update_same (p := fun v => v = k') hlt]
          · exact hcount
          · rw [hempty]
            exact ⟨fun h => absurd h hne, fun h => absurd h.symm heq⟩
  | @bury x k hk hx hdata =>
      constructor
      · exact hok.placed.erase S.tomb_not_live S.tomb_ne_empty
      · intro k' hk'
        have hcount := hok.count k' hk'
        have hne : ¬ S.tomb = k' := fun h => S.tomb_not_live (h ▸ hk')
        show b.inserted k' = Function.update b.erased k (b.erased k + 1) k'
          + bucketCount _ (Function.update b.data x S.tomb) S.capacity
        by_cases heq : k' = k
        · subst heq
          have hsub := bucketCount_update_sub (p := fun v => v = k') hx hdata hne
          rw [Function.update_self]
          omega
        · rw [Function.update_of_ne heq, bucketCount_update_same (p := fun v => v = k') hx]
          · exact hcount
          · rw [hdata]
            exact ⟨fun h => absurd h.symm heq, fun h => absurd h hne⟩

/-- What a prober has left behind stays left behind. -/
theorem Step.passed (h : Step S b b') (hk : S.live k) (hpassed : b.Passed S k i) :
    b'.Passed S k i := by
  cases h with
  | same => exact hpassed
  | put hk' hi hempty hp => exact hpassed.update (Or.inl hempty)
  | bury hk' hx hdata =>
      refine hpassed.update (Or.inr ⟨S.tomb_ne_empty, ?_⟩)
      intro heq
      exact S.tomb_not_live (heq ▸ hk)

/-- A bucket in use stays in use. -/
theorem Step.used (h : Step S b b') (hx : b.data x ≠ S.empty) : b'.data x ≠ S.empty := by
  cases h with
  | same => exact hx
  | @put k' i hk hi hempty hp =>
      show Function.update b.data (S.path k' i) k' x ≠ S.empty
      by_cases heq : x = S.path k' i
      · exact absurd (heq ▸ hempty) hx
      · rw [Function.update_of_ne heq]
        exact hx
  | @bury y k' hk hy hdata =>
      show Function.update b.data y S.tomb x ≠ S.empty
      by_cases heq : x = y
      · rw [heq, Function.update_self]
        exact S.tomb_ne_empty
      · rw [Function.update_of_ne heq]
        exact hx

/-- **A key that vanishes from its bucket is nowhere in the table right after**:
it was in no other bucket, and no write moves it. -/
theorem Step.gone (h : Step S b b') (hok : Ok S b) (hk : S.live k) (hx : x < S.capacity)
    (hdata : b.data x = k) : b'.data x = k ∨ b'.data x = S.tomb ∧ ¬ b'.Has S k := by
  cases h with
  | same => exact Or.inl hdata
  | @put k' i hk' hi hempty hp =>
      left
      show Function.update b.data (S.path k' i) k' x = k
      have hne : x ≠ S.path k' i := by
        intro heq
        rw [heq, hempty] at hdata
        exact S.empty_not_live (hdata ▸ hk)
      rw [Function.update_of_ne hne, hdata]
  | @bury y k' hk' hy hdata' =>
      by_cases heq : x = y
      · right
        subst heq
        refine ⟨Function.update_self .., ?_⟩
        intro hhas
        obtain ⟨z, hz, hzk⟩ := hhas
        change Function.update b.data x S.tomb z = k at hzk
        by_cases hzx : z = x
        · rw [hzx, Function.update_self] at hzk
          exact S.tomb_not_live (hzk ▸ hk)
        · rw [Function.update_of_ne hzx] at hzk
          exact hzx (hok.unique hk hz hx hzk hdata)
      · left
        show Function.update b.data y S.tomb x = k
        rw [Function.update_of_ne heq, hdata]

/-- A tombstone stays. -/
theorem Step.tomb (h : Step S b b') (hx : b.data x = S.tomb) : b'.data x = S.tomb := by
  cases h with
  | same => exact hx
  | @put k' i hk' hi hempty hp =>
      show Function.update b.data (S.path k' i) k' x = S.tomb
      have hne : x ≠ S.path k' i := by
        intro heq
        rw [heq, hempty] at hx
        exact S.tomb_ne_empty hx.symm
      rw [Function.update_of_ne hne, hx]
  | @bury y k' hk' hy hdata =>
      have hne : x ≠ y := by
        intro heq
        rw [heq, hdata] at hx
        exact S.tomb_not_live (hx ▸ hk')
      show Function.update b.data y S.tomb x = S.tomb
      rw [Function.update_of_ne hne, hx]

end Board

end MultiCore.Lib
