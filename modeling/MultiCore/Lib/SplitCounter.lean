/-
  MultiCore.Lib.SplitCounter — a counter split over threads, read part by part.

  A thread that has made an event owes it to the counter; it adds one to its
  own part, and now and then it flushes the part: it adds it to the global
  count and then sets it to zero.  A reader adds up the parts one after the
  other and the global count last, while all this goes on.

  What a reader ends up with is bounded through `read`: what it has summed up
  so far, together with everything it still has in front of it.

    * `read_zero` — before the first part this is the number of events;
    * `read_move` — an event behind the reader is missed, and a part that is
      flushed behind it is counted twice; nothing else changes `read`;
    * `read_next` — so do the parts of threads that owe, or have flushed but
      not yet cleared, at the moment they are read;
    * `read_last` — behind the last part it is the sum.

  Nothing here mentions a concrete program.
-/
import Mathlib.Algebra.BigOperators.Group.Finset.Piecewise
import Mathlib.Algebra.Order.BigOperators.Group.Finset
import Mathlib.Data.Fintype.BigOperators
import Mathlib.Data.Int.Order.Basic
import Mathlib.Tactic.Abel
import Mathlib.Tactic.Push

namespace MultiCore.Lib

/-- Where a thread is in counting one event. -/
inductive Phase where
  | quiet
  /-- It has made an event and not counted it yet. -/
  | owes
  /-- It is about to add `val` to the global count. -/
  | flushing (val : ℕ)
  /-- It has done so, and is about to clear its part. -/
  | flushed
  deriving DecidableEq

structure SplitCounter (N : ℕ) where
  global : ℤ
  part : Fin N → ℕ
  phase : Fin N → Phase

namespace SplitCounter

variable {N : ℕ}

/-! ## §1. Moves. -/

/-- The event that thread `i` has not counted yet. -/
def owed (c : SplitCounter N) (i : Fin N) : ℕ := if c.phase i = .owes then 1 else 0

/-- What thread `i` still has to bring to the global count. -/
def load (c : SplitCounter N) (i : Fin N) : ℕ :=
  (if c.phase i = .flushed then 0 else c.part i) + c.owed i

/-- What is in the part of thread `i` and in the global count as well. -/
def twice (c : SplitCounter N) (i : Fin N) : ℕ := if c.phase i = .flushed then c.part i else 0

/-- To read a part is to miss what its thread owes, and to count twice what it
has flushed. -/
theorem part_eq (c : SplitCounter N) (i : Fin N) :
    c.part i + c.owed i = c.load i + c.twice i := by
  unfold load twice
  split <;> omega

/-- A step of thread `i` by which `e` events are made, and `f` events are added
to the global count. -/
inductive Move (c : SplitCounter N) (i : Fin N) : SplitCounter N → ℕ → ℕ → Prop where
  | skip : Move c i c 0 0
  | event (h : c.phase i = .quiet) :
      Move c i { c with phase := Function.update c.phase i .owes } 1 0
  | bump {p : Phase} (h : c.phase i = .owes) (hp : p = .quiet ∨ p = .flushing (c.part i + 1)) :
      Move c i { c with
        part := Function.update c.part i (c.part i + 1), phase := Function.update c.phase i p } 0 0
  | publish {v : ℕ} (h : c.phase i = .flushing v) :
      Move c i { c with global := c.global + v, phase := Function.update c.phase i .flushed } 0 v
  | reset (h : c.phase i = .flushed) :
      Move c i { c with
        part := Function.update c.part i 0, phase := Function.update c.phase i .quiet } 0 0

/-- Two families that differ at `i` only. -/
theorem sum_change {M : Type*} [AddCommMonoid M] {f g : Fin N → M} (i : Fin N)
    (h : ∀ j, j ≠ i → g j = f j) : ∑ j, g j + f i = ∑ j, f j + g i := by
  have hrest : ∑ j ∈ Finset.univ.erase i, g j = ∑ j ∈ Finset.univ.erase i, f j := by
    apply Finset.sum_congr rfl
    intro j hj
    exact h j (Finset.ne_of_mem_erase hj)
  rw [← Finset.add_sum_erase _ g (Finset.mem_univ i),
    ← Finset.add_sum_erase _ f (Finset.mem_univ i), hrest]
  abel

/-- The other threads' parts and phases stay. -/
theorem Move.others {c c' : SplitCounter N} {i : Fin N} {e f : ℕ} (h : Move c i c' e f)
    (j : Fin N) (hj : j ≠ i) : c'.part j = c.part j ∧ c'.phase j = c.phase j := by
  cases h with
  | skip => exact ⟨rfl, rfl⟩
  | event h => exact ⟨rfl, Function.update_of_ne hj _ _⟩
  | bump h hp => exact ⟨Function.update_of_ne hj _ _, Function.update_of_ne hj _ _⟩
  | publish h => exact ⟨rfl, Function.update_of_ne hj _ _⟩
  | reset h => exact ⟨Function.update_of_ne hj _ _, Function.update_of_ne hj _ _⟩

theorem Move.load_others {c c' : SplitCounter N} {i : Fin N} {e f : ℕ} (h : Move c i c' e f)
    (j : Fin N) (hj : j ≠ i) : c'.load j = c.load j := by
  obtain ⟨hpart, hphase⟩ := h.others j hj
  unfold load owed
  rw [hpart, hphase]

/-- **The load of a thread grows by its events and shrinks by what it
flushes.** -/
theorem Move.load_self {c c' : SplitCounter N} {i : Fin N} {e f : ℕ} (h : Move c i c' e f)
    (hf : ∀ v, c.phase i = .flushing v → v = c.part i) :
    c'.load i + f = c.load i + e ∧ c'.global = c.global + f := by
  unfold load owed
  cases h with
  | skip => simp
  | event h => simp [h]
  | bump h hp =>
      rcases hp with rfl | rfl
      · simp [h]
      · simp [h]
  | publish h =>
      have := hf _ h
      simp [h, this]
  | reset h => simp [h]

/-! ## §2. The invariant. -/

/-- `total` events have been made; `bumps i` of them are counted by thread `i`. -/
structure Inv (c : SplitCounter N) (total : ℕ) (bumps : Fin N → ℕ) : Prop where
  sum_eq : c.global + ∑ i, (c.load i : ℤ) = total
  part_le : ∀ i, c.part i ≤ bumps i
  bumps_le : ∑ i, bumps i + ∑ i, c.owed i ≤ total
  nonneg : 0 ≤ c.global
  flushing : ∀ i v, c.phase i = .flushing v → v = c.part i

theorem Inv.start {c : SplitCounter N} (hg : c.global = 0) (hp : ∀ i, c.part i = 0)
    (hq : ∀ i, c.phase i = .quiet) : c.Inv 0 (fun _ => 0) where
  sum_eq := by simp [load, owed, hg, hp, hq]
  part_le i := by rw [hp]
  bumps_le := by simp [owed, hq]
  nonneg := by rw [hg]
  flushing i v hv := by
    rw [hq] at hv
    exact absurd hv (by simp)

theorem Inv.global_le {c : SplitCounter N} {total : ℕ} {bumps : Fin N → ℕ}
    (h : c.Inv total bumps) : c.global ≤ total := by
  have hsum := h.sum_eq
  have hload : 0 ≤ ∑ i, (c.load i : ℤ) := Finset.sum_nonneg (fun i _ => Int.natCast_nonneg _)
  omega

/-- A thread counts `b` of the events it owes, and flushes what its part says. -/
theorem Move.counts {c c' : SplitCounter N} {i : Fin N} {e f : ℕ} (h : Move c i c' e f)
    (hf : ∀ v, c.phase i = .flushing v → v = c.part i) :
    ∃ b, c'.part i ≤ c.part i + b ∧ b + c'.owed i = c.owed i + e
      ∧ ∀ v, c'.phase i = .flushing v → v = c'.part i := by
  unfold owed
  cases h with
  | skip => exact ⟨0, by omega, by omega, hf⟩
  | event h => exact ⟨0, by simp [h]⟩
  | bump h hp =>
      rcases hp with rfl | rfl
      · exact ⟨1, by simp [h]⟩
      · exact ⟨1, by simp [h]⟩
  | publish h => exact ⟨0, by simp [h]⟩
  | reset h => exact ⟨0, by simp [h]⟩

/-- **Every move keeps the invariant.** -/
theorem Inv.move {c c' : SplitCounter N} {i : Fin N} {e f total : ℕ} {bumps : Fin N → ℕ}
    (h : c.Inv total bumps) (hm : Move c i c' e f) :
    ∃ bumps', c'.Inv (total + e) bumps' ∧ ∀ j, bumps j ≤ bumps' j := by
  obtain ⟨hload, hglobal⟩ := hm.load_self (h.flushing i)
  obtain ⟨b, hpart, howes, hflush⟩ := hm.counts (h.flushing i)
  have hothers := hm.others
  have hsum := sum_change (f := fun j => (c.load j : ℤ)) (g := fun j => (c'.load j : ℤ)) i
    (fun j hj => by rw [hm.load_others j hj])
  have howed : ∑ j, c'.owed j + c.owed i = ∑ j, c.owed j + c'.owed i := by
    apply sum_change i
    intro j hj
    unfold owed
    rw [(hothers j hj).2]
  have hbumps := sum_change (f := bumps) (g := Function.update bumps i (bumps i + b)) i
    (fun j hj => Function.update_of_ne hj _ bumps)
  rw [Function.update_self] at hbumps
  have hself : ∀ j, bumps j ≤ Function.update bumps i (bumps i + b) j := by
    intro j
    by_cases hj : j = i
    · rw [hj, Function.update_self]
      omega
    · rw [Function.update_of_ne hj]
  refine ⟨Function.update bumps i (bumps i + b), ⟨?_, ?_, ?_, ?_, ?_⟩, hself⟩
  · have := h.sum_eq
    push_cast
    omega
  · intro j
    by_cases hj : j = i
    · have := h.part_le i
      rw [hj, Function.update_self]
      omega
    · rw [(hothers j hj).1]
      exact Nat.le_trans (h.part_le j) (hself j)
  · have := h.bumps_le
    omega
  · have := h.nonneg
    omega
  · intro j v hv
    by_cases hj : j = i
    · subst hj
      exact hflush v hv
    · rw [(hothers j hj).2] at hv
      rw [(hothers j hj).1]
      exact h.flushing j v hv

/-! ## §3. Reading part by part. -/

/-- What a reader that has added up the parts before `n` to `ret` would end up
with, if it found every load in front of it. -/
def read (c : SplitCounter N) (n : ℕ) (ret : ℤ) : ℤ :=
  ret + ∑ i : Fin N, (if n ≤ i.val then (c.load i : ℤ) else 0) + c.global

/-- The events that the threads before `n` have counted. -/
def below (bumps : Fin N → ℕ) (n : ℕ) : ℕ := ∑ i : Fin N, if i.val < n then bumps i else 0

theorem read_zero {c : SplitCounter N} {total : ℕ} {bumps : Fin N → ℕ} (h : c.Inv total bumps) :
    c.read 0 0 = total := by
  have := h.sum_eq
  unfold read
  simp only [Nat.zero_le, if_true]
  omega

theorem read_last (c : SplitCounter N) {n : ℕ} (hn : N ≤ n) (ret : ℤ) :
    c.read n ret = ret + c.global := by
  have hzero : ∑ i : Fin N, (if n ≤ i.val then (c.load i : ℤ) else 0) = 0 := by
    apply Finset.sum_eq_zero
    intro i _
    exact if_neg (by omega)
  unfold read
  omega

/-- Reading part `n`. -/
theorem read_next (c : SplitCounter N) (n : Fin N) (ret : ℤ) :
    c.read (n + 1) (ret + c.part n) + c.owed n = c.read n ret + c.twice n := by
  have hpart := c.part_eq n
  have hsum := sum_change (f := fun i : Fin N => if n.val ≤ i.val then (c.load i : ℤ) else 0)
    (g := fun i : Fin N => if n.val + 1 ≤ i.val then (c.load i : ℤ) else 0) n (by
      intro j hj
      have hne : j.val ≠ n.val := fun h => hj (Fin.ext h)
      by_cases hle : n.val ≤ j.val
      · rw [if_pos hle, if_pos (by omega)]
      · rw [if_neg hle, if_neg (by omega)])
  simp only [Nat.le_refl, if_true, Nat.not_succ_le_self, if_false] at hsum
  unfold read
  omega

/-- **A step of thread `i` under a reader**: in front of the reader its events
are found, behind it they are missed; what it flushes behind the reader is
counted twice. -/
theorem read_move {c c' : SplitCounter N} {i : Fin N} {e f total : ℕ} {bumps : Fin N → ℕ}
    (h : c.Inv total bumps) (hm : Move c i c' e f) (n : ℕ) (ret : ℤ) :
    c'.read n ret = c.read n ret + (if n ≤ i.val then e else f : ℕ) := by
  obtain ⟨hload, hglobal⟩ := hm.load_self (h.flushing i)
  have hsum := sum_change (f := fun j : Fin N => if n ≤ j.val then (c.load j : ℤ) else 0)
    (g := fun j : Fin N => if n ≤ j.val then (c'.load j : ℤ) else 0) i (by
      intro j hj
      rw [hm.load_others j hj])
  unfold read
  by_cases hle : n ≤ i.val
  · simp only [if_pos hle] at hsum ⊢
    omega
  · simp only [if_neg hle] at hsum ⊢
    omega

theorem below_next (bumps : Fin N → ℕ) (n : Fin N) :
    below bumps (n + 1) = below bumps n + bumps n := by
  have hsum := sum_change (f := fun i : Fin N => if i.val < n.val then bumps i else 0)
    (g := fun i : Fin N => if i.val < n.val + 1 then bumps i else 0) n (by
      intro j hj
      have hne : j.val ≠ n.val := fun h => hj (Fin.ext h)
      by_cases hlt : j.val < n.val
      · rw [if_pos hlt, if_pos (by omega)]
      · rw [if_neg hlt, if_neg (by omega)])
  simp only [Nat.lt_irrefl, if_false, Nat.lt_succ_self, if_true] at hsum
  unfold below
  omega

theorem below_mono {bumps bumps' : Fin N → ℕ} (h : ∀ j, bumps j ≤ bumps' j) (n : ℕ) :
    below bumps n ≤ below bumps' n := by
  apply Finset.sum_le_sum
  intro j _
  split
  · exact h j
  · exact Nat.le_refl _

theorem below_le {c : SplitCounter N} {total : ℕ} {bumps : Fin N → ℕ} (h : c.Inv total bumps)
    (n : ℕ) : below bumps n ≤ total := by
  have hle : below bumps n ≤ ∑ j, bumps j := by
    apply Finset.sum_le_sum
    intro j _
    split
    · exact Nat.le_refl _
    · exact Nat.zero_le _
  have := h.bumps_le
  omega

end SplitCounter

end MultiCore.Lib
