/-
  MultiCore.Lib.Run — transition systems, runs and their invariants.

  A `Sys` is a state machine whose actions carry every choice of the
  scheduler, so one action has at most one successor.  This file supplies
  what every development over such a machine needs:

    * `Reach M C` — the states reached by runs whose steps all meet the
      step condition `C` (`Reachable M` is the unconditional case);
    * `Reach.induct` — the invariant rule;
    * `Run` — one run with its states and actions indexed by time;
      `Run.invariant` and `Run.persists` — the invariant rules along it;
      `Run.count` — the number of its steps of one kind;
    * `Run.exists_of_check` — the run of a list of actions that passes a test;
    * `Run.since` / `Run.Once` — the past-time operator "at some instant
      since the last marked action", with its step rules.

  Nothing here mentions a concrete program.
-/
import Mathlib.Data.Set.Function
import Mathlib.Order.Basic

namespace MultiCore.Lib

/-! ## §1. Systems and reachability. -/

/-- A labelled state machine: `next s a` is the state after action `a`, or
`none` when `a` is not enabled in `s`. -/
structure Sys (σ α : Type*) where
  init : σ
  next : σ → α → Option σ

variable {σ α : Type*}

/-- The states reached by runs in which every step meets `C`. -/
inductive Reach (M : Sys σ α) (C : σ → α → Prop) : σ → Prop where
  | init : Reach M C M.init
  | step {s s' : σ} {a : α} : Reach M C s → C s a → M.next s a = some s' → Reach M C s'

/-- The states reached by any run. -/
abbrev Reachable (M : Sys σ α) : σ → Prop := Reach M (fun _ _ => True)

/-- **The invariant rule**: what holds initially and is kept by every step
from a reachable state holds in every reachable state. -/
theorem Reach.induct {M : Sys σ α} {C : σ → α → Prop} {P : σ → Prop}
    (h0 : P M.init)
    (hs : ∀ s a s', Reach M C s → P s → C s a → M.next s a = some s' → P s')
    {s : σ} (h : Reach M C s) : P s := by
  induction h with
  | init => exact h0
  | step hr hc hn ih => exact hs _ _ _ hr ih hc hn

theorem Reach.mono {M : Sys σ α} {C D : σ → α → Prop} (hCD : ∀ s a, C s a → D s a)
    {s : σ} (h : Reach M C s) : Reach M D s := by
  induction h with
  | init => exact Reach.init
  | step _ hc hn ih => exact Reach.step ih (hCD _ _ hc) hn

/-- Perform a list of actions from `s`; `none` if one of them is not enabled. -/
def Sys.exec (M : Sys σ α) : σ → List α → Option σ
  | s, [] => some s
  | s, a :: as => (M.next s a).bind fun s' => M.exec s' as

/-- What a list of actions reaches from a reachable state is reachable. -/
theorem Reach.exec {M : Sys σ α} :
    ∀ (as : List α) {s s' : σ}, Reachable M s → M.exec s as = some s' → Reachable M s'
  | [], s, s', hr, h => by
      simp only [Sys.exec, Option.some.injEq] at h
      exact h ▸ hr
  | a :: as, s, s', hr, h => by
      simp only [Sys.exec, Option.bind_eq_some_iff] at h
      obtain ⟨s₁, h₁, h₂⟩ := h
      exact Reach.exec as (Reach.step hr trivial h₁) h₂

/-- The state after a list of actions from the initial state. -/
def Sys.after (M : Sys σ α) (as : List α) : σ := (M.exec M.init as).getD M.init

theorem Sys.exec_eq_after (M : Sys σ α) (as : List α) (h : (M.exec M.init as).isSome = true) :
    M.exec M.init as = some (M.after as) := by
  obtain ⟨s, hs⟩ := Option.isSome_iff_exists.mp h
  rw [Sys.after, hs, Option.getD_some]

theorem Sys.after_reachable (M : Sys σ α) (as : List α)
    (h : (M.exec M.init as).isSome = true) : Reachable M (M.after as) :=
  Reach.exec as Reach.init (M.exec_eq_after as h)

/-- Every step that a list of actions takes from `s` meets `C`. -/
def Sys.Along (M : Sys σ α) (C : σ → α → Prop) : σ → List α → Prop
  | _, [] => True
  | s, a :: as => C s a ∧ ∀ s', M.next s a = some s' → M.Along C s' as

/-- A list of actions meets `C` when the last step of each of its prefixes does. -/
theorem Sys.along_iff {M : Sys σ α} {C : σ → α → Prop} {as : List α} {s : σ} :
    M.Along C s as ↔
      ∀ pre a, pre ++ [a] <+: as → ∀ s', M.exec s pre = some s' → C s' a := by
  induction as generalizing s with
  | nil =>
      refine iff_of_true trivial ?_
      intro pre a hpre
      exact absurd (List.prefix_nil.mp hpre) (by simp)
  | cons b as ih =>
      constructor
      · intro h pre a hpre s' hexec
        cases pre with
        | nil =>
            obtain ⟨rfl, -⟩ := List.cons_prefix_cons.mp hpre
            obtain rfl : s = s' := by simpa [Sys.exec] using hexec
            exact h.1
        | cons b' pre =>
            obtain ⟨rfl, hrest⟩ := List.cons_prefix_cons.mp hpre
            simp only [Sys.exec, Option.bind_eq_some_iff] at hexec
            obtain ⟨s₁, hnext, hexec₁⟩ := hexec
            exact ih.mp (h.2 s₁ hnext) pre a hrest s' hexec₁
      · intro h
        refine ⟨h [] b ⟨as, rfl⟩ s rfl, fun s₁ hnext => ih.mpr ?_⟩
        intro pre a hpre s' hexec
        refine h (b :: pre) a (List.cons_prefix_cons.mpr ⟨rfl, hpre⟩) s' ?_
        simp only [Sys.exec, hnext, Option.bind_some]
        exact hexec

/-- Perform a list of actions and test every step on the way, and the state
they lead to. -/
def Sys.check (M : Sys σ α) (c : σ → α → Bool) (f : σ → Bool) : σ → List α → Bool
  | s, [] => f s
  | s, a :: as =>
      c s a && match M.next s a with
        | some s' => M.check c f s' as
        | none => false

/-! ## §2. Runs indexed by time. -/

/-- One finite run: `state i` for `i ≤ len` and `act i` for `i < len`. -/
structure Run (M : Sys σ α) where
  len : ℕ
  state : ℕ → σ
  act : ℕ → α
  start : state 0 = M.init
  step : ∀ i, i < len → M.next (state i) (act i) = some (state (i + 1))

/-- **The invariant rule along a run**, for what may speak of the time. -/
theorem Run.invariant {M : Sys σ α} (r : Run M) {P : ℕ → σ → Prop} (h0 : P 0 M.init) {n : ℕ}
    (hn : n ≤ r.len)
    (hs : ∀ i < n, i < r.len → P i (r.state i) → P (i + 1) (r.state (i + 1))) :
    P n (r.state n) := by
  induction n with
  | zero =>
      rw [r.start]
      exact h0
  | succ n ih =>
      have hbefore := ih (Nat.le_of_succ_le hn) fun i hi => hs i (Nat.lt_succ_of_lt hi)
      exact hs n (Nat.lt_succ_self n) hn hbefore

/-- What the steps from time `i` on keep is still true at time `j`. -/
theorem Run.persists {M : Sys σ α} (r : Run M) {P : σ → Prop} {i j : ℕ} (hij : i ≤ j)
    (hj : j ≤ r.len) (h : P (r.state i))
    (hs : ∀ k, i ≤ k → k < j → k < r.len → P (r.state k) → P (r.state (k + 1))) :
    P (r.state j) := by
  induction j, hij using Nat.le_induction with
  | base => exact h
  | succ j hij ih =>
      have hbefore := ih (Nat.le_of_succ_le hj) fun k h₁ h₂ => hs k h₁ (Nat.lt_succ_of_lt h₂)
      exact hs j hij (Nat.lt_succ_self j) hj hbefore

/-- A run whose steps all meet `C` passes through states that are reached so. -/
theorem Run.reach {M : Sys σ α} (r : Run M) {C : σ → α → Prop}
    (hC : ∀ i < r.len, C (r.state i) (r.act i)) {i : ℕ} (h : i ≤ r.len) : Reach M C (r.state i) :=
  r.invariant (P := fun _ => Reach M C) Reach.init h
    fun i _ hi hbefore => Reach.step hbefore (hC i hi) (r.step i hi)

/-- An enabled list of actions stays enabled up to each of its prefixes. -/
theorem Sys.exec_take_isSome (M : Sys σ α) :
    ∀ (as : List α) (s : σ) (i : ℕ), (M.exec s as).isSome = true →
      (M.exec s (as.take i)).isSome = true
  | [], s, i, h => by simpa using h
  | a :: as, s, 0, _ => rfl
  | a :: as, s, i + 1, h => by
      simp only [List.take_succ_cons, Sys.exec, Option.isSome_bind, Option.any_eq_true] at h ⊢
      obtain ⟨s₁, h₁, h₂⟩ := h
      exact ⟨s₁, h₁, M.exec_take_isSome as s₁ i h₂⟩

theorem Sys.exec_append (M : Sys σ α) :
    ∀ (as bs : List α) (s : σ), M.exec s (as ++ bs) = (M.exec s as).bind (M.exec · bs)
  | [], bs, s => by simp [Sys.exec]
  | a :: as, bs, s => by
      simp only [List.cons_append, Sys.exec, Option.bind_assoc]
      exact congrArg _ (funext fun s₁ => M.exec_append as bs s₁)

theorem Sys.along_append {M : Sys σ α} {C : σ → α → Prop} {bs : List α} :
    ∀ {as : List α} {s s' : σ}, M.Along C s as → M.exec s as = some s' → M.Along C s' bs →
      M.Along C s (as ++ bs)
  | [], s, s', _, hexec, h => by
      obtain rfl : s = s' := by simpa [Sys.exec] using hexec
      exact h
  | a :: as, s, s', halong, hexec, h => by
      simp only [Sys.exec, Option.bind_eq_some_iff] at hexec
      obtain ⟨s₁, hnext, hrest⟩ := hexec
      refine ⟨halong.1, fun s₂ hnext' => ?_⟩
      obtain rfl : s₁ = s₂ := Option.some.inj (hnext.symm.trans hnext')
      exact Sys.along_append (halong.2 s₁ hnext) hrest h

/-- The run that performs a list of actions. -/
def Run.ofActions (M : Sys σ α) (as : List α) (a₀ : α)
    (h : (M.exec M.init as).isSome = true) : Run M where
  len := as.length
  state i := M.after (as.take i)
  act i := as.getD i a₀
  start := by
    show (M.exec M.init (as.take 0)).getD M.init = M.init
    rw [List.take_zero, Sys.exec, Option.getD_some]
  step i hi := by
    have h₁ := M.exec_eq_after _ (M.exec_take_isSome as M.init i h)
    have h₂ := M.exec_eq_after _ (M.exec_take_isSome as M.init (i + 1) h)
    rw [List.take_add_one, List.getElem?_eq_getElem hi, Option.toList_some, Sys.exec_append, h₁,
      Option.bind_some, Sys.exec] at h₂
    have hact : as.getD i a₀ = as[i] := by
      rw [List.getD_eq_getElem?_getD, List.getElem?_eq_getElem hi, Option.getD_some]
    rw [hact, List.take_add_one, List.getElem?_eq_getElem hi, Option.toList_some]
    simp only [Sys.exec] at h₂ ⊢
    cases hn : M.next (M.after (as.take i)) as[i] with
    | none =>
        rw [hn] at h₂
        exact absurd h₂ (by simp)
    | some s =>
        rw [hn] at h₂
        simpa using h₂

theorem Run.along_ofActions {M : Sys σ α} {C : σ → α → Prop} {as : List α} (a₀ : α)
    (h : (M.exec M.init as).isSome = true) (halong : M.Along C M.init as) {i : ℕ}
    (hi : i < as.length) :
    C ((Run.ofActions M as a₀ h).state i) ((Run.ofActions M as a₀ h).act i) := by
  have hact : as.getD i a₀ = as[i] := by
    rw [List.getD_eq_getElem?_getD, List.getElem?_eq_getElem hi, Option.getD_some]
  show C (M.after (as.take i)) (as.getD i a₀)
  rw [hact]
  refine Sys.along_iff.mp halong (as.take i) as[i] ?_ _
    (M.exec_eq_after _ (M.exec_take_isSome as M.init i h))
  rw [← List.take_succ_eq_append_getElem hi]
  exact List.take_prefix _ _

/-- A list of actions that can be performed is a run to the state they lead to. -/
theorem Run.exists_of_exec {M : Sys σ α} {as : List α} (a₀ : α) {s : σ}
    (h : M.exec M.init as = some s) : ∃ r : Run M, r.state r.len = s := by
  have hsome : (M.exec M.init as).isSome = true := by rw [h, Option.isSome_some]
  refine ⟨Run.ofActions M as a₀ hsome, ?_⟩
  show M.after (as.take as.length) = s
  rw [List.take_length, Sys.after, h, Option.getD_some]

/-- What a test says of the steps of a list of actions. -/
theorem Sys.exec_of_check (M : Sys σ α) {c : σ → α → Bool} {f : σ → Bool} :
    ∀ (as : List α) (s : σ), M.check c f s as = true →
      (∃ s', M.exec s as = some s' ∧ f s' = true)
        ∧ ∀ i (h : i < as.length), ∃ s', M.exec s (as.take i) = some s' ∧ c s' as[i] = true
  | [], s, hf => ⟨⟨s, rfl, hf⟩, fun _ h => absurd h (Nat.not_lt_zero _)⟩
  | a :: as, s, hcheck => by
      unfold Sys.check at hcheck
      rw [Bool.and_eq_true] at hcheck
      obtain ⟨hc, hrest⟩ := hcheck
      cases hn : M.next s a with
      | none =>
          rw [hn] at hrest
          exact absurd hrest (by simp)
      | some s₁ =>
          rw [hn] at hrest
          obtain ⟨⟨s', hexec, hf⟩, hsteps⟩ := M.exec_of_check as s₁ hrest
          have hcons : ∀ bs, M.exec s (a :: bs) = M.exec s₁ bs := by
            intro bs
            rw [Sys.exec, hn, Option.bind_some]
          refine ⟨⟨s', (hcons as).trans hexec, hf⟩, fun i hi => ?_⟩
          cases i with
          | zero => exact ⟨s, rfl, hc⟩
          | succ i =>
              obtain ⟨s₂, hs₂, hc₂⟩ := hsteps i (Nat.lt_of_succ_lt_succ hi)
              exact ⟨s₂, (hcons _).trans hs₂, hc₂⟩

theorem Sys.along_of_check {M : Sys σ α} {C : σ → α → Prop} {c : σ → α → Bool} {f : σ → Bool}
    (hC : ∀ s a, c s a = true → C s a) :
    ∀ (as : List α) (s : σ), M.check c f s as = true → M.Along C s as
  | [], _, _ => trivial
  | a :: as, s, hcheck => by
      unfold Sys.check at hcheck
      rw [Bool.and_eq_true] at hcheck
      refine ⟨hC s a hcheck.1, fun s₁ hn => ?_⟩
      have hrest := hcheck.2
      rw [hn] at hrest
      exact Sys.along_of_check hC as s₁ hrest

/-- A list of actions that passes a test is a run whose steps all pass it. -/
theorem Run.check_ofActions {M : Sys σ α} {c : σ → α → Bool} {f : σ → Bool} {as : List α} (a₀ : α)
    (h : (M.exec M.init as).isSome = true) (hcheck : M.check c f M.init as = true) {i : ℕ}
    (hi : i < as.length) :
    c ((Run.ofActions M as a₀ h).state i) ((Run.ofActions M as a₀ h).act i) = true := by
  obtain ⟨s, hs, hc⟩ := (M.exec_of_check as M.init hcheck).2 i hi
  have hact : as.getD i a₀ = as[i] := by
    rw [List.getD_eq_getElem?_getD, List.getElem?_eq_getElem hi, Option.getD_some]
  show c (M.after (as.take i)) (as.getD i a₀) = true
  rw [Sys.after, hs, Option.getD_some, hact]
  exact hc

/-- With a test that implies `C`, there is a run whose steps all meet `C`. -/
theorem Run.exists_of_check_length {M : Sys σ α} {C : σ → α → Prop} {c : σ → α → Bool}
    {f : σ → Bool} (hC : ∀ s a, c s a = true → C s a) (as : List α) (a₀ : α)
    (h : M.check c f M.init as = true) :
    ∃ r : Run M, r.len = as.length ∧ (∀ i < r.len, C (r.state i) (r.act i))
      ∧ r.state r.len = M.after as ∧ f (r.state r.len) = true := by
  obtain ⟨s', hexec, hf⟩ := (M.exec_of_check as M.init h).1
  have hsome : (M.exec M.init as).isSome = true := by rw [hexec, Option.isSome_some]
  have hend : M.after (as.take as.length) = M.after as := by rw [List.take_length]
  refine ⟨Run.ofActions M as a₀ hsome, rfl, fun i hi => ?_, hend, ?_⟩
  · exact hC _ _ (Run.check_ofActions a₀ hsome h hi)
  · show f (M.after (as.take as.length)) = true
    rw [hend, Sys.after, hexec, Option.getD_some]
    exact hf

theorem Run.exists_of_check {M : Sys σ α} {C : σ → α → Prop} {c : σ → α → Bool} {f : σ → Bool}
    (hC : ∀ s a, c s a = true → C s a) (as : List α) (a₀ : α)
    (h : M.check c f M.init as = true) :
    ∃ r : Run M, (∀ i < r.len, C (r.state i) (r.act i)) ∧ r.state r.len = M.after as
      ∧ f (r.state r.len) = true := by
  obtain ⟨r, -, hsteps⟩ := Run.exists_of_check_length hC as a₀ h
  exact ⟨r, hsteps⟩

/-- The same, with a test of the step at time `n`. -/
theorem Run.exists_of_check_at {M : Sys σ α} {C : σ → α → Prop} {c : σ → α → Bool}
    {f : σ → σ → Bool} (hC : ∀ s a, c s a = true → C s a) (as : List α) (a₀ : α)
    (h : M.check c (fun _ => true) M.init as = true) {n : ℕ} (hn : n < as.length)
    (hf : f (M.after (as.take n)) (M.after (as.take (n + 1))) = true) :
    ∃ r : Run M, n < r.len ∧ (∀ i < r.len, C (r.state i) (r.act i))
      ∧ f (r.state n) (r.state (n + 1)) = true := by
  obtain ⟨s', hexec, -⟩ := (M.exec_of_check as M.init h).1
  have hsome : (M.exec M.init as).isSome = true := by rw [hexec, Option.isSome_some]
  exact ⟨Run.ofActions M as a₀ hsome, hn,
    fun i hi => hC _ _ (Run.check_ofActions a₀ hsome h hi), hf⟩

/-- Such a list leads to a state that is reached by steps that meet `C`. -/
theorem Sys.reach_of_check (M : Sys σ α) {C : σ → α → Prop} {c : σ → α → Bool} {f : σ → Bool}
    (hC : ∀ s a, c s a = true → C s a) (as : List α) (h : M.check c f M.init as = true) :
    Reach M C (M.after as) ∧ f (M.after as) = true := by
  cases as with
  | nil => exact ⟨Reach.init, h⟩
  | cons a as =>
      obtain ⟨r, hall, hend, hf⟩ := Run.exists_of_check hC (a :: as) a h
      rw [← hend]
      exact ⟨r.reach hall (Nat.le_refl _), hf⟩

/-- The steps that meet `p` leave the trace `F`, which was not there before, and
no other step changes it. -/
structure Traces (p : σ → α → Bool) (F : σ → Prop) (s : σ) (a : α) (s' : σ) : Prop where
  marks : p s a = true → ¬ F s ∧ F s'
  keeps : p s a = false → (F s' ↔ F s)

theorem Traces.same {p : σ → α → Bool} {F : σ → Prop} {s s' : σ} {a : α}
    (hp : p s a = false) (h : F s' ↔ F s) : Traces p F s a s' where
  marks hpt := by
    rw [hp] at hpt
    exact absurd hpt (by simp)
  keeps _ := h

namespace Run

variable {M : Sys σ α} (r : Run M)

theorem reachable (i : ℕ) (h : i ≤ r.len) : Reachable M (r.state i) :=
  r.reach (fun _ _ => trivial) h

/-- The number of steps before time `n` that meet `p`. -/
def count (p : σ → α → Bool) : ℕ → ℕ
  | 0 => 0
  | n + 1 => count p n + if p (r.state n) (r.act n) then 1 else 0

theorem count_mono (p : σ → α → Bool) {m n : ℕ} (h : m ≤ n) : r.count p m ≤ r.count p n := by
  induction n, h using Nat.le_induction with
  | base => exact Nat.le_refl _
  | succ n _ ih => exact Nat.le_add_right_of_le ih

theorem count_succ (p : σ → α → Bool) (n : ℕ) :
    r.count p (n + 1) = r.count p n + (p (r.state n) (r.act n)).toNat := by
  show r.count p n + (if p (r.state n) (r.act n) then 1 else 0) = _
  cases p (r.state n) (r.act n) <;> rfl

/-- **Credit**: if the steps that meet `f` use up credit, and only those that meet
`w` give it, there are no more of the first kind than of the second. -/
theorem count_le_count {f w : σ → α → Bool} (credit : ℕ → ℕ) (h0 : credit 0 = 0)
    (hs : ∀ i < r.len, (f (r.state i) (r.act i)).toNat + credit (i + 1)
      ≤ credit i + (w (r.state i) (r.act i)).toNat)
    {n : ℕ} (hn : n ≤ r.len) : r.count f n ≤ r.count w n := by
  have hsum : r.count f n + credit n ≤ r.count w n := by
    induction n with
    | zero =>
        show 0 + credit 0 ≤ 0
        rw [h0]
    | succ n ih =>
        have hbefore := ih (Nat.le_of_succ_le hn)
        have hstep := hs n hn
        rw [count_succ, count_succ]
        omega
  exact (Nat.le_add_right _ _).trans hsum

/-- A step is counted only if there is one. -/
theorem exists_of_count {p : σ → α → Bool} {n : ℕ} (h : r.count p n ≠ 0) :
    ∃ i < n, p (r.state i) (r.act i) = true := by
  induction n with
  | zero => exact absurd rfl h
  | succ n ih =>
      by_cases hp : p (r.state n) (r.act n) = true
      · exact ⟨n, Nat.lt_succ_self n, hp⟩
      · unfold count at h
        rw [if_neg hp] at h
        obtain ⟨i, hi, hpi⟩ := ih h
        exact ⟨i, Nat.lt_succ_of_lt hi, hpi⟩

/-- **What the state remembers**: if the steps that meet `p` leave the trace `F`,
the last state says whether there was one, and there was one at most. -/
theorem count_eq_ite {p : σ → α → Bool} {F : σ → Prop} [DecidablePred F] (h0 : ¬ F M.init)
    (hs : ∀ i < r.len, Traces p F (r.state i) (r.act i) (r.state (i + 1)))
    {n : ℕ} (hn : n ≤ r.len) : r.count p n = if F (r.state n) then 1 else 0 := by
  induction n with
  | zero =>
      rw [r.start, if_neg h0]
      rfl
  | succ n ih =>
      have hstep := hs n hn
      unfold count
      rw [ih (Nat.le_of_succ_le hn)]
      cases hp : p (r.state n) (r.act n) with
      | true =>
          have hF := hstep.marks hp
          rw [if_neg hF.1, if_pos hF.2]
          rfl
      | false =>
          simp only [hstep.keeps hp, Bool.false_eq_true, if_false, Nat.add_zero]

/-- The count of the actions of one kind, in the run of a list. -/
theorem count_ofActions (as : List α) (a₀ : α) (h : (M.exec M.init as).isSome = true)
    {p : σ → α → Bool} {q : α → Bool} (hp : ∀ s a, p s a = q a) {m : ℕ} (hm : m ≤ as.length) :
    (Run.ofActions M as a₀ h).count p m = (as.take m).countP q := by
  induction m with
  | zero => rfl
  | succ m ih =>
      have hact : as.getD m a₀ = as[m] := by
        rw [List.getD_eq_getElem?_getD, List.getElem?_eq_getElem hm, Option.getD_some]
      have hlast : p (M.after (as.take m)) (as.getD m a₀) = q as[m] := (hp _ _).trans (congrArg q hact)
      unfold count
      rw [ih (Nat.le_of_succ_le hm), List.take_add_one, List.getElem?_eq_getElem hm,
        Option.toList_some, List.countP_append, List.countP_singleton]
      exact congrArg (fun b : Bool => (as.take m).countP q + if b then 1 else 0) hlast

/-! ## §3. Past instants since a marked action. -/

/-- The time right after the last action before `n` that meets `b`
(`0` when there is none). -/
def since (b : α → Prop) [DecidablePred b] : ℕ → ℕ
  | 0 => 0
  | n + 1 => if b (r.act n) then n + 1 else since b n

variable {b : α → Prop} [DecidablePred b]

theorem since_le (n : ℕ) : r.since b n ≤ n := by
  induction n with
  | zero => exact Nat.le_refl 0
  | succ n ih =>
      unfold since
      split
      · exact Nat.le_refl _
      · exact Nat.le_succ_of_le ih

/-- With `b` met at time `a` and at no time of `(a, n)`, the interval that
`since` opens at `n` starts right after `a`. -/
theorem since_eq {a n : ℕ} (han : a < n) (ha : b (r.act a))
    (hno : ∀ j, a < j → j < n → ¬ b (r.act j)) : r.since b n = a + 1 := by
  induction n with
  | zero => exact absurd han (Nat.not_lt_zero a)
  | succ n ih =>
      unfold since
      rcases Nat.lt_succ_iff_lt_or_eq.mp han with hlt | heq
      · have hn : ¬ b (r.act n) := hno n hlt (Nat.lt_succ_self n)
        rw [if_neg hn]
        exact ih hlt (fun j h₁ h₂ => hno j h₁ (Nat.lt_succ_of_lt h₂))
      · subst heq
        rw [if_pos ha]

/-- `P` held at some instant of the interval that `since` opens at `n`. -/
def Once (b : α → Prop) [DecidablePred b] (P : σ → Prop) (n : ℕ) : Prop :=
  ∃ i, r.since b n ≤ i ∧ i ≤ n ∧ P (r.state i)

theorem Once.now {P : σ → Prop} {n : ℕ} (h : P (r.state n)) : r.Once b P n :=
  ⟨n, r.since_le n, Nat.le_refl n, h⟩

/-- An instant of the interval stays one while no marked action is taken. -/
theorem Once.later {P : σ → Prop} {n : ℕ} (hb : ¬ b (r.act n)) (h : r.Once b P n) :
    r.Once b P (n + 1) := by
  obtain ⟨i, h₁, h₂, h₃⟩ := h
  refine ⟨i, ?_, Nat.le_succ_of_le h₂, h₃⟩
  have hs : r.since b (n + 1) = r.since b n := by
    conv_lhs => unfold since
    rw [if_neg hb]
  rw [hs]
  exact h₁

theorem Once.imp {P Q : σ → Prop} {n : ℕ} (hn : n ≤ r.len)
    (hPQ : ∀ s, Reachable M s → P s → Q s) (h : r.Once b P n) : r.Once b Q n := by
  obtain ⟨i, h₁, h₂, h₃⟩ := h
  exact ⟨i, h₁, h₂, hPQ _ (r.reachable i (h₂.trans hn)) h₃⟩

/-- Read an instant of the interval back as an instant between the marked
action at time `a` and time `n`. -/
theorem Once.between {P : σ → Prop} {a n : ℕ} (han : a < n) (ha : b (r.act a))
    (hno : ∀ j, a < j → j < n → ¬ b (r.act j)) (h : r.Once b P n) :
    ∃ i, a < i ∧ i ≤ n ∧ P (r.state i) := by
  obtain ⟨i, h₁, h₂, h₃⟩ := h
  rw [r.since_eq han ha hno] at h₁
  exact ⟨i, h₁, h₂, h₃⟩

end Run

end MultiCore.Lib
