/-
  MultiCore.Lib.WaitFree — calls that end after a bounded number of their own
  steps, whatever the other threads do.

  `Ranked` is the proof rule: a rank of the program counter that every step
  lowers, on any memory that meets `I`.  `Ranked.along` turns it into a bound
  for a call of any run, as long as the memory meets `I`; `Ranked.waitFree` is
  the case where every memory does.

  Nothing here mentions a concrete program.
-/
import MultiCore.Lib.Calls

namespace MultiCore.Lib.Machine

variable {μ ρ π ν κ : Type*} {M : Machine μ ρ π ν κ}

/-- A step of thread `tid`. -/
def ownStep (tid : ℕ) (_ : State μ ρ π) : Act ρ κ → Bool
  | .step v _ => v = tid
  | _ => false

/-- An action by which thread `tid` goes on with its call, or returns. -/
def Act.Advances (tid : ℕ) : Act ρ κ → Prop
  | .step v _ => v = tid
  | .ret v => v = tid
  | .invoke _ _ => False

/-- A call of `q` is over after at most `bound q` steps of its thread, and the
thread is never kept from taking them. -/
structure WaitFree (M : Machine μ ρ π ν κ) (bound : ρ → ℕ) : Prop where
  bounded : ∀ (r : Run M.sys) (tid : ℕ) (q : ρ) (a b : ℕ), a < b → b ≤ r.len →
    r.act a = .invoke tid q → (∀ j, a < j → j ≤ b → (r.state j).thread tid ≠ none) →
    r.count (ownStep tid) b ≤ r.count (ownStep tid) a + bound q
  enabled : ∀ s, Reachable M.sys s → ∀ tid, s.thread tid ≠ none →
    ∃ act s', Act.Advances tid act ∧ M.next s act = some s'

/-- The obligations: `ok` are the program counters that a call of `q` comes to. -/
structure Ranked (M : Machine μ ρ π ν κ) (I : μ → Prop) (ok : ρ → π → Prop) (rank : ρ → π → ℕ) :
    Prop where
  lowers : ∀ mem tid q pc choice mem' pc', I mem → ok q pc →
    M.step mem tid q pc choice = some (mem', pc') → ok q pc' ∧ rank q pc' < rank q pc
  goes : ∀ mem tid q pc, I mem → ok q pc →
    (∃ v, M.result pc = some v) ∨ ∃ choice r, M.step mem tid q pc choice = some r

/-- A call that was not there before is at its start. -/
theorem Transition.begun {s s' : State μ ρ π} {a : Act ρ κ} (ht : M.Transition s a s') {tid : ℕ}
    {q : ρ} {pc : π} (hold : s.thread tid = none) (hth : s'.thread tid = some (q, pc)) :
    pc = M.start q := by
  cases ht with
  | @invoke v qv hidle =>
      by_cases hv : tid = v
      · subst hv
        rw [State.goto_self, Option.some.injEq, Prod.mk.injEq] at hth
        obtain ⟨rfl, rfl⟩ := hth
        rfl
      · rw [State.goto_other _ _ hv, hold] at hth
        exact absurd hth (by simp)
  | @step v choice qv pcv pc' mem' hrun hstep =>
      have hv : tid ≠ v := by
        rintro rfl
        rw [hold] at hrun
        exact absurd hrun (by simp)
      change (s.goto v (some (qv, pc'))).thread tid = some (q, pc) at hth
      rw [State.goto_other _ _ hv, hold] at hth
      exact absurd hth (by simp)
  | @ret v qv pcv val hrun hres =>
      have hv : tid ≠ v := by
        rintro rfl
        rw [hold] at hrun
        exact absurd hrun (by simp)
      rw [State.goto_other _ _ hv, hold] at hth
      exact absurd hth (by simp)

namespace Ranked

variable {I : μ → Prop} {ok : ρ → π → Prop} {rank : ρ → π → ℕ} {s s' : State μ ρ π} {a : Act ρ κ}

/-- **The step rule**: the rank pays for the steps of the thread. -/
theorem step (h : Ranked M I ok rank) (ht : M.Transition s a s') (hI : I s.mem) {tid : ℕ} {q : ρ}
    {pc : π} (hth : s.thread tid = some (q, pc)) (hok : ok q pc) :
    s'.thread tid = none ∨ ∃ pc', s'.thread tid = some (q, pc') ∧ ok q pc'
      ∧ rank q pc' + (ownStep tid s a).toNat ≤ rank q pc := by
  cases ht with
  | @invoke v qv hidle =>
      have hv : tid ≠ v := by
        rintro rfl
        rw [hidle] at hth
        exact absurd hth (by simp)
      right
      refine ⟨pc, ?_, hok, ?_⟩
      · rw [State.goto_other _ _ hv]
        exact hth
      · simp [ownStep]
  | @step v choice qv pcv pc' mem' hrun hstep =>
      right
      by_cases hv : tid = v
      · subst hv
        rw [hth, Option.some.injEq, Prod.mk.injEq] at hrun
        obtain ⟨rfl, rfl⟩ := hrun
        obtain ⟨hok', hlt⟩ := h.lowers _ _ _ _ _ _ _ hI hok hstep
        refine ⟨pc', State.goto_self _ _ _, hok', ?_⟩
        have hcost : (ownStep tid s (.step tid choice)).toNat = 1 := by simp [ownStep]
        rw [hcost]
        exact hlt
      · refine ⟨pc, ?_, hok, ?_⟩
        · show (s.goto v (some (qv, pc'))).thread tid = some (q, pc)
          rw [State.goto_other _ _ hv]
          exact hth
        · simp [ownStep, Ne.symm hv]
  | @ret v qv pcv val hrun hres =>
      by_cases hv : tid = v
      · subst hv
        exact Or.inl (State.goto_self _ _ _)
      · right
        refine ⟨pc, ?_, hok, ?_⟩
        · rw [State.goto_other _ _ hv]
          exact hth
        · simp [ownStep]

/-- **The run rule**: a call is paid for by its rank at the start. -/
theorem along (h : Ranked M I ok rank) {r : Run M.sys} {tid : ℕ} {q : ρ} {a b : ℕ} (hab : a < b)
    (hb : b ≤ r.len) (hcall : r.act a = .invoke tid q) (hstart : ok q (M.start q))
    (hopen : ∀ j, a < j → j ≤ b → (r.state j).thread tid ≠ none)
    (hI : ∀ j, a < j → j < b → I (r.state j).mem) :
    ∃ pc, (r.state b).thread tid = some (q, pc) ∧ ok q pc
      ∧ r.count (ownStep tid) b + rank q pc ≤ r.count (ownStep tid) a + rank q (M.start q) := by
  induction b, hab using Nat.le_induction with
  | base =>
      -- the call itself costs no step
      have ht : M.Transition (r.state a) (r.act a) (r.state (a + 1)) := next_transition (r.step a hb)
      rw [hcall] at ht
      have hcount : r.count (ownStep tid) (a + 1) = r.count (ownStep tid) a := by
        rw [r.count_succ, hcall]
        rfl
      generalize r.state (a + 1) = s' at ht ⊢
      cases ht with
      | invoke hidle =>
          refine ⟨M.start q, State.goto_self _ _ _, hstart, ?_⟩
          rw [hcount]
  | succ b hle ih =>
      obtain ⟨pc, hth, hok, hsum⟩ := ih (Nat.le_of_succ_le hb)
        (fun j h₁ h₂ => hopen j h₁ (Nat.le_succ_of_le h₂))
        (fun j h₁ h₂ => hI j h₁ (Nat.lt_succ_of_lt h₂))
      have ht : M.Transition (r.state b) (r.act b) (r.state (b + 1)) := next_transition (r.step b hb)
      rcases h.step ht (hI b hle (Nat.lt_succ_self b)) hth hok with hnone | ⟨pc', hth', hok', hrank⟩
      · exact absurd hnone (hopen (b + 1) (Nat.le_succ_of_le hle) (Nat.le_refl _))
      · refine ⟨pc', hth', hok', ?_⟩
        rw [r.count_succ]
        omega

/-- **The thread is not kept from its next step.** -/
theorem advances (h : Ranked M I ok rank) {tid : ℕ} {q : ρ} {pc : π} (hI : I s.mem)
    (hth : s.thread tid = some (q, pc)) (hok : ok q pc) :
    ∃ act s', Act.Advances tid act ∧ M.next s act = some s' := by
  rcases h.goes s.mem tid q pc hI hok with ⟨v, hres⟩ | ⟨choice, x, hstep⟩
  · refine ⟨.ret tid, s.goto tid none, rfl, ?_⟩
    simp only [next, hth, hres, Option.map_some]
  · refine ⟨.step tid choice, { s.goto tid (some (q, x.2)) with mem := x.1 }, rfl, ?_⟩
    simp only [next, hth, hstep, Option.map_some]

theorem reachable (h : Ranked M (fun _ => True) ok rank) (hstart : ∀ q, ok q (M.start q))
    (hr : Reachable M.sys s) : ∀ tid q pc, s.thread tid = some (q, pc) → ok q pc := by
  refine Reach.induct (P := fun s => ∀ tid q pc, s.thread tid = some (q, pc) → ok q pc) ?_ ?_ hr
  · intro tid q pc hth
    exact absurd hth (by simp [sys])
  · intro s₁ a s₂ _ hbefore _ hn tid q pc hth
    have ht : M.Transition s₁ a s₂ := next_transition hn
    cases hold : s₁.thread tid with
    | none =>
        rw [ht.begun hold hth]
        exact hstart q
    | some x =>
        obtain ⟨q₁, pc₁⟩ := x
        rcases h.step ht trivial hold (hbefore tid q₁ pc₁ hold) with hnone | ⟨pc', hsome, hok', -⟩
        · rw [hnone] at hth
          exact absurd hth (by simp)
        · rw [hsome, Option.some.injEq, Prod.mk.injEq] at hth
          obtain ⟨rfl, rfl⟩ := hth
          exact hok'

/-- **The wait-freedom rule.** -/
theorem waitFree (h : Ranked M (fun _ => True) ok rank) (hstart : ∀ q, ok q (M.start q))
    {bound : ρ → ℕ} (hbound : ∀ q, rank q (M.start q) ≤ bound q) : M.WaitFree bound where
  bounded r tid q a b hab hb hcall hopen := by
    obtain ⟨pc, -, -, hsum⟩ := h.along hab hb hcall (hstart q) hopen fun _ _ _ => trivial
    have hle := hbound q
    omega
  enabled s hr tid hbusy := by
    obtain ⟨⟨q, pc⟩, hth⟩ := Option.ne_none_iff_exists'.mp hbusy
    exact h.advances trivial hth (h.reachable hstart hr tid q pc hth)

end Ranked

end MultiCore.Lib.Machine
