/-
  MultiCore.Lib.Reclamation — a record manager with guards.

  Threads take nodes from the manager and give them back.  A node that other
  threads may have seen is *retired*: the manager may hand it out again when no
  guard that could reach it is open.  These are the guards that were open when
  the node was unlinked and have not been closed since (`pinned`); guards
  opened later start at the roots and cannot get there.  A manager that waits
  for more guards than these is a special case.

    * `Manager` — open guards, the calls each thread is about to make, and what
      is retired;
    * `Manager.Step` — everything a step of a program can do to it;
    * `Ok` and `Step.ok` — no node is given back twice, and nothing that is
      still to be given back is free;
    * `Agrees`, `NoLeak` and `Shown` — the manager beside a program that removes
      nodes from a shared structure: what each operation of the manager does to
      the nodes that somebody may still see.

  Nothing here mentions a concrete program.
-/
import Mathlib.Data.Finset.Erase
import Mathlib.Data.Finset.Insert
import Mathlib.Logic.Function.Basic

namespace MultiCore.Lib.Reclamation

/-! ## §1. The manager. -/

/-- A call that gives a node back. -/
inductive Call (α : Type*) where
  | retire (a : α)
  | deallocate (a : α)
  deriving Repr, DecidableEq

def Call.node {α : Type*} : Call α → α
  | retire a => a
  | deallocate a => a

/-- The nodes that are in use, handed out and not taken back, are kept outside:
they are a function `inUse` beside the manager. -/
structure Manager (τ α : Type*) where
  /-- The threads whose guard is open. -/
  guards : Finset τ
  /-- The calls that a thread makes before it goes on. -/
  calls : τ → List (Call α)
  retired : α → Bool
  /-- The threads whose guard has been open since before the node was unlinked. -/
  pinned : α → Finset τ

namespace Manager

variable {τ α : Type*} [DecidableEq τ] [DecidableEq α] (m : Manager τ α) (inUse : α → Bool)

def new : Manager τ α := ⟨∅, fun _ => [], fun _ => false, fun _ => ∅⟩

/-- Thread `t` opens its guard. -/
def enter (t : τ) : Manager τ α := { m with guards := insert t m.guards }

/-- Thread `t` closes its guard. -/
def leave (t : τ) : Manager τ α :=
  { m with guards := m.guards.erase t, pinned := fun a => (m.pinned a).erase t }

/-- Thread `t` is about to make the calls `cs`; it has unlinked the nodes of `gone`. -/
def giveBack (t : τ) (cs : List (Call α)) (gone : List α) : Manager τ α :=
  { m with
    calls := Function.update m.calls t cs
    pinned := fun a => if a ∈ gone then m.guards else m.pinned a }

/-- Thread `t` makes the first of its calls. -/
def perform (t : τ) : Option (Manager τ α × (α → Bool)) :=
  match m.calls t with
  | [] => none
  | .retire a :: rest =>
      some ({ m with
        calls := Function.update m.calls t rest
        retired := Function.update m.retired a true }, inUse)
  | .deallocate a :: rest =>
      some ({ m with calls := Function.update m.calls t rest }, Function.update inUse a false)

/-- The manager takes a retired node back once no guard can reach it. -/
def reclaim (a : α) : Option (Manager τ α × (α → Bool)) :=
  if m.retired a = true ∧ m.pinned a = ∅ then
    some ({ m with retired := Function.update m.retired a false }, Function.update inUse a false)
  else none

omit [DecidableEq α] in
theorem not_mem_enter (t u : τ) : u ∉ (m.enter t).guards ↔ u ≠ t ∧ u ∉ m.guards := by
  show u ∉ insert t m.guards ↔ _
  rw [Finset.mem_insert, not_or]

/-! ## §2. What a step can do. -/

/-- Everything that a step of a program can do to the manager and the nodes in
use. -/
inductive Step (m : Manager τ α) (inUse : α → Bool) : Manager τ α → (α → Bool) → Prop where
  | quiet : Step m inUse m inUse
  | enter (t : τ) : Step m inUse (m.enter t) inUse
  | leave (t : τ) : Step m inUse (m.leave t) inUse
  | allocate {inUse' : α → Bool} (h : ∀ a, inUse a = true → inUse' a = true) :
      Step m inUse m inUse'
  | giveBack (t : τ) (cs : List (Call α)) (gone : List α) (hcalls : m.calls t = [])
      (hnodup : (cs.map Call.node).Nodup)
      (hfresh : ∀ c ∈ cs, inUse c.node = true ∧ m.retired c.node = false
        ∧ ∀ u, ∀ c' ∈ m.calls u, c'.node ≠ c.node) :
      Step m inUse (m.giveBack t cs gone) inUse
  | perform {t : τ} {m' : Manager τ α} {inUse' : α → Bool}
      (h : m.perform inUse t = some (m', inUse')) : Step m inUse m' inUse'
  | reclaim {a : α} {m' : Manager τ α} {inUse' : α → Bool}
      (h : m.reclaim inUse a = some (m', inUse')) : Step m inUse m' inUse'

/-- A node that has been given back and not handed out again. -/
def Returned (a : α) : Prop := m.retired a = true ∨ inUse a = false

structure Ok : Prop where
  pinned_open : ∀ a, m.pinned a ⊆ m.guards
  retired_inUse : ∀ a, m.retired a = true → inUse a = true
  pending : ∀ t, ∀ c ∈ m.calls t, ¬ m.Returned inUse c.node
  nodup : ∀ t, ((m.calls t).map Call.node).Nodup
  once : ∀ t u, ∀ c ∈ m.calls t, ∀ c' ∈ m.calls u, c.node = c'.node → t = u

omit [DecidableEq τ] [DecidableEq α] in
theorem new_ok : (new : Manager τ α).Ok inUse where
  pinned_open _ := Finset.Subset.refl _
  retired_inUse _ h := absurd h (by simp [new])
  pending _ _ h := absurd h (by simp [new])
  nodup _ := List.nodup_nil
  once _ _ _ h := absurd h (by simp [new])

variable {m inUse} {m' : Manager τ α} {inUse' : α → Bool}

/-- What a thread does when it makes its first call. -/
theorem perform_cases {t : τ} (h : m.perform inUse t = some (m', inUse')) :
    ∃ c rest, m.calls t = c :: rest ∧ m'.guards = m.guards ∧ m'.pinned = m.pinned
      ∧ m'.calls = Function.update m.calls t rest
      ∧ (c = .retire c.node ∧ m'.retired = Function.update m.retired c.node true ∧ inUse' = inUse
        ∨ c = .deallocate c.node ∧ m'.retired = m.retired
          ∧ inUse' = Function.update inUse c.node false) := by
  unfold perform at h
  split at h
  · exact absurd h (by simp)
  · rename_i a rest hcalls
    rw [Option.some.injEq, Prod.mk.injEq] at h
    obtain ⟨rfl, rfl⟩ := h
    exact ⟨_, rest, hcalls, rfl, rfl, rfl, Or.inl ⟨rfl, rfl, rfl⟩⟩
  · rename_i a rest hcalls
    rw [Option.some.injEq, Prod.mk.injEq] at h
    obtain ⟨rfl, rfl⟩ := h
    exact ⟨_, rest, hcalls, rfl, rfl, rfl, Or.inr ⟨rfl, rfl, rfl⟩⟩

theorem reclaim_cases {a : α} (h : m.reclaim inUse a = some (m', inUse')) :
    m.retired a = true ∧ m.pinned a = ∅
      ∧ m' = { m with retired := Function.update m.retired a false }
      ∧ inUse' = Function.update inUse a false := by
  unfold reclaim at h
  split at h
  · rename_i hcond
    rw [Option.some.injEq, Prod.mk.injEq] at h
    exact ⟨hcond.1, hcond.2, h.1.symm, h.2.symm⟩
  · exact absurd h (by simp)

/-- The call that is made gives its node back. -/
theorem perform_returned {t : τ} {c : Call α} {rest : List (Call α)}
    (hcalls : m.calls t = c :: rest) (h : m.perform inUse t = some (m', inUse')) :
    m'.Returned inUse' c.node := by
  obtain ⟨c', rest', hcalls', -, -, -, hor⟩ := perform_cases h
  rw [hcalls, List.cons.injEq] at hcalls'
  obtain ⟨rfl, rfl⟩ := hcalls'
  rcases hor with ⟨-, hret, -⟩ | ⟨-, -, huse⟩
  · left
    rw [hret, Function.update_self]
  · right
    rw [huse, Function.update_self]

/-- **What has been given back stays so until it is handed out.** -/
theorem Step.returned (hs : Step m inUse m' inUse') {a : α} (h : m.Returned inUse a) :
    m'.Returned inUse' a ∨ inUse a = false ∧ inUse' a = true := by
  cases hs with
  | quiet => exact Or.inl h
  | enter t => exact Or.inl h
  | leave t => exact Or.inl h
  | allocate huse =>
      rcases h with h | h
      · exact Or.inl (Or.inl h)
      · cases hnew : inUse' a with
        | false => exact Or.inl (Or.inr hnew)
        | true => exact Or.inr ⟨h, rfl⟩
  | giveBack t cs gone _ _ _ => exact Or.inl h
  | perform hp =>
      obtain ⟨c, rest, -, -, -, -, hor⟩ := perform_cases hp
      left
      rcases hor with ⟨-, hret, huse⟩ | ⟨-, hret, huse⟩
      · rw [Returned, hret, huse, Function.update_apply]
        split
        · exact Or.inl rfl
        · exact h
      · rw [Returned, hret, huse, Function.update_apply]
        split
        · exact Or.inr rfl
        · exact h
  | @reclaim b _ _ hr =>
      obtain ⟨-, -, rfl, rfl⟩ := reclaim_cases hr
      left
      show Function.update m.retired b false a = true ∨ Function.update inUse b false a = false
      rw [Function.update_apply, Function.update_apply]
      by_cases hab : a = b
      · rw [if_pos hab, if_pos hab]
        exact Or.inr rfl
      · rw [if_neg hab, if_neg hab]
        exact h

/-- The node has been given back, or is about to be. -/
def Given (m : Manager τ α) (inUse : α → Bool) (a : α) : Prop :=
  m.Returned inUse a ∨ ∃ t, ∃ c ∈ m.calls t, c.node = a

/-- **What is given back is gone until it is handed out.** -/
theorem Step.given (hs : Step m inUse m' inUse') {a : α} (h : m.Given inUse a) :
    m'.Given inUse' a ∨ inUse a = false ∧ inUse' a = true := by
  rcases h with h | ⟨t, c, hc, hnode⟩
  · exact (hs.returned h).imp_left Or.inl
  · left
    cases hs with
    | quiet => exact Or.inr ⟨t, c, hc, hnode⟩
    | enter u => exact Or.inr ⟨t, c, hc, hnode⟩
    | leave u => exact Or.inr ⟨t, c, hc, hnode⟩
    | allocate _ => exact Or.inr ⟨t, c, hc, hnode⟩
    | giveBack u cs gone hcalls _ _ =>
        refine Or.inr ⟨t, c, ?_, hnode⟩
        have htu : t ≠ u := by
          rintro rfl
          rw [hcalls] at hc
          exact absurd hc List.not_mem_nil
        show c ∈ Function.update m.calls u cs t
        rw [Function.update_of_ne htu]
        exact hc
    | @perform u _ _ hp =>
        obtain ⟨c', rest, hhead, -, -, hcalls, -⟩ := perform_cases hp
        by_cases htu : t = u
        · rw [htu, hhead] at hc
          rcases List.mem_cons.mp hc with rfl | hc
          · -- this is the call that is made
            rw [← hnode]
            exact Or.inl (perform_returned hhead hp)
          · refine Or.inr ⟨t, c, ?_, hnode⟩
            rw [hcalls, htu, Function.update_self]
            exact hc
        · refine Or.inr ⟨t, c, ?_, hnode⟩
          rw [hcalls, Function.update_of_ne htu]
          exact hc
    | reclaim hr =>
        obtain ⟨-, -, rfl, -⟩ := reclaim_cases hr
        exact Or.inr ⟨t, c, hc, hnode⟩

/-- What has just been handed out is not given back. -/
theorem Step.obtained (hs : Step m inUse m' inUse') (h : m.Ok inUse) {a : α}
    (hfree : inUse a = false) (huse : inUse' a = true) : ¬ m'.Returned inUse' a := by
  have hsub : (inUse' a = true → inUse a = true) → False := fun himp => by
    have ha := himp huse
    rw [hfree] at ha
    exact absurd ha (by simp)
  have hret : m.retired a = false := by
    rw [← Bool.not_eq_true]
    intro hr
    have ha := h.retired_inUse a hr
    rw [hfree] at ha
    exact absurd ha (by simp)
  cases hs with
  | quiet => exact (hsub id).elim
  | enter t => exact (hsub id).elim
  | leave t => exact (hsub id).elim
  | giveBack t cs gone _ _ _ => exact (hsub id).elim
  | allocate _ =>
      rintro (hr | hf)
      · rw [hret] at hr
        exact absurd hr (by simp)
      · rw [huse] at hf
        exact absurd hf (by simp)
  | perform hp =>
      obtain ⟨c, rest, -, -, -, -, hor⟩ := perform_cases hp
      refine (hsub ?_).elim
      rcases hor with ⟨-, -, rfl⟩ | ⟨-, -, rfl⟩
      · exact id
      · intro ha
        rw [Function.update_apply] at ha
        split at ha
        · exact absurd ha (by simp)
        · exact ha
  | reclaim hr =>
      obtain ⟨-, -, -, rfl⟩ := reclaim_cases hr
      refine (hsub ?_).elim
      intro ha
      rw [Function.update_apply] at ha
      split at ha
      · exact absurd ha (by simp)
      · exact ha

/-- One step keeps the bookkeeping right. -/
theorem Step.ok (hs : Step m inUse m' inUse') (h : m.Ok inUse) : m'.Ok inUse' := by
  cases hs with
  | quiet => exact h
  | enter t =>
      exact ⟨fun a => (h.pinned_open a).trans (Finset.subset_insert t _), h.retired_inUse,
        h.pending, h.nodup, h.once⟩
  | leave t =>
      exact ⟨fun a => Finset.erase_subset_erase t (h.pinned_open a), h.retired_inUse, h.pending,
        h.nodup, h.once⟩
  | allocate huse =>
      refine ⟨h.pinned_open, fun a ha => huse a (h.retired_inUse a ha), ?_, h.nodup, h.once⟩
      intro t c hc hret
      apply h.pending t c hc
      rcases hret with hret | hret
      · exact Or.inl hret
      · right
        rw [← Bool.not_eq_true]
        intro huse'
        rw [huse _ huse'] at hret
        exact absurd hret (by simp)
  | giveBack t cs gone hcalls hnodup hfresh =>
      have hcs : ∀ u, (m.giveBack t cs gone).calls u = if u = t then cs else m.calls u := by
        intro u
        show Function.update m.calls t cs u = _
        rw [Function.update_apply]
      refine ⟨?_, h.retired_inUse, ?_, ?_, ?_⟩
      · intro a
        show (if a ∈ gone then m.guards else m.pinned a) ⊆ m.guards
        split
        · exact Finset.Subset.refl _
        · exact h.pinned_open a
      · intro u c hc hret
        rw [hcs] at hc
        split at hc
        · obtain ⟨huse, hno, -⟩ := hfresh c hc
          rcases hret with hret | hret
          · exact absurd (hno.symm.trans hret) (by simp)
          · exact absurd (huse.symm.trans hret) (by simp)
        · exact h.pending u c hc hret
      · intro u
        rw [hcs]
        split
        · exact hnodup
        · exact h.nodup u
      · intro u v c hc c' hc' heq
        rw [hcs] at hc hc'
        split at hc <;> split at hc'
        · rename_i hu hv
          rw [hu, hv]
        · exact absurd heq.symm ((hfresh c hc).2.2 v c' hc')
        · exact absurd heq ((hfresh c' hc').2.2 u c hc)
        · exact h.once u v c hc c' hc' heq
  | @perform t m' inUse' hp =>
      obtain ⟨c, rest, hcalls, hguards, hpinned, hcalls', hor⟩ := perform_cases hp
      have hnodup := h.nodup t
      rw [hcalls, List.map_cons, List.nodup_cons] at hnodup
      have hmem : c ∈ m.calls t := by
        rw [hcalls]
        exact List.mem_cons_self
      -- what is left of the calls was there before, about other nodes
      have hold : ∀ u, ∀ c' ∈ m'.calls u, c' ∈ m.calls u ∧ c'.node ≠ c.node := by
        intro u c' hc'
        rw [hcalls', Function.update_apply] at hc'
        split at hc'
        · rename_i hu
          rw [hu, hcalls]
          refine ⟨List.mem_cons_of_mem c hc', ?_⟩
          intro heq
          exact hnodup.1 (heq ▸ List.mem_map_of_mem hc')
        · rename_i hu
          exact ⟨hc', fun heq => hu (h.once u t c' hc' c hmem heq)⟩
      have hpending := h.pending t c hmem
      refine ⟨?_, ?_, ?_, ?_, ?_⟩
      · rw [hguards, hpinned]
        exact h.pinned_open
      · intro a ha
        rcases hor with ⟨-, hret, huse⟩ | ⟨-, hret, huse⟩
        · rw [hret, Function.update_apply] at ha
          rw [huse]
          split at ha
          · rename_i hac
            rw [hac, ← Bool.not_eq_false]
            exact fun hf => hpending (Or.inr hf)
          · exact h.retired_inUse a ha
        · rw [hret] at ha
          rw [huse, Function.update_of_ne]
          · exact h.retired_inUse a ha
          · intro hac
            exact hpending (Or.inl (hac ▸ ha))
      · intro u c' hc' hret'
        obtain ⟨hin, hne⟩ := hold u c' hc'
        apply h.pending u c' hin
        rcases hor with ⟨-, hret, huse⟩ | ⟨-, hret, huse⟩
        · rw [Returned, hret, huse, Function.update_of_ne hne] at hret'
          exact hret'
        · rw [Returned, hret, huse, Function.update_of_ne hne] at hret'
          exact hret'
      · intro u
        rw [hcalls', Function.update_apply]
        split
        · exact hnodup.2
        · exact h.nodup u
      · exact fun u v c₁ h₁ c₂ h₂ => h.once u v c₁ (hold u c₁ h₁).1 c₂ (hold v c₂ h₂).1
  | @reclaim b m' inUse' hr =>
      obtain ⟨hret, -, rfl, rfl⟩ := reclaim_cases hr
      refine ⟨h.pinned_open, ?_, ?_, h.nodup, h.once⟩
      · intro a ha
        have hab : a ≠ b := by
          intro hab
          rw [hab] at ha
          exact absurd ha (by simp)
        have ha' : m.retired a = true := by
          rw [← Function.update_of_ne hab false m.retired]
          exact ha
        rw [Function.update_of_ne hab]
        exact h.retired_inUse a ha'
      · intro u c hc hret'
        have hcb : c.node ≠ b := fun heq => h.pending u c hc (Or.inl (heq ▸ hret))
        have hold : Function.update m.retired b false c.node = true
            ∨ Function.update inUse b false c.node = false := hret'
        rw [Function.update_of_ne hcb, Function.update_of_ne hcb] at hold
        exact h.pending u c hc hold

/-! ## §3. Removed nodes. -/

/-- What is to be given back, beside the nodes that the program has `removed`
and those that an operation still has for itself (`owned`). -/
structure Agrees (m : Manager τ α) (removed owned : α → Prop) : Prop where
  retire_removed : ∀ t a, Call.retire a ∈ m.calls t → removed a
  retired_removed : ∀ a, m.retired a = true → removed a
  deallocate_hidden : ∀ t a, Call.deallocate a ∈ m.calls t → ¬ removed a ∧ ¬ owned a

/-- A removed node that is in use has been retired, or is about to be. -/
def NoLeak (m : Manager τ α) (inUse : α → Bool) (removed : α → Prop) : Prop :=
  ∀ a, inUse a = true → removed a → m.retired a = true ∨ ∃ t, Call.retire a ∈ m.calls t

/-- The node is in use and not about to be deallocated, and if it is removed
then a guard that is open may reach it. -/
def Shown (m : Manager τ α) (inUse : α → Bool) (removed : α → Prop) (a : α) : Prop :=
  inUse a = true ∧ (∀ t, Call.deallocate a ∉ m.calls t) ∧ (removed a → (m.pinned a).Nonempty)

section Removed

variable {removed removed' owned owned' : α → Prop} {t : τ} {a : α} {l : List α}

omit [DecidableEq τ] [DecidableEq α] in
/-- What is shown and not removed is in use and not being given back. -/
theorem Agrees.held (h : m.Agrees removed owned) (hs : m.Shown inUse removed a)
    (hun : ¬ removed a) :
    inUse a = true ∧ m.retired a = false ∧ ∀ u, ∀ c ∈ m.calls u, c.node ≠ a := by
  refine ⟨hs.1, ?_, ?_⟩
  · rw [← Bool.not_eq_true]
    exact fun hr => hun (h.retired_removed a hr)
  · intro u c hc heq
    cases c with
    | retire b => exact hun (heq ▸ h.retire_removed u b hc)
    | deallocate b => exact hs.2.1 u (heq ▸ hc)

omit [DecidableEq τ] [DecidableEq α] in
/-- An operation may share what it has for itself. -/
theorem Agrees.share (h : m.Agrees removed owned) (howned : ∀ b, owned' b → owned b) :
    m.Agrees removed owned' where
  retire_removed := h.retire_removed
  retired_removed := h.retired_removed
  deallocate_hidden u b hc := by
    obtain ⟨hun, hown⟩ := h.deallocate_hidden u b hc
    exact ⟨hun, fun hb => hown (howned b hb)⟩

omit [DecidableEq τ] [DecidableEq α] in
/-- A node that is not in use is not about to be given back. -/
theorem Ok.not_called (h : m.Ok inUse) (ha : inUse a = false) {u : τ} {c : Call α}
    (hc : c ∈ m.calls u) : c.node ≠ a :=
  fun heq => h.pending u c hc (Or.inr (heq ▸ ha))

theorem mem_giveBack (hcalls : m.calls t = []) {cs : List (Call α)} {gone : List α} {u : τ}
    {c : Call α} : c ∈ (m.giveBack t cs gone).calls u ↔ u = t ∧ c ∈ cs ∨ c ∈ m.calls u := by
  show c ∈ Function.update m.calls t cs u ↔ _
  rw [Function.update_apply]
  split
  · rename_i hut
    rw [hut, hcalls]
    simp
  · rename_i hut
    simp [hut]

/-- Nodes that are shown and not removed may be given back. -/
theorem Agrees.giveBack_step (h : m.Agrees removed owned) (hcalls : m.calls t = [])
    {cs : List (Call α)} (gone : List α) (hnodup : (cs.map Call.node).Nodup)
    (hshown : ∀ c ∈ cs, m.Shown inUse removed c.node ∧ ¬ removed c.node) :
    Step m inUse (m.giveBack t cs gone) inUse :=
  .giveBack t cs gone hcalls hnodup fun c hc => h.held (hshown c hc).1 (hshown c hc).2

/-! ### Deallocating. -/

theorem Agrees.deallocate (h : m.Agrees removed owned) (hcalls : m.calls t = [])
    (hl : ∀ b ∈ l, ¬ removed b ∧ ¬ owned' b) (howned : ∀ b, owned' b → owned b) :
    (m.giveBack t (l.map .deallocate) []).Agrees removed owned' where
  retire_removed u b hc := by
    rcases (mem_giveBack hcalls).mp hc with ⟨-, hc⟩ | hc
    · exact absurd hc (by simp)
    · exact h.retire_removed u b hc
  retired_removed := h.retired_removed
  deallocate_hidden u b hc := by
    rcases (mem_giveBack hcalls).mp hc with ⟨-, hc⟩ | hc
    · exact hl b (by simpa using hc)
    · obtain ⟨hun, hown⟩ := h.deallocate_hidden u b hc
      exact ⟨hun, fun hb => hown (howned b hb)⟩

theorem shown_deallocate (hcalls : m.calls t = []) :
    (m.giveBack t (l.map .deallocate) []).Shown inUse removed a
      ↔ m.Shown inUse removed a ∧ a ∉ l := by
  have hpinned : (m.giveBack t (l.map .deallocate) []).pinned a = m.pinned a := by
    show (if a ∈ [] then m.guards else m.pinned a) = _
    rw [if_neg List.not_mem_nil]
  unfold Shown
  rw [hpinned]
  constructor
  · rintro ⟨huse, hno, hpin⟩
    refine ⟨⟨huse, fun u hc => hno u ((mem_giveBack hcalls).mpr (Or.inr hc)), hpin⟩, ?_⟩
    exact fun ha => hno t ((mem_giveBack hcalls).mpr (Or.inl ⟨rfl, by simpa using ha⟩))
  · rintro ⟨⟨huse, hno, hpin⟩, ha⟩
    refine ⟨huse, ?_, hpin⟩
    intro u hc
    rcases (mem_giveBack hcalls).mp hc with ⟨-, hc⟩ | hc
    · exact ha (by simpa using hc)
    · exact hno u hc

theorem NoLeak.deallocate (h : m.NoLeak inUse removed) (hcalls : m.calls t = []) :
    (m.giveBack t (l.map .deallocate) []).NoLeak inUse removed := by
  intro b huse hb
  refine (h b huse hb).imp_right ?_
  rintro ⟨u, hc⟩
  exact ⟨u, (mem_giveBack hcalls).mpr (Or.inr hc)⟩

/-! ### Retiring. -/

theorem Agrees.retire (h : m.Agrees removed owned) (hcalls : m.calls t = [])
    (hremoved : ∀ b, removed' b ↔ removed b ∨ b ∈ l)
    (hl : ∀ b ∈ l, ∀ u, Call.deallocate b ∉ m.calls u) (howned : ∀ b, owned' b → owned b) :
    (m.giveBack t (l.map .retire) l).Agrees removed' owned' where
  retire_removed u b hc := by
    rw [hremoved]
    rcases (mem_giveBack hcalls).mp hc with ⟨-, hc⟩ | hc
    · exact Or.inr (by simpa using hc)
    · exact Or.inl (h.retire_removed u b hc)
  retired_removed b hb := (hremoved b).mpr (Or.inl (h.retired_removed b hb))
  deallocate_hidden u b hc := by
    rcases (mem_giveBack hcalls).mp hc with ⟨-, hc⟩ | hc
    · exact absurd hc (by simp)
    · obtain ⟨hun, hown⟩ := h.deallocate_hidden u b hc
      refine ⟨?_, fun hb => hown (howned b hb)⟩
      rw [hremoved, not_or]
      exact ⟨hun, fun hb => hl b hb u hc⟩

/-- What is unlinked stays shown: the guard of the thread that unlinks it is
open. -/
theorem shown_retire (hcalls : m.calls t = []) (hopen : t ∈ m.guards)
    (hremoved : ∀ b, removed' b ↔ removed b ∨ b ∈ l) (hl : ∀ b ∈ l, m.Shown inUse removed b) :
    (m.giveBack t (l.map .retire) l).Shown inUse removed' a ↔ m.Shown inUse removed a := by
  have hno : (∀ u, Call.deallocate a ∉ (m.giveBack t (l.map .retire) l).calls u)
      ↔ ∀ u, Call.deallocate a ∉ m.calls u := by
    refine forall_congr' fun u => not_congr ?_
    rw [mem_giveBack hcalls]
    exact or_iff_right (by simp)
  have hpinned : (m.giveBack t (l.map .retire) l).pinned a
      = if a ∈ l then m.guards else m.pinned a := rfl
  unfold Shown
  rw [hno, hpinned, hremoved]
  by_cases ha : a ∈ l
  · rw [if_pos ha]
    exact ⟨fun _ => hl a ha, fun hs => ⟨hs.1, hs.2.1, fun _ => ⟨t, hopen⟩⟩⟩
  · rw [if_neg ha]
    simp only [ha, or_false]

theorem NoLeak.retire (h : m.NoLeak inUse removed) (hcalls : m.calls t = [])
    (hremoved : ∀ b, removed' b ↔ removed b ∨ b ∈ l) :
    (m.giveBack t (l.map .retire) l).NoLeak inUse removed' := by
  intro b huse hb
  rcases (hremoved b).mp hb with hb | hb
  · refine (h b huse hb).imp_right ?_
    rintro ⟨u, hc⟩
    exact ⟨u, (mem_giveBack hcalls).mpr (Or.inr hc)⟩
  · exact Or.inr ⟨t, (mem_giveBack hcalls).mpr (Or.inl ⟨rfl, by simpa using hb⟩)⟩

/-! ### Handing out. -/

/-- `inUse'` has the nodes of `l` besides those of `inUse`, and they are not
removed. -/
structure HandsOut (inUse inUse' : α → Bool) (removed removed' : α → Prop) (l : List α) :
    Prop where
  free : ∀ b ∈ l, inUse b = false
  inUse_iff : ∀ b, inUse' b = true ↔ inUse b = true ∨ b ∈ l
  fresh : ∀ b ∈ l, ¬ removed' b
  other : ∀ b, b ∉ l → (removed' b ↔ removed b)

omit [DecidableEq α] in
theorem HandsOut.not_mem (ho : HandsOut inUse inUse' removed removed' l)
    (ha : inUse a = true) : a ∉ l := by
  intro hmem
  rw [ho.free a hmem] at ha
  exact absurd ha (by simp)

omit [DecidableEq τ] [DecidableEq α] in
/-- What is about to be given back is not handed out. -/
theorem HandsOut.not_called (ho : HandsOut inUse inUse' removed removed' l) (hok : m.Ok inUse)
    {u : τ} {c : Call α} (hc : c ∈ m.calls u) : c.node ∉ l :=
  fun hmem => hok.not_called (ho.free c.node hmem) hc rfl

omit [DecidableEq τ] [DecidableEq α] in
theorem Agrees.allocate (h : m.Agrees removed owned) (hok : m.Ok inUse)
    (ho : HandsOut inUse inUse' removed removed' l) (howned : ∀ b, owned' b → owned b ∨ b ∈ l) :
    m.Agrees removed' owned' where
  retire_removed u b hc := (ho.other b (ho.not_called hok hc)).mpr (h.retire_removed u b hc)
  retired_removed b hb :=
    (ho.other b (ho.not_mem (hok.retired_inUse b hb))).mpr (h.retired_removed b hb)
  deallocate_hidden u b hc := by
    have hmem : b ∉ l := ho.not_called hok hc
    obtain ⟨hun, hown⟩ := h.deallocate_hidden u b hc
    exact ⟨fun hb => hun ((ho.other b hmem).mp hb), fun hb => hown ((howned b hb).resolve_right hmem)⟩

omit [DecidableEq τ] [DecidableEq α] in
theorem shown_allocate (hok : m.Ok inUse) (ho : HandsOut inUse inUse' removed removed' l) :
    m.Shown inUse' removed' a ↔ m.Shown inUse removed a ∨ a ∈ l := by
  unfold Shown
  rw [ho.inUse_iff]
  by_cases ha : a ∈ l
  · refine ⟨fun _ => Or.inr ha, fun _ => ⟨Or.inr ha, ?_, fun hr => absurd hr (ho.fresh a ha)⟩⟩
    exact fun u hc => ho.not_called hok hc ha
  · rw [ho.other a ha]
    simp only [ha, or_false]

omit [DecidableEq τ] [DecidableEq α] in
theorem NoLeak.allocate (h : m.NoLeak inUse removed)
    (ho : HandsOut inUse inUse' removed removed' l) : m.NoLeak inUse' removed' := by
  intro b huse hb
  have hmem : b ∉ l := fun hmem => ho.fresh b hmem hb
  exact h b (((ho.inUse_iff b).mp huse).resolve_right hmem) ((ho.other b hmem).mp hb)

/-! ### The calls, and taking back. -/

/-- **A call that is made changes nothing of what is shown.** -/
theorem Agrees.perform (h : m.Agrees removed owned)
    (hp : m.perform inUse t = some (m', inUse')) :
    m'.Agrees removed owned ∧ ∀ b, m'.Shown inUse' removed b ↔ m.Shown inUse removed b := by
  obtain ⟨c, rest, hhead, -, hpinned, hcalls, hor⟩ := perform_cases hp
  have hmem : c ∈ m.calls t := by
    rw [hhead]
    exact List.mem_cons_self
  have hsub : ∀ u, ∀ c' ∈ m'.calls u, c' ∈ m.calls u := by
    intro u c' hc'
    rw [hcalls, Function.update_apply] at hc'
    split at hc'
    · rename_i hut
      rw [hut, hhead]
      exact List.mem_cons_of_mem c hc'
    · exact hc'
  -- the other calls are still to be made
  have hkeep : ∀ u c', c'.node ≠ c.node → c' ∈ m.calls u → c' ∈ m'.calls u := by
    intro u c' hne hin
    rw [hcalls, Function.update_apply]
    split
    · rename_i hut
      rw [hut, hhead] at hin
      rcases List.mem_cons.mp hin with heq | hin
      · exact absurd (by rw [heq]) hne
      · exact hin
    · exact hin
  refine ⟨⟨fun u b hc => h.retire_removed u b (hsub u _ hc), ?_,
    fun u b hc => h.deallocate_hidden u b (hsub u _ hc)⟩, ?_⟩
  · intro b hb
    rcases hor with ⟨hc, hret, -⟩ | ⟨-, hret, -⟩
    · rw [hret, Function.update_apply] at hb
      split at hb
      · rename_i hbc
        rw [hbc]
        exact h.retire_removed t c.node (hc ▸ hmem)
      · exact h.retired_removed b hb
    · rw [hret] at hb
      exact h.retired_removed b hb
  · intro b
    unfold Shown
    rw [hpinned]
    rcases hor with ⟨hc, -, huse⟩ | ⟨hc, -, huse⟩
    · -- a retired node stays in use
      have hiff : (∀ u, Call.deallocate b ∉ m'.calls u) ↔
          ∀ u, Call.deallocate b ∉ m.calls u := by
        refine forall_congr' fun u => not_congr ⟨hsub u _, ?_⟩
        intro hin
        refine hkeep u _ ?_ hin
        intro hbc
        have hbc' : b = c.node := hbc
        exact (h.deallocate_hidden u b hin).1 (hbc' ▸ h.retire_removed t c.node (hc ▸ hmem))
      rw [huse, hiff]
    · by_cases hbc : b = c.node
      · rw [huse, hbc, Function.update_self]
        constructor
        · exact fun hs => absurd hs.1 (by simp)
        · exact fun hs => absurd (hc ▸ hmem) (hs.2.1 t)
      · have hiff : (∀ u, Call.deallocate b ∉ m'.calls u) ↔
            ∀ u, Call.deallocate b ∉ m.calls u :=
          forall_congr' fun u => not_congr ⟨hsub u _, hkeep u _ hbc⟩
        rw [huse, Function.update_of_ne hbc, hiff]

theorem NoLeak.perform (h : m.NoLeak inUse removed)
    (hp : m.perform inUse t = some (m', inUse')) : m'.NoLeak inUse' removed := by
  obtain ⟨c, rest, hhead, -, -, hcalls, hor⟩ := perform_cases hp
  intro b huse hb
  by_cases hbc : b = c.node
  · rcases hor with ⟨-, hret, -⟩ | ⟨-, -, huse'⟩
    · left
      rw [hret, hbc, Function.update_self]
    · rw [huse', hbc, Function.update_self] at huse
      exact absurd huse (by simp)
  · -- another node: neither its state nor its call has changed
    have hold : inUse b = true := by
      rcases hor with ⟨-, -, huse'⟩ | ⟨-, -, huse'⟩
      · rw [← huse']
        exact huse
      · rw [huse', Function.update_of_ne hbc] at huse
        exact huse
    rcases h b hold hb with hret | ⟨u, hc⟩
    · left
      rcases hor with ⟨-, hret', -⟩ | ⟨-, hret', -⟩
      · rw [hret', Function.update_of_ne hbc]
        exact hret
      · rw [hret']
        exact hret
    · right
      refine ⟨u, ?_⟩
      rw [hcalls, Function.update_apply]
      split
      · rename_i hut
        rw [hut, hhead] at hc
        rcases List.mem_cons.mp hc with heq | hc
        · exact absurd (by rw [← heq]; rfl) hbc
        · exact hc
      · exact hc

/-- **What is taken back was not shown.** -/
theorem Agrees.reclaim (h : m.Agrees removed owned) {b : α}
    (hr : m.reclaim inUse b = some (m', inUse')) :
    m'.Agrees removed owned ∧ ∀ a, m'.Shown inUse' removed a ↔ m.Shown inUse removed a := by
  obtain ⟨hret, hpin, rfl, rfl⟩ := reclaim_cases hr
  refine ⟨⟨h.retire_removed, ?_, h.deallocate_hidden⟩, ?_⟩
  · intro a ha
    have ha' : Function.update m.retired b false a = true := ha
    rw [Function.update_apply] at ha'
    split at ha'
    · exact absurd ha' (by simp)
    · exact h.retired_removed a ha'
  · intro a
    unfold Shown
    rw [Function.update_apply]
    split
    · -- no guard could reach it
      rename_i hab
      show _ ↔ inUse a = true ∧ _ ∧ (removed a → (m.pinned a).Nonempty)
      rw [hab, hpin]
      constructor
      · exact fun hs => absurd hs.1 (by simp)
      · exact fun hs => absurd (hs.2.2 (h.retired_removed b hret)) (by simp)
    · rfl

theorem NoLeak.reclaim (h : m.NoLeak inUse removed) {b : α}
    (hr : m.reclaim inUse b = some (m', inUse')) : m'.NoLeak inUse' removed := by
  obtain ⟨-, -, rfl, rfl⟩ := reclaim_cases hr
  intro a huse ha
  rw [Function.update_apply] at huse
  split at huse
  · exact absurd huse (by simp)
  · rename_i hab
    refine (h a huse ha).imp_left ?_
    intro hret
    show Function.update m.retired b false a = true
    rw [Function.update_of_ne hab]
    exact hret

omit [DecidableEq α] in
theorem shown_leave : (m.leave t).Shown inUse removed a
    ↔ m.Shown inUse removed a ∧ (removed a → ((m.pinned a).erase t).Nonempty) := by
  unfold Shown
  constructor
  · intro hs
    exact ⟨⟨hs.1, hs.2.1, fun hr => (hs.2.2 hr).mono (Finset.erase_subset t _)⟩, hs.2.2⟩
  · exact fun hs => ⟨hs.1.1, hs.1.2.1, hs.2⟩

end Removed

end Manager

end MultiCore.Lib.Reclamation
