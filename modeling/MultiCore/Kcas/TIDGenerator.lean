/-
  MultiCore.Kcas.TIDGenerator — the thread ids of the k-CAS (`TIDGenerator` of
  `kcas_reuse_impl.h`).

  A generator claims a slot of `thread_ids` when it is constructed; the slot is
  the index of its thread's descriptors.  `explicitRelease` and the destructor
  give the slot back by writing 0 to it, and the destructor does so as well when
  the slot has been given back before.  By then it may belong to somebody else.

  Every read, compare-and-swap and write of `thread_ids` is one step.
-/
import MultiCore.Lib.Run
import Mathlib.Logic.Function.Basic

namespace MultiCore.Kcas.TIDGenerator

open MultiCore.Lib

/-! ## §1. Steps. -/

def KCAS_MAX_THREADS : ℕ := 500

/-- Where a generator is in its life.  Generators are told apart by their address. -/
inductive Life where
  /-- Not constructed yet, or destroyed. -/
  | absent
  /-- In the constructor, before `while (thread_ids[i])` reads. -/
  | scanning (i : ℕ)
  /-- In the constructor, before the compare-and-swap of `thread_ids[i]`. -/
  | claiming (i : ℕ)
  | alive (myslot : ℕ) (released : Bool)
  deriving Repr, DecidableEq

structure State where
  thread_ids : ℕ → Option ℕ
  gen : ℕ → Life

inductive Action where
  | construct (g : ℕ)
  /-- The next step of a constructor. -/
  | step (g : ℕ)
  | explicitRelease (g : ℕ)
  | destroy (g : ℕ)
  deriving Repr, DecidableEq

def Action.gen : Action → ℕ
  | construct g | step g | explicitRelease g | destroy g => g

def State.become (s : State) (g : ℕ) (l : Life) : State := { s with gen := Function.update s.gen g l }

def State.write (s : State) (i : ℕ) (v : Option ℕ) : State :=
  { s with thread_ids := Function.update s.thread_ids i v }

/-- A step; `none` where the program has none, or reads behind the array. -/
def next (s : State) : Action → Option State
  | .construct g =>
      match s.gen g with
      | .absent => some (s.become g (.scanning 0))
      | _ => none
  | .step g =>
      match s.gen g with
      | .scanning i =>
          if i < KCAS_MAX_THREADS then
            if s.thread_ids i ≠ none then some (s.become g (.scanning (i + 1)))
            else some (s.become g (.claiming i))
          else none
      | .claiming i =>
          if s.thread_ids i = none then some ((s.write i (some g)).become g (.alive i false))
          else some (s.become g (.scanning 0))
      | _ => none
  | .explicitRelease g =>
      match s.gen g with
      | .alive myslot _ => some ((s.write myslot none).become g (.alive myslot true))
      | _ => none
  | .destroy g =>
      match s.gen g with
      | .alive myslot _ => some ((s.write myslot none).become g .absent)
      | _ => none

def system : Sys State Action where
  init := ⟨fun _ => none, fun _ => .absent⟩
  next := next

/-- The slot of a generator that has not been released: the index of the
descriptors that `start` and `getDescriptor` use.  (`getId` returns `myslot`
after a release too.) -/
def State.heldSlot (s : State) (g : ℕ) : Option ℕ :=
  match s.gen g with
  | .alive myslot false => some myslot
  | _ => none

/-! ## §2. One slot, one generator. -/

/-- No two generators that are alive and not explicitly released hold one slot. -/
def SlotsUnique (s : State) : Prop :=
  ∀ g g' i, s.heldSlot g = some i → s.heldSlot g' = some i → g = g'

/-- Fewer than `KCAS_MAX_THREADS` generators are alive. -/
def FewAlive (s : State) : Prop :=
  ∃ gs : List ℕ, gs.length < KCAS_MAX_THREADS ∧ ∀ g, s.gen g ≠ .absent → g ∈ gs

/-- A generator that has been released gives its slot back once more only while
the slot is free. -/
def GivesBackOwn (s : State) : Action → Prop
  | .explicitRelease g | .destroy g =>
      ∀ i, s.gen g = .alive i true → s.thread_ids i = none
  | _ => True

/-- A generator that is alive and not released owns its slot. -/
def Owned (s : State) : Prop := ∀ g i, s.gen g = .alive i false → s.thread_ids i = some g

section Steps

variable {s s' : State} {g g' : ℕ} {i : ℕ} {l : Life}

theorem become_gen : (s.become g l).gen g' = if g' = g then l else s.gen g' := by
  show Function.update s.gen g l g' = _
  rw [Function.update_apply]

theorem write_thread_ids {v : Option ℕ} {j : ℕ} :
    (s.write i v).thread_ids j = if j = i then v else s.thread_ids j := by
  show Function.update s.thread_ids i v j = _
  rw [Function.update_apply]

theorem heldSlot_eq : s.heldSlot g = some i ↔ s.gen g = .alive i false := by
  unfold State.heldSlot
  cases hg : s.gen g with
  | alive j released =>
      cases released with
      | true => simp
      | false => simp
  | _ => simp

/-- A generator that owns nothing at its new place leaves the slots to the
others. -/
theorem Owned.become (h : Owned s) (hl : ∀ i, l ≠ .alive i false) : Owned (s.become g l) := by
  intro g' i hg'
  rw [become_gen] at hg'
  split at hg'
  · exact absurd hg' (hl i)
  · exact h g' i hg'

/-- A slot is given back by its owner, or while it is free. -/
theorem Owned.release (h : Owned s) (hown : s.thread_ids i = some g ∨ s.thread_ids i = none)
    (hl : ∀ i, l ≠ .alive i false) : Owned ((s.write i none).become g l) := by
  intro g' j hg'
  rw [become_gen] at hg'
  split at hg'
  · exact absurd hg' (hl j)
  · rename_i hne
    have hj : s.thread_ids j = some g' := h g' j hg'
    show (s.write i none).thread_ids j = some g'
    rw [write_thread_ids, if_neg]
    · exact hj
    · rintro rfl
      rcases hown with hown | hown
      · exact hne (Option.some.inj (hj.symm.trans hown))
      · exact absurd (hj.symm.trans hown) (by simp)

/-- A successful compare-and-swap takes a free slot. -/
theorem Owned.claim (h : Owned s) (hfree : s.thread_ids i = none) :
    Owned ((s.write i (some g)).become g (.alive i false)) := by
  intro g' j hg'
  show (s.write i (some g)).thread_ids j = some g'
  rw [become_gen] at hg'
  rw [write_thread_ids]
  split at hg'
  · rename_i heq
    obtain ⟨rfl, -⟩ := Life.alive.inj hg'
    rw [if_pos rfl, heq]
  · have hj : s.thread_ids j = some g' := h g' j hg'
    rw [if_neg]
    · exact hj
    · rintro rfl
      exact absurd (hj.symm.trans hfree) (by simp)

/-- Who may give back the slot of a generator. -/
theorem Owned.owner_or_free (h : Owned s) {released : Bool} (hg : s.gen g = .alive i released)
    (hown : ∀ i, s.gen g = .alive i true → s.thread_ids i = none) :
    s.thread_ids i = some g ∨ s.thread_ids i = none := by
  cases released with
  | true => exact Or.inr (hown i hg)
  | false => exact Or.inl (h g i hg)

/-- Every step that gives back what it owns keeps the owners. -/
theorem Owned.step (h : Owned s) {a : Action} (hown : GivesBackOwn s a)
    (hn : next s a = some s') : Owned s' := by
  cases a with
  | construct g =>
      unfold next at hn
      dsimp only at hn
      split at hn
      · obtain rfl := Option.some.inj hn
        exact h.become (by simp)
      · exact absurd hn (by simp)
  | step g =>
      unfold next at hn
      dsimp only at hn
      split at hn
      · split_ifs at hn
        · obtain rfl := Option.some.inj hn
          exact h.become (by simp)
        · obtain rfl := Option.some.inj hn
          exact h.become (by simp)
      · split_ifs at hn with hfree
        · obtain rfl := Option.some.inj hn
          exact h.claim hfree
        · obtain rfl := Option.some.inj hn
          exact h.become (by simp)
      · exact absurd hn (by simp)
  | explicitRelease g =>
      unfold next at hn
      dsimp only at hn
      split at hn
      · rename_i i released hg
        obtain rfl := Option.some.inj hn
        exact h.release (h.owner_or_free hg hown) (by simp)
      · exact absurd hn (by simp)
  | destroy g =>
      unfold next at hn
      dsimp only at hn
      split at hn
      · rename_i i released hg
        obtain rfl := Option.some.inj hn
        exact h.release (h.owner_or_free hg hown) (by simp)
      · exact absurd hn (by simp)

end Steps

/-- **Thread ids are unique** in every run in which a released generator gives
its slot back once more only while the slot is free. -/
theorem slots_unique {s : State} (h : Reach system GivesBackOwn s) : SlotsUnique s := by
  have howned : Owned s := by
    refine Reach.induct (P := Owned) ?_ ?_ h
    · intro g i hg
      exact absurd hg (by simp [system])
    · intro s a s' _ hs hown hn
      exact hs.step hown hn
  intro g g' i hg hg'
  have hi := howned g i (heldSlot_eq.mp hg)
  have hi' := howned g' i (heldSlot_eq.mp hg')
  exact Option.some.inj (hi.symm.trans hi')

/-! ## §3. Two runs. -/

/-- The construction of `g` by one thread alone, when slot 0 is free. -/
def constructs (g : ℕ) : List Action := [.construct g, .step g, .step g]

/-- Does the step give back what it owns? -/
def givesBackOwn (s : State) : Action → Bool
  | .explicitRelease g | .destroy g =>
      match s.gen g with
      | .alive i true => (s.thread_ids i).isNone
      | _ => true
  | _ => true

theorem givesBackOwn_sound (s : State) (a : Action) (h : givesBackOwn s a = true) :
    GivesBackOwn s a := by
  have hfree : ∀ g, (match s.gen g with
      | .alive i true => (s.thread_ids i).isNone
      | _ => true) = true → ∀ i, s.gen g = .alive i true → s.thread_ids i = none := by
    intro g hg i hi
    rw [hi] at hg
    exact Option.isNone_iff_eq_none.mp hg
  cases a with
  | construct g => exact trivial
  | step g => exact trivial
  | explicitRelease g => exact hfree g h
  | destroy g => exact hfree g h

/-- Two threads use slot 0 one after the other, and the first one is destroyed
behind its explicit release. -/
def handedOn : List Action := constructs 0 ++ [.explicitRelease 0, .destroy 0] ++ constructs 1

theorem slots_unique_handedOn :
    Reach system GivesBackOwn (system.after handedOn) ∧ SlotsUnique (system.after handedOn)
      ∧ (system.after handedOn).heldSlot 1 = some 0 :=
  have hrun := Sys.reach_of_check system givesBackOwn_sound
    (f := fun s => s.heldSlot 1 == some 0) handedOn (by decide +kernel)
  ⟨hrun.1, slots_unique hrun.1, beq_iff_eq.mp hrun.2⟩

theorem fewAlive_of_three {s : State} (h : ∀ g, 3 ≤ g → s.gen g = .absent) : FewAlive s := by
  refine ⟨[0, 1, 2], by decide, fun g hg => ?_⟩
  have hlt : g < 3 := by
    by_contra hge
    exact hg (h g (by omega))
  simp only [List.mem_cons, List.not_mem_nil, or_false]
  omega

/-- Actions of three generators leave the others absent. -/
theorem few_of_three {s : State} (h : Reach system (fun _ a => a.gen < 3) s) :
    Reach system (fun s _ => FewAlive s) s ∧ ∀ g, 3 ≤ g → s.gen g = .absent := by
  refine Reach.induct (P := fun s => Reach system (fun s _ => FewAlive s) s
    ∧ ∀ g, 3 ≤ g → s.gen g = .absent) ⟨Reach.init, fun _ _ => rfl⟩ ?_ h
  intro s a s' _ hs ha hn
  obtain ⟨hr, habsent⟩ := hs
  refine ⟨Reach.step hr (fewAlive_of_three habsent) hn, fun g hg => ?_⟩
  have hother : ∀ {t : State} {l : Life}, t.gen = s.gen → (t.become a.gen l).gen g = .absent := by
    intro t l ht
    rw [become_gen, if_neg (by omega), ht]
    exact habsent g hg
  cases a <;> simp only [system, next] at hn <;> split at hn <;> (try split_ifs at hn) <;>
    first
      | (obtain rfl := Option.some.inj hn; exact hother rfl)
      | exact absurd hn (by simp)

/-- Thread 0 gives its slot back, thread 1 claims it, the destructor of thread 0
gives it back once more, and thread 2 claims it as well. -/
def givenBackTwice : List Action :=
  constructs 0 ++ [.explicitRelease 0] ++ constructs 1 ++ [.destroy 0] ++ constructs 2

theorem slots_unique_fails :
    ¬ ∀ s, Reach system (fun s _ => FewAlive s) s → FewAlive s → SlotsUnique s := by
  intro hall
  have hrun := Sys.reach_of_check system (C := fun _ a => a.gen < 3)
    (c := fun _ a => decide (a.gen < 3))
    (f := fun s => s.heldSlot 1 == some 0 && s.heldSlot 2 == some 0) (fun _ _ h => of_decide_eq_true h)
    givenBackTwice (by decide +kernel)
  have hids := hrun.2
  rw [Bool.and_eq_true] at hids
  have hfew := few_of_three hrun.1
  have hunique := hall _ hfew.1 (fewAlive_of_three hfew.2)
  exact absurd (hunique 1 2 0 (beq_iff_eq.mp hids.1) (beq_iff_eq.mp hids.2)) (by decide)

end MultiCore.Kcas.TIDGenerator
