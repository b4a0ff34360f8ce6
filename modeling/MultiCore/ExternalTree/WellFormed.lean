/-
  MultiCore.ExternalTree.WellFormed — the descriptors that `insertIfAbsent` and
  `erase` hand to `kcas::execute`.

  An erase compares `p->left` with `n` three times: for `sibling`, for `node`
  and for `sib`.  In a run where these comparisons agree (`readsAgree`), every
  descriptor names pairwise different words, `node` and `sibling` are the two
  children of `p`, and `sib` was read from the child that `sibling` names
  (`well_formed`).  `overlapping` is a run in which they do not agree.

  Agreement also excludes the descriptors that name `p->left` twice, so the
  tree invariant is available; it is what keeps `gp` and `p` apart.
-/
import MultiCore.ExternalTree.Correct

namespace MultiCore.ExternalTree

open MultiCore.Lib MultiCore.Kcas

/-! ## §1. Agreeing reads. -/

/-- If the next step of `t` is the second or the third comparison of `p->left`
with `n` in an erase, it has the outcome of the first, which chose `sibling`. -/
def readsAgree (s : State) (t : Tid) : Bool :=
  match s.thread t with
  | .eraseNode _ _ p n _ sibling => decide (s.word ⟨p, .left⟩ = n) == decide (sibling = .right)
  | .eraseTest _ _ p n _ sibling _ => decide (s.word ⟨p, .left⟩ = n) == decide (sibling = .right)
  | _ => true

/-- `node` and `sibling` are the two child fields. -/
def Opposite (node sibling : Field) : Prop :=
  node = .left ∧ sibling = .right ∨ node = .right ∧ sibling = .left

theorem opposite_pick (b : Bool) : Opposite (pick b) (pick !b) := by
  cases b
  · exact Or.inr ⟨rfl, rfl⟩
  · exact Or.inl ⟨rfl, rfl⟩

/-- What the locals of a thread are, whatever the other threads do. -/
def Pc.Apart : Pc → Prop
  | .searchTest _ _ gp p n => (gp = NULL ∨ gp ≠ p) ∧ p ≠ n
  | .searchDescend _ _ gp p => gp ≠ p
  | .searchAssert _ _ gp p _ => gp = NULL ∨ gp ≠ p
  | .searched _ _ gp p _ => gp = NULL ∨ gp ≠ p
  | .eraseParent _ gp p _ => gp = NULL ∨ gp ≠ p
  | .eraseSibling _ gp p _ _ => gp ≠ p
  | .eraseNode _ gp p _ _ sibling => gp ≠ p ∧ ∃ b, sibling = pick !b
  | .eraseTest _ gp p _ _ sibling node => gp ≠ p ∧ ∃ b, sibling = pick !b ∧ node = pick b
  | .eraseRead _ gp p _ _ sibling node other => gp ≠ p ∧ Opposite node sibling ∧ other = sibling
  | .eraseExecute _ gp p _ _ sibling node _ => gp ≠ p ∧ Opposite node sibling
  | _ => True

/-- No node is its own child, not even a removed one. -/
def LoopFree (s : State) : Prop := ∀ a d, Internal s a → s.routing.child a d ≠ a

theorem LocalMove.apart {P : Params} {s : State} {t : Tid} {pc' : Pc} (h : Inv P s)
    (hloop : LoopFree s) (hagree : readsAgree s t = true) (hl : LocalMove P s (s.thread t) pc')
    (ha : (s.thread t).Apart) : pc'.Apart := by
  have hstart : NULL ≠ root := by decide
  have hknown := h.pcOk t
  unfold readsAgree at hagree
  generalize hpc : s.thread t = pc at hl ha hknown hagree
  cases hl with
  | call _ _ => exact ⟨Or.inl rfl, hstart⟩
  | testLeaf _ _ => exact ha.1
  | testInternal _ _ => exact ha.2
  | asserted _ => exact ha
  | descend => exact ⟨Or.inr ha, (hloop _ _ hknown.2.2.1).symm⟩
  | containsReturn => trivial
  | insertFound _ => trivial
  | insertRead => trivial
  | eraseAbsent _ => trivial
  | eraseFound _ => exact ha
  | eraseParent hgp => exact ha.resolve_left hgp
  | eraseSibling => exact ⟨ha, _, rfl⟩
  | @eraseNode key gp p n parent sibling =>
      obtain ⟨hgp, b, rfl⟩ := ha
      refine ⟨hgp, b, rfl, ?_⟩
      congr 1
      simp only [beq_iff_eq] at hagree
      rw [hagree]
      cases b <;> rfl
  | @eraseTest key gp p n parent sibling node =>
      obtain ⟨hgp, b, rfl, rfl⟩ := ha
      refine ⟨hgp, opposite_pick b, ?_⟩
      simp only [beq_iff_eq] at hagree
      rw [hagree]
      cases b <;> rfl
  | eraseRead => exact ⟨ha.1, ha.2.1⟩
  | eraseRetry => exact ⟨Or.inl rfl, hstart⟩

/-! ## §2. Every run. -/

structure Formed (P : Params) (s : State) : Prop where
  inv : Inv P s
  loopFree : LoopFree s
  apart : ∀ t, (s.thread t).Apart

/-- A descriptor with different fields captures the sibling. -/
theorem Formed.captures {P : Params} {s : State} (h : Formed P s) (t : Tid) :
    CapturesSibling s t := by
  intro key gp p n parent sib hpc
  have ha := h.apart t
  rw [hpc] at ha
  rcases ha.2 with ⟨_, heq⟩ | ⟨heq, _⟩
  · exact absurd heq (by decide)
  · exact absurd heq (by decide)

theorem Outcome.loopFree {P : Params} {s s' : State} {t : Tid} (ho : Outcome P s t s')
    (h' : Inv P s') (hloop : LoopFree s) : LoopFree s' := by
  intro a d ha
  by_cases hm : Marked s' a
  · obtain ⟨hold, hchild⟩ := ho.frozen ha hm
    rw [hchild]
    exact hloop a d hold
  · exact h'.tree.child_ne_self (h'.reach_of_unmarked ha.1 hm) ha.2

theorem init_formed (P : Params) : Formed P (init P) := by
  have hinv := init_inv P
  refine ⟨hinv, ?_, fun _ => trivial⟩
  intro a d ha
  refine hinv.tree.child_ne_self (hinv.reach_of_unmarked ha.1 ?_) ha.2
  intro hm
  apply hm
  rw [init_word]
  split <;> rfl

theorem Formed.next {P : Params} {s s' : State} {a : Action} (h : Formed P s)
    (hagree : readsAgree s a.tid = true) (hn : next helpExecute P s a = some s') :
    Formed P s' := by
  have hid : ∀ word es word', helpExecute word es = (true, word') →
      helpExecute word es = (true, word') := fun _ _ _ hex => hex
  have hcap : Captures helpExecute s a.tid := fun _ _ _ _ _ _ _ _ _ _ _ => h.captures a.tid
  have hinv := next_inv hid h.inv hcap hn
  refine ⟨hinv, (next_outcome hid h.inv hcap hn).loopFree hinv h.loopFree, ?_⟩
  intro u
  have heff := next_effect hn
  by_cases hu : u = a.tid
  · rw [hu]
    have hgoto : ∀ (s₁ : State) {pc : Pc}, pc.Apart → ((s₁.goto a.tid pc).thread a.tid).Apart := by
      intro s₁ pc hpc
      rw [goto_thread, if_pos rfl]
      exact hpc
    cases heff with
    | move hl => exact hgoto _ (hl.apart h.inv h.loopFree hagree (h.apart a.tid))
    | alloc _ _ _ _ _ => exact hgoto _ trivial
    | insertRetry _ => exact hgoto _ ⟨Or.inl rfl, by decide⟩
    | insert _ _ => exact hgoto _ trivial
    | erase _ _ => exact hgoto _ trivial
  · rw [heff.thread hu]
    exact h.apart u

/-- What is asked of the descriptor that thread `t` hands to `kcas::execute` at
time `b` of a run: its addresses are pairwise different, and in an erase `node`
and `sibling` are the two children of `p`, and `sib` is what the thread read
from the field that `sibling` names. -/
def WellFormed {P : Params} (r : Run (system helpExecute P)) (b : Nat) (t : Tid) : Prop :=
  (∀ key p n na n1 child, (r.state b).thread t = .insertExecute key p n na n1 child →
    ((insertEntries p n n1 child).map Entry.addr).Nodup)
  ∧ ∀ key gp p n parent sibling node sib,
    (r.state b).thread t = .eraseExecute key gp p n parent sibling node sib →
      ((eraseEntries gp p n parent sibling node sib).map Entry.addr).Nodup
      ∧ Opposite node sibling
      ∧ ∃ i < b, (r.act i).tid = t
        ∧ (r.state i).thread t = .eraseRead key gp p n parent sibling node sibling
        ∧ (r.state i).word ⟨p, sibling⟩ = sib

section Runs

variable {P : Params} (r : Run (system helpExecute P))
  (hr : ∀ i < r.len, readsAgree (r.state i) (r.act i).tid = true)
include hr

theorem run_formed (i : Nat) (hi : i ≤ r.len) : Formed P (r.state i) :=
  r.invariant (P := fun _ => Formed P) (init_formed P) hi
    fun j _ hj h => h.next (hr j hj) (r.step j hj)

/-- `sib` was read from the field that `sibling` names. -/
theorem run_sibling (t : Tid) {key : Int} {gp p n sib : Addr} {parent sibling node : Field}
    (b : Nat) (hb : b ≤ r.len)
    (hpc : (r.state b).thread t = .eraseExecute key gp p n parent sibling node sib) :
    ∃ i < b, (r.act i).tid = t
      ∧ (r.state i).thread t = .eraseRead key gp p n parent sibling node sibling
      ∧ (r.state i).word ⟨p, sibling⟩ = sib := by
  induction b with
  | zero =>
      rw [r.start] at hpc
      exact absurd hpc (by simp [system, init, State.createLeaf, State.createInternal])
  | succ b ih =>
      have heff := next_effect (r.step b hb)
      by_cases hu : t = (r.act b).tid
      · -- only the read of `sib` leads to the k-CAS of an erase
        have hform := run_formed r hr b (Nat.le_of_succ_le hb)
        have hapart := hform.apart t
        have hgoto : ∀ {s₁ : State} {pc : Pc}, r.state (b + 1) = s₁.goto (r.act b).tid pc →
            pc = .eraseExecute key gp p n parent sibling node sib := by
          intro s₁ pc heq
          rw [heq, goto_thread, if_pos hu] at hpc
          exact hpc
        generalize hs : r.state (b + 1) = s' at heff
        cases heff with
        | move hl =>
            obtain rfl := hgoto hs
            rw [← hu] at hl
            generalize hpc' : (r.state b).thread t = pc at hl hapart
            cases hl
            obtain ⟨-, -, rfl⟩ := hapart
            exact ⟨b, Nat.lt_succ_self b, hu.symm, hpc', rfl⟩
        | alloc _ _ _ _ _ => exact absurd (hgoto hs) (by simp)
        | insertRetry _ => exact absurd (hgoto hs) (by simp)
        | insert _ _ => exact absurd (hgoto hs) (by simp)
        | erase _ _ => exact absurd (hgoto hs) (by simp)
      · rw [heff.thread hu] at hpc
        obtain ⟨i, hi, hfacts⟩ := ih (Nat.le_of_succ_le hb) hpc
        exact ⟨i, Nat.lt_succ_of_lt hi, hfacts⟩

/-- **Every descriptor is well formed** in a run whose erases find the same
outcome whenever they compare `p->left` with `n`. -/
theorem well_formed (b : Nat) (hb : b ≤ r.len) (t : Tid) : WellFormed r b t := by
  have hform := run_formed r hr b hb
  have hknown := hform.inv.pcOk t
  have hapart := hform.apart t
  constructor
  · intro key p n na n1 child hpc
    rw [hpc] at hknown
    obtain ⟨-, -, -, c, rfl⟩ := hknown
    cases c <;> simp [insertEntries, addValAddr, addPtrAddr, pick]
  · intro key gp p n parent sibling node sib hpc
    refine ⟨?_, ?_, run_sibling r hr t b hb hpc⟩
    · rw [hpc] at hknown hapart
      obtain ⟨hgp, hv, ⟨c, rfl⟩, -, -⟩ := hknown
      have hgn : gp ≠ n := fun heq => hgp.2 (heq ▸ hv.leaf.2)
      have hpn : p ≠ n := fun heq => hv.parent.2 (heq ▸ hv.leaf.2)
      rcases hapart.2 with ⟨rfl, rfl⟩ | ⟨rfl, rfl⟩
      · cases c <;> simp [eraseEntries, addValAddr, addPtrAddr, pick, hgn, hpn, hapart.1]
      · cases c <;> simp [eraseEntries, addValAddr, addPtrAddr, pick, hgn, hpn, hapart.1]
    · rw [hpc] at hapart
      exact hapart.2

end Runs

def contendedRun : Run (system helpExecute sampleParams) :=
  Run.ofActions (system helpExecute sampleParams) contended (.step 0 0 0) (by decide +kernel)

theorem well_formed_contended :
    (contendedRun.state 46).thread 0 = .eraseExecute 5 5 7 4 .left .left .right 6
      ∧ WellFormed contendedRun 46 0 := by
  refine ⟨by decide +kernel, ?_⟩
  exact well_formed contendedRun (by decide +kernel) 46 (by decide +kernel) 0

def overlappingRun : Run (system helpExecute sampleParams) :=
  Run.ofActions (system helpExecute sampleParams) overlapping (.step 0 0 0) (by decide +kernel)

/-- Another thread inserts 3 next to leaf 5 before the comparison for `sibling`
and erases it again before the one for `node`: both fields are `p->left`. -/
theorem well_formed_fails : ∃ (P : Params) (r : Run (system helpExecute P)) (b : Nat) (t : Tid),
    b ≤ r.len ∧ ¬ WellFormed r b t := by
  have hpc : (overlappingRun.state 47).thread 0
      = .eraseExecute 5 root 5 4 .right .left .left rootRight := by decide +kernel
  refine ⟨sampleParams, overlappingRun, 47, 0, by decide +kernel, ?_⟩
  intro hformed
  obtain ⟨hnodup, -⟩ := hformed.2 _ _ _ _ _ _ _ _ hpc
  exact absurd hnodup (by decide)

end MultiCore.ExternalTree
