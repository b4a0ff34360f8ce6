/-
  MultiCore.Debra.Invariant — what holds in every state of the reclaimer.

  The argument is about three epochs.  `stamp a` is the epoch at which record
  `a` was unlinked, `openEpoch t` the one at which thread `t` announced its
  operation, and a thread's own epoch is the one it has read last.

    * An operation that was open when `a` was unlinked was announced no later
      than `stamp a`.
    * While an operation is open the epoch moves by one increment at most: a
      scan for the next one stops at the announcement of that operation.
    * A record of age `k`, in the bag that was the current one `k` rotations
      ago, is `k - 1` increments older than its thread's epoch.

  The bag that is freed is five rotations old, so nothing in it can be reached.

    * `Ghost` — the history that the proof needs, beside the state;
    * `Effect` — everything an action can do;
    * `ThreadInv` — the facts about one thread, for each program point, and
      `Move.threadInv`: the steps inside `startOp` keep them.
-/
import MultiCore.Debra.Model
import Mathlib.Tactic.Common

namespace MultiCore.Debra

open MultiCore.Lib MultiCore.Lib.Reclamation

variable {α : Type*}

/-! ## §1. Announcements. -/

theorem isQuiescent_iff (ann : ℕ) : isQuiescent ann = true ↔ ann % 2 = 1 := by
  unfold isQuiescent
  rw [decide_eq_true_eq, Nat.and_one_is_mod]
  omega

theorem getWithQuiescent_odd (ann : ℕ) : getWithQuiescent ann % 2 = 1 := by
  unfold getWithQuiescent
  rw [Nat.or_mod_two_eq_one]
  right
  rfl

theorem bitsEpoch_of_even {ann : ℕ} (h : ann % 2 = 0) : bitsEpoch ann = ann := by
  show ann - ann % 2 = ann
  omega

/-- What a scan accepts: silence, or the epoch it scans for. -/
theorem accepts_even {ann e : ℕ} (heven : ann % 2 = 0) :
    (bitsEpoch ann = e ∨ isQuiescent ann = true) ↔ ann = e := by
  rw [bitsEpoch_of_even heven, isQuiescent_iff]
  omega

/-! ## §2. The ages of the bags. -/

section Ages

variable {d : ThreadData α} {j k : ℕ}

/-- After a rotation every bag is one rotation older. -/
theorem bagOfAge_rotate {b : Option ℕ} (hk : k < 8) (hindex : d.index < 9) :
    ({ d with index := (d.index + 1) % NUMBER_OF_EPOCH_BAGS, currentBag := b }).bagOfAge (k + 1)
      = d.bagOfAge k := by
  show d.epochbags (((d.index + 1) % 9 + 9 - (k + 1)) % 9) = d.epochbags ((d.index + 9 - k) % 9)
  congr 1
  omega

theorem bagOfAge_rotate_zero {b : Option ℕ} (hindex : d.index < 9) :
    ({ d with index := (d.index + 1) % NUMBER_OF_EPOCH_BAGS, currentBag := b }).bagOfAge 0
      = d.bagOfAge 8 := by
  show d.epochbags (((d.index + 1) % 9 + 9 - 0) % 9) = d.epochbags ((d.index + 9 - 8) % 9)
  congr 1
  omega

/-- The bag that is freed has not been the current one for five rotations. -/
theorem freeable_slot (hindex : d.index < 9) :
    freeable ((d.index + 1) % NUMBER_OF_EPOCH_BAGS)
      = (d.index + NUMBER_OF_EPOCH_BAGS - 5) % NUMBER_OF_EPOCH_BAGS := by
  show ((d.index + 1) % 9 + 3) % 9 = (d.index + 9 - 5) % 9
  omega

theorem exists_age (hj : j < NUMBER_OF_EPOCH_BAGS) (hindex : d.index < 9) :
    ∃ k < 9, d.epochbags j = d.bagOfAge k := by
  have hj' : j < 9 := hj
  refine ⟨(d.index + 9 - j) % 9, Nat.mod_lt _ (by omega), ?_⟩
  show d.epochbags j = d.epochbags ((d.index + 9 - (d.index + 9 - j) % 9) % 9)
  congr 1
  omega

/-- The bags besides the one in slot `j` after a change to that one. -/
theorem bagOfAge_update_ne {l : List α} (h : (d.index + 9 - k) % 9 ≠ j) :
    (d.setBag j l).bagOfAge k = d.bagOfAge k := by
  show Function.update d.epochbags j l ((d.index + 9 - k) % 9) = d.epochbags ((d.index + 9 - k) % 9)
  exact Function.update_of_ne h _ _

theorem bagOfAge_update_self {l : List α} (h : (d.index + 9 - k) % 9 = j) :
    (d.setBag j l).bagOfAge k = l := by
  show Function.update d.epochbags j l ((d.index + 9 - k) % 9) = l
  rw [h, Function.update_self]

end Ages

/-! ## §3. The history, and the reclaimer as a record manager. -/

structure Ghost (α : Type*) where
  /-- The epoch at the last announcement of a thread. -/
  openEpoch : Tid → ℕ
  /-- The epoch at which a record was last unlinked. -/
  stamp : α → ℕ
  /-- The operations that were open then and still are. -/
  pinned : α → Finset Tid

variable [DecidableEq α] (P : Params)

def Ghost.new : Ghost α := ⟨fun _ => 0, fun _ => 0, fun _ => ∅⟩

/-- The threads that are in an operation. -/
def operating (s : State α) : Finset Tid :=
  (Finset.range P.NUM_PROCESSES).filter fun t => s.pc t = .operating

/-- What a step of `startOp` adds to the history. -/
def Ghost.moved (s : State α) (g : Ghost α) (t : Tid) : Ghost α :=
  match s.pc t with
  | .announcing _ _ => { g with openEpoch := Function.update g.openEpoch t s.epoch }
  | _ => g

/-- What an action adds to the history. -/
def Ghost.after (s : State α) (g : Ghost α) : Action α → Ghost α
  | .step t => g.moved s t
  | .giveBack _ _ gone =>
      { g with
        stamp := fun a => if a ∈ gone then s.epoch else g.stamp a
        pinned := fun a => if a ∈ gone then operating P s else g.pinned a }
  | .endOp t => { g with pinned := fun a => (g.pinned a).erase t }
  | _ => g

/-- The reclaimer, seen as the record manager of the library. -/
def manager (s : State α) (g : Ghost α) : Manager Tid α where
  guards := operating P s
  calls := s.calls
  retired a := decide (a ∈ limbo P s)
  pinned := g.pinned

/-! ## §4. What an action can do. -/

/-- A step of `startOp` in which thread `t` changes its own data only, apart from
the bags. -/
inductive Move (s : State α) (t : Tid) : Pc → ThreadData α → Prop where
  | reopen {ro : Bool} (hpc : s.pc t = .quiescent)
      (heq : s.epoch = (s.threadData t).localvarAnnouncedEpoch) :
      Move s t (.announcing ro s.epoch)
        { s.threadData t with localvarAnnouncedEpoch := s.epoch }
  | newEpoch {ro : Bool} (hpc : s.pc t = .quiescent)
      (hne : s.epoch ≠ (s.threadData t).localvarAnnouncedEpoch) :
      Move s t (.rotating ro s.epoch (((s.threadData t).index + 1) % NUMBER_OF_EPOCH_BAGS))
        { s.threadData t with localvarAnnouncedEpoch := s.epoch, checked := 0 }
  | rotated {ro : Bool} {e i : ℕ} (hpc : s.pc t = .rotating ro e i)
      (hbag : (s.threadData t).epochbags (freeable i) = []) :
      Move s t (.announcing ro e) { s.threadData t with index := i, currentBag := some i }
  | announceOpen {ro : Bool} {e ops : ℕ} (hpc : s.pc t = .announcing ro e)
      (hops : ro = true ∧ ops = (s.threadData t).opsSinceRead
        ∨ ops = (s.threadData t).opsSinceRead + 1 ∧ ops ≠ P.MIN_OPS_BEFORE_READ) :
      Move s t .operating { s.threadData t with announcedEpoch := e, opsSinceRead := ops }
  | announceScan {ro : Bool} {e : ℕ} (hpc : s.pc t = .announcing ro e)
      (hops : (s.threadData t).opsSinceRead + 1 = P.MIN_OPS_BEFORE_READ) :
      Move s t (.scanning e) { s.threadData t with announcedEpoch := e, opsSinceRead := 0 }
  | scanMiss {e : ℕ} (hpc : s.pc t = .scanning e)
      (hno : ¬ (bitsEpoch (s.threadData (s.threadData t).checked).announcedEpoch = e
        ∨ isQuiescent (s.threadData (s.threadData t).checked).announcedEpoch = true)) :
      Move s t .operating (s.threadData t)
  | scanHit {e : ℕ} (hpc : s.pc t = .scanning e)
      (hlt : (s.threadData t).checked + 1 < P.NUM_PROCESSES)
      (hyes : bitsEpoch (s.threadData (s.threadData t).checked).announcedEpoch = e
        ∨ isQuiescent (s.threadData (s.threadData t).checked).announcedEpoch = true) :
      Move s t .operating { s.threadData t with checked := (s.threadData t).checked + 1 }
  | scanLast {e : ℕ} (hpc : s.pc t = .scanning e)
      (hge : P.NUM_PROCESSES ≤ (s.threadData t).checked + 1)
      (hyes : bitsEpoch (s.threadData (s.threadData t).checked).announcedEpoch = e
        ∨ isQuiescent (s.threadData (s.threadData t).checked).announcedEpoch = true) :
      Move s t (.advancing e) { s.threadData t with checked := (s.threadData t).checked + 1 }

/-- Everything an action can do. -/
inductive Effect (s : State α) (inUse : α → Bool) :
    Action α → State α → (α → Bool) → Prop where
  | start {t : Tid} {ro : Bool} {pc' : Pc} {d' : ThreadData α} (ht : t < P.NUM_PROCESSES)
      (h : Move P s t pc' d') (hpc : s.pc t = .quiescent)
      (hro : pc' = .announcing ro s.epoch ∨ ∃ i, pc' = .rotating ro s.epoch i) :
      Effect s inUse (.startOp t ro) ((s.setData t d').goto t pc') inUse
  | move {t : Tid} {pc' : Pc} {d' : ThreadData α} (h : Move P s t pc' d')
      (hpc : s.pc t ≠ .quiescent) :
      Effect s inUse (.step t) ((s.setData t d').goto t pc') inUse
  | free {t : Tid} {ro : Bool} {e i : ℕ} {ptr : α} {rest : List α}
      (hpc : s.pc t = .rotating ro e i)
      (hbag : (s.threadData t).epochbags (freeable i) = ptr :: rest) :
      Effect s inUse (.step t)
        (s.setData t ((s.threadData t).setBag (freeable i) rest))
        (Function.update inUse ptr false)
  | advance {t : Tid} {e : ℕ} (hpc : s.pc t = .advancing e) :
      Effect s inUse (.step t) (advance s t e) inUse
  | retire {t : Tid} {a : α} {rest : List (Call α)} {j : ℕ}
      (hcalls : s.calls t = .retire a :: rest) (hbag : (s.threadData t).currentBag = some j) :
      Effect s inUse (.step t)
        (({ s with calls := Function.update s.calls t rest } : State α).setData t
          ((s.threadData t).setBag j (a :: (s.threadData t).epochbags j)))
        inUse
  | deallocate {t : Tid} {a : α} {rest : List (Call α)}
      (hcalls : s.calls t = .deallocate a :: rest) :
      Effect s inUse (.step t) { s with calls := Function.update s.calls t rest }
        (Function.update inUse a false)
  | endOp {t : Tid} (hpc : s.pc t = .operating) (hcalls : s.calls t = []) :
      Effect s inUse (.endOp t)
        ((s.setData t { s.threadData t with
          announcedEpoch := getWithQuiescent (s.threadData t).localvarAnnouncedEpoch }).goto t
          .quiescent)
        inUse
  | allocate {a : α} (hfree : inUse a = false) :
      Effect s inUse (.allocate a) s (Function.update inUse a true)
  | giveBack {t : Tid} {cs : List (Call α)} {gone : List α} (hpc : s.pc t = .operating)
      (hcalls : s.calls t = []) :
      Effect s inUse (.giveBack t cs gone) { s with calls := Function.update s.calls t cs } inUse

variable {P} {s s' : State α} {inUse inUse' : α → Bool}

theorem announce_effect {t : Tid} {ro : Bool} {e : ℕ} (hpc : s.pc t = .announcing ro e) :
    Effect P s inUse (.step t) (announce P s t ro e) inUse := by
  have hne : s.pc t ≠ .quiescent := by
    rw [hpc]
    exact Pc.noConfusion
  unfold announce
  split
  · rename_i hro
    exact .move (.announceOpen hpc (Or.inl ⟨hro, rfl⟩)) hne
  · dsimp only
    split
    · rename_i hops
      exact .move (.announceScan hpc hops) hne
    · rename_i hops
      exact .move (.announceOpen hpc (Or.inr ⟨rfl, hops⟩)) hne

theorem scan_effect {t : Tid} {e : ℕ} (hpc : s.pc t = .scanning e) :
    Effect P s inUse (.step t) (scan P s t e) inUse := by
  have hne : s.pc t ≠ .quiescent := by
    rw [hpc]
    exact Pc.noConfusion
  unfold scan
  dsimp only
  split
  · rename_i hyes
    split
    · rename_i hge
      exact .move (.scanLast hpc hge hyes) hne
    · rename_i hlt
      exact .move (.scanHit hpc (Nat.lt_of_not_le hlt) hyes) hne
  · rename_i hno
    -- the data are as they were
    have hsame : s.setData t (s.threadData t) = s := by
      unfold State.setData
      rw [Function.update_eq_self]
    have heff : Effect P s inUse (.step t) ((s.setData t (s.threadData t)).goto t .operating) inUse :=
      .move (.scanMiss hpc hno) hne
    rw [hsame] at heff
    exact heff

/-- **Inversion**: every enabled action is one of the listed effects. -/
theorem next_effect {a : Action α} (h : next P (s, inUse) a = some (s', inUse')) :
    Effect P s inUse a s' inUse' := by
  cases a with
  | startOp t ro =>
      simp only [next, startOp, Option.map_eq_some_iff] at h
      obtain ⟨s₁, hs₁, heq⟩ := h
      obtain ⟨rfl, rfl⟩ := Prod.mk.inj heq
      split at hs₁
      · rename_i hcond
        split at hs₁
        · rename_i hne
          obtain rfl := Option.some.inj hs₁
          exact .start hcond.1 (.newEpoch hcond.2 hne) hcond.2 (Or.inr ⟨_, rfl⟩)
        · rename_i hsame
          obtain rfl := Option.some.inj hs₁
          exact .start hcond.1 (.reopen hcond.2 (not_not.mp hsame)) hcond.2 (Or.inl rfl)
      · exact absurd hs₁ (by simp)
  | step t =>
      simp only [next, step] at h
      split at h
      · rename_i c rest hcalls
        cases c with
        | retire a =>
            simp only [call, Option.map_eq_some_iff] at h
            obtain ⟨j, hbag, heq⟩ := h
            obtain ⟨rfl, rfl⟩ := Prod.mk.inj heq
            exact .retire hcalls hbag
        | deallocate a =>
            obtain ⟨rfl, rfl⟩ := Prod.mk.inj (Option.some.inj h)
            exact .deallocate hcalls
      · split at h
        · rename_i ro e i hpc
          split at h
          · rename_i ptr rest hbag
            obtain ⟨rfl, rfl⟩ := Prod.mk.inj (Option.some.inj h)
            exact .free hpc hbag
          · rename_i hbag
            obtain ⟨rfl, rfl⟩ := Prod.mk.inj (Option.some.inj h)
            exact .move (.rotated hpc hbag) (by rw [hpc]; exact Pc.noConfusion)
        · rename_i ro e hpc
          obtain ⟨rfl, rfl⟩ := Prod.mk.inj (Option.some.inj h)
          exact announce_effect hpc
        · rename_i e hpc
          obtain ⟨rfl, rfl⟩ := Prod.mk.inj (Option.some.inj h)
          exact scan_effect hpc
        · rename_i e hpc
          obtain ⟨rfl, rfl⟩ := Prod.mk.inj (Option.some.inj h)
          exact .advance hpc
        · exact absurd h (by simp)
  | endOp t =>
      simp only [next, endOp, Option.map_eq_some_iff] at h
      obtain ⟨s₁, hs₁, heq⟩ := h
      obtain ⟨rfl, rfl⟩ := Prod.mk.inj heq
      split at hs₁
      · rename_i hcond
        obtain rfl := Option.some.inj hs₁
        exact .endOp hcond.1 hcond.2
      · exact absurd hs₁ (by simp)
  | allocate a =>
      simp only [next] at h
      split at h
      · exact absurd h (by simp)
      · rename_i hfree
        obtain ⟨rfl, rfl⟩ := Prod.mk.inj (Option.some.inj h)
        exact .allocate (Bool.not_eq_true _ ▸ hfree)
  | giveBack t cs gone =>
      simp only [next, giveBack, Option.map_eq_some_iff] at h
      obtain ⟨s₁, hs₁, heq⟩ := h
      obtain ⟨rfl, rfl⟩ := Prod.mk.inj heq
      split at hs₁
      · rename_i hcond
        obtain rfl := Option.some.inj hs₁
        exact .giveBack hcond.1 hcond.2
      · exact absurd hs₁ (by simp)

/-! ## §5. One thread. -/

/-- The program points at which the announcement is that of an open operation. -/
def Pc.announced : Pc → Bool
  | .scanning _ | .advancing _ | .operating => true
  | _ => false

/-- The scan of the announcements has not passed the last thread, or the epoch it
was for is over. -/
def ThreadData.Scanned (n epoch : ℕ) (d : ThreadData α) : Prop :=
  d.checked < n ∨ d.checked = n ∧ d.localvarAnnouncedEpoch < epoch

/-- The thread has read an epoch, `localvarAnnouncedEpoch`. -/
def ThreadData.HasEpoch (epoch : ℕ) (d : ThreadData α) : Prop :=
  d.localvarAnnouncedEpoch % 2 = 0 ∧ d.localvarAnnouncedEpoch ≤ epoch

/-- What is known of a thread's data at each program point. -/
def Phase (n epoch : ℕ) (d : ThreadData α) : Pc → Prop
  | .quiescent =>
      d.announcedEpoch % 2 = 1
        ∧ (d.localvarAnnouncedEpoch = 1 ∧ d.checked = 0 ∧ (∀ j, d.epochbags j = [])
          ∨ d.HasEpoch epoch ∧ d.currentBag = some d.index ∧ d.Scanned n epoch)
  | .rotating _ readEpoch nextIndex =>
      d.announcedEpoch % 2 = 1 ∧ d.HasEpoch epoch ∧ readEpoch = d.localvarAnnouncedEpoch
        ∧ nextIndex = (d.index + 1) % NUMBER_OF_EPOCH_BAGS ∧ d.checked = 0
  | .announcing _ readEpoch =>
      d.announcedEpoch % 2 = 1 ∧ d.HasEpoch epoch ∧ readEpoch = d.localvarAnnouncedEpoch
        ∧ d.currentBag = some d.index ∧ d.checked < n
  | .scanning readEpoch =>
      d.announcedEpoch = d.localvarAnnouncedEpoch ∧ d.HasEpoch epoch
        ∧ readEpoch = d.localvarAnnouncedEpoch ∧ d.currentBag = some d.index ∧ d.checked < n
  | .advancing readEpoch =>
      d.announcedEpoch = d.localvarAnnouncedEpoch ∧ d.HasEpoch epoch
        ∧ readEpoch = d.localvarAnnouncedEpoch ∧ d.currentBag = some d.index ∧ d.checked = n
  | .operating =>
      d.announcedEpoch = d.localvarAnnouncedEpoch ∧ d.HasEpoch epoch
        ∧ d.currentBag = some d.index ∧ d.Scanned n epoch

/-- How old the records in the bags are.  Before the bags are rotated the thread's
epoch is already the new one. -/
def Aged (stamp : α → ℕ) (d : ThreadData α) : Pc → Prop
  | .rotating _ _ _ => ∀ k < 9, ∀ a ∈ d.bagOfAge k, stamp a + 2 * k ≤ d.localvarAnnouncedEpoch
  | _ => ∀ k, 1 ≤ k → k < 9 → ∀ a ∈ d.bagOfAge k, stamp a + 2 * k ≤ d.localvarAnnouncedEpoch + 2

structure ThreadInv (n epoch : ℕ) (stamp : α → ℕ) (pc : Pc) (d : ThreadData α) : Prop where
  index_lt : d.index < 9
  phase : Phase n epoch d pc
  aged : Aged stamp d pc
  /-- `NUMBER_OF_ALWAYS_EMPTY_EPOCH_BAGS` -/
  empty : ∀ k, 6 ≤ k → k < 9 → d.bagOfAge k = []

section ThreadInv

omit [DecidableEq α]

variable {n epoch epoch' : ℕ} {stamp stamp' : α → ℕ} {pc : Pc} {d : ThreadData α}

theorem new_threadInv : ThreadInv n epoch stamp .quiescent (.new : ThreadData α) where
  index_lt := Nat.zero_lt_succ 8
  phase := ⟨getWithQuiescent_odd 0, Or.inl ⟨rfl, rfl, fun _ => rfl⟩⟩
  aged _ _ _ _ ha := absurd ha List.not_mem_nil
  empty _ _ _ := rfl

/-- The epoch only grows. -/
theorem ThreadInv.mono (h : ThreadInv n epoch stamp pc d) (hle : epoch ≤ epoch') :
    ThreadInv n epoch' stamp pc d := by
  have hepoch : d.HasEpoch epoch → d.HasEpoch epoch' := fun h => ⟨h.1, h.2.trans hle⟩
  have hscan : d.Scanned n epoch → d.Scanned n epoch' :=
    Or.imp_right fun h => ⟨h.1, Nat.lt_of_lt_of_le h.2 hle⟩
  refine ⟨h.index_lt, ?_, h.aged, h.empty⟩
  have hphase := h.phase
  cases pc with
  | quiescent => exact ⟨hphase.1, hphase.2.imp_right fun h => ⟨hepoch h.1, h.2.1, hscan h.2.2⟩⟩
  | operating => exact ⟨hphase.1, hepoch hphase.2.1, hphase.2.2.1, hscan hphase.2.2.2⟩
  | _ => exact ⟨hphase.1, hepoch hphase.2.1, hphase.2.2⟩

/-- The stamps of the records in the bags are all that matters. -/
theorem ThreadInv.congr (h : ThreadInv n epoch stamp pc d)
    (hstamp : ∀ j < 9, ∀ a ∈ d.epochbags j, stamp' a = stamp a) :
    ThreadInv n epoch stamp' pc d := by
  have heq : ∀ k, ∀ a ∈ d.bagOfAge k, stamp' a = stamp a :=
    fun k a ha => hstamp _ (Nat.mod_lt _ (by decide)) a ha
  refine ⟨h.index_lt, h.phase, ?_, h.empty⟩
  have haged := h.aged
  cases pc with
  | rotating ro e i =>
      intro k hk a ha
      rw [heq k a ha]
      exact haged k hk a ha
  | _ =>
      intro k h₁ hk a ha
      rw [heq k a ha]
      exact haged k h₁ hk a ha

/-- Outside a rotation the ages depend on the bags and the thread's epoch only. -/
theorem Aged.of_eq {d' : ThreadData α} {pc' : Pc}
    (h : ∀ k, 1 ≤ k → k < 9 → ∀ a ∈ d.bagOfAge k, stamp a + 2 * k ≤ d.localvarAnnouncedEpoch + 2)
    (hbags : d'.epochbags = d.epochbags) (hindex : d'.index = d.index)
    (hlocal : d'.localvarAnnouncedEpoch = d.localvarAnnouncedEpoch)
    (hpc : ∀ ro e i, pc' ≠ .rotating ro e i) : Aged stamp d' pc' := by
  have hage : ∀ k, d'.bagOfAge k = d.bagOfAge k := by
    intro k
    unfold ThreadData.bagOfAge
    rw [hbags, hindex]
  have hall : ∀ k, 1 ≤ k → k < 9 → ∀ a ∈ d'.bagOfAge k,
      stamp a + 2 * k ≤ d'.localvarAnnouncedEpoch + 2 := by
    intro k h₁ hk a ha
    rw [hlocal]
    exact h k h₁ hk a (hage k ▸ ha)
  cases pc' with
  | rotating ro e i => exact absurd rfl (hpc ro e i)
  | _ => exact hall

/-- The thread's epoch moves on by an increment at least. -/
theorem HasEpoch.next (h : d.HasEpoch epoch) (heven : epoch % 2 = 0)
    (hne : epoch ≠ d.localvarAnnouncedEpoch) : d.localvarAnnouncedEpoch + 2 ≤ epoch := by
  obtain ⟨h₁, h₂⟩ := h
  omega

/-- When a new epoch is read, every record is a whole rotation older. -/
theorem ThreadInv.aging (h : ThreadInv n epoch stamp .quiescent d) (heven : epoch % 2 = 0)
    (hstamp : ∀ a, stamp a ≤ epoch) (hne : epoch ≠ d.localvarAnnouncedEpoch) :
    ∀ k < 9, ∀ a ∈ d.bagOfAge k, stamp a + 2 * k ≤ epoch := by
  intro k hk a ha
  rcases h.phase.2 with ⟨-, -, hbags⟩ | ⟨hepoch, -, -⟩
  · -- the thread's first operation
    have hnil : d.bagOfAge k = [] := hbags _
    rw [hnil] at ha
    exact absurd ha List.not_mem_nil
  · have hnext := HasEpoch.next hepoch heven hne
    rcases Nat.eq_zero_or_pos k with rfl | hpos
    · exact hstamp a
    · have hold := h.aged k hpos hk a ha
      omega

/-- The bags after the index has moved on. -/
theorem ThreadInv.rotated {ro : Bool} {e i : ℕ} (h : ThreadInv n epoch stamp (.rotating ro e i) d)
    (hbag : d.epochbags (freeable i) = []) (hn : 0 < n) :
    ThreadInv n epoch stamp (.announcing ro e)
      { d with index := i, currentBag := some i } := by
  obtain ⟨hquiet, hepoch, he, rfl, hchecked⟩ := h.phase
  have hindex := h.index_lt
  have hfive : d.bagOfAge 5 = [] := by
    rw [freeable_slot hindex] at hbag
    exact hbag
  refine ⟨Nat.mod_lt _ (by decide), ?_, ?_, ?_⟩
  · exact ⟨hquiet, hepoch, he, rfl, hchecked.symm ▸ hn⟩
  · intro k h₁ hk a ha
    obtain ⟨k, rfl⟩ := Nat.exists_eq_add_of_le' h₁
    rw [bagOfAge_rotate (by omega) hindex] at ha
    have hold := h.aged k (by omega) a ha
    show stamp a + 2 * (k + 1) ≤ d.localvarAnnouncedEpoch + 2
    omega
  · intro k h₁ hk
    obtain ⟨k, rfl⟩ := Nat.exists_eq_add_of_le' (show 1 ≤ k by omega)
    rw [bagOfAge_rotate (by omega) hindex]
    rcases Nat.lt_or_ge k 6 with hlt | hge
    · have hk5 : k = 5 := by omega
      rw [hk5]
      exact hfive
    · exact h.empty k hge (by omega)

end ThreadInv

omit [DecidableEq α] in
/-- **The steps inside `startOp` keep the facts about their thread.** -/
theorem Move.threadInv {P : Params} {s : State α} {t : Tid} {pc' : Pc} {d' : ThreadData α}
    {stamp : α → ℕ} (hm : Move P s t pc' d')
    (h : ThreadInv P.NUM_PROCESSES s.epoch stamp (s.pc t) (s.threadData t))
    (heven : s.epoch % 2 = 0) (hstamp : ∀ a, stamp a ≤ s.epoch) (hn : 0 < P.NUM_PROCESSES) :
    ThreadInv P.NUM_PROCESSES s.epoch stamp pc' d' := by
  have hphase := h.phase
  have haged := h.aged
  cases hm with
  | @reopen ro hpc heq =>
      rw [hpc] at hphase haged
      obtain ⟨hquiet, hor⟩ := hphase
      refine ⟨h.index_lt, ?_, ?_, h.empty⟩
      · rcases hor with ⟨hone, -, -⟩ | ⟨-, hbag, hscan⟩
        · -- no epoch is 1
          omega
        · refine ⟨hquiet, ⟨heven, Nat.le_refl _⟩, rfl, hbag, ?_⟩
          rcases hscan with hlt | ⟨-, hover⟩
          · exact hlt
          · omega
      · exact Aged.of_eq haged rfl rfl heq (fun _ _ _ => Pc.noConfusion)
  | @newEpoch ro hpc hne =>
      rw [hpc] at hphase
      refine ⟨h.index_lt, ⟨hphase.1, ⟨heven, Nat.le_refl _⟩, rfl, rfl, rfl⟩, ?_, h.empty⟩
      rw [hpc] at h
      exact h.aging heven hstamp hne
  | @rotated ro e i hpc hbag =>
      rw [hpc] at h
      exact h.rotated hbag hn
  | @announceOpen ro e ops hpc _ =>
      rw [hpc] at hphase haged
      obtain ⟨-, hepoch, he, hbag, hlt⟩ := hphase
      refine ⟨h.index_lt, ⟨he, hepoch, hbag, Or.inl hlt⟩, ?_, h.empty⟩
      exact Aged.of_eq haged rfl rfl rfl (fun _ _ _ => Pc.noConfusion)
  | @announceScan ro e hpc _ =>
      rw [hpc] at hphase haged
      obtain ⟨-, hepoch, he, hbag, hlt⟩ := hphase
      refine ⟨h.index_lt, ⟨he, hepoch, he, hbag, hlt⟩, ?_, h.empty⟩
      exact Aged.of_eq haged rfl rfl rfl (fun _ _ _ => Pc.noConfusion)
  | @scanMiss e hpc _ =>
      rw [hpc] at hphase haged
      obtain ⟨hann, hepoch, -, hbag, hlt⟩ := hphase
      exact ⟨h.index_lt, ⟨hann, hepoch, hbag, Or.inl hlt⟩, haged, h.empty⟩
  | @scanHit e hpc hlt _ =>
      rw [hpc] at hphase haged
      obtain ⟨hann, hepoch, -, hbag, -⟩ := hphase
      exact ⟨h.index_lt, ⟨hann, hepoch, hbag, Or.inl hlt⟩, haged, h.empty⟩
  | @scanLast e hpc hge _ =>
      rw [hpc] at hphase haged
      obtain ⟨hann, hepoch, he, hbag, hlt⟩ := hphase
      exact ⟨h.index_lt, ⟨hann, hepoch, he, hbag, Nat.le_antisymm hlt hge⟩, haged, h.empty⟩

end MultiCore.Debra
