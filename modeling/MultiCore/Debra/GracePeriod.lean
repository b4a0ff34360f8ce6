/-
  MultiCore.Debra.GracePeriod — the reclaimer is safe.

  What the invariant says about the runs of any program that keeps its promise:

    * `grace_period` — a record is not freed while an operation is open that was
      open when the record was unlinked;
    * `freed_once` — a record that is freed is in use, and in no other bag;
    * `retired_eq_freed_add` — no retired record is lost;
    * `destroy_frees` — the destructor frees what is left, everything once;
    * `epoch_once` — the epoch advances at most once while an operation is open;
    * `accesses_in_bounds` — a scan never looks behind the last thread, although
      nothing resets `checked` when the last announcement has been read, and
      `retire` never finds `currentBag` to be `NULL`.
-/
import MultiCore.Debra.Steps
import Mathlib.Algebra.BigOperators.Group.Finset.Sigma

namespace MultiCore.Debra

open MultiCore.Lib MultiCore.Lib.Reclamation

variable {α : Type*} [DecidableEq α] {P : Params}

/-! ## §1. Runs. -/

/-- The history of a state that a run has reached. -/
theorem exists_history {inUse : α → Bool} {s : State α × (α → Bool)}
    (h : Reach (system P inUse) (Promise P) s) : ∃ g, Inv P s.1 s.2 g := by
  induction h with
  | init => exact ⟨.new, new_inv⟩
  | @step s s' a _ hpromise hnext ih =>
      obtain ⟨g, hinv⟩ := ih
      exact ⟨g.after P s.1 a, hinv.step hnext hpromise⟩

section History

variable {s s' : State α} {inUse inUse' : α → Bool} {g : Ghost α} {p : Tid} {x : α}
  {a : Action α}

/-- The records that an action unlinks. -/
def unlinks (x : α) : Action α → Bool
  | .giveBack _ _ gone => decide (x ∈ gone)
  | _ => false

/-- The record that the step frees, out of an epoch bag. -/
def freed (s : State α) : Action α → Option α
  | .step t =>
      match s.calls t, s.pc t with
      | [], .rotating _ _ nextIndex => ((s.threadData t).epochbags (freeable nextIndex)).head?
      | _, _ => none
  | _ => none

/-- The record that the step puts into an epoch bag. -/
def retired (s : State α) : Action α → Option α
  | .step t =>
      match s.calls t with
      | .retire a :: _ => some a
      | _ => none
  | _ => none

omit [DecidableEq α] in
/-- What a step that frees `x` finds. -/
theorem freed_cases (h : freed s a = some x) : ∃ t ro e i rest, a = .step t ∧ s.calls t = []
    ∧ s.pc t = .rotating ro e i ∧ (s.threadData t).epochbags (freeable i) = x :: rest := by
  cases a with
  | step t =>
      simp only [freed] at h
      split at h
      · rename_i hcalls hpc
        obtain ⟨rest, hbag⟩ := List.head?_eq_some_iff.mp h
        exact ⟨t, _, _, _, rest, rfl, hcalls, hpc, hbag⟩
      · exact absurd h (by simp)
  | startOp | endOp | allocate | giveBack => exact absurd h (by simp [freed])

/-- Who is in an operation stays in it until `endOp`. -/
theorem Effect.operating (he : Effect P s inUse a s' inUse') (hp : s.pc p = .operating)
    (hne : a ≠ .endOp p) : s'.pc p = .operating := by
  have hother : ∀ {t : Tid} {pc' : Pc}, s.pc t ≠ .operating →
      Function.update s.pc t pc' p = .operating := by
    intro t pc' ht
    rw [Function.update_of_ne]
    · exact hp
    · rintro rfl
      exact ht hp
  cases he with
  | start _ hm => exact hother hm.not_operating
  | move hm => exact hother hm.not_operating
  | advance hpc => exact hother (by rw [hpc]; exact Pc.noConfusion)
  | @endOp t hpc _ =>
      show Function.update s.pc t .quiescent p = .operating
      rw [Function.update_of_ne]
      · exact hp
      · rintro rfl
        exact hne rfl
  | free | retire | deallocate | allocate | giveBack => exact hp

/-- The announcement of an operation stands until `endOp`. -/
theorem Ghost.after_openEpoch (hp : s.pc p = .operating) :
    (g.after P s a).openEpoch p = g.openEpoch p := by
  cases a with
  | step t =>
      by_cases hpt : p = t
      · have hsame : g.after P s (.step t) = g :=
          Ghost.moved_of_ne fun ro e hpc => Pc.noConfusion ((hpt ▸ hp).symm.trans hpc)
        rw [hsame]
      · exact Ghost.moved_other hpt
  | startOp | endOp | allocate | giveBack => rfl

/-- What an operation pins it pins until `endOp`. -/
theorem Inv.after_pinned (h : Inv P s inUse g) (hp : p ∈ g.pinned x) (hne : a ≠ .endOp p) :
    p ∈ (g.after P s a).pinned x := by
  cases a with
  | step t =>
      show p ∈ (g.moved s t).pinned x
      rw [Ghost.moved_pinned]
      exact hp
  | endOp t =>
      have hpt : p ≠ t := by
        rintro rfl
        exact hne rfl
      exact Finset.mem_erase.mpr ⟨hpt, hp⟩
  | giveBack t cs gone =>
      show p ∈ if x ∈ gone then Debra.operating P s else g.pinned x
      split
      · exact h.ok.pinned_open x hp
      · exact hp
  | startOp | allocate => exact hp

/-- Who is in an operation when a record is unlinked pins it. -/
theorem Inv.pins (h : Inv P s inUse g) (hp : s.pc p = .operating) (hx : unlinks x a = true) :
    p ∈ (g.after P s a).pinned x := by
  cases a with
  | giveBack t cs gone =>
      show p ∈ if x ∈ gone then Debra.operating P s else g.pinned x
      rw [if_pos (of_decide_eq_true hx)]
      exact mem_operating.mpr ⟨h.lt_of_ne (by rw [hp]; exact Pc.noConfusion), hp⟩
  | startOp | step | endOp | allocate => exact absurd hx (by simp [unlinks])

end History

/-! ## §2. Safety. -/

section Runs

variable {inUse : α → Bool} (r : Run (system P inUse))

/-- **Grace period**: a record is not freed while an operation is open that was
open when the record was unlinked. -/
theorem grace_period (hpromise : ∀ i < r.len, Promise P (r.state i) (r.act i)) {p : Tid} {x : α}
    {i n : ℕ} (hin : i < n) (hn : n < r.len) (hgone : unlinks x (r.act i) = true)
    (hop : (r.state i).1.pc p = .operating)
    (hstay : ∀ j, i < j → j < n → r.act j ≠ .endOp p) :
    freed (r.state n).1 (r.act n) ≠ some x := by
  have hpin : ∃ g, Inv P (r.state n).1 (r.state n).2 g ∧ (i < n → p ∈ g.pinned x) := by
    refine r.invariant (P := fun k s => ∃ g, Inv P s.1 s.2 g ∧ (i < k → p ∈ g.pinned x))
      ⟨.new, new_inv, fun h => absurd h (Nat.not_lt_zero i)⟩ (Nat.le_of_lt hn) ?_
    intro j hjn hj hbefore
    obtain ⟨g, hinv, hold⟩ := hbefore
    refine ⟨g.after P (r.state j).1 (r.act j), hinv.step (r.step j hj) (hpromise j hj), ?_⟩
    intro hij
    rcases Nat.lt_or_eq_of_le (Nat.le_of_lt_succ hij) with hlt | rfl
    · exact hinv.after_pinned (hold hlt) (hstay j hlt hjn)
    · exact hinv.pins hop hgone
  obtain ⟨g, hinv, hold⟩ := hpin
  intro hfree
  obtain ⟨t, ro, e, k, rest, -, -, hpc, hbag⟩ := freed_cases hfree
  have hempty : g.pinned x = ∅ := hinv.unpinned hpc (by rw [hbag]; exact List.mem_cons_self)
  have hmem := hold hin
  rw [hempty] at hmem
  exact absurd hmem (Finset.notMem_empty p)

/-- Thread 1 is in an operation while thread 0 retires record 7, closes its
operation and opens another one. -/
def overlapping : List (Action ℕ) :=
  [.startOp 1 true, .step 1, .step 1, .startOp 0 false, .step 0, .step 0, .step 0,
    .giveBack 0 [.retire 7] [7], .step 0, .endOp 0, .startOp 0 false, .step 0, .step 0, .step 0,
    .endOp 0, .startOp 0 false, .step 0]

def overlappingRun : Run (system ⟨2, 1, Nat.one_pos⟩ fun _ : ℕ => true) :=
  Run.ofActions _ overlapping (.step 0) (by decide +kernel)

theorem overlapping_promise : ∀ i < overlappingRun.len,
    Promise ⟨2, 1, Nat.one_pos⟩ (overlappingRun.state i) (overlappingRun.act i) := fun _ hi =>
  of_decide_eq_true (Run.check_ofActions (c := fun s a => decide (Promise ⟨2, 1, Nat.one_pos⟩ s a))
    (f := fun _ => true) _ _ (by decide +kernel) hi)

theorem grace_period_overlapping :
    freed (overlappingRun.state 16).1 (overlappingRun.act 16) ≠ some 7 := by
  have hstay : ∀ j < 16, 7 < j → overlappingRun.act j ≠ .endOp 1 := by decide +kernel
  exact grace_period overlappingRun overlapping_promise (p := 1) (i := 7) (by decide) (by decide)
    (by decide) (by decide +kernel) fun j h₁ h₂ => hstay j h₂ h₁

/-- **The epoch advances at most once while an operation is open.** -/
theorem epoch_once (hpromise : ∀ i < r.len, Promise P (r.state i) (r.act i)) {p : Tid} {i n : ℕ}
    (hin : i ≤ n) (hn : n ≤ r.len) (hop : (r.state i).1.pc p = .operating)
    (hstay : ∀ j, i ≤ j → j < n → r.act j ≠ .endOp p) :
    (r.state n).1.epoch ≤ (r.state i).1.epoch + EPOCH_INCREMENT := by
  have hopen : ∃ g, Inv P (r.state n).1 (r.state n).2 g
      ∧ (i ≤ n → (r.state n).1.pc p = .operating ∧ g.openEpoch p ≤ (r.state i).1.epoch) := by
    refine r.invariant
      (P := fun k s => ∃ g, Inv P s.1 s.2 g
        ∧ (i ≤ k → s.1.pc p = .operating ∧ g.openEpoch p ≤ (r.state i).1.epoch)) ?_ hn ?_
    · refine ⟨.new, new_inv, fun hi => ?_⟩
      obtain rfl : i = 0 := Nat.le_zero.mp hi
      rw [r.start] at hop
      exact absurd hop (by simp [system, State.new])
    · intro j hjn hj hbefore
      obtain ⟨g, hinv, hold⟩ := hbefore
      have hnext := r.step j hj
      have hinv' := hinv.step hnext (hpromise j hj)
      refine ⟨g.after P (r.state j).1 (r.act j), hinv', fun hij => ?_⟩
      rcases Nat.lt_or_eq_of_le hij with hlt | heq
      · have hle : i ≤ j := Nat.le_of_lt_succ hlt
        obtain ⟨hp, hle'⟩ := hold hle
        refine ⟨(next_effect hnext).operating hp (hstay j hle hjn), ?_⟩
        rw [Ghost.after_openEpoch hp]
        exact hle'
      · -- the operation is open at time `i`, so it was announced before
        rw [← heq] at hinv' ⊢
        exact ⟨hop, (hinv'.opened p (by rw [hop]; rfl)).le⟩
  obtain ⟨g, hinv, hold⟩ := hopen
  obtain ⟨hp, hle⟩ := hold hin
  have honce := (hinv.opened p (by rw [hp]; rfl)).once
  show (r.state n).1.epoch ≤ (r.state i).1.epoch + 2
  omega

/-- It does advance once: thread 0 finds the announcement of thread 1 up to date. -/
theorem epoch_once_overlapping :
    (overlappingRun.state 3).1.epoch = 0 ∧ (overlappingRun.state 17).1.epoch = 2
      ∧ (overlappingRun.state 17).1.epoch ≤ (overlappingRun.state 3).1.epoch + EPOCH_INCREMENT := by
  have hstay : ∀ j < 17, 3 ≤ j → overlappingRun.act j ≠ .endOp 1 := by decide +kernel
  refine ⟨by decide +kernel, by decide +kernel, ?_⟩
  exact epoch_once overlappingRun overlapping_promise (p := 1) (by decide) (by decide)
    (by decide +kernel) fun j h₁ h₂ => hstay j h₂ h₁

end Runs

/-! ## §3. No record is lost, and none is freed twice. -/

section Records

variable {inUse : α → Bool}

/-- **A record that is freed is in use, and in no bag afterwards.** -/
theorem freed_once {s s' : State α × (α → Bool)} (h : Reach (system P inUse) (Promise P) s)
    {a : Action α} {x : α} (hfree : freed s.1 a = some x)
    (hnext : (system P inUse).next s a = some s') :
    s.2 x = true ∧ s'.2 x = false ∧ x ∉ limbo P s'.1 := by
  obtain ⟨g, hinv⟩ := exists_history h
  obtain ⟨t, ro, e, i, rest, rfl, hcalls, hpc, hbag⟩ := freed_cases hfree
  have ht := hinv.lt_of_ne (by rw [hpc]; exact Pc.noConfusion)
  have hpop := limbo_pop ht (show freeable i < NUMBER_OF_EPOCH_BAGS from Nat.mod_lt _ (by decide))
    hbag
  have hstate : s' = (s.1.setData t ((s.1.threadData t).setBag (freeable i) rest),
      Function.update s.2 x false) := by
    have hstep : next P s (.step t) = some s' := hnext
    simp only [next, step, hcalls, hpc, hbag] at hstep
    exact (Option.some.inj hstep).symm
  rw [hstate]
  refine ⟨?_, Function.update_self _ _ _, ?_⟩
  · apply hinv.ok.retired_inUse x
    show decide (x ∈ limbo P s.1) = true
    rw [hpop, decide_eq_true_eq]
    exact Multiset.mem_cons_self _ _
  · have hnodup := hinv.nodup
    rw [hpop, Multiset.nodup_cons] at hnodup
    exact hnodup.1

/-- One operation of the only thread. -/
def aloneOp (body : List (Action ℕ)) : List (Action ℕ) :=
  [.startOp 0 false, .step 0, .step 0, .step 0, .step 0] ++ body ++ [.endOp 0]

/-- The only thread retires record 7 in its first operation, and is about to free
it in its seventh. -/
def alone : List (Action ℕ) :=
  aloneOp [.giveBack 0 [.retire 7] [7], .step 0] ++ aloneOp [] ++ aloneOp [] ++ aloneOp []
    ++ aloneOp [] ++ aloneOp [] ++ [.startOp 0 false]

def aloneState : State ℕ × (ℕ → Bool) := (system ⟨1, 1, Nat.one_pos⟩ fun _ => true).after alone

theorem alone_reach :
    Reach (system ⟨1, 1, Nat.one_pos⟩ fun _ => true) (Promise ⟨1, 1, Nat.one_pos⟩) aloneState
      ∧ decide (freed aloneState.1 (.step 0) = some 7) = true :=
  Sys.reach_of_check _ (c := fun s a => decide (Promise ⟨1, 1, Nat.one_pos⟩ s a))
    (f := fun s => decide (freed s.1 (.step 0) = some 7)) (fun _ _ h => of_decide_eq_true h) alone
    (by decide +kernel)

theorem freed_once_alone : ∃ s', next ⟨1, 1, Nat.one_pos⟩ aloneState (.step 0) = some s'
    ∧ aloneState.2 7 = true ∧ s'.2 7 = false ∧ 7 ∉ limbo ⟨1, 1, Nat.one_pos⟩ s'.1 := by
  have hsome : (next ⟨1, 1, Nat.one_pos⟩ aloneState (.step 0)).isSome = true := by decide +kernel
  obtain ⟨s', hs'⟩ := Option.isSome_iff_exists.mp hsome
  exact ⟨s', hs', freed_once alone_reach.1 (of_decide_eq_true alone_reach.2) hs'⟩

/-- `getSizeInNodes` -/
def getSizeInNodes (P : Params) (s : State α) : ℕ :=
  ((List.range P.NUM_PROCESSES).map fun tid =>
    ((List.range NUMBER_OF_EPOCH_BAGS).map fun j =>
      ((s.threadData tid).epochbags j).length).sum).sum

omit [DecidableEq α] in
theorem getSizeInNodes_eq (s : State α) : getSizeInNodes P s = Multiset.card (limbo P s) := by
  unfold limbo slots getSizeInNodes
  rw [card_contents, Finset.sum_product]
  rfl

/-- What a step takes out of the bags, and what it puts in. -/
theorem Inv.limbo_step {s s' : State α} {inUse inUse' : α → Bool} {g : Ghost α} {a : Action α}
    (h : Inv P s inUse g) (he : Effect P s inUse a s' inUse') :
    limbo P s' + (freed s a).elim 0 ({·}) = limbo P s + (retired s a).elim 0 ({·}) := by
  -- most steps do neither
  have hquiet : limbo P s' = limbo P s → freed s a = none → retired s a = none →
      limbo P s' + (freed s a).elim 0 ({·}) = limbo P s + (retired s a).elim 0 ({·}) := by
    intro hlimbo hfreed hretired
    rw [hfreed, hretired, hlimbo]
  have hstep : ∀ {t}, s.calls t = [] → retired s (.step t) = none := by
    intro t hcalls
    simp only [retired, hcalls]
  cases he with
  | start _ hm _ _ => exact hquiet hm.limbo rfl rfl
  | @move t pc' d' hm hpc =>
      have hcalls := h.calls_nil hm.not_operating
      refine hquiet hm.limbo ?_ (hstep hcalls)
      cases hm with
      | rotated hpc' hbag => simp only [freed, hcalls, hpc', hbag, List.head?_nil]
      | reopen hpc' | newEpoch hpc' => exact absurd hpc' hpc
      | announceOpen hpc' | announceScan hpc' | scanMiss hpc' | scanHit hpc' | scanLast hpc' =>
          simp only [freed, hcalls, hpc']
  | @free t ro e i ptr rest hpc hbag =>
      have hcalls := h.calls_nil (t := t) (by rw [hpc]; exact Pc.noConfusion)
      have ht := h.lt_of_ne (t := t) (by rw [hpc]; exact Pc.noConfusion)
      have hfreed : freed s (.step t) = some ptr := by
        simp only [freed, hcalls, hpc, hbag, List.head?_cons]
      have hj : freeable i < NUMBER_OF_EPOCH_BAGS := Nat.mod_lt _ (by decide)
      rw [hfreed, hstep hcalls, limbo_pop ht hj hbag]
      simp only [Option.elim, add_zero]
      rw [add_comm, Multiset.singleton_add]
  | @advance t e hpc =>
      have hcalls := h.calls_nil (t := t) (by rw [hpc]; exact Pc.noConfusion)
      refine hquiet rfl ?_ (hstep hcalls)
      simp only [freed, hcalls, hpc]
  | @retire t b rest j hcalls hbag =>
      have hfreed : freed s (.step t) = none := by simp only [freed, hcalls]
      have hretired : retired s (.step t) = some b := by simp only [retired, hcalls]
      rw [hfreed, hretired, (h.limbo_retire hcalls hbag rfl).2.1]
      simp only [Option.elim, add_zero]
      rw [add_comm, Multiset.singleton_add]
  | @deallocate t b rest hcalls =>
      refine hquiet rfl ?_ ?_
      · simp only [freed, hcalls]
      · simp only [retired, hcalls]
  | endOp => exact hquiet (manager_endOp (g := g) rfl).1 rfl rfl
  | allocate => exact hquiet rfl rfl rfl
  | giveBack => exact hquiet rfl rfl rfl

/-- **No retired record is lost**: of any kind of records, as many have been freed
or are in a bag as have been retired. -/
theorem retired_eq_freed_add (r : Run (system P inUse))
    (hpromise : ∀ i < r.len, Promise P (r.state i) (r.act i)) (kind : α → Bool) {n : ℕ}
    (hn : n ≤ r.len) :
    r.count (fun s a => (retired s.1 a).any kind) n
      = r.count (fun s a => (freed s.1 a).any kind) n
        + (limbo P (r.state n).1).countP (kind · = true) := by
  induction n with
  | zero =>
      rw [r.start]
      show 0 = 0 + (limbo P (.new : State α)).countP _
      rw [new_limbo, Multiset.countP_zero]
  | succ n ih =>
      obtain ⟨g, hinv⟩ := exists_history (r.reach hpromise (Nat.le_of_lt hn))
      have heff : Effect P (r.state n).1 (r.state n).2 (r.act n) (r.state (n + 1)).1
          (r.state (n + 1)).2 := next_effect (r.step n hn)
      have hlimbo := congrArg (Multiset.countP (kind · = true)) (hinv.limbo_step heff)
      rw [Multiset.countP_add, Multiset.countP_add] at hlimbo
      -- a step counts when its record is of the kind
      have hone : ∀ o : Option α, Multiset.countP (kind · = true) (o.elim 0 ({·}))
          = if o.any kind = true then 1 else 0 := by
        intro o
        cases o with
        | none => rfl
        | some x =>
            show Multiset.countP (kind · = true) (x ::ₘ 0) = _
            rw [Multiset.countP_cons, Multiset.countP_zero]
            simp
      rw [hone, hone] at hlimbo
      have hbefore := ih (Nat.le_of_lt hn)
      simp only [Run.count]
      omega

theorem retired_eq_freed_add_overlapping :
    overlappingRun.count (fun s a => (retired s.1 a).any fun _ => true) 17
      = overlappingRun.count (fun s a => (freed s.1 a).any fun _ => true) 17
        + (limbo ⟨2, 1, Nat.one_pos⟩ (overlappingRun.state 17).1).countP fun _ => True := by
  have h := retired_eq_freed_add overlappingRun overlapping_promise (fun _ => true)
    (n := 17) (by decide)
  simpa using h

/-- `deallocateAndClear`; `none` when a record is not in use. -/
def deallocateAndClear : List α → (α → Bool) → Option (α → Bool)
  | [], inUse => some inUse
  | ptr :: bag, inUse =>
      if inUse ptr = true then deallocateAndClear bag (Function.update inUse ptr false) else none

/-- `~reclaimer_debra` -/
def destroy (P : Params) (s : State α) (inUse : α → Bool) : Option (α → Bool) :=
  (List.range P.NUM_PROCESSES).foldlM (fun inUse tid =>
    (List.range NUMBER_OF_EPOCH_BAGS).foldlM (fun inUse i =>
      deallocateAndClear ((s.threadData tid).epochbags i) inUse) inUse) inUse

theorem deallocateAndClear_append (l₁ l₂ : List α) (inUse : α → Bool) :
    deallocateAndClear (l₁ ++ l₂) inUse
      = (deallocateAndClear l₁ inUse).bind (deallocateAndClear l₂) := by
  induction l₁ generalizing inUse with
  | nil => rfl
  | cons ptr l₁ ih =>
      show (if inUse ptr = true then _ else none) = Option.bind (if inUse ptr = true then _ else none) _
      split
      · exact ih _
      · rfl

/-- Bag after bag is the same as one large bag. -/
theorem foldlM_deallocateAndClear {ι : Type*} (l : List ι) (f : ι → List α) (inUse : α → Bool) :
    l.foldlM (fun inUse i => deallocateAndClear (f i) inUse) inUse
      = deallocateAndClear (l.flatMap f) inUse := by
  induction l generalizing inUse with
  | nil => rfl
  | cons i l ih =>
      rw [List.foldlM_cons, List.flatMap_cons, deallocateAndClear_append]
      show Option.bind _ _ = Option.bind _ _
      exact congrArg _ (funext fun inUse => ih inUse)

/-- Different records in use can all be deallocated. -/
theorem deallocateAndClear_eq {l : List α} (hl : l.Nodup) (huse : ∀ a ∈ l, inUse a = true) :
    deallocateAndClear l inUse = some fun a => inUse a && decide (a ∉ l) := by
  induction l generalizing inUse with
  | nil => simp [deallocateAndClear]
  | cons ptr l ih =>
      have hptr : ptr ∉ l := (List.nodup_cons.mp hl).1
      show (if inUse ptr = true then _ else none) = _
      rw [if_pos (huse ptr List.mem_cons_self), ih (List.nodup_cons.mp hl).2]
      · congr 1
        funext a
        rw [Function.update_apply]
        by_cases ha : a = ptr
        · simp [ha]
        · simp [ha]
      · intro a ha
        have hne : a ≠ ptr := by
          rintro rfl
          exact hptr ha
        rw [Function.update_of_ne hne]
        exact huse a (List.mem_cons_of_mem ptr ha)

/-- **The destructor frees what is in the bags**, everything once, and nothing
else. -/
theorem destroy_frees {s : State α × (α → Bool)} (h : Reach (system P inUse) (Promise P) s) :
    destroy P s.1 s.2 = some fun a => s.2 a && decide (a ∉ limbo P s.1) := by
  obtain ⟨g, hinv⟩ := exists_history h
  have hall : ((List.range P.NUM_PROCESSES).flatMap fun tid =>
      (List.range NUMBER_OF_EPOCH_BAGS).flatMap (s.1.threadData tid).epochbags : List α)
        = limbo P s.1 := by
    unfold limbo slots contents
    rw [Finset.sum_product]
    rw [coe_flatMap_range]
    exact Finset.sum_congr rfl fun tid _ => coe_flatMap_range _ _
  have hnodup := hinv.nodup
  rw [← hall, Multiset.coe_nodup] at hnodup
  have hmem : ∀ a, a ∈ ((List.range P.NUM_PROCESSES).flatMap fun tid =>
      (List.range NUMBER_OF_EPOCH_BAGS).flatMap (s.1.threadData tid).epochbags)
        ↔ a ∈ limbo P s.1 := by
    intro a
    rw [← hall, Multiset.mem_coe]
  unfold destroy
  simp only [foldlM_deallocateAndClear]
  rw [deallocateAndClear_eq hnodup]
  · simp only [hmem]
  · intro a ha
    apply hinv.ok.retired_inUse a
    exact decide_eq_true ((hmem a).mp ha)

theorem destroy_frees_alone :
    destroy ⟨1, 1, Nat.one_pos⟩ aloneState.1 aloneState.2
      = some fun a => aloneState.2 a && decide (a ∉ limbo ⟨1, 1, Nat.one_pos⟩ aloneState.1) :=
  destroy_frees alone_reach.1

end Records

/-! ## §4. Accesses. -/

/-- **A scan reads the announcement of a thread there is, and `retire` has a
bag.** -/
theorem accesses_in_bounds {inUse : α → Bool} {s : State α × (α → Bool)}
    (h : Reach (system P inUse) (Promise P) s) (t : Tid) :
    (∀ e, s.1.pc t = .scanning e → (s.1.threadData t).checked < P.NUM_PROCESSES)
      ∧ (s.1.calls t ≠ [] → ∃ j < NUMBER_OF_EPOCH_BAGS, (s.1.threadData t).currentBag = some j) := by
  obtain ⟨g, hinv⟩ := exists_history h
  constructor
  · intro e hpc
    have hphase := (hinv.thread t (hinv.lt_of_ne (by rw [hpc]; exact Pc.noConfusion))).phase
    rw [hpc] at hphase
    exact hphase.2.2.2.2
  · intro hcalls
    have hpc := hinv.busy t hcalls
    have hthread := hinv.thread t (hinv.lt_of_ne (by rw [hpc]; exact Pc.noConfusion))
    rw [hpc] at hthread
    exact ⟨_, hthread.index_lt, hthread.phase.2.2.1⟩

/-- Thread 1 is about to retire record 7, and thread 0 scans the announcements. -/
def scanningActions : List (Action ℕ) :=
  [.startOp 1 false, .step 1, .step 1, .step 1, .giveBack 1 [.retire 7] [7],
    .startOp 0 false, .step 0, .step 0]

theorem accesses_in_bounds_scanning : ∃ s : State ℕ × (ℕ → Bool),
    s.1.pc 0 = .scanning 0 ∧ s.1.calls 1 = [.retire 7]
      ∧ (s.1.threadData 0).checked < 2
      ∧ ∃ j < NUMBER_OF_EPOCH_BAGS, (s.1.threadData 1).currentBag = some j := by
  have hcheck := Sys.reach_of_check (system ⟨2, 1, Nat.one_pos⟩ fun _ : ℕ => true)
    (c := fun s a => decide (Promise ⟨2, 1, Nat.one_pos⟩ s a))
    (f := fun s => decide (s.1.pc 0 = .scanning 0 ∧ s.1.calls 1 = [.retire 7]))
    (fun _ _ h => of_decide_eq_true h) scanningActions (by decide +kernel)
  obtain ⟨hreach, hstate⟩ := hcheck
  obtain ⟨hscan, hcalls⟩ := of_decide_eq_true hstate
  refine ⟨_, hscan, hcalls, (accesses_in_bounds hreach 0).1 0 hscan,
    (accesses_in_bounds hreach 1).2 ?_⟩
  rw [hcalls]
  exact List.cons_ne_nil _ _

end MultiCore.Debra
