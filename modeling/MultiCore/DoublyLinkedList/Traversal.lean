/-
  MultiCore.DoublyLinkedList.Traversal — the answers of unvalidated
  traversals.

  `internalSearch` never looks at `mark` and may walk through nodes that are
  already erased.  Two facts make its answers right all the same:

    * `next` of a node that is off the list is frozen (`frozen_next`);
    * hence every node a call has visited was on the list at some instant of
      the call, with the `next` it has now (`once_onList_next`).

  So when the search stops at the pair `(pred, succ)`, there was an instant of
  the call at which `pred` was on the list and `succ` was the node behind it.
-/
import MultiCore.DoublyLinkedList.Invariant

namespace MultiCore.DoublyLinkedList

open MultiCore.Lib MultiCore.Kcas

/-! ## §1. A node that is off the list is frozen. -/

theorem published_step {P : Params} {s s' : State} {c : List Addr} {p : Tid} {a : Addr}
    (h : Inv P s c) (he : Effect P s p s') (ha : Published s a) :
    Published s' a ∧ s'.val a = s.val a := by
  cases he with
  | move hm =>
      obtain ⟨h₁, h₂⟩ := hm.privateNode_eq
      exact ⟨(published_goto rfl rfl h₁ h₂ a).mpr ha, rfl⟩
  | alloc hpc hval hnull hfree =>
      next key pred succ n =>
      have hne : a ≠ n := by
        rintro rfl
        exact absurd ha.1 (by rw [hfree]; simp)
      refine ⟨⟨?_, fun q hq => ?_⟩, ?_⟩
      · simpa [State.initNode, hne] using ha.1
      · rw [goto_thread] at hq
        split at hq
        · exact hne (by simpa [Pc.privateNode] using hq.symm)
        · exact ha.2 q hq
      · simp [State.initNode, hne]
  | insertRetry hpc =>
      next key pred succ n =>
      have hne : a ≠ n := (h.private_node (q := p) (by rw [hpc]; rfl)).2.2 a ha
      refine ⟨⟨?_, fun q hq => ?_⟩, rfl⟩
      · simpa [hne] using ha.1
      · rw [goto_thread] at hq
        split at hq
        · exact absurd hq (by simp [Pc.privateNode])
        · exact ha.2 q hq
  | insert hpc hm =>
      refine ⟨⟨ha.1, fun q hq => ?_⟩, rfl⟩
      rw [goto_thread] at hq
      split at hq
      · exact absurd hq (by simp [Pc.privateNode])
      · exact ha.2 q hq
  | erase hpc hm =>
      refine ⟨⟨ha.1, fun q hq => ?_⟩, rfl⟩
      rw [goto_thread] at hq
      split at hq
      · exact absurd hq (by simp [Pc.privateNode])
      · exact ha.2 q hq

/-- **Frozen**: a step changes `next` only of a node that stays on the list. -/
theorem frozen_next {P : Params} {s s' : State} {c : List Addr} {p : Tid} {a : Addr}
    (h : Inv P s c) (he : Effect P s p s') (ha : Published s a) (hoff : ¬ OnList s' a) :
    s'.word (a, .next) = s.word (a, .next) := by
  cases he with
  | move _ => rfl
  | alloc hpc hval hnull hfree =>
      next key pred succ n =>
      have hne : a ≠ n := by
        rintro rfl
        exact absurd ha.1 (by rw [hfree]; simp)
      simp [State.initNode, hne]
  | insertRetry _ => rfl
  | insert hpc hm =>
      next key pred succ n =>
      obtain ⟨l₁, l₂, hc, hinv⟩ := h.insert hpc hm
      have hne : a ≠ pred := by
        rintro rfl
        exact hoff ((hinv.mem_iff_onList a).mp (by simp))
      exact (insert_next s.word pred succ n a).trans (if_neg hne)
  | erase hpc hm =>
      next key pred succ after =>
      obtain ⟨l₁, l₂, hc, hinv⟩ := h.erase hpc hm
      have hne : a ≠ pred := by
        rintro rfl
        exact hoff ((hinv.mem_iff_onList a).mp (by simp))
      exact (erase_next s.word pred succ after a).trans (if_neg hne)

/-! ## §2. Walking through a run. -/

section Runs

variable {P : Params} (r : Run (system P))

theorem run_inv {n : ℕ} (hn : n ≤ r.len) : ∃ c, Inv P (r.state n) c :=
  reachable_inv (r.reachable n hn)

theorem run_effect {n : ℕ} (hn : n < r.len) :
    Effect P (r.state n) (r.act n).tid (r.state (n + 1)) :=
  next_effect (r.step n hn)

theorem OnList.published {n : ℕ} (hn : n ≤ r.len) {a : Addr} (ha : OnList (r.state n) a) :
    Published (r.state n) a := by
  obtain ⟨c, hc⟩ := run_inv r hn
  exact hc.pub a ((hc.mem_iff_onList a).mpr ha)

/-- A node that was on the list stays published, with its `val`. -/
theorem published_later {i n : ℕ} (hin : i ≤ n) (hn : n ≤ r.len) {a : Addr}
    (ha : Published (r.state i) a) :
    Published (r.state n) a ∧ (r.state n).val a = (r.state i).val a := by
  induction n, hin using Nat.le_induction with
  | base => exact ⟨ha, rfl⟩
  | succ n _ ih =>
      obtain ⟨hp, hv⟩ := ih (Nat.le_of_succ_le hn)
      obtain ⟨c, hc⟩ := run_inv r (Nat.le_of_succ_le hn)
      obtain ⟨hp', hv'⟩ := published_step hc (run_effect r hn) hp
      exact ⟨hp', hv'.trans hv⟩

/-- A node once on the list was, at some instant since, on the list with the
`next` it has now.  The induction follows the run: while the node is on the
list the instant is now, and once it is off its `next` no longer changes. -/
theorem exists_onList_next {i n : ℕ} (hin : i ≤ n) (hn : n ≤ r.len) {a : Addr}
    (ha : OnList (r.state i) a) :
    ∃ j, i ≤ j ∧ j ≤ n ∧ OnList (r.state j) a
      ∧ (r.state j).word (a, .next) = (r.state n).word (a, .next) := by
  induction n, hin using Nat.le_induction with
  | base => exact ⟨i, Nat.le_refl i, Nat.le_refl i, ha, rfl⟩
  | succ n hin ih =>
      have hn' : n ≤ r.len := Nat.le_of_succ_le hn
      by_cases hon : OnList (r.state (n + 1)) a
      · exact ⟨n + 1, hin.trans (Nat.le_succ n), Nat.le_refl _, hon, rfl⟩
      · obtain ⟨j, h₁, h₂, h₃, h₄⟩ := ih hn'
        obtain ⟨c, hc⟩ := run_inv r hn'
        have hpub : Published (r.state n) a :=
          (published_later r hin hn' (OnList.published r (hin.trans hn') ha)).1
        have hfr := frozen_next hc (run_effect r hn) hpub hon
        exact ⟨j, h₁, h₂.trans (Nat.le_succ n), h₃, h₄.trans hfr.symm⟩

end Runs

/-! ## §3. What a call has seen. -/

/-- `pred` is on the list and `succ` is the node behind it. -/
def Adjacent (pred succ : Addr) (s : State) : Prop :=
  OnList s pred ∧ s.word (pred, .next) = succ

/-- The call of thread `p` starts with its `invoke`. -/
def Action.Calls (p : Tid) (a : Action) : Prop := ∃ op key, a = .invoke p op key

instance (p : Tid) : DecidablePred (Action.Calls p) := fun a =>
  match a with
  | .invoke q op key =>
      if h : q = p then .isTrue ⟨op, key, by rw [h]⟩
      else .isFalse (by rintro ⟨_, _, h'⟩; injection h' with h'; exact h h')
  | .step _ _ => .isFalse (by rintro ⟨_, _, h'⟩; exact absurd h' (by simp))

/-- What thread `p`, at `pc` at time `n`, has seen since its call. -/
def Seen {P : Params} (r : Run (system P)) (p : Tid) (n : ℕ) : Pc → Prop
  | .searchTest _ _ pred succ =>
      (pred = head ∧ succ = head) ∨ r.Once (Action.Calls p) (Adjacent pred succ) n
  | .searchRead _ _ pred => r.Once (Action.Calls p) (fun s => OnList s pred) n
  | .searched _ _ pred succ => r.Once (Action.Calls p) (Adjacent pred succ) n
  | .returned op key result =>
      ((op = .contains ∧ result = true ∨ op = .insertIfAbsent ∧ result = false) →
        r.Once (Action.Calls p) (fun s => KeyOnList s key) n)
      ∧ ((op = .contains ∧ result = false ∨ op = .erase ∧ result = false) →
        r.Once (Action.Calls p) (fun s => ¬ KeyOnList s key) n)
  | _ => True

section Calls

variable {P : Params} {r : Run (system P)} {p : Tid} {n : ℕ}

theorem Seen.later (hb : ¬ Action.Calls p (r.act n)) {pc : Pc} (h : Seen r p n pc) :
    Seen r p (n + 1) pc := by
  cases pc with
  | searchTest op key pred succ => exact h.imp id (Run.Once.later r hb)
  | searchRead op key pred => exact Run.Once.later (P := fun s => OnList s pred) r hb h
  | searched op key pred succ => exact Run.Once.later (P := Adjacent pred succ) r hb h
  | returned op key result =>
      exact ⟨fun hr => Run.Once.later r hb (h.1 hr), fun hr => Run.Once.later r hb (h.2 hr)⟩
  | _ => trivial

/-- `head` is on the list at every instant. -/
theorem Once.head (r : Run (system P)) (p : Tid) (n : ℕ) :
    r.Once (Action.Calls p) (fun s => OnList s head) n :=
  Run.Once.now r OnList.head

/-- Of a visited pair both nodes were on the list. -/
theorem once_succ (hn : n ≤ r.len) {pred succ : Addr} (hne : succ ≠ NULL)
    (h : r.Once (Action.Calls p) (Adjacent pred succ) n) :
    r.Once (Action.Calls p) (fun s => OnList s succ) n := by
  refine Run.Once.imp r hn ?_ h
  rintro s _ ⟨hp, rfl⟩
  exact OnList.next hp hne

/-- **The read of `pred->next` sees a pair that was adjacent during the call.** -/
theorem once_adjacent_next (hn : n ≤ r.len) {pred : Addr}
    (h : r.Once (Action.Calls p) (fun s => OnList s pred) n) :
    r.Once (Action.Calls p) (Adjacent pred ((r.state n).word (pred, .next))) n := by
  obtain ⟨i, h₁, h₂, h₃⟩ := h
  obtain ⟨j, hij, hjn, hon, hnx⟩ := exists_onList_next r h₂ hn h₃
  exact ⟨j, h₁.trans hij, hjn, hon, hnx⟩

/-- A node seen on the list shows its key there. -/
theorem once_key (hn : n ≤ r.len) {a : Addr} {key : Int}
    (hv : (r.state n).val a = key) (h : r.Once (Action.Calls p) (fun s => OnList s a) n) :
    r.Once (Action.Calls p) (fun s => KeyOnList s key) n := by
  obtain ⟨i, h₁, h₂, h₃⟩ := h
  have hpub := OnList.published r (h₂.trans hn) h₃
  have hval := (published_later r h₂ hn hpub).2
  exact ⟨i, h₁, h₂, a, h₃, hval.symm.trans hv⟩

/-- A pair seen adjacent, with `key` strictly between, shows the absence of
`key`. -/
theorem once_absent (hn : n ≤ r.len) {pred succ : Addr} {key : Int} (hk : KeyOk P key)
    (h₁ : (r.state n).val pred < key) (h₂ : key < (r.state n).val succ)
    (h : r.Once (Action.Calls p) (Adjacent pred succ) n) :
    r.Once (Action.Calls p) (fun s => ¬ KeyOnList s key) n := by
  obtain ⟨i, hi₁, hi₂, hon, hnx⟩ := h
  obtain ⟨c, hc⟩ := run_inv r (hi₂.trans hn)
  have hpc : pred ∈ c := (hc.mem_iff_onList pred).mpr hon
  have hppub := hc.pub pred hpc
  have hpv := (published_later r hi₂ hn hppub).2
  have hpt : pred ≠ tail := hc.ne_tail hk (by rw [← hpv]; exact h₁.le)
  have hspub : Published (r.state i) succ := hnx ▸ hc.next_pub pred hppub hpt
  have hsv := (published_later r hi₂ hn hspub).2
  refine ⟨i, hi₁, hi₂, hc.not_keyOnList_between hpc hpt ?_ ?_⟩
  · rw [← hpv]; exact h₁
  · rw [hnx, ← hsv]; exact h₂

/-! ## §4. The step lemma and the run lemma. -/

/-- One step of a call keeps what the call has seen. -/
theorem Seen.move (hn : n < r.len) {pc' : Pc} (hm : LocalMove P (r.state n) ((r.state n).thread p) pc')
    (hcall : ¬ Action.Calls p (r.act n)) (hthread : PcOk P (r.state n) ((r.state n).thread p))
    (h : Seen r p n ((r.state n).thread p)) : Seen r p (n + 1) pc' := by
  have hn' : n ≤ r.len := Nat.le_of_lt hn
  obtain ⟨c, hc⟩ := run_inv r hn'
  refine Seen.later hcall ?_
  generalize (r.state n).thread p = pc at hm hthread h
  cases hm with
  | call _ _ => exact Or.inl ⟨rfl, rfl⟩
  | stop hstop =>
      rcases h with ⟨rfl, rfl⟩ | h
      · -- the loop never stops at `head`: its key is below `key` and below `tail->val`
        obtain ⟨hk, _, _, hlt⟩ := hthread
        have h₁ := hc.val_head
        have h₂ := hc.val_tail
        have h₃ := hk.1
        have h₄ := hk.2
        omega
      · exact h
  | advance hgo =>
      next op key pred succ =>
      show r.Once (Action.Calls p) (fun s => OnList s succ) n
      rcases h with ⟨rfl, rfl⟩ | h
      · exact Once.head r p n
      · exact once_succ hn' (hc.ne_null_of_pub hthread.2.2.1) h
  | read => exact Or.inr (once_adjacent_next hn' h)
  | containsReturn =>
      next key pred succ =>
      obtain ⟨hk, hp, hs, hlt, hle⟩ := hthread
      constructor
      · rintro (⟨_, hres⟩ | ⟨hop, _⟩)
        · have hv := of_decide_eq_true hres
          exact once_key hn' hv (once_succ hn' (hc.ne_null_of_pub hs) h)
        · exact absurd hop (by simp)
      · rintro (⟨_, hres⟩ | ⟨hop, _⟩)
        · have hv := of_decide_eq_false hres
          exact once_absent hn' hk hlt (lt_of_le_of_ne hle (Ne.symm hv)) h
        · exact absurd hop (by simp)
  | insertFound hv =>
      obtain ⟨_, _, hs, _, _⟩ := hthread
      refine ⟨fun _ => once_key hn' hv (once_succ hn' (hc.ne_null_of_pub hs) h), ?_⟩
      rintro (⟨hop, _⟩ | ⟨hop, _⟩) <;> exact absurd hop (by simp)
  | eraseAbsent hv =>
      obtain ⟨hk, _, _, hlt, hle⟩ := hthread
      refine ⟨?_, fun _ => once_absent hn' hk hlt (lt_of_le_of_ne hle (Ne.symm hv)) h⟩
      rintro (⟨hop, _⟩ | ⟨hop, _⟩) <;> exact absurd hop (by simp)
  | eraseFound _ => trivial
  | eraseRead => trivial
  | eraseRetry => exact Or.inl ⟨rfl, rfl⟩

/-- A new call has seen `head`. -/
theorem seen_of_call {op : Op} {key : Int} (hn : n < r.len) (ha : r.act n = .invoke p op key) :
    Seen r p (n + 1) ((r.state (n + 1)).thread p) := by
  have hstep : next P (r.state n) (r.act n) = some (r.state (n + 1)) := r.step n hn
  rw [ha] at hstep
  simp only [next, invoke] at hstep
  split at hstep
  · split at hstep
    · rw [← Option.some.inj hstep, goto_thread, if_pos rfl]
      exact Or.inl ⟨rfl, rfl⟩
    · exact absurd hstep (by simp)
  · split at hstep
    · rw [← Option.some.inj hstep, goto_thread, if_pos rfl]
      exact Or.inl ⟨rfl, rfl⟩
    · exact absurd hstep (by simp)
  · exact absurd hstep (by simp)

/-- One action of any thread keeps what the call of thread `p` has seen. -/
theorem Seen.step (hn : n < r.len) (h : Seen r p n ((r.state n).thread p)) :
    Seen r p (n + 1) ((r.state (n + 1)).thread p) := by
  by_cases hcall : Action.Calls p (r.act n)
  · obtain ⟨op, key, ha⟩ := hcall
    exact seen_of_call hn ha
  · obtain ⟨c, hc⟩ := run_inv r (Nat.le_of_lt hn)
    have hpc := hc.pcOk p
    have hother : p ≠ (r.act n).tid → (r.state (n + 1)).thread p = (r.state n).thread p →
        Seen r p (n + 1) ((r.state (n + 1)).thread p) := by
      intro _ heq
      rw [heq]
      exact h.later hcall
    have heff := run_effect r hn
    generalize htid : (r.act n).tid = q at heff hother
    generalize hs' : r.state (n + 1) = s' at heff hother ⊢
    by_cases hpq : p = q
    · subst hpq
      cases heff with
      | move hm =>
          rw [goto_thread, if_pos rfl]
          exact Seen.move hn hm hcall hpc h
      | alloc _ _ _ _ =>
          rw [goto_thread, if_pos rfl]
          trivial
      | insertRetry _ =>
          rw [goto_thread, if_pos rfl]
          exact Or.inl ⟨rfl, rfl⟩
      | insert _ _ =>
          rw [goto_thread, if_pos rfl]
          constructor
          · rintro (⟨hop, _⟩ | ⟨_, hres⟩)
            · exact absurd hop (by simp)
            · exact absurd hres (by simp)
          · intro h
            rcases h with ⟨hop, _⟩ | ⟨hop, _⟩
            · exact absurd hop (by simp)
            · exact absurd hop (by simp)
      | erase _ _ =>
          rw [goto_thread, if_pos rfl]
          constructor
          · intro h
            rcases h with ⟨hop, _⟩ | ⟨hop, _⟩
            · exact absurd hop (by simp)
            · exact absurd hop (by simp)
          · rintro (⟨hop, _⟩ | ⟨_, hres⟩)
            · exact absurd hop (by simp)
            · exact absurd hres (by simp)
    · refine hother hpq ?_
      cases heff <;> rw [goto_thread, if_neg hpq]
      rfl

theorem seen_always (r : Run (system P)) (p : Tid) :
    ∀ n, n ≤ r.len → Seen r p n ((r.state n).thread p)
  | 0, _ => by
      rw [r.start]
      trivial
  | n + 1, hn => Seen.step hn (seen_always r p n (Nat.le_of_succ_le hn))

end Calls

/-! ## §5. Answers. -/

/-- Thread `p` calls `op(key)` at time `a`, and at time `b` that call has
returned `result`. -/
structure Answered {P : Params} (r : Run (system P)) (p : Tid) (op : Op) (key : Int)
    (result : Bool) (a b : ℕ) : Prop where
  before : a < b
  within : b ≤ r.len
  called : r.act a = .invoke p op key
  same_call : ∀ j, a < j → j < b → ¬ Action.Calls p (r.act j)
  returned : (r.state b).thread p = .returned op key result

/-- **Unvalidated traversals answer right**: a `contains` that returns true and
an insert that returns false have an instant between their call and their
return at which the key was on the list; a `contains` or an erase that returns
false has one at which it was not. -/
theorem traversal_answers (P : Params) (r : Run (system P)) (p : Tid) (op : Op) (key : Int)
    (result : Bool) (a b : ℕ) (h : Answered r p op key result a b) :
    ((op = .contains ∧ result = true ∨ op = .insertIfAbsent ∧ result = false) →
      ∃ i, a < i ∧ i ≤ b ∧ KeyOnList (r.state i) key)
    ∧ ((op = .contains ∧ result = false ∨ op = .erase ∧ result = false) →
      ∃ i, a < i ∧ i ≤ b ∧ ¬ KeyOnList (r.state i) key) := by
  have hseen := seen_always r p b h.within
  rw [h.returned] at hseen
  have hcalls : Action.Calls p (r.act a) := ⟨op, key, h.called⟩
  exact ⟨fun hr => Run.Once.between r h.before hcalls h.same_call (hseen.1 hr),
    fun hr => Run.Once.between r h.before hcalls h.same_call (hseen.2 hr)⟩

/-- `contains(4)` by thread 1 reaches the node of key `4`, thread 0 erases it,
and the call then returns true. -/
def overtakenActions : List Action :=
  [.invoke 0 .insertIfAbsent 4] ++ List.replicate 5 (.step 0 3)
    ++ [.invoke 1 .contains 4] ++ List.replicate 2 (.step 1 0)
    ++ [.invoke 0 .erase 4] ++ List.replicate 6 (.step 0 0)
    ++ List.replicate 2 (.step 1 0)

def overtakenRun : Run (system sampleParams) :=
  Run.ofActions (system sampleParams) overtakenActions (.step 0 0) (by decide +kernel)

theorem traversal_answers_overtaken :
    (overtakenRun.state 18).inserted 4 = (overtakenRun.state 18).erased 4
      ∧ ∃ i, 6 < i ∧ i ≤ 18 ∧ KeyOnList (overtakenRun.state i) 4 := by
  refine ⟨by decide +kernel, ?_⟩
  have hcall : ∀ j < 18, 6 < j → ¬ Action.Calls 1 (overtakenRun.act j) := by decide +kernel
  have h : Answered overtakenRun 1 .contains 4 true 6 18 :=
    { before := by decide
      within := by decide +kernel
      called := by decide +kernel
      same_call := fun j h₁ h₂ => hcall j h₂ h₁
      returned := by decide +kernel }
  exact (traversal_answers sampleParams overtakenRun 1 .contains 4 true 6 18 h).1
    (Or.inl ⟨rfl, rfl⟩)

end MultiCore.DoublyLinkedList
