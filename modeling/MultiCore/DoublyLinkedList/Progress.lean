/-
  MultiCore.DoublyLinkedList.Progress — the list is lock-free.

  A search that no k-CAS has overtaken is `Current`: its `pred` is on the list
  and its `succ` is the node behind it, and then the k-CAS of the call matches.
  So a k-CAS that fails has been overtaken by one that has succeeded.

  The search itself ends because `val` increases along `next`, also from a node
  that is off the list (`Sorted`).

    * `kcas_failures_le` — the k-CASs of a thread fail no more often than those of
      others succeed;
    * `solo_returns` — a thread that is left alone returns, after a number of
      steps that depends on the range of the keys only.
-/
import MultiCore.DoublyLinkedList.Traversal

namespace MultiCore.DoublyLinkedList

open MultiCore.Lib MultiCore.Kcas

/-! ## §1. Searches that have not been overtaken. -/

/-- Nothing has changed since the search began. -/
def Current (s : State) : Pc → Prop
  | .searchTest _ _ pred succ =>
      OnList s pred ∧ (s.word (pred, .next) = succ ∨ pred = head ∧ succ = head)
  | .searchRead _ _ pred => OnList s pred
  | .searched _ _ pred succ | .insertExecute _ pred succ _ | .eraseRead _ pred succ =>
      OnList s pred ∧ s.word (pred, .next) = succ
  | .eraseExecute _ pred succ after =>
      OnList s pred ∧ s.word (pred, .next) = succ ∧ s.word (succ, .next) = after
  | .idle | .returned _ _ _ => True

/-- The next step of the thread is a k-CAS that succeeds. -/
def succeeds (s : State) (q : Tid) : Bool :=
  match s.thread q with
  | .insertExecute _ pred succ n => decide (Matches s.word (insertEntries pred succ n))
  | .eraseExecute _ pred succ after => decide (Matches s.word (eraseEntries pred succ after))
  | _ => false

def Pc.atExecute : Pc → Bool
  | .insertExecute _ _ _ _ | .eraseExecute _ _ _ _ => true
  | _ => false

/-- The step is a k-CAS of thread `p` that fails. -/
def fails (p : Tid) (s : State) : Action → Bool
  | .step q _ => q = p && (s.thread q).atExecute && !succeeds s q
  | _ => false

/-- The step is a k-CAS of another thread that succeeds. -/
def otherSucceeds (p : Tid) (s : State) : Action → Bool
  | .step q _ => q ≠ p && succeeds s q
  | _ => false

section Current

variable {P : Params} {s s' : State} {c : List Addr} {p q : Tid} {pc pc' : Pc}

/-- The node behind a node of the list is on the list. -/
theorem Inv.next_onList (h : Inv P s c) {a : Addr} (ha : OnList s a) (hne : a ≠ tail) :
    OnList s (s.word (a, .next)) := by
  obtain ⟨l₁, l₂, hc⟩ := h.split_next ((h.mem_iff_onList a).mpr ha) hne
  rw [← h.mem_iff_onList, hc]
  simp

/-- `prev` inverts `next`. -/
theorem Inv.prev_next (h : Inv P s c) {a : Addr} (ha : OnList s a) (hne : a ≠ tail) :
    s.word (s.word (a, .next), .prev) = a := by
  obtain ⟨l₁, l₂, hc⟩ := h.split_next ((h.mem_iff_onList a).mpr ha) hne
  have hl := h.linked
  rw [hc] at hl
  exact (isChain_pair hl).2.1

theorem Inv.unmarked (h : Inv P s c) {a : Addr} (ha : OnList s a) : s.word (a, .mark) = 0 := by
  have hin := (h.mem_iff_onList a).mpr ha
  exact (h.marked a (h.pub a hin)).mpr hin

/-- **A k-CAS that has not been overtaken succeeds.** -/
theorem Current.succeeds (hcur : Current s (s.thread q)) (h : Inv P s c)
    (hat : (s.thread q).atExecute = true) : succeeds s q = true := by
  have hok := h.pcOk q
  unfold DoublyLinkedList.succeeds
  cases hpc : s.thread q with
  | insertExecute key pred succ n =>
      rw [hpc] at hcur hok
      obtain ⟨hon, rfl⟩ := hcur
      have hne := h.ne_tail hok.1 (le_of_lt hok.2.2.2.1)
      have hsucc := h.next_onList hon hne
      refine decide_eq_true ?_
      simp [insertEntries, addValAddr, addPtrAddr, h.unmarked hon, h.unmarked hsucc,
        h.prev_next hon hne]
  | eraseExecute key pred succ after =>
      rw [hpc] at hcur hok
      obtain ⟨hon, rfl, rfl⟩ := hcur
      have hne := h.ne_tail hok.1 (le_of_lt hok.2.2.2.2.1)
      have hsucc := h.next_onList hon hne
      have hne' := h.ne_tail hok.1 (le_of_eq hok.2.2.2.2.2)
      have hafter := h.next_onList hsucc hne'
      refine decide_eq_true ?_
      simp [eraseEntries, addValAddr, addPtrAddr, h.unmarked hon, h.unmarked hsucc,
        h.unmarked hafter, h.prev_next hsucc hne']
  | _ =>
      rw [hpc] at hat
      exact absurd hat (by simp [Pc.atExecute])

/-- A step that is no successful k-CAS leaves the list as it is. -/
theorem Effect.quiet (he : Effect P s q s') (h : Inv P s c) (hno : succeeds s q = false) :
    Inv P s' c ∧ ∀ a, Published s a → ∀ f, s'.word (a, f) = s.word (a, f) := by
  unfold succeeds at hno
  cases he with
  | move hm => exact ⟨h.move hm, fun _ _ _ => rfl⟩
  | @alloc key pred succ n hpc hval hnull hfree =>
      refine ⟨h.alloc hpc hval hnull hfree, fun a ha f => ?_⟩
      have hne : a ≠ n := by
        rintro rfl
        exact absurd ha.1 (by rw [hfree]; simp)
      simp [State.initNode, hne]
  | insertRetry hpc => exact ⟨h.insertRetry hpc, fun _ _ _ => rfl⟩
  | insert hpc hm =>
      rw [hpc] at hno
      exact absurd hm (of_decide_eq_false hno)
  | erase hpc hm =>
      rw [hpc] at hno
      exact absurd hm (of_decide_eq_false hno)

/-- Then a search that was current stays so. -/
theorem Current.kept (hcur : Current s pc) (h : Inv P s c) (h' : Inv P s' c) (hok : PcOk P s pc)
    (hsame : ∀ a, Published s a → ∀ f, s'.word (a, f) = s.word (a, f)) : Current s' pc := by
  have hon : ∀ {a}, OnList s a → OnList s' a := fun ha =>
    (h'.mem_iff_onList _).mp ((h.mem_iff_onList _).mpr ha)
  have hnext : ∀ {a}, OnList s a → s'.word (a, .next) = s.word (a, .next) := fun ha =>
    hsame _ (h.pub _ ((h.mem_iff_onList _).mpr ha)) _
  cases pc with
  | idle => trivial
  | returned op key result => trivial
  | searchTest op key pred succ =>
      refine ⟨hon hcur.1, ?_⟩
      rw [hnext hcur.1]
      exact hcur.2
  | searchRead op key pred => exact hon hcur
  | searched op key pred succ => exact ⟨hon hcur.1, (hnext hcur.1).trans hcur.2⟩
  | insertExecute key pred succ n => exact ⟨hon hcur.1, (hnext hcur.1).trans hcur.2⟩
  | eraseRead key pred succ => exact ⟨hon hcur.1, (hnext hcur.1).trans hcur.2⟩
  | eraseExecute key pred succ after =>
      exact ⟨hon hcur.1, (hnext hcur.1).trans hcur.2.1, (hsame succ hok.2.2.1 _).trans hcur.2.2⟩

/-- A step of the thread itself. -/
theorem Current.move (hcur : Current s pc) (h : Inv P s c) (hok : PcOk P s pc)
    (hm : LocalMove P s pc pc') : Current s pc' := by
  cases hm with
  | call _ _ => exact ⟨OnList.head, Or.inr ⟨rfl, rfl⟩⟩
  | @stop op key pred succ hstop =>
      refine ⟨hcur.1, hcur.2.resolve_right ?_⟩
      rintro ⟨rfl, rfl⟩
      have hlow := hok.1.1
      have hhigh := hok.1.2
      rw [h.val_head, h.val_tail] at hstop
      omega
  | @advance op key pred succ hgo =>
      rcases hcur.2 with hnext | ⟨-, rfl⟩
      · have hon := h.next_onList hcur.1 (h.ne_tail hok.1 (le_of_lt hok.2.2.2))
        rw [hnext] at hon
        exact hon
      · exact OnList.head
  | read => exact ⟨hcur, Or.inl rfl⟩
  | containsReturn => trivial
  | insertFound _ => trivial
  | eraseAbsent _ => trivial
  | eraseFound _ => exact hcur
  | eraseRead => exact ⟨hcur.1, hcur.2, rfl⟩
  | eraseRetry => exact ⟨OnList.head, Or.inr ⟨rfl, rfl⟩⟩

theorem OnList.congr {a : Addr} (ha : OnList s a) (hword : s'.word = s.word) : OnList s' a := by
  induction ha with
  | head => exact OnList.head
  | next _ hne ih =>
      have hnext := OnList.next ih (by rw [hword]; exact hne)
      rw [hword] at hnext
      exact hnext

theorem Current.congr (hcur : Current s pc) (hword : s'.word = s.word) : Current s' pc := by
  unfold Current at hcur ⊢
  rw [hword]
  cases pc with
  | idle => trivial
  | returned op key result => trivial
  | searchRead op key pred => exact hcur.congr hword
  | _ => exact ⟨hcur.1.congr hword, hcur.2⟩

theorem goto_self (s : State) (p : Tid) (pc : Pc) : (s.goto p pc).thread p = pc := by
  rw [goto_thread, if_pos rfl]

theorem current_restart {op : Op} {key : Int} : Current s (.searchTest op key head head) :=
  ⟨OnList.head, Or.inr ⟨rfl, rfl⟩⟩

theorem Current.own (hcur : Current s (s.thread p)) (h : Inv P s c) (he : Effect P s p s') :
    Current s' (s'.thread p) := by
  have hok := h.pcOk p
  cases he with
  | move hm =>
      rw [goto_self]
      exact (hcur.move h hok hm).congr rfl
  | @alloc key pred succ n hpc hval hnull hfree =>
      rw [goto_self]
      rw [hpc] at hcur hok
      obtain ⟨hinv, hsame⟩ := (Effect.alloc hpc hval hnull hfree).quiet h (by
        unfold DoublyLinkedList.succeeds
        rw [hpc])
      exact hcur.kept h hinv hok hsame
  | insertRetry hpc =>
      rw [goto_self]
      exact current_restart
  | insert hpc hm =>
      rw [goto_self]
      trivial
  | erase hpc hm =>
      rw [goto_self]
      trivial

/-- After a k-CAS that fails, the search begins again. -/
theorem Effect.restart (he : Effect P s p s') (hat : (s.thread p).atExecute = true)
    (hno : succeeds s p = false) : ∃ op key, s'.thread p = .searchTest op key head head := by
  unfold succeeds at hno
  cases he with
  | @move pc' hm =>
      rw [goto_self]
      generalize s.thread p = pc at hat hm
      cases hm with
      | call _ _ => exact ⟨_, _, rfl⟩
      | eraseRetry => exact ⟨_, _, rfl⟩
      | _ => exact absurd hat (by simp [Pc.atExecute])
  | alloc hpc hval hnull hfree =>
      rw [hpc] at hat
      exact absurd hat (by simp [Pc.atExecute])
  | insertRetry hpc => exact ⟨_, _, goto_self _ _ _⟩
  | insert hpc hm =>
      rw [hpc] at hno
      exact absurd hm (of_decide_eq_false hno)
  | erase hpc hm =>
      rw [hpc] at hno
      exact absurd hm (of_decide_eq_false hno)

end Current

/-! ## §2. Lock-freedom. -/

section LockFree

open Classical in
/-- A k-CAS of the call that is to come will fail. -/
noncomputable def overtaken (s : State) (p : Tid) : ℕ := if Current s (s.thread p) then 0 else 1

variable {P : Params} {s s' : State} {c : List Addr} {p : Tid} {a : Action}

theorem overtaken_le : overtaken s p ≤ 1 := by
  unfold overtaken
  split
  · exact Nat.zero_le 1
  · exact Nat.le_refl 1

theorem overtaken_mono (h : Current s (s.thread p) → Current s' (s'.thread p)) :
    overtaken s' p ≤ overtaken s p := by
  unfold overtaken
  by_cases hcur : Current s (s.thread p)
  · rw [if_pos hcur, if_pos (h hcur)]
  · rw [if_neg hcur]
    exact overtaken_le

theorem Effect.thread_other {q : Tid} (he : Effect P s q s') (hq : p ≠ q) : s'.thread p = s.thread p := by
  cases he with
  | alloc hpc hval hnull hfree =>
      rw [goto_thread, if_neg hq]
      rfl
  | _ => rw [goto_thread, if_neg hq]

/-- A thread that calls is not at a k-CAS. -/
theorem succeeds_invoke {q : Tid} {op : Op} {key : Int} (hn : next P s (.invoke q op key) = some s') :
    succeeds s q = false := by
  unfold next invoke at hn
  unfold succeeds
  cases hpc : s.thread q with
  | insertExecute key pred succ n =>
      simp only [hpc] at hn
      exact absurd hn (by simp)
  | eraseExecute key pred succ after =>
      simp only [hpc] at hn
      exact absurd hn (by simp)
  | _ => rfl

theorem overtaken_own (h : Inv P s c) (he : Effect P s a.tid s') :
    (fails a.tid s a).toNat + overtaken s' a.tid ≤ overtaken s a.tid := by
  cases hfails : fails a.tid s a with
  | false =>
      rw [Bool.toNat_false, Nat.zero_add]
      exact overtaken_mono fun hcur => hcur.own h he
  | true =>
      -- the k-CAS has not matched, so that the call has been overtaken
      obtain ⟨hat, hno⟩ : (s.thread a.tid).atExecute = true ∧ succeeds s a.tid = false := by
        cases a with
        | step q fresh => simpa [fails, Action.tid] using hfails
        | invoke q op key => exact absurd hfails (by simp [fails])
      have hnot : ¬ Current s (s.thread a.tid) := fun hcur => by
        have hsucceeds := hcur.succeeds h hat
        rw [hno] at hsucceeds
        exact absurd hsucceeds (by simp)
      obtain ⟨op, key, hpc⟩ := he.restart hat hno
      have hnow : Current s' (s'.thread a.tid) := by
        rw [hpc]
        exact current_restart
      unfold overtaken
      rw [if_neg hnot, if_pos hnow]
      exact Nat.le_refl 1

theorem overtaken_step (h : Inv P s c) (hn : next P s a = some s') :
    (fails p s a).toNat + overtaken s' p ≤ overtaken s p + (otherSucceeds p s a).toNat := by
  have he := next_effect hn
  by_cases htid : a.tid = p
  · subst htid
    exact (overtaken_own h he).trans (Nat.le_add_right _ _)
  · have hfails : fails p s a = false := by
      cases a with
      | step q fresh =>
          have hq : q ≠ p := htid
          simp [fails, hq]
      | invoke q op key => rfl
    rw [hfails, Bool.toNat_false, Nat.zero_add]
    cases hsucceeds : succeeds s a.tid with
    | true =>
        have hwins : otherSucceeds p s a = true := by
          cases a with
          | step q fresh =>
              have hq : q ≠ p := htid
              have hs : succeeds s q = true := hsucceeds
              simp [otherSucceeds, hq, hs]
          | invoke q op key =>
              have hsucceeds' : succeeds s q = true := hsucceeds
              rw [succeeds_invoke hn] at hsucceeds'
              exact absurd hsucceeds' (by simp)
        rw [hwins]
        exact overtaken_le.trans (Nat.le_add_left _ _)
    | false =>
        obtain ⟨hinv, hsame⟩ := he.quiet h hsucceeds
        refine (overtaken_mono fun hcur => ?_).trans (Nat.le_add_right _ _)
        rw [he.thread_other (Ne.symm htid)]
        exact hcur.kept h hinv (h.pcOk p) hsame

/-- **The list is lock-free**: no more k-CASs of a thread fail than k-CASs of other
threads have succeeded. -/
theorem kcas_failures_le (r : Run (system P)) (p : Tid) {n : ℕ} (hn : n ≤ r.len) :
    r.count (fails p) n ≤ r.count (otherSucceeds p) n := by
  have hstart : overtaken (r.state 0) p = 0 := by
    rw [r.start]
    exact if_pos trivial
  refine r.count_le_count (fun i => overtaken (r.state i) p) hstart (fun i hi => ?_) hn
  obtain ⟨c, hinv⟩ := run_inv r (Nat.le_of_lt hi)
  exact overtaken_step hinv (r.step i hi)

/-- Two inserts have found the same place; thread 0 is the first to swap. -/
def raceActions : List Action :=
  [.invoke 0 .insertIfAbsent 4, .invoke 1 .insertIfAbsent 5]
    ++ List.replicate 4 (.step 0 3) ++ List.replicate 4 (.step 1 4) ++ [.step 0 3]

def raceRun : Run (system sampleParams) :=
  Run.ofActions (system sampleParams) (raceActions ++ [.step 1 4]) (.step 0 0) (by decide +kernel)

theorem kcas_failures_le_race :
    raceRun.count (fails 1) 12 = 1 ∧ raceRun.count (fails 1) 12 ≤ raceRun.count (otherSucceeds 1) 12 :=
  ⟨by decide +kernel, kcas_failures_le raceRun 1 (by decide +kernel)⟩

end LockFree

/-! ## §3. Searches end. -/

/-- Along `next` the `val`s increase, on the list and off it. -/
structure Sorted (P : Params) (s : State) : Prop where
  next : ∀ a, Published s a → a ≠ tail → s.val a < s.val (s.word (a, .next))
  low : ∀ a, Published s a → P.minKey - 1 ≤ s.val a

section Sorted

variable {P : Params} {s s' : State} {c : List Addr} {p : Tid} {a : Addr}

/-- A node that is published by a step is the one that the step has linked in. -/
theorem published_before (he : Effect P s p s') (ha : Published s' a) :
    Published s a ∨ ∃ key pred succ, s.thread p = .insertExecute key pred succ a
      ∧ s'.thread p = .returned .insertIfAbsent key true := by
  cases he with
  | move hm =>
      obtain ⟨h₁, h₂⟩ := hm.privateNode_eq
      exact Or.inl ((published_goto rfl rfl h₁ h₂ a).mp ha)
  | @alloc key pred succ n hpc hval hnull hfree =>
      have hne : a ≠ n := fun heq => ha.2 p (by rw [goto_self, heq]; rfl)
      refine Or.inl ⟨?_, fun q hq => ?_⟩
      · have hall := ha.1
        simp only [goto_allocated, State.initNode, Function.update_of_ne hne] at hall
        exact hall
      · by_cases hqp : q = p
        · rw [hqp, hpc] at hq
          exact absurd hq (by simp [Pc.privateNode])
        · refine ha.2 q ?_
          rw [goto_thread, if_neg hqp]
          exact hq
  | @insertRetry key pred succ n hpc =>
      have hne : a ≠ n := by
        rintro rfl
        have hall := ha.1
        simp at hall
      refine Or.inl ⟨?_, fun q hq => ?_⟩
      · have hall := ha.1
        simp only [goto_allocated, Function.update_of_ne hne] at hall
        exact hall
      · by_cases hqp : q = p
        · rw [hqp, hpc] at hq
          exact hne (Option.some.inj hq).symm
        · refine ha.2 q ?_
          rw [goto_thread, if_neg hqp]
          exact hq
  | @insert key pred succ n hpc hm =>
      by_cases hne : a = n
      · subst hne
        exact Or.inr ⟨key, pred, succ, hpc, goto_self _ _ _⟩
      · refine Or.inl ⟨ha.1, fun q hq => ?_⟩
        by_cases hqp : q = p
        · rw [hqp, hpc] at hq
          exact hne (Option.some.inj hq).symm
        · refine ha.2 q ?_
          rw [goto_thread, if_neg hqp]
          exact hq
  | @erase key pred succ after hpc hm =>
      refine Or.inl ⟨ha.1, fun q hq => ?_⟩
      by_cases hqp : q = p
      · rw [hqp, hpc] at hq
        exact absurd hq (by simp [Pc.privateNode])
      · refine ha.2 q ?_
        rw [goto_thread, if_neg hqp]
        exact hq

theorem init_sorted (P : Params) : Sorted P (init P) := by
  have hinv := init_inv P
  have hpub : ∀ a, Published (init P) a → a = head ∨ a = tail := by
    intro a ha
    have hall := ha.1
    by_contra hne
    rw [not_or] at hne
    simp [init, State.initNode, hne.1, hne.2] at hall
  have hlink : Link (init P) head tail := (List.isChain_cons_cons.mp hinv.linked).1
  refine ⟨fun a ha hne => ?_, fun a ha => ?_⟩
  · obtain rfl := (hpub a ha).resolve_right hne
    rw [hlink.1]
    exact hlink.2.2
  · have hle := P.le
    rcases hpub a ha with rfl | rfl
    · rw [hinv.val_head]
    · rw [hinv.val_tail]
      omega

/-- **A successful k-CAS keeps the nodes sorted**, those that are off the list
included. -/
theorem Sorted.insert (hs : Sorted P s) (h : Inv P s c) {key : Int} {pred succ n : Addr}
    (hpc : s.thread p = .insertExecute key pred succ n)
    (hm : Matches s.word (insertEntries pred succ n)) (ha : Published s a ∨ a = n) (hne : a ≠ tail) :
    s.val a < s.val (commit s.word (insertEntries pred succ n) (a, .next)) := by
  have hok := h.pcOk p
  rw [hpc] at hok
  obtain ⟨-, hp, hsucc, hlt, hgt, -, -, -, hnext, -, hval⟩ := hok
  have hnpub := (h.private_node (q := p) (by rw [hpc]; rfl)).2.2
  rw [insert_next]
  by_cases hpred : a = pred
  · rw [if_pos hpred, hpred, hval]
    exact hlt
  · rw [if_neg hpred]
    rcases ha with ha | rfl
    · exact hs.next a ha hne
    · rw [hnext, hval]
      exact hgt

theorem Sorted.erase (hs : Sorted P s) (h : Inv P s c) {key : Int} {pred succ after : Addr}
    (hpc : s.thread p = .eraseExecute key pred succ after)
    (hm : Matches s.word (eraseEntries pred succ after)) (ha : Published s a) (hne : a ≠ tail) :
    s.val a < s.val (commit s.word (eraseEntries pred succ after) (a, .next)) := by
  obtain ⟨l₁, l₂, hc, -⟩ := h.erase hpc hm
  rw [erase_next]
  by_cases hpred : a = pred
  · rw [if_pos hpred, hpred]
    have hpairs := h.pairwise
    rw [hc, List.pairwise_append] at hpairs
    exact List.rel_of_pairwise_cons hpairs.2.1 (List.mem_cons_of_mem _ List.mem_cons_self)
  · rw [if_neg hpred]
    exact hs.next a ha hne

/-- A step that writes to no published node. -/
theorem Sorted.quiet (hs : Sorted P s) (h : Inv P s c)
    (hpub : ∀ a, Published s' a → Published s a) (hval : ∀ a, Published s a → s'.val a = s.val a)
    (hword : ∀ a, Published s a → s'.word (a, .next) = s.word (a, .next)) : Sorted P s' where
  next a ha hne := by
    have hold := hpub a ha
    rw [hword a hold, hval a hold, hval _ (h.next_pub a hold hne)]
    exact hs.next a hold hne
  low a ha := by
    rw [hval a (hpub a ha)]
    exact hs.low a (hpub a ha)

theorem Sorted.effect (hs : Sorted P s) (h : Inv P s c) (he : Effect P s p s') : Sorted P s' := by
  have hval : ∀ a, Published s a → s'.val a = s.val a := fun a ha => (published_step h he ha).2
  have hbefore := fun a ha => published_before (a := a) he ha
  have hold : (∀ key, s'.thread p ≠ .returned .insertIfAbsent key true)
      ∨ (s.thread p).privateNode = none → ∀ a, Published s' a → Published s a := by
    intro hno a ha
    refine (hbefore a ha).resolve_right ?_
    rintro ⟨key, pred, succ, hpc, hret⟩
    rcases hno with hno | hno
    · exact hno key hret
    · rw [hpc] at hno
      exact absurd hno (by simp [Pc.privateNode])
  cases he with
  | move hm =>
      exact hs.quiet h (hold (Or.inr hm.privateNode_eq.1)) (fun _ _ => rfl) fun _ _ => rfl
  | @alloc key pred succ n hpc hne hnull hfree =>
      refine hs.quiet h (hold (Or.inr ((by rw [hpc]; rfl)))) hval fun a ha => ?_
      have han : a ≠ n := by
        rintro rfl
        exact absurd ha.1 (by rw [hfree]; simp)
      simp [State.initNode, han]
  | insertRetry hpc =>
      refine hs.quiet h (hold (Or.inl fun key => ?_)) (fun _ _ => rfl) fun _ _ => rfl
      rw [goto_self]
      simp
  | @insert key pred succ n hpc hm =>
      have hpub := fun a ha => (hbefore a ha).imp_right fun hnew => by
        obtain ⟨k, x, y, hpc', -⟩ := hnew
        rw [hpc] at hpc'
        exact (Pc.insertExecute.inj hpc').2.2.2.symm
      refine ⟨fun a ha hne => hs.insert h hpc hm (hpub a ha) hne, fun a ha => ?_⟩
      rcases hpub a ha with hp | rfl
      · exact hs.low a hp
      · have hok := h.pcOk p
        rw [hpc] at hok
        have hkey := hok.1.1
        have hn : s.val a = key := hok.2.2.2.2.2.2.2.2.2.2
        show P.minKey - 1 ≤ s.val a
        omega
  | @erase key pred succ after hpc hm =>
      have hpub := hold (Or.inr ((by rw [hpc]; rfl)))
      exact ⟨fun a ha hne => hs.erase h hpc hm (hpub a ha) hne, fun a ha => hs.low a (hpub a ha)⟩

theorem reachable_sorted (h : Reachable (system P) s) : Sorted P s := by
  refine Reach.induct (P := Sorted P) (init_sorted P) (fun s a s' hr hs _ hn => ?_) h
  obtain ⟨c, hc⟩ := reachable_inv hr
  exact hs.effect hc (next_effect hn)

end Sorted

/-! ## §4. A thread that is left alone. -/

/-- The number of steps that are left up to the k-CAS of a call, at most. -/
def Pc.rank (P : Params) (val : Addr → Int) : Pc → ℕ
  | .searchTest _ _ _ succ => 2 * (P.maxKey + 1 - val succ).toNat + 4
  | .searchRead _ _ pred => 2 * (P.maxKey + 1 - val pred).toNat + 3
  | .searched _ _ _ _ => 3
  | .eraseRead _ _ _ => 2
  | .insertExecute _ _ _ _ | .eraseExecute _ _ _ _ => 1
  | .idle | .returned _ _ _ => 0

/-- For a call that begins. -/
def maxRank (P : Params) : ℕ := 2 * (P.maxKey - P.minKey + 2).toNat + 4

def Pc.InCall : Pc → Bool
  | .idle | .returned _ _ _ => false
  | _ => true

/-- `new Node()` of thread `p` may return `fresh`, now or when it has given back the
node it has. -/
def Fresh (s : State) (p : Tid) (fresh : Addr) : Prop :=
  fresh ≠ NULL ∧ (s.allocated fresh = false ∨ (s.thread p).privateNode = some fresh)

/-- The thread has returned, is nearer to its k-CAS, or has been overtaken and
begins again. -/
def Advances (P : Params) (s s' : State) (p : Tid) (fresh : Addr) : Prop :=
  (∃ op key result, s'.thread p = .returned op key result)
    ∨ Fresh s' p fresh ∧ (s'.thread p).InCall = true
      ∧ ((s'.thread p).rank P s'.val < (s.thread p).rank P s.val
        ∨ ¬ Current s (s.thread p) ∧ ∃ op key, s'.thread p = .searchTest op key head head)

section Solo

variable {P : Params} {s s' : State} {c : List Addr} {p : Tid} {fresh : Addr}

theorem rank_le (hs : Sorted P s) (h : Inv P s c) : (s.thread p).rank P s.val ≤ maxRank P := by
  have hok := h.pcOk p
  unfold maxRank
  cases hpc : s.thread p with
  | searchTest op key pred succ =>
      rw [hpc] at hok
      have hlow := hs.low succ hok.2.2.1
      simp only [Pc.rank]
      omega
  | searchRead op key pred =>
      rw [hpc] at hok
      have hlow := hs.low pred hok.2.1
      simp only [Pc.rank]
      omega
  | _ =>
      simp only [Pc.rank]
      omega

theorem Fresh.goto (h : Fresh s p fresh) {t : State} {pc : Pc} (hall : t.allocated = s.allocated)
    (hnone : (s.thread p).privateNode = none) : Fresh (t.goto p pc) p fresh := by
  refine ⟨h.1, Or.inl ?_⟩
  rw [goto_allocated, hall]
  refine h.2.resolve_right ?_
  rw [hnone]
  simp

/-- **One step.** -/
theorem solo_step (h : Inv P s c) (hs : Sorted P s) (hcall : (s.thread p).InCall = true)
    (hfresh : Fresh s p fresh) :
    ∃ s', next P s (.step p fresh) = some s' ∧ Advances P s s' p fresh := by
  have hok := h.pcOk p
  -- a step that leaves memory as it is
  have hgo : ∀ {pc pc'}, s.thread p = pc → pc.privateNode = none → pc'.InCall = true →
      pc'.rank P s.val < pc.rank P s.val → Advances P s (s.goto p pc') p fresh := by
    intro pc pc' hpc hnone hin hlt
    refine Or.inr ⟨hfresh.goto rfl (by rw [hpc]; exact hnone), ?_⟩
    rw [goto_self, hpc]
    exact ⟨hin, Or.inl hlt⟩
  have hreturns : ∀ {t : State} {op key result},
      Advances P s (t.goto p (.returned op key result)) p fresh := fun {_ op key result} =>
    Or.inl ⟨op, key, result, goto_self _ _ _⟩
  simp only [next, step]
  cases hpc : s.thread p with
  | idle =>
      rw [hpc] at hcall
      exact absurd hcall (by simp [Pc.InCall])
  | returned op key result =>
      rw [hpc] at hcall
      exact absurd hcall (by simp [Pc.InCall])
  | searchTest op key pred succ =>
      by_cases hstop : s.val succ = s.val tail ∨ key ≤ s.val succ
      · refine ⟨_, if_pos hstop, hgo hpc rfl rfl ?_⟩
        simp only [Pc.rank]
        omega
      · refine ⟨_, if_neg hstop, hgo hpc rfl rfl ?_⟩
        simp only [Pc.rank]
        omega
  | searchRead op key pred =>
      rw [hpc] at hok
      refine ⟨_, rfl, hgo hpc rfl rfl ?_⟩
      have hlt := hs.next pred hok.2.1 (h.ne_tail hok.1 (le_of_lt hok.2.2))
      have hkey := hok.1.2
      have hpred := hok.2.2
      simp only [Pc.rank, State.readPtr]
      omega
  | searched op key pred succ =>
      cases op with
      | contains => exact ⟨_, rfl, hreturns⟩
      | insertIfAbsent =>
          by_cases hval : s.val succ = key
          · exact ⟨_, if_pos hval, hreturns⟩
          · have hfree : s.allocated fresh = false := by
              refine hfresh.2.resolve_right ?_
              rw [hpc]
              simp [Pc.privateNode]
            have hnot : ¬ (fresh = NULL ∨ s.allocated fresh = true) := by
              rw [hfree]
              simp [hfresh.1]
            refine ⟨_, (if_neg hval).trans (if_neg hnot), Or.inr ⟨⟨hfresh.1, Or.inr ?_⟩, ?_, Or.inl ?_⟩⟩
            · rw [goto_self]
              rfl
            · rw [goto_self]
              rfl
            · rw [goto_self, hpc]
              simp [Pc.rank]
      | erase =>
          by_cases hval : s.val succ ≠ key
          · exact ⟨_, if_pos hval, hreturns⟩
          · refine ⟨_, if_neg hval, hgo hpc rfl rfl ?_⟩
            simp [Pc.rank]
  | insertExecute key pred succ n =>
      dsimp only
      by_cases hm : Matches s.word (insertEntries pred succ n)
      · rw [casN_of_matches hm]
        exact ⟨_, rfl, hreturns⟩
      · rw [casN_of_not_matches hm]
        refine ⟨_, rfl, Or.inr ⟨⟨hfresh.1, Or.inl ?_⟩, ?_, Or.inr ⟨fun hcur => hm ?_, ?_⟩⟩⟩
        · show Function.update s.allocated n false fresh = false
          by_cases hn : fresh = n
          · rw [hn, Function.update_self]
          · rw [Function.update_of_ne hn]
            refine hfresh.2.resolve_right ?_
            rw [hpc]
            exact fun heq => hn (Option.some.inj heq).symm
        · rw [goto_self]
          rfl
        · have hsucceeds := hcur.succeeds h (by rw [hpc]; rfl)
          unfold succeeds at hsucceeds
          rw [hpc] at hsucceeds
          exact of_decide_eq_true hsucceeds
        · exact ⟨_, _, goto_self _ _ _⟩
  | eraseRead key pred succ =>
      refine ⟨_, rfl, hgo hpc rfl rfl ?_⟩
      simp [Pc.rank]
  | eraseExecute key pred succ after =>
      dsimp only
      by_cases hm : Matches s.word (eraseEntries pred succ after)
      · rw [casN_of_matches hm]
        exact ⟨_, rfl, hreturns⟩
      · rw [casN_of_not_matches hm]
        refine ⟨_, rfl, Or.inr ⟨hfresh.goto rfl (by rw [hpc]; rfl), ?_, Or.inr ⟨fun hcur => hm ?_, ?_⟩⟩⟩
        · rw [goto_self]
          rfl
        · have hsucceeds := hcur.succeeds h (by rw [hpc]; rfl)
          unfold succeeds at hsucceeds
          rw [hpc] at hsucceeds
          exact of_decide_eq_true hsucceeds
        · exact ⟨_, _, goto_self _ _ _⟩

/-- `n` steps of the thread, from `s`, and it has returned. -/
def ReturnsAfter (P : Params) (s : State) (p : Tid) (fresh : Addr) (n : ℕ) : Prop :=
  ∃ s', (system P).exec s (List.replicate n (.step p fresh)) = some s'
    ∧ ∃ op key result, s'.thread p = .returned op key result

theorem ReturnsAfter.succ {n : ℕ} (hnext : next P s (.step p fresh) = some s')
    (h : ReturnsAfter P s' p fresh n) : ReturnsAfter P s p fresh (n + 1) := by
  obtain ⟨t, hexec, hreturned⟩ := h
  refine ⟨t, ?_, hreturned⟩
  show ((system P).next s (.step p fresh)).bind
    (fun s' => (system P).exec s' (List.replicate n (.step p fresh))) = some t
  rw [show (system P).next s (.step p fresh) = some s' from hnext]
  exact hexec

/-- A search that is not overtaken ends with its k-CAS. -/
theorem Current.returns (k : ℕ) : ∀ {s : State} {c : List Addr}, Inv P s c → Sorted P s →
    (s.thread p).InCall = true → Fresh s p fresh → Current s (s.thread p) →
    (s.thread p).rank P s.val ≤ k → ∃ n ≤ k, ReturnsAfter P s p fresh n := by
  induction k with
  | zero =>
      intro s c _ _ hcall _ _ hrank
      generalize s.thread p = pc at hcall hrank
      cases pc <;> simp [Pc.rank, Pc.InCall] at hrank hcall
  | succ k ih =>
      intro s c h hs hcall hfresh hcur hrank
      obtain ⟨s', hnext, hadvances⟩ := solo_step h hs hcall hfresh
      have he := next_effect hnext
      rcases hadvances with hreturned | ⟨hfresh', hcall', hlt | ⟨hnot, -⟩⟩
      · exact ⟨1, Nat.succ_le_succ (Nat.zero_le k), ReturnsAfter.succ hnext ⟨s', rfl, hreturned⟩⟩
      · obtain ⟨c', h'⟩ := h.effect he
        obtain ⟨n, hn, hreturns⟩ := ih h' (hs.effect h he) hcall' hfresh' (hcur.own h he)
          (Nat.le_of_lt_succ (Nat.lt_of_lt_of_le hlt hrank))
        exact ⟨n + 1, Nat.succ_le_succ hn, hreturns.succ hnext⟩
      · exact absurd hcur hnot

/-- A search that has been overtaken is followed by one that is not. -/
theorem solo_rank (k : ℕ) : ∀ {s : State} {c : List Addr}, Inv P s c → Sorted P s →
    (s.thread p).InCall = true → Fresh s p fresh → (s.thread p).rank P s.val ≤ k →
    ∃ n ≤ k + maxRank P, ReturnsAfter P s p fresh n := by
  induction k with
  | zero =>
      intro s c _ _ hcall _ hrank
      generalize s.thread p = pc at hcall hrank
      cases pc <;> simp [Pc.rank, Pc.InCall] at hrank hcall
  | succ k ih =>
      intro s c h hs hcall hfresh hrank
      obtain ⟨s', hnext, hadvances⟩ := solo_step h hs hcall hfresh
      have he := next_effect hnext
      obtain ⟨c', h'⟩ := h.effect he
      have hs' := hs.effect h he
      rcases hadvances with hreturned | ⟨hfresh', hcall', hlt | ⟨-, op, key, hpc⟩⟩
      · exact ⟨1, by omega, ReturnsAfter.succ hnext ⟨s', rfl, hreturned⟩⟩
      · obtain ⟨n, hn, hreturns⟩ := ih h' hs' hcall' hfresh'
          (Nat.le_of_lt_succ (Nat.lt_of_lt_of_le hlt hrank))
        exact ⟨n + 1, by omega, hreturns.succ hnext⟩
      · have hcur : Current s' (s'.thread p) := by
          rw [hpc]
          exact current_restart
        obtain ⟨n, hn, hreturns⟩ := hcur.returns (maxRank P) h' hs' hcall' hfresh' (rank_le hs' h')
        exact ⟨n + 1, by omega, hreturns.succ hnext⟩

/-- **A thread that is left alone returns**, from every reachable state: after one
k-CAS that has been overtaken, the next one succeeds. -/
theorem solo_returns (h : Reachable (system P) s) (hcall : (s.thread p).InCall = true)
    (hnull : fresh ≠ NULL) (hfree : s.allocated fresh = false) :
    ∃ n ≤ 4 * (P.maxKey - P.minKey + 4).toNat, ∃ s',
      (system P).exec s (List.replicate n (.step p fresh)) = some s'
        ∧ ∃ op key result, s'.thread p = .returned op key result := by
  obtain ⟨c, hinv⟩ := reachable_inv h
  have hsorted := reachable_sorted h
  obtain ⟨n, hn, hreturns⟩ := solo_rank _ hinv hsorted hcall ⟨hnull, Or.inl hfree⟩ (rank_le hsorted hinv)
  have hle := P.le
  refine ⟨n, hn.trans ?_, hreturns⟩
  unfold maxRank
  omega

theorem solo_returns_race :
    ∃ n ≤ 48, ∃ s', (system sampleParams).exec ((system sampleParams).after raceActions)
        (List.replicate n (.step 1 5)) = some s'
      ∧ ∃ op key result, s'.thread 1 = .returned op key result :=
  solo_returns ((system sampleParams).after_reachable raceActions (by decide +kernel))
    (by decide +kernel) (by decide) (by decide +kernel)

end Solo

end MultiCore.DoublyLinkedList
