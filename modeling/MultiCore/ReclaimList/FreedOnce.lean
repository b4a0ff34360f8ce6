/-
  MultiCore.ReclaimList.FreedOnce — every node is freed exactly once.

  A node that has been handed out stays with the program until one call gives
  it back (`Effect.given_back`), and it cannot be given back a second time before
  it is handed out again (`Manager.Step.returned`, `Manager.Ok.pending`).  When
  all calls have returned, no insert has a node for itself, no call is pending
  and a marked node has been retired, so that the nodes that are left are those
  on the list (`Inv.mem_of_inUse`).  The destructor frees these, because `prev`
  inverts `next` along the chain (`destroyFrom_chain`).
-/
import MultiCore.ReclaimList.Steps

namespace MultiCore.ReclaimList

open MultiCore.Lib MultiCore.Lib.Reclamation MultiCore.Kcas
open MultiCore.DoublyLinkedList (Tid Addr NULL Loc Field Params Op Pc head tail insertEntries
  eraseEntries Published OnList PcOk KeyOk Link sampleParams)

/-! ## §1. The destructor. -/

/-- **The loop frees the rest of the chain**, one node behind the one it reads.
The induction is on the chain from `prev` on, all of it still in use. -/
theorem destroyFrom_chain {s : DoublyLinkedList.State} (htail : s.word (tail, .next) = NULL) :
    ∀ (rest : List Addr) (prev : Addr) (inUse : Addr → Bool) (fuel : ℕ), rest.length < fuel →
      (prev :: rest).IsChain (Link s) → (prev :: rest).getLast? = some tail →
      (prev :: rest).Nodup → (∀ a ∈ prev :: rest, inUse a = true ∧ a ≠ NULL) →
      destroyFrom s.word fuel inUse prev (s.word (prev, .next)) = some (prev :: rest) := by
  intro rest
  induction rest with
  | nil =>
      intro prev inUse fuel hfuel _ hlast _ hall
      obtain ⟨fuel, rfl⟩ : ∃ k, fuel = k + 1 := ⟨fuel - 1, by simp at hfuel; omega⟩
      have hprev : prev = tail := by simpa using hlast
      have huse := (hall prev List.mem_cons_self).1
      rw [hprev] at huse ⊢
      unfold destroyFrom deallocate
      rw [htail, if_neg (by simp), if_pos huse]
      rfl
  | cons curr rest ih =>
      intro prev inUse fuel hfuel hchain hlast hnodup hall
      obtain ⟨fuel, rfl⟩ : ∃ k, fuel = k + 1 := ⟨fuel - 1, by simp at hfuel; omega⟩
      obtain ⟨hlink, hchain'⟩ := List.isChain_cons_cons.mp hchain
      obtain ⟨hprev, hnodup'⟩ := List.nodup_cons.mp hnodup
      have hprevUse := (hall prev List.mem_cons_self).1
      obtain ⟨huse, hnull⟩ := hall curr (List.mem_cons_of_mem prev List.mem_cons_self)
      have hrec := ih curr (Function.update inUse prev false) fuel (by simp at hfuel; omega) hchain'
        (by simpa using hlast) hnodup' (by
          intro a ha
          obtain ⟨hain, hanull⟩ := hall a (List.mem_cons_of_mem prev ha)
          have hap : a ≠ prev := fun heq => hprev (heq ▸ ha)
          exact ⟨by rw [Function.update_of_ne hap]; exact hain, hanull⟩)
      unfold destroyFrom
      -- `curr` is in use, and its `prev` is the node before it
      simp only [hlink.1, ne_eq, hnull, not_false_eq_true, if_true, readPtr, deallocate, huse,
        hlink.2.1, hprevUse, Option.bind_eq_bind, Option.bind_some]
      rw [hrec]
      rfl

theorem Inv.destroys {P : Params} {s : State} {c : List Addr} (h : Inv P s c) {fuel : ℕ}
    (hfuel : c.length ≤ fuel) : destroy s fuel = some c := by
  obtain ⟨rest, rfl⟩ : ∃ rest, c = head :: rest := by
    have hfirst := h.list.head_first
    cases c with
    | nil => exact absurd hfirst (by simp)
    | cons a rest => exact ⟨rest, by rw [Option.some.inj hfirst]⟩
  have huse : ∀ a ∈ head :: rest, s.list.allocated a = true ∧ a ≠ NULL := fun a ha =>
    ⟨(h.mem_shown ha).1.1, h.list.ne_null_of_pub (h.list.pub a ha)⟩
  unfold destroy readPtr
  rw [if_pos (huse head List.mem_cons_self).1]
  exact destroyFrom_chain h.list.next_tail rest head s.list.allocated fuel hfuel h.list.linked
    h.list.tail_last h.list.nodup huse

/-! ## §2. What is asked of a run. -/

section Events

variable {P : Params} (r : Run (system P))

/-- The action at time `i` hands `a` out. -/
def Allocates (i : ℕ) (a : Addr) : Prop :=
  (r.state i).list.allocated a = false ∧ (r.state (i + 1)).list.allocated a = true

instance (i : ℕ) (a : Addr) : Decidable (Allocates r i a) :=
  inferInstanceAs (Decidable (_ ∧ _))

/-- From time `i` on, `a` is a node that was handed out then, by the constructor
or by an insert. -/
def Obtained (i : ℕ) (a : Addr) : Prop :=
  i = 0 ∧ (a = head ∨ a = tail) ∨ ∃ k < r.len, i = k + 1 ∧ Allocates r k a

/-- Between `i` and `j` the address `a` is not handed out again. -/
def SameNode (i j : ℕ) (a : Addr) : Prop := ∀ k, i ≤ k → k < j → ¬ Allocates r k a

/-- The action at time `i` is the call `c` of the record manager. -/
def Makes (i : ℕ) (c : Call Addr) : Prop :=
  i < r.len ∧ ∃ t fresh rest, r.act i = .step t fresh ∧ (r.state i).mgr.calls t = c :: rest

/-- The node is given back by a call at time `j`, or it is among the nodes
`freed` at the end of the run. -/
def GivesBack (freed : List Addr) (j : ℕ) (a : Addr) : Prop :=
  (∃ c, Makes r j c ∧ c.node = a) ∨ j = r.len ∧ a ∈ freed

/-- The k-CAS of an insert that has the node `a` fails at time `i`. -/
def FailsInsert (i : ℕ) (a : Addr) : Prop :=
  ∃ t fresh key pred succ, r.act i = .step t fresh
    ∧ (r.state i).list.thread t = .insertExecute key pred succ a
    ∧ (casN (r.state i).list.word (insertEntries pred succ a)).1 = false

/-- The k-CAS of an erase of the node `a` succeeds at time `i`. -/
def Unlinks (i : ℕ) (a : Addr) : Prop :=
  ∃ t fresh key pred after, r.act i = .step t fresh
    ∧ (r.state i).list.thread t = .eraseExecute key pred a after
    ∧ (casN (r.state i).list.word (eraseEntries pred a after)).1 = true

/-- Every node is given back once: in the run, or when the destructor frees the
nodes `freed`. -/
structure FreedOnce (freed : List Addr) : Prop where
  nodup : freed.Nodup
  onList : ∀ a, a ∈ freed ↔ OnList (r.state r.len).list a
  sentinels : head ∈ freed ∧ tail ∈ freed
  once : ∀ i a, Obtained r i a → ∃! j, i ≤ j ∧ SameNode r i j a ∧ GivesBack r freed j a
  /-- What is deallocated comes from a failed insert and was never reachable. -/
  deallocated : ∀ j a, Makes r j (.deallocate a) →
    (∃ i < j, SameNode r i j a ∧ FailsInsert r i a)
      ∧ ∀ i ≤ j, SameNode r i j a → ¬ OnList (r.state i).list a
  /-- What is retired has been unlinked by an erase and is unreachable since. -/
  retired : ∀ j a, Makes r j (.retire a) →
    ∃ i < j, SameNode r i j a ∧ Unlinks r i a ∧ OnList (r.state i).list a
      ∧ ∀ k, i < k → k ≤ r.len → SameNode r i k a → ¬ OnList (r.state k).list a

/-! ## §3. Giving back, once. -/

variable {r}

theorem SameNode.mono {i i' j j' : ℕ} {a : Addr} (h : SameNode r i j a) (hi : i ≤ i')
    (hj : j' ≤ j) : SameNode r i' j' a :=
  fun k h₁ h₂ => h k (hi.trans h₁) (h₂.trans_le hj)

/-- The call gives its node back. -/
theorem Makes.returned {i : ℕ} {c : Call Addr} (h : Makes r i c) :
    (r.state (i + 1)).mgr.Returned (r.state (i + 1)).list.allocated c.node := by
  obtain ⟨hi, t, fresh, rest, hact, hcalls⟩ := h
  have hstep : next P (r.state i) (r.act i) = some (r.state (i + 1)) := r.step i hi
  rw [hact] at hstep
  simp only [next, step, hcalls, Option.map_eq_some_iff] at hstep
  obtain ⟨⟨mgr, inUse⟩, hp, heq⟩ := hstep
  rw [← heq]
  exact Manager.perform_returned hcalls hp

/-- What a step gives back, it gives back by a call. -/
theorem Effect.given_back {s s' : State} {act : Action}
    (he : Effect P s act s') {a : Addr} (hno : ¬ s.mgr.Returned s.list.allocated a)
    (hret : s'.mgr.Returned s'.list.allocated a) :
    ∃ t fresh c' rest, act = .step t fresh ∧ s.mgr.calls t = c' :: rest ∧ c'.node = a := by
  cases he with
  | enter _ _ _ => exact absurd hret hno
  | move _ _ _ => exact absurd hret hno
  | @alloc t key pred succ n _ _ _ _ hfree =>
      exfalso
      rcases hret with hret | hret
      · exact hno (Or.inl hret)
      · have hret' : (holding s.list t key pred succ n).allocated a = false := hret
        rw [holding_allocated] at hret'
        split at hret'
        · exact absurd hret' (by simp)
        · exact hno (Or.inr hret')
  | insertRetry _ _ _ => exact absurd hret hno
  | insert _ _ _ => exact absurd hret hno
  | erase _ _ _ => exact absurd hret hno
  | @perform t fresh mgr inUse hp =>
      obtain ⟨c', rest, hhead, -, -, -, hor⟩ := Manager.perform_cases hp
      refine ⟨t, fresh, c', rest, rfl, hhead, ?_⟩
      by_contra hne
      have hret' : mgr.retired a = true ∨ inUse a = false := hret
      rcases hor with ⟨-, h₁, h₂⟩ | ⟨-, h₁, h₂⟩
      · rw [h₁, h₂, Function.update_of_ne (Ne.symm hne)] at hret'
        exact hno hret'
      · rw [h₁, h₂, Function.update_of_ne (Ne.symm hne)] at hret'
        exact hno hret'
  | leave _ _ => exact absurd hret hno
  | @reclaim b mgr inUse hr =>
      exfalso
      obtain ⟨hb, -, rfl, rfl⟩ := Manager.reclaim_cases hr
      have hab : a ≠ b := fun heq => hno (Or.inl (heq ▸ hb))
      have hret' : Function.update s.mgr.retired b false a = true
          ∨ Function.update s.list.allocated b false a = false := hret
      rw [Function.update_of_ne hab, Function.update_of_ne hab] at hret'
      exact hno hret'

/-- What is on the list has not been given back. -/
theorem Inv.not_given {s : State} {c : List Addr} (h : Inv P s c) {a : Addr} (ha : a ∈ c) :
    ¬ s.mgr.Given s.list.allocated a := by
  obtain ⟨huse, hret, hcalls⟩ := h.mem_held ha
  rintro ((hr | hf) | ⟨u, c', hc', hnode⟩)
  · rw [hret] at hr
    exact absurd hr (by simp)
  · rw [huse] at hf
    exact absurd hf (by simp)
  · exact hcalls u c' hc' hnode

theorem onList_iff {s : State} {c : List Addr} (h : Inv P s c) (a : Addr) :
    a ∈ c ↔ OnList s.list a := by
  have hshadow : ∀ b, OnList s.shadow b ↔ OnList s.list b := by
    intro b
    constructor
    · intro hb
      induction hb with
      | head => exact .head
      | next _ hne ih => exact .next ih hne
    · intro hb
      induction hb with
      | head => exact .head
      | next _ hne ih => exact .next ih hne
  rw [h.list.mem_iff_onList, hshadow]

theorem run_mgr {i : ℕ} (hi : i < r.len) :
    Manager.Step (r.state i).mgr (r.state i).list.allocated (r.state (i + 1)).mgr
      (r.state (i + 1)).list.allocated := by
  obtain ⟨c, hc⟩ := run_inv r (Nat.le_of_lt hi)
  exact hc.effect_mgr (next_effect (r.step i hi))

/-- What has been given back stays so until it is handed out again. -/
theorem returned_later {i j : ℕ} {a : Addr} (hij : i ≤ j) (hj : j ≤ r.len)
    (hsame : SameNode r i j a) (h : (r.state i).mgr.Returned (r.state i).list.allocated a) :
    (r.state j).mgr.Returned (r.state j).list.allocated a := by
  refine r.persists (P := fun s => s.mgr.Returned s.list.allocated a) hij hj h ?_
  intro k hik hkj hk hret
  exact ((run_mgr hk).returned hret).resolve_right (hsame k hik hkj)

theorem given_later {i j : ℕ} {a : Addr} (hij : i ≤ j) (hj : j ≤ r.len)
    (hsame : SameNode r i j a) (h : (r.state i).mgr.Given (r.state i).list.allocated a) :
    (r.state j).mgr.Given (r.state j).list.allocated a := by
  refine r.persists (P := fun s => s.mgr.Given s.list.allocated a) hij hj h ?_
  intro k hik hkj hk hgiven
  exact ((run_mgr hk).given hgiven).resolve_right (hsame k hik hkj)

/-- What has been obtained has not been given back. -/
theorem Obtained.not_returned {i : ℕ} {a : Addr} (h : Obtained r i a) :
    i ≤ r.len ∧ ¬ (r.state i).mgr.Returned (r.state i).list.allocated a := by
  rcases h with ⟨rfl, ha⟩ | ⟨k, hk, rfl, hfree, huse⟩
  · refine ⟨Nat.zero_le _, ?_⟩
    have hmem : a ∈ [head, tail] := List.mem_pair.mpr ha
    have hnot := (init_inv P).not_given hmem
    rw [r.start]
    exact fun hret => hnot (Or.inl hret)
  · obtain ⟨c, hc⟩ := run_inv r (Nat.le_of_lt hk)
    exact ⟨hk, (run_mgr hk).obtained hc.mgr hfree huse⟩

/-- **A node that is obtained is kept, or one call has given it back.** -/
theorem kept_or_made {i k : ℕ} {a : Addr} (hik : i ≤ k) (hk : k ≤ r.len)
    (h : ¬ (r.state i).mgr.Returned (r.state i).list.allocated a) :
    (∃ j, i ≤ j ∧ j < k ∧ SameNode r i j a ∧ ∃ c, Makes r j c ∧ c.node = a)
      ∨ SameNode r i k a ∧ ¬ (r.state k).mgr.Returned (r.state k).list.allocated a := by
  induction k, hik using Nat.le_induction with
  | base => exact Or.inr ⟨fun k h₁ h₂ => absurd h₂ (Nat.not_lt.mpr h₁), h⟩
  | succ k hik ih =>
      rcases ih (Nat.le_of_succ_le hk) with ⟨j, hij, hjk, hrest⟩ | ⟨hsame, hno⟩
      · exact Or.inl ⟨j, hij, Nat.lt_succ_of_lt hjk, hrest⟩
      · by_cases hret : (r.state (k + 1)).mgr.Returned (r.state (k + 1)).list.allocated a
        · obtain ⟨t, fresh, c', rest, hact, hcalls, hnode⟩ :=
            (next_effect (r.step k hk)).given_back hno hret
          exact Or.inl ⟨k, hik, Nat.lt_succ_self k, hsame, c', ⟨hk, t, fresh, rest, hact, hcalls⟩,
            hnode⟩
        · refine Or.inr ⟨?_, hret⟩
          intro l h₁ h₂ halloc
          rcases Nat.lt_succ_iff_lt_or_eq.mp h₂ with hlt | heq
          · exact hsame l h₁ hlt halloc
          · exact hno (Or.inr (heq ▸ halloc.1))

/-! ## §4. Where the calls come from. -/

/-- An insert has the node, or is about to deallocate it. -/
def Private (s : State) (a : Addr) : Prop :=
  Owned s.list a ∨ ∃ t, Call.deallocate a ∈ s.mgr.calls t

theorem Inv.not_private {s : State} {c : List Addr} (h : Inv P s c) {a : Addr} (ha : a ∈ c) :
    ¬ Private s a := by
  rintro (⟨t, ht⟩ | ⟨t, ht⟩)
  · exact (h.list.pub a ha).2 t ht
  · exact (h.mem_held ha).2.2 t _ ht rfl

/-- A node that is private was so before, or has just been handed out. -/
theorem Effect.private_before {s s' : State} {act : Action}
    (he : Effect P s act s') {a : Addr} (ha : Private s' a) :
    Private s a ∨ s.list.allocated a = false ∧ s'.list.allocated a = true := by
  cases he with
  | enter _ _ _ => exact Or.inl (ha.imp_left (owned_goto rfl rfl))
  | move _ _ hl => exact Or.inl (ha.imp_left (owned_goto rfl hl.privateNode_eq.2))
  | @alloc t key pred succ n _ _ _ _ hfree =>
      rcases ha with hown | hc
      · rcases holding_owned hown with hown | hmem
        · exact Or.inl (Or.inl hown)
        · right
          rw [List.mem_singleton.mp hmem]
          exact ⟨hfree, (holding_allocated n).trans (if_pos rfl)⟩
      · exact Or.inl (Or.inr hc)
  | @insertRetry t fresh key pred succ n hcalls hpc _ =>
      left
      rcases ha with hown | ⟨u, hc⟩
      · exact Or.inl (owned_goto rfl rfl hown)
      · rcases (Manager.mem_giveBack hcalls).mp hc with ⟨-, hc⟩ | hc
        · have han : a = n := Call.deallocate.inj (List.mem_singleton.mp hc)
          refine Or.inl ⟨t, ?_⟩
          rw [hpc, han]
          rfl
        · exact Or.inr ⟨u, hc⟩
  | insert _ _ _ =>
      exact Or.inl (ha.imp_left
        (owned_goto (l := { s.list with word := _, inserted := _ }) rfl rfl))
  | erase hcalls _ _ =>
      left
      rcases ha with hown | ⟨u, hc⟩
      · exact Or.inl (owned_goto (l := { s.list with word := _, erased := _ }) rfl rfl hown)
      · rcases (Manager.mem_giveBack hcalls).mp hc with ⟨-, hc⟩ | hc
        · exact absurd hc (by simp)
        · exact Or.inr ⟨u, hc⟩
  | @perform t fresh mgr inUse hp =>
      left
      obtain ⟨c', rest, hhead, -, -, hcalls, -⟩ := Manager.perform_cases hp
      refine ha.imp_right ?_
      rintro ⟨u, hc⟩
      have hc' : Call.deallocate a ∈ mgr.calls u := hc
      rw [hcalls, Function.update_apply] at hc'
      split at hc'
      · refine ⟨t, ?_⟩
        rw [hhead]
        exact List.mem_cons_of_mem c' hc'
      · exact ⟨u, hc'⟩
  | leave _ _ => exact Or.inl ha
  | reclaim hr =>
      obtain ⟨-, -, rfl, -⟩ := Manager.reclaim_cases hr
      exact Or.inl ha

/-- A node that is private now has been so since it was handed out. -/
theorem private_since {i j : ℕ} {a : Addr} (hij : i ≤ j) (hj : j ≤ r.len)
    (hsame : SameNode r i j a) (h : Private (r.state j) a) : Private (r.state i) a := by
  induction j, hij using Nat.le_induction with
  | base => exact h
  | succ j hij ih =>
      have hj' := Nat.le_of_succ_le hj
      have hprev := ((next_effect (r.step j hj)).private_before h).resolve_right
        (hsame j hij (Nat.lt_succ_self j))
      exact ih hj' (hsame.mono (Nat.le_refl i) (Nat.le_succ j)) hprev

/-- The k-CAS after which a call is made. -/
def Cause (r : Run (system P)) (i : ℕ) : Call Addr → Prop
  | .deallocate a => FailsInsert r i a
  | .retire a => Unlinks r i a ∧ OnList (r.state i).list a

/-- **Every call that is pending follows the k-CAS that has caused it**, and
until it is made the node is not handed out. -/
theorem cause {j : ℕ} (hj : j ≤ r.len) :
    ∀ t, ∀ c ∈ (r.state j).mgr.calls t, ∃ i < j, Cause r i c ∧ SameNode r i j c.node
      ∧ (r.state (i + 1)).mgr.Given (r.state (i + 1)).list.allocated c.node := by
  induction j with
  | zero =>
      intro t c hc
      rw [r.start] at hc
      exact absurd hc List.not_mem_nil
  | succ j ih =>
      intro t c hc
      have hj' := Nat.le_of_succ_le hj
      obtain ⟨ch, hinv⟩ := run_inv r hj'
      have heff := next_effect (r.step j hj)
      have hgiven : (r.state (j + 1)).mgr.Given (r.state (j + 1)).list.allocated c.node :=
        Or.inr ⟨t, c, hc, rfl⟩
      -- a call that was pending before keeps its cause
      have hbefore : ∀ u, c ∈ (r.state j).mgr.calls u →
          ∃ i < j + 1, Cause r i c ∧ SameNode r i (j + 1) c.node
            ∧ (r.state (i + 1)).mgr.Given (r.state (i + 1)).list.allocated c.node := by
        intro u hold
        obtain ⟨i, hi, hcause, hsame, hgiv⟩ := ih hj' u c hold
        refine ⟨i, Nat.lt_succ_of_lt hi, hcause, ?_, hgiv⟩
        intro k h₁ h₂ halloc
        rcases Nat.lt_succ_iff_lt_or_eq.mp h₂ with hlt | heq
        · exact hsame k h₁ hlt halloc
        · exact hinv.mgr.not_called (heq ▸ halloc.1) hold rfl
      -- one that is new has been caused by this step
      have hnew : Cause r j c → (r.state j).list.allocated c.node = true →
          ∃ i < j + 1, Cause r i c ∧ SameNode r i (j + 1) c.node
            ∧ (r.state (i + 1)).mgr.Given (r.state (i + 1)).list.allocated c.node := by
        intro hcause huse
        refine ⟨j, Nat.lt_succ_self j, hcause, ?_, hgiven⟩
        intro k h₁ h₂ halloc
        obtain rfl : k = j := Nat.le_antisymm (Nat.lt_succ_iff.mp h₂) h₁
        rw [halloc.1] at huse
        exact absurd huse (by simp)
      generalize hs' : r.state (j + 1) = s' at heff hc
      generalize hact : r.act j = act at heff
      cases heff with
      | enter _ _ _ => exact hbefore t hc
      | move _ _ _ => exact hbefore t hc
      | alloc _ _ _ _ _ => exact hbefore t hc
      | @insertRetry u fresh key pred succ n hcalls hpc hm =>
          rcases (Manager.mem_giveBack hcalls).mp hc with ⟨-, hmem⟩ | hold
          · rw [List.mem_singleton.mp hmem] at hnew ⊢
            refine hnew ?_ (hinv.owned_facts (t := u) (by rw [hpc]; rfl)).1.1
            exact ⟨u, fresh, key, pred, succ, hact, hpc, by rw [casN_of_not_matches hm]⟩
          · exact hbefore t hold
      | insert _ _ _ => exact hbefore t hc
      | @erase u fresh key pred succ after hcalls hpc hm =>
          rcases (Manager.mem_giveBack hcalls).mp hc with ⟨-, hmem⟩ | hold
          · rw [List.mem_singleton.mp hmem] at hnew ⊢
            have hsucc := (hinv.erasing hpc hm).2.1
            refine hnew ?_ (hinv.mem_held hsucc).1
            exact ⟨⟨u, fresh, key, pred, after, hact, hpc, by rw [casN_of_matches hm]⟩,
              (onList_iff hinv succ).mp hsucc⟩
          · exact hbefore t hold
      | @perform u fresh mgr inUse hp =>
          obtain ⟨c', rest, hhead, -, -, hcalls, -⟩ := Manager.perform_cases hp
          have hc' : c ∈ mgr.calls t := hc
          rw [hcalls, Function.update_apply] at hc'
          split at hc'
          · refine hbefore u ?_
            rw [hhead]
            exact List.mem_cons_of_mem c' hc'
          · exact hbefore t hc'
      | leave _ _ => exact hbefore t hc
      | reclaim hr =>
          obtain ⟨-, -, rfl, -⟩ := Manager.reclaim_cases hr
          exact hbefore t hc

end Events

/-! ## §5. Every run. -/

/-- **Every node is freed exactly once**: in every run after which all calls
have returned, the destructor ends without a fault. -/
theorem frees_once (P : Params) (r : Run (system P))
    (hquiet : (r.state r.len).mgr.guards = ∅) :
    ∃ freed, (∃ n, ∀ fuel, n ≤ fuel → destroy (r.state r.len) fuel = some freed)
      ∧ FreedOnce r freed := by
  obtain ⟨freed, hend⟩ := run_inv r (Nat.le_refl r.len)
  refine ⟨freed, ⟨freed.length, fun fuel hfuel => hend.destroys hfuel⟩, ?_⟩
  have hidle : ∀ t, ¬ Active ((r.state r.len).list.thread t) ∧ (r.state r.len).mgr.calls t = [] := by
    intro t
    refine hend.active t ?_
    rw [hquiet]
    exact Finset.notMem_empty t
  -- what is still in use is on the list
  have hleft : ∀ a, ¬ (r.state r.len).mgr.Returned (r.state r.len).list.allocated a →
      a ∈ freed := by
    intro a hno
    rw [Manager.Returned, not_or, Bool.not_eq_true, Bool.not_eq_false] at hno
    refine hend.mem_of_inUse hno.2 ?_ hno.1 ?_
    · rintro ⟨t, ht⟩
      have hpc := (hidle t).1
      cases hthread : (r.state r.len).list.thread t with
      | insertExecute key pred succ n =>
          rw [hthread] at hpc
          exact hpc trivial
      | _ =>
          rw [hthread] at ht
          exact absurd ht (by simp [Pc.privateNode])
    · intro u c hc
      rw [(hidle u).2] at hc
      exact absurd hc List.not_mem_nil
  refine
    { nodup := hend.list.nodup, onList := onList_iff hend,
      sentinels := ⟨hend.head_mem, List.mem_of_getLast? hend.list.tail_last⟩,
      once := ?_, deallocated := ?_, retired := ?_ }
  · intro i a hobt
    obtain ⟨hi, hno⟩ := hobt.not_returned
    have hlast : ∀ {j}, GivesBack r freed j a → j ≤ r.len := by
      rintro j (⟨c, hmakes, -⟩ | ⟨rfl, -⟩)
      · exact Nat.le_of_lt hmakes.1
      · exact Nat.le_refl _
    -- of two times, the node is back with the manager at the later one
    have hunique : ∀ {j j'}, i ≤ j → SameNode r i j' a → GivesBack r freed j a →
        GivesBack r freed j' a → ¬ j < j' := by
      intro j j' hij hsame hj hj' hlt
      have hjlen := hlast hj'
      rcases hj with ⟨c, hmakes, rfl⟩ | ⟨rfl, -⟩
      · have hret := returned_later (Nat.succ_le_of_lt hlt) hjlen
          (hsame.mono (Nat.le_succ_of_le hij) (Nat.le_refl j')) hmakes.returned
        rcases hj' with ⟨c', ⟨-, t, _, rest, -, hcalls⟩, hnode⟩ | ⟨rfl, hmem⟩
        · obtain ⟨ch, hinv⟩ := run_inv r hjlen
          refine hinv.mgr.pending t c' ?_ (hnode ▸ hret)
          rw [hcalls]
          exact List.mem_cons_self
        · exact hend.not_given hmem (Or.inl hret)
      · exact absurd hlt (Nat.not_lt.mpr hjlen)
    have hexists : ∃ j, i ≤ j ∧ SameNode r i j a ∧ GivesBack r freed j a := by
      rcases kept_or_made hi (Nat.le_refl r.len) hno with ⟨j, hij, -, hsame, hmakes⟩ | ⟨hsame, hkept⟩
      · exact ⟨j, hij, hsame, Or.inl hmakes⟩
      · exact ⟨r.len, hi, hsame, Or.inr ⟨rfl, hleft a hkept⟩⟩
    obtain ⟨j, hij, hsame, hj⟩ := hexists
    refine ⟨j, ⟨hij, hsame, hj⟩, ?_⟩
    rintro j' ⟨hij', hsame', hj'⟩
    rcases Nat.lt_trichotomy j j' with hlt | heq | hgt
    · exact absurd hlt (hunique hij hsame' hj hj')
    · exact heq.symm
    · exact absurd hgt (hunique hij' hsame hj' hj)
  · rintro j a ⟨hj, t, fresh, rest, -, hcalls⟩
    have hmem : Call.deallocate a ∈ (r.state j).mgr.calls t := by
      rw [hcalls]
      exact List.mem_cons_self
    have hj' := Nat.le_of_lt hj
    obtain ⟨i, hi, hcause, hsame, -⟩ := cause hj' t _ hmem
    refine ⟨⟨i, hi, hsame, hcause⟩, ?_⟩
    intro i hij hsame hon
    have hpriv := private_since hij hj' hsame (Or.inr ⟨t, hmem⟩)
    obtain ⟨c, hinv⟩ := run_inv r (hij.trans hj')
    exact hinv.not_private ((onList_iff hinv a).mpr hon) hpriv
  · rintro j a ⟨hj, t, fresh, rest, -, hcalls⟩
    have hmem : Call.retire a ∈ (r.state j).mgr.calls t := by
      rw [hcalls]
      exact List.mem_cons_self
    obtain ⟨i, hi, ⟨hunlinks, hon⟩, hsame, hgiven⟩ := cause (Nat.le_of_lt hj) t _ hmem
    refine ⟨i, hi, hsame, hunlinks, hon, ?_⟩
    intro k hik hk hsame' hreach
    have hlater := given_later (Nat.succ_le_of_lt hik) hk
      (hsame'.mono (Nat.le_succ i) (Nat.le_refl k)) hgiven
    obtain ⟨c, hinv⟩ := run_inv r hk
    exact hinv.not_given ((onList_iff hinv a).mpr hreach) hlater

/-- `k` steps of thread `t`, whose allocation returns `fresh`. -/
def steps (t : Tid) (k : Nat) (fresh : Addr) : List Action := List.replicate k (.step t fresh)

/-- Two threads insert 4, and the one whose k-CAS fails deallocates its node 5.
Thread 0 erases 4, the record manager takes the node 3 back, and thread 0 is
handed it out again. -/
def handedOutTwice : List Action :=
  [.invoke 0 .insertIfAbsent 4] ++ steps 0 4 3 ++ [.invoke 1 .insertIfAbsent 4] ++ steps 1 4 5
    ++ steps 0 1 0 ++ steps 1 6 0 ++ [.leave 1, .leave 0]
    ++ [.invoke 0 .erase 4] ++ steps 0 7 0 ++ [.leave 0, .reclaim 3]
    ++ [.invoke 0 .insertIfAbsent 7] ++ steps 0 5 3 ++ [.leave 0]

def handedOutTwiceRun : Run (system sampleParams) :=
  Run.ofActions (system sampleParams) handedOutTwice (.step 0 0) (by decide +kernel)

theorem frees_once_handedOutTwice :
    destroy (handedOutTwiceRun.state handedOutTwiceRun.len) 3 = some [1, 3, 2]
      ∧ ∃ freed, (∃ n, ∀ fuel, n ≤ fuel →
          destroy (handedOutTwiceRun.state handedOutTwiceRun.len) fuel = some freed)
        ∧ FreedOnce handedOutTwiceRun freed := by
  refine ⟨by decide +kernel, ?_⟩
  exact frees_once sampleParams handedOutTwiceRun (by decide +kernel)

end MultiCore.ReclaimList
