/-
  MultiCore.ReclaimList.Invariant — what reclamation leaves of the list.

  The list invariant speaks of every published node, erased ones included,
  because a search may still walk through them.  Here erased nodes are taken
  back and handed out again.  `State.shadow` is the list without the nodes that
  no open guard can reach any more, and it keeps the list invariant:

    * a step of an operation is a step of `DoublyLinkedList` on the shadow;
    * when a guard closes, the shadow forgets nodes (`forget`).  An erased node
      was unlinked no later than the node behind it, so the nodes that are left
      do not point to forgotten ones (`Inv.pinned_next`);
    * what the record manager takes back is not in the shadow.

  A marked node is retired or about to be (`Inv.noLeak`), so that what is left
  when all calls have returned is the list.
-/
import MultiCore.ReclaimList.Model

namespace MultiCore.ReclaimList

open MultiCore.Lib MultiCore.Lib.Reclamation MultiCore.Kcas
open MultiCore.DoublyLinkedList (Tid Addr NULL Loc Field Params Op Pc head tail insertEntries
  eraseEntries Published OnList PcOk KeyOk)

/-! ## §1. Forgetting nodes. -/

/-- The shared nodes that the locals of a thread point to. -/
def known : Pc → List Addr
  | .idle | .returned _ _ _ => []
  | .searchTest _ _ pred succ => [pred, succ]
  | .searchRead _ _ pred => [pred]
  | .searched _ _ pred succ => [pred, succ]
  | .insertExecute _ pred succ _ => [pred, succ]
  | .eraseRead _ pred succ => [pred, succ]
  | .eraseExecute _ pred succ after => [pred, succ, after]

theorem known_of_idle {pc : Pc} (h : ¬ Active pc) : known pc = [] := by
  cases pc with
  | idle => rfl
  | returned _ _ _ => rfl
  | _ => exact absurd trivial h

section Forget

variable {P : Params} {s : DoublyLinkedList.State} {A : Addr → Bool}

theorem known_published {pc : Pc} (hpc : PcOk P s pc) : ∀ a ∈ known pc, Published s a := by
  intro a ha
  cases pc with
  | idle => exact absurd ha List.not_mem_nil
  | returned op key result => exact absurd ha List.not_mem_nil
  | searchTest op key pred succ =>
      rcases List.mem_pair.mp ha with rfl | rfl
      · exact hpc.2.1
      · exact hpc.2.2.1
  | searchRead op key pred =>
      rw [List.mem_singleton.mp ha]
      exact hpc.2.1
  | searched op key pred succ =>
      rcases List.mem_pair.mp ha with rfl | rfl
      · exact hpc.2.1
      · exact hpc.2.2.1
  | insertExecute key pred succ n =>
      rcases List.mem_pair.mp ha with rfl | rfl
      · exact hpc.2.1
      · exact hpc.2.2.1
  | eraseRead key pred succ =>
      rcases List.mem_pair.mp ha with rfl | rfl
      · exact hpc.2.1
      · exact hpc.2.2.1
  | eraseExecute key pred succ after =>
      rcases List.mem_cons.mp ha with rfl | ha
      · exact hpc.2.1
      · rcases List.mem_pair.mp ha with rfl | rfl
        · exact hpc.2.2.1
        · exact hpc.2.2.2.1

/-- What a thread knows does not depend on the nodes it does not know. -/
theorem pcOk_forget {pc : Pc}
    (hpub : ∀ a ∈ known pc, Published { s with allocated := A } a)
    (hnew : ∀ n, pc.privateNode = some n → A n = true) (hpc : PcOk P s pc) :
    PcOk P { s with allocated := A } pc := by
  cases pc with
  | idle => trivial
  | returned op key result => trivial
  | searchTest op key pred succ =>
      exact ⟨hpc.1, hpub pred (by simp [known]), hpub succ (by simp [known]), hpc.2.2.2⟩
  | searchRead op key pred => exact ⟨hpc.1, hpub pred (by simp [known]), hpc.2.2⟩
  | searched op key pred succ =>
      exact ⟨hpc.1, hpub pred (by simp [known]), hpub succ (by simp [known]), hpc.2.2.2⟩
  | insertExecute key pred succ n =>
      obtain ⟨hk, -, -, hlt, hgt, hnull, -, hrest⟩ := hpc
      exact ⟨hk, hpub pred (by simp [known]), hpub succ (by simp [known]), hlt, hgt, hnull,
        hnew n rfl, hrest⟩
  | eraseRead key pred succ =>
      exact ⟨hpc.1, hpub pred (by simp [known]), hpub succ (by simp [known]), hpc.2.2.2⟩
  | eraseExecute key pred succ after =>
      exact ⟨hpc.1, hpub pred (by simp [known]), hpub succ (by simp [known]),
        hpub after (by simp [known]), hpc.2.2.2.2⟩

/-- **Forgetting**: the invariant holds of a part of the nodes in use that
contains the list, the nodes behind its nodes and what the threads know. -/
theorem forget {c : List Addr} (h : DoublyLinkedList.Inv P s c)
    (hsub : ∀ a, A a = true → s.allocated a = true) (hlist : ∀ a ∈ c, A a = true)
    (hclosed : ∀ a, Published s a → a ≠ tail → A a = true → A (s.word (a, .next)) = true)
    (hnew : ∀ t n, (s.thread t).privateNode = some n → A n = true)
    (hknown : ∀ t, ∀ a ∈ known (s.thread t), A a = true) :
    DoublyLinkedList.Inv P { s with allocated := A } c := by
  have hpub : ∀ a, Published { s with allocated := A } a ↔ Published s a ∧ A a = true :=
    fun a => ⟨fun ha => ⟨⟨hsub a ha.1, ha.2⟩, ha.1⟩, fun ha => ⟨ha.2, ha.1.2⟩⟩
  refine
    { head_first := h.head_first, tail_last := h.tail_last, linked := h.linked,
      prev_head := h.prev_head, next_tail := h.next_tail, val_head := h.val_head,
      val_tail := h.val_tail, null_free := ?_, pub := ?_, marked := ?_, next_pub := ?_,
      count := h.count, private_inj := h.private_inj, pcOk := ?_ }
  · show A NULL = false
    rw [← Bool.not_eq_true]
    intro hnull
    exact absurd (hsub NULL hnull) (by rw [h.null_free]; simp)
  · exact fun a ha => (hpub a).mpr ⟨h.pub a ha, hlist a ha⟩
  · exact fun a ha => h.marked a ((hpub a).mp ha).1
  · intro a ha hat
    obtain ⟨hold, hA⟩ := (hpub a).mp ha
    exact (hpub _).mpr ⟨h.next_pub a hold hat, hclosed a hold hat hA⟩
  · intro t
    refine pcOk_forget ?_ (hnew t) (h.pcOk t)
    intro a ha
    exact (hpub a).mpr ⟨known_published (h.pcOk t) a ha, hknown t a ha⟩

end Forget

/-! ## §2. The shadow. -/

/-- The node has been erased. -/
def Marked (s : DoublyLinkedList.State) (a : Addr) : Prop := s.word (a, .mark) ≠ 0

/-- An insert has the node for itself. -/
def Owned (s : DoublyLinkedList.State) (a : Addr) : Prop :=
  ∃ t, (s.thread t).privateNode = some a

/-- The node is in use, and it is on the list or an open guard may reach it. -/
def Shown (s : State) (a : Addr) : Prop := s.mgr.Shown s.list.allocated (Marked s.list) a

open Classical in
/-- The list without the nodes that are about to be deallocated and those that
no guard can reach any more. -/
noncomputable def State.shadow (s : State) : DoublyLinkedList.State :=
  { s.list with allocated := fun a => decide (Shown s a) }

theorem shadow_allocated {s : State} {a : Addr} : s.shadow.allocated a = true ↔ Shown s a := by
  simp [State.shadow]

theorem not_shadow_allocated {s : State} {a : Addr} (h : s.list.allocated a = false) :
    s.shadow.allocated a = false := by
  rw [← Bool.not_eq_true, shadow_allocated]
  intro hs
  rw [hs.1] at h
  exact absurd h (by simp)

/-- A state with the shown nodes of `s` is its shadow. -/
theorem shadow_eq {s : State} {list : DoublyLinkedList.State}
    (hlist : list = { s.list with allocated := list.allocated })
    (hall : ∀ a, list.allocated a = true ↔ Shown s a) : s.shadow = list := by
  have halloc : s.shadow.allocated = list.allocated := by
    funext a
    rw [Bool.eq_iff_iff, shadow_allocated, hall]
  rw [hlist, ← halloc]
  rfl

/-- The invariant, with the chain `c` of the nodes on the list. -/
structure Inv (P : Params) (s : State) (c : List Addr) : Prop where
  list : DoublyLinkedList.Inv P s.shadow c
  mgr : s.mgr.Ok s.list.allocated
  agrees : s.mgr.Agrees (Marked s.list) (Owned s.list)
  noLeak : s.mgr.NoLeak s.list.allocated (Marked s.list)
  active : ∀ t, t ∉ s.mgr.guards → ¬ Active (s.list.thread t) ∧ s.mgr.calls t = []
  /-- An erased node was unlinked no later than the node behind it. -/
  pinned_next : ∀ a, Published s.shadow a → Marked s.list a →
    Marked s.list (s.list.word (a, .next)) →
    s.mgr.pinned a ⊆ s.mgr.pinned (s.list.word (a, .next))
  /-- The guard of a thread keeps what it knows. -/
  known : ∀ t, ∀ a ∈ known (s.list.thread t), Marked s.list a → t ∈ s.mgr.pinned a

namespace Inv

variable {P : Params} {s : State} {c : List Addr} (h : Inv P s c)
include h

theorem unmarked_iff {a : Addr} (ha : Published s.shadow a) : ¬ Marked s.list a ↔ a ∈ c :=
  not_not.trans (h.list.marked a ha)

theorem mem_shown {a : Addr} (ha : a ∈ c) : Shown s a ∧ ¬ Marked s.list a :=
  ⟨shadow_allocated.mp (h.list.pub a ha).1, (h.unmarked_iff (h.list.pub a ha)).mpr ha⟩

theorem head_mem : head ∈ c := List.mem_of_head? h.list.head_first

/-- The node behind a node on the list is on the list. -/
theorem next_mem {a : Addr} (ha : a ∈ c) (hne : a ≠ tail) : s.list.word (a, .next) ∈ c := by
  obtain ⟨l₁, l₂, hc⟩ := h.list.split_next ha hne
  have hmem : s.shadow.word (a, .next) ∈ l₁ ++ a :: s.shadow.word (a, .next) :: l₂ := by simp
  rw [← hc] at hmem
  exact hmem

/-- What is behind an unmarked node is unmarked. -/
theorem next_unmarked {a : Addr} (ha : Published s.shadow a) (hne : a ≠ tail)
    (hun : ¬ Marked s.list a) : ¬ Marked s.list (s.list.word (a, .next)) :=
  (h.mem_shown (h.next_mem ((h.unmarked_iff ha).mp hun) hne)).2

theorem owned_facts {t : Tid} {a : Addr} (ha : (s.list.thread t).privateNode = some a) :
    Shown s a ∧ ¬ Marked s.list a := by
  have ha' : (s.shadow.thread t).privateNode = some a := ha
  refine ⟨shadow_allocated.mp (h.list.private_node ha').1, ?_⟩
  have hpc := h.list.pcOk t
  cases hthread : s.shadow.thread t with
  | insertExecute key pred succ n =>
      rw [hthread] at hpc ha'
      have hn : n = a := Option.some.inj ha'
      obtain ⟨-, -, -, -, -, -, -, -, -, hmark, -⟩ := hpc
      rw [← hn]
      exact not_not.mpr hmark
  | _ =>
      rw [hthread] at ha'
      exact absurd ha' (by simp [Pc.privateNode])

/-- A thread with an open call has an open guard. -/
theorem open_of_active {t : Tid} (ha : Active (s.list.thread t)) : t ∈ s.mgr.guards := by
  by_contra hclosed
  exact (h.active t hclosed).1 ha

/-- What is on the list is in use and not being given back. -/
theorem mem_held {a : Addr} (ha : a ∈ c) : s.list.allocated a = true
    ∧ s.mgr.retired a = false ∧ ∀ u, ∀ c' ∈ s.mgr.calls u, c'.node ≠ a := by
  obtain ⟨hs, hun⟩ := h.mem_shown ha
  exact h.agrees.held hs hun

/-- **Nothing leaks**: a node in use is on the list, or an insert has it, or it
is being given back. -/
theorem mem_of_inUse {a : Addr} (ha : s.list.allocated a = true) (hown : ¬ Owned s.list a)
    (hret : s.mgr.retired a = false) (hcalls : ∀ u, ∀ c' ∈ s.mgr.calls u, c'.node ≠ a) :
    a ∈ c := by
  have hun : ¬ Marked s.list a := by
    intro hm
    rcases h.noLeak a ha hm with hr | ⟨u, hc⟩
    · rw [hret] at hr
      exact absurd hr (by simp)
    · exact hcalls u _ hc rfl
  have hs : Shown s a := ⟨ha, fun u hc => hcalls u _ hc rfl, fun hm => absurd hm hun⟩
  have hpub : Published s.shadow a :=
    ⟨shadow_allocated.mpr hs, fun t ht => hown ⟨t, ht⟩⟩
  exact (h.unmarked_iff hpub).mp hun

end Inv

/-! ## §3. Steps of the operations. -/

/-- The steps of a thread on its own do not depend on the nodes in use. -/
theorem LocalMove.shadow {P : Params} {s : State} {pc pc' : Pc}
    (hl : DoublyLinkedList.LocalMove P s.list pc pc') :
    DoublyLinkedList.LocalMove P s.shadow pc pc' := by
  cases hl with
  | call hpc hkey => exact .call hpc hkey
  | stop h => exact .stop h
  | advance h => exact .advance h
  | read => exact .read
  | containsReturn => exact .containsReturn
  | insertFound h => exact .insertFound h
  | eraseAbsent h => exact .eraseAbsent h
  | eraseFound h => exact .eraseFound h
  | eraseRead => exact .eraseRead
  | eraseRetry => exact .eraseRetry

/-- A thread that moves knows what it knew, `head`, or the node behind one that
it knew. -/
theorem known_move {P : Params} {s : DoublyLinkedList.State} {pc pc' : Pc}
    (hl : DoublyLinkedList.LocalMove P s pc pc') {a : Addr} (ha : a ∈ known pc') :
    a = head ∨ a ∈ known pc ∨ ∃ b ∈ known pc, a = s.word (b, .next) := by
  have hstart : a ∈ [head, head] → a = head := by
    intro hmem
    rcases List.mem_pair.mp hmem with heq | heq
    · exact heq
    · exact heq
  cases hl with
  | call _ _ => exact Or.inl (hstart ha)
  | stop _ => exact Or.inr (Or.inl ha)
  | advance _ =>
      rw [List.mem_singleton.mp ha]
      exact Or.inr (Or.inl (by simp [known]))
  | @read op key pred =>
      rcases List.mem_pair.mp ha with rfl | rfl
      · exact Or.inr (Or.inl (by simp [known]))
      · exact Or.inr (Or.inr ⟨pred, by simp [known], rfl⟩)
  | containsReturn => exact absurd ha List.not_mem_nil
  | insertFound _ => exact absurd ha List.not_mem_nil
  | eraseAbsent _ => exact absurd ha List.not_mem_nil
  | eraseFound _ => exact Or.inr (Or.inl ha)
  | @eraseRead key pred succ =>
      rcases List.mem_cons.mp ha with rfl | ha
      · exact Or.inr (Or.inl (by simp [known]))
      · rcases List.mem_pair.mp ha with rfl | rfl
        · exact Or.inr (Or.inl (by simp [known]))
        · exact Or.inr (Or.inr ⟨succ, by simp [known], rfl⟩)
  | eraseRetry => exact Or.inl (hstart ha)

end MultiCore.ReclaimList
