/-
  MultiCore.DoublyLinkedList.Invariant — the list invariant, kept by every
  step of every thread.

  The witness of the invariant is the chain itself: the list `c` of the nodes
  from `head` to `tail`.  An insert splices its private node in, an erase
  splices its victim out, and nothing else touches a published word.  The
  erase's k-CAS does not contain `succ->next`; that its `after` is still the
  node behind `succ` follows from `after->prev = succ` and `after` unmarked,
  because `prev` inverts `next` along the chain.
-/
import MultiCore.DoublyLinkedList.Model
import MultiCore.Lib.Chain

namespace MultiCore.DoublyLinkedList

open MultiCore.Lib MultiCore.Kcas

/-! ## §1. The invariant. -/

/-- Neighbours of the chain: `next` and `prev` agree and `val` increases. -/
def Link (s : State) (a b : Addr) : Prop :=
  s.word (a, .next) = b ∧ s.word (b, .prev) = a ∧ s.val a < s.val b

def KeyOk (P : Params) (key : Int) : Prop := P.minKey ≤ key ∧ key ≤ P.maxKey

/-- What a thread knows of its locals. -/
def PcOk (P : Params) (s : State) : Pc → Prop
  | .idle | .returned _ _ _ => True
  | .searchTest _ key pred succ =>
      KeyOk P key ∧ Published s pred ∧ Published s succ ∧ s.val pred < key
  | .searchRead _ key pred => KeyOk P key ∧ Published s pred ∧ s.val pred < key
  | .searched _ key pred succ =>
      KeyOk P key ∧ Published s pred ∧ Published s succ ∧ s.val pred < key ∧ key ≤ s.val succ
  | .insertExecute key pred succ n =>
      KeyOk P key ∧ Published s pred ∧ Published s succ ∧ s.val pred < key ∧ key < s.val succ
        ∧ n ≠ NULL ∧ s.allocated n = true ∧ s.word (n, .prev) = pred ∧ s.word (n, .next) = succ
        ∧ s.word (n, .mark) = 0 ∧ s.val n = key
  | .eraseRead key pred succ =>
      KeyOk P key ∧ Published s pred ∧ Published s succ ∧ s.val pred < key ∧ s.val succ = key
  | .eraseExecute key pred succ after =>
      KeyOk P key ∧ Published s pred ∧ Published s succ ∧ Published s after
        ∧ s.val pred < key ∧ s.val succ = key

/-- The invariant, with the chain `c` of the nodes on the list. -/
structure Inv (P : Params) (s : State) (c : List Addr) : Prop where
  head_first : c.head? = some head
  tail_last : c.getLast? = some tail
  linked : c.IsChain (Link s)
  prev_head : s.word (head, .prev) = NULL
  next_tail : s.word (tail, .next) = NULL
  val_head : s.val head = P.minKey - 1
  val_tail : s.val tail = P.maxKey + 1
  null_free : s.allocated NULL = false
  pub : ∀ a ∈ c, Published s a
  marked : ∀ a, Published s a → (s.word (a, .mark) = 0 ↔ a ∈ c)
  next_pub : ∀ a, Published s a → a ≠ tail → Published s (s.word (a, .next))
  count : ∀ k, KeyOk P k →
    s.inserted k = s.erased k + if ∃ a ∈ c, s.val a = k then 1 else 0
  private_inj : ∀ p q n, (s.thread p).privateNode = some n → (s.thread q).privateNode = some n →
    p = q
  pcOk : ∀ p, PcOk P s (s.thread p)

namespace Inv

variable {P : Params} {s : State} {c : List Addr}

theorem pairwise (h : Inv P s c) : c.Pairwise (fun a b => s.val a < s.val b) := by
  have htr : ∀ {a b d : Addr}, s.val a < s.val b → s.val b < s.val d → s.val a < s.val d :=
    fun h₁ h₂ => h₁.trans h₂
  have hc : c.IsChain (fun a b => s.val a < s.val b) := h.linked.imp (fun _ _ hl => hl.2.2)
  have : IsTrans Addr (fun a b => s.val a < s.val b) := ⟨fun _ _ _ h₁ h₂ => htr h₁ h₂⟩
  exact List.isChain_iff_pairwise.mp hc

theorem nodup (h : Inv P s c) : c.Nodup := by
  refine h.pairwise.imp ?_
  rintro a b hab rfl
  exact lt_irrefl _ hab

/-- Two chain nodes with one key are one node. -/
theorem eq_of_val_eq (h : Inv P s c) {a b : Addr} (ha : a ∈ c) (hb : b ∈ c)
    (hv : s.val a = s.val b) : a = b := by
  by_contra hne
  have hp := h.pairwise
  obtain ⟨i, hi, rfl⟩ := List.mem_iff_getElem.mp ha
  obtain ⟨j, hj, rfl⟩ := List.mem_iff_getElem.mp hb
  rw [List.pairwise_iff_getElem] at hp
  rcases Nat.lt_trichotomy i j with hij | hij | hij
  · exact absurd hv (hp i j hi hj hij).ne
  · subst hij
    exact hne rfl
  · exact absurd hv.symm (hp j i hj hi hij).ne

theorem ne_tail (h : Inv P s c) {a : Addr} {key : Int} (hk : KeyOk P key) (ha : s.val a ≤ key) :
    a ≠ tail := by
  rintro rfl
  have := h.val_tail
  have := hk.2
  omega

theorem ne_head (h : Inv P s c) {a : Addr} {key : Int} (hk : KeyOk P key) (ha : key ≤ s.val a) :
    a ≠ head := by
  rintro rfl
  have := h.val_head
  have := hk.1
  omega

/-- An unmarked published node other than `tail` is followed on the chain by
its `next`. -/
theorem split_next (h : Inv P s c) {a : Addr} (ha : a ∈ c) (hne : a ≠ tail) :
    ∃ l₁ l₂, c = l₁ ++ a :: s.word (a, .next) :: l₂ := by
  obtain ⟨l₁, y, l₂, rfl⟩ := exists_split_of_mem ha h.tail_last hne
  have hl : Link s a y := isChain_pair h.linked
  exact ⟨l₁, l₂, by rw [hl.1]⟩

/-- The chain node before a chain node other than `head` is its `prev`. -/
theorem split_prev (h : Inv P s c) {a : Addr} (ha : a ∈ c) (hne : a ≠ head) :
    ∃ l₁ l₂, c = l₁ ++ s.word (a, .prev) :: a :: l₂ := by
  obtain ⟨l₁, y, l₂, rfl⟩ := exists_split_of_mem' ha h.head_first hne
  have hl : Link s y a := isChain_pair h.linked
  exact ⟨l₁, l₂, by rw [hl.2.1]⟩

theorem ne_null_of_pub (h : Inv P s c) {a : Addr} (ha : Published s a) : a ≠ NULL := by
  rintro rfl
  exact absurd ha.1 (by rw [h.null_free]; simp)

/-- **The chain is what `next` reaches from `head`.** -/
theorem mem_iff_onList (h : Inv P s c) (a : Addr) : a ∈ c ↔ OnList s a := by
  constructor
  · intro ha
    have hall : ∀ b ∈ c, OnList s b := by
      have hpub : ∀ b ∈ c, b ≠ NULL := fun b hb => h.ne_null_of_pub (h.pub b hb)
      have hfirst : ∀ b, c.head? = some b → OnList s b := by
        intro b hb
        rw [h.head_first, Option.some.injEq] at hb
        exact hb ▸ OnList.head
      have hlink := h.linked
      clear ha h
      induction c with
      | nil => intro b hb; exact absurd hb List.not_mem_nil
      | cons x l ih =>
          have hx : OnList s x := hfirst x rfl
          rw [List.isChain_cons] at hlink
          have hl : ∀ b ∈ l, OnList s b := by
            refine ih (fun b hb => hpub b (List.mem_cons_of_mem _ hb)) ?_ hlink.2
            intro b hb
            have hxb : Link s x b := hlink.1 b (by simp [hb])
            have hmem : b ∈ l := List.mem_of_head? hb
            have hstep := OnList.next hx (hxb.1 ▸ hpub b (List.mem_cons_of_mem _ hmem))
            exact hxb.1 ▸ hstep
          intro b hb
          rcases List.mem_cons.mp hb with rfl | hb
          · exact hx
          · exact hl b hb
    exact hall a ha
  · intro ha
    induction ha with
    | head => exact List.mem_of_head? h.head_first
    | next _ hnn ih =>
        have hne : ∀ b : Addr, s.word (b, .next) ≠ NULL → b ≠ tail := by
          rintro b hb rfl
          exact hb h.next_tail
        obtain ⟨l₁, l₂, hc⟩ := h.split_next ih (hne _ hnn)
        rw [hc]
        simp

theorem keyOnList_iff (h : Inv P s c) (k : Int) : KeyOnList s k ↔ ∃ a ∈ c, s.val a = k := by
  constructor
  · rintro ⟨a, ha, hv⟩
    exact ⟨a, (h.mem_iff_onList a).mpr ha, hv⟩
  · rintro ⟨a, ha, hv⟩
    exact ⟨a, (h.mem_iff_onList a).mp ha, hv⟩

/-- Between a chain node and its `next` there is no key. -/
theorem not_keyOnList_between (h : Inv P s c) {a : Addr} {k : Int} (ha : a ∈ c) (hne : a ≠ tail)
    (h₁ : s.val a < k) (h₂ : k < s.val (s.word (a, .next))) : ¬ KeyOnList s k := by
  rw [h.keyOnList_iff]
  rintro ⟨b, hb, rfl⟩
  obtain ⟨l₁, l₂, hc⟩ := h.split_next ha hne
  have hp := h.pairwise
  rw [hc] at hb hp
  rw [List.pairwise_append] at hp
  simp only [List.pairwise_cons, List.mem_cons] at hp
  simp only [List.mem_append, List.mem_cons] at hb
  rcases hb with hb | rfl | rfl | hb
  · exact absurd (hp.2.2 b hb a (Or.inl rfl)) (lt_asymm h₁)
  · exact lt_irrefl _ h₁
  · exact lt_irrefl _ h₂
  · exact absurd (hp.2.1.2.1 b hb) (lt_asymm h₂)

end Inv

/-! ## §2. The initial state. -/

theorem init_inv (P : Params) : Inv P (init P) [head, tail] := by
  have hpub : ∀ a, Published (init P) a ↔ a = head ∨ a = tail := by
    intro a
    simp only [Published, init, State.initNode, head, tail, Function.update_apply, Pc.privateNode]
    constructor
    · rintro ⟨h, _⟩
      split at h
      · right; assumption
      · split at h
        · left; assumption
        · exact absurd h (by simp)
    · rintro (rfl | rfl) <;> simp
  refine
    { head_first := rfl, tail_last := rfl, linked := ?_, prev_head := rfl, next_tail := rfl,
      val_head := rfl, val_tail := rfl, null_free := rfl, pub := ?_, marked := ?_,
      next_pub := ?_, count := ?_, private_inj := ?_, pcOk := fun _ => trivial }
  · have hlt : (init P).val head < (init P).val tail := by
      have := P.le
      show P.minKey - 1 < P.maxKey + 1
      omega
    exact List.isChain_cons_cons.mpr ⟨⟨rfl, rfl, hlt⟩, List.isChain_singleton _⟩
  · intro a ha
    rw [hpub]
    simpa using ha
  · intro a ha
    rcases (hpub a).mp ha with rfl | rfl
    · exact ⟨fun _ => by simp, fun _ => rfl⟩
    · exact ⟨fun _ => by simp, fun _ => rfl⟩
  · intro a ha hne
    rcases (hpub a).mp ha with rfl | rfl
    · exact (hpub _).mpr (Or.inr rfl)
    · exact absurd rfl hne
  · intro k hk
    have h₁ : ¬ ∃ a ∈ [head, tail], (init P).val a = k := by
      rintro ⟨a, ha, hv⟩
      have hk₁ := hk.1
      have hk₂ := hk.2
      rcases List.mem_pair.mp ha with rfl | rfl
      · have : (init P).val head = P.minKey - 1 := rfl
        omega
      · have : (init P).val tail = P.maxKey + 1 := rfl
        omega
    rw [if_neg h₁]
    rfl
  · intro p q n hp
    exact absurd hp (by simp [init, State.initNode, Pc.privateNode])

/-! ## §3. What the two k-CASes write. -/

section Writes

variable (w : Loc → Word) (pred succ after n x : Addr)

theorem insert_next : commit w (insertEntries pred succ n) (x, .next)
    = if x = pred then n else w (x, .next) := by
  simp [insertEntries, addValAddr, addPtrAddr, Function.update_apply]

theorem insert_prev : commit w (insertEntries pred succ n) (x, .prev)
    = if x = succ then n else w (x, .prev) := by
  simp [insertEntries, addValAddr, addPtrAddr, Function.update_apply]

theorem insert_mark (hm : Matches w (insertEntries pred succ n)) :
    commit w (insertEntries pred succ n) (x, .mark) = w (x, .mark) := by
  simp only [insertEntries, addValAddr, addPtrAddr, matches_cons, Bool.toNat_false,
    Nat.zero_shiftLeft] at hm
  simp only [insertEntries, addValAddr, addPtrAddr, commit_cons, Function.update_apply,
    Prod.mk.injEq, reduceCtorEq, and_false, if_false, and_true, Bool.toNat_false,
    Nat.zero_shiftLeft, commit_nil]
  split
  · next h => rw [h, hm.1]
  · split
    · next h => rw [h, hm.2.1]
    · rfl

theorem insert_matches (hm : Matches w (insertEntries pred succ n)) :
    w (pred, .mark) = 0 ∧ w (succ, .mark) = 0 ∧ w (pred, .next) = succ ∧ w (succ, .prev) = pred := by
  simpa [insertEntries, addValAddr, addPtrAddr] using hm

theorem erase_next : commit w (eraseEntries pred succ after) (x, .next)
    = if x = pred then after else w (x, .next) := by
  simp [eraseEntries, addValAddr, addPtrAddr, Function.update_apply]

theorem erase_prev : commit w (eraseEntries pred succ after) (x, .prev)
    = if x = after then pred else w (x, .prev) := by
  simp [eraseEntries, addValAddr, addPtrAddr, Function.update_apply]

theorem erase_matches (hm : Matches w (eraseEntries pred succ after)) :
    w (pred, .mark) = 0 ∧ w (succ, .mark) = 0 ∧ w (after, .mark) = 0
      ∧ w (pred, .next) = succ ∧ w (after, .prev) = succ := by
  simpa [eraseEntries, addValAddr, addPtrAddr] using hm

theorem erase_mark (hm : Matches w (eraseEntries pred succ after)) (hps : pred ≠ succ) :
    commit w (eraseEntries pred succ after) (x, .mark)
      = if x = succ then 4 else w (x, .mark) := by
  obtain ⟨h₁, _, h₃, _, _⟩ := erase_matches w pred succ after hm
  simp only [eraseEntries, addValAddr, addPtrAddr, commit_cons, Function.update_apply,
    Prod.mk.injEq, reduceCtorEq, and_false, if_false, and_true, Bool.toNat_false,
    Nat.zero_shiftLeft, commit_nil, Bool.toNat_true, KCAS_LEFTSHIFT]
  by_cases hxp : x = pred
  · subst hxp
    rw [if_pos rfl, if_neg hps, h₁]
  · rw [if_neg hxp]
    by_cases hxs : x = succ
    · rw [if_pos hxs, if_pos hxs]
      rfl
    · rw [if_neg hxs, if_neg hxs]
      split
      · next h => rw [h, h₃]
      · rfl

end Writes

/-! ## §4. What every step leaves alone. -/

/-- A thread's knowledge survives a step that keeps the published nodes, their
values, and its own private node. -/
theorem PcOk.frame {P : Params} {s s' : State} {pc : Pc} (h : PcOk P s pc)
    (hpub : ∀ a, Published s a → Published s' a ∧ s'.val a = s.val a)
    (hpriv : ∀ n, pc.privateNode = some n →
      s'.allocated n = s.allocated n ∧ s'.val n = s.val n ∧ ∀ f, s'.word (n, f) = s.word (n, f)) :
    PcOk P s' pc := by
  cases pc with
  | idle => trivial
  | returned op key result => trivial
  | searchTest op key pred succ =>
      obtain ⟨hk, hp, hs, hlt⟩ := h
      exact ⟨hk, (hpub _ hp).1, (hpub _ hs).1, by rw [(hpub _ hp).2]; exact hlt⟩
  | searchRead op key pred =>
      obtain ⟨hk, hp, hlt⟩ := h
      exact ⟨hk, (hpub _ hp).1, by rw [(hpub _ hp).2]; exact hlt⟩
  | searched op key pred succ =>
      obtain ⟨hk, hp, hs, hlt, hle⟩ := h
      exact ⟨hk, (hpub _ hp).1, (hpub _ hs).1, by rw [(hpub _ hp).2]; exact hlt,
        by rw [(hpub _ hs).2]; exact hle⟩
  | insertExecute key pred succ n =>
      obtain ⟨hk, hp, hs, hlt, hgt, hn, ha, hwp, hwn, hwm, hv⟩ := h
      obtain ⟨ha', hv', hw'⟩ := hpriv n rfl
      refine ⟨hk, (hpub _ hp).1, (hpub _ hs).1, ?_, ?_, hn, ?_, ?_, ?_, ?_, ?_⟩
      · rw [(hpub _ hp).2]; exact hlt
      · rw [(hpub _ hs).2]; exact hgt
      · rw [ha']; exact ha
      · rw [hw']; exact hwp
      · rw [hw']; exact hwn
      · rw [hw']; exact hwm
      · rw [hv']; exact hv
  | eraseRead key pred succ =>
      obtain ⟨hk, hp, hs, hlt, hv⟩ := h
      exact ⟨hk, (hpub _ hp).1, (hpub _ hs).1, by rw [(hpub _ hp).2]; exact hlt,
        by rw [(hpub _ hs).2]; exact hv⟩
  | eraseExecute key pred succ after =>
      obtain ⟨hk, hp, hs, ha, hlt, hv⟩ := h
      exact ⟨hk, (hpub _ hp).1, (hpub _ hs).1, (hpub _ ha).1, by rw [(hpub _ hp).2]; exact hlt,
        by rw [(hpub _ hs).2]; exact hv⟩

theorem LocalMove.privateNode_eq {P : Params} {s : State} {pc pc' : Pc}
    (h : LocalMove P s pc pc') : pc.privateNode = none ∧ pc'.privateNode = none := by
  cases h with
  | call hpc _ => exact ⟨hpc, rfl⟩
  | _ => exact ⟨rfl, rfl⟩

/-- A thread that neither takes nor gives up a private node publishes nothing. -/
theorem published_goto {s t : State} {p : Tid} {pc : Pc} (hall : t.allocated = s.allocated)
    (hth : t.thread = s.thread) (h₁ : (s.thread p).privateNode = none)
    (h₂ : pc.privateNode = none) (a : Addr) : Published (t.goto p pc) a ↔ Published s a := by
  have hq : ∀ q, ((t.goto p pc).thread q).privateNode = (s.thread q).privateNode := by
    intro q
    rw [goto_thread]
    split
    · next heq => rw [heq, h₁, h₂]
    · rw [hth]
  simp only [Published, goto_allocated, hall, hq]

theorem private_inj_goto {s t : State} {p : Tid} {pc : Pc} (hth : t.thread = s.thread)
    (h₂ : pc.privateNode = none)
    (h : ∀ p q n, (s.thread p).privateNode = some n → (s.thread q).privateNode = some n → p = q) :
    ∀ q q' n, ((t.goto p pc).thread q).privateNode = some n →
      ((t.goto p pc).thread q').privateNode = some n → q = q' := by
  intro q q' n hq hq'
  rw [goto_thread] at hq hq'
  split at hq
  · rw [h₂] at hq
    exact absurd hq (by simp)
  · split at hq'
    · rw [h₂] at hq'
      exact absurd hq' (by simp)
    · rw [hth] at hq hq'
      exact h q q' n hq hq'

/-! ## §5. Step lemmas: one per effect. -/

section Steps

variable {P : Params} {s : State} {c : List Addr} {p : Tid}

/-- A local move keeps the chain, and the thread's knowledge grows with what
it has just read or compared. -/
theorem Inv.move (h : Inv P s c) {pc' : Pc} (hm : LocalMove P s (s.thread p) pc') :
    Inv P (s.goto p pc') c := by
  obtain ⟨hn, hn'⟩ := hm.privateNode_eq
  have hpub : ∀ a, Published (s.goto p pc') a ↔ Published s a := published_goto rfl rfl hn hn'
  have hknow : PcOk P s pc' := by
    have hown := h.pcOk p
    have hheadPub : Published s head := h.pub _ (List.mem_of_head? h.head_first)
    have hstart : ∀ op key, KeyOk P key → PcOk P s (.searchTest op key head head) := by
      intro op key hk
      refine ⟨hk, hheadPub, hheadPub, ?_⟩
      have := hk.1
      rw [h.val_head]
      omega
    generalize hpc : s.thread p = pc at hm hown
    cases hm with
    | call _ hk => exact hstart _ _ hk
    | stop hstop =>
        obtain ⟨hk, hp, hs, hlt⟩ := hown
        refine ⟨hk, hp, hs, hlt, ?_⟩
        rcases hstop with hstop | hstop
        · rw [hstop, h.val_tail]
          have := hk.2
          omega
        · exact hstop
    | advance hgo =>
        obtain ⟨hk, _, hs, _⟩ := hown
        exact ⟨hk, hs, by rw [not_or, not_le] at hgo; exact hgo.2⟩
    | read =>
        obtain ⟨hk, hp, hlt⟩ := hown
        exact ⟨hk, hp, h.next_pub _ hp (h.ne_tail hk hlt.le), hlt⟩
    | containsReturn => trivial
    | insertFound _ => trivial
    | eraseAbsent _ => trivial
    | eraseFound hv =>
        obtain ⟨hk, hp, hs, hlt, _⟩ := hown
        exact ⟨hk, hp, hs, hlt, hv⟩
    | eraseRead =>
        obtain ⟨hk, hp, hs, hlt, hv⟩ := hown
        exact ⟨hk, hp, hs, h.next_pub _ hs (h.ne_tail hk hv.le), hlt, hv⟩
    | eraseRetry => exact hstart _ _ hown.1
  exact
    { head_first := h.head_first, tail_last := h.tail_last, linked := h.linked
      prev_head := h.prev_head, next_tail := h.next_tail, val_head := h.val_head
      val_tail := h.val_tail, null_free := h.null_free
      pub := fun a ha => (hpub a).mpr (h.pub a ha)
      marked := fun a ha => h.marked a ((hpub a).mp ha)
      next_pub := fun a ha hne => (hpub _).mpr (h.next_pub a ((hpub a).mp ha) hne)
      count := h.count
      private_inj := private_inj_goto rfl hn' h.private_inj
      pcOk := by
        intro q
        have hframe : ∀ a, Published s a →
            Published (s.goto p pc') a ∧ (s.goto p pc').val a = s.val a :=
          fun a ha => ⟨(hpub a).mpr ha, rfl⟩
        rw [goto_thread]
        split
        · exact hknow.frame hframe (fun n _ => ⟨rfl, rfl, fun _ => rfl⟩)
        · exact (h.pcOk q).frame hframe (fun n _ => ⟨rfl, rfl, fun _ => rfl⟩) }

/-- A private node is allocated and is no published node. -/
theorem Inv.private_node (h : Inv P s c) {q : Tid} {n : Addr}
    (hq : (s.thread q).privateNode = some n) :
    s.allocated n = true ∧ n ≠ NULL ∧ ∀ a, Published s a → a ≠ n := by
  have hok := h.pcOk q
  have hnot : ∀ a, Published s a → a ≠ n := by
    rintro a ha rfl
    exact ha.2 q hq
  cases hpcq : s.thread q with
  | insertExecute key' pred' succ' n' =>
      rw [hpcq] at hq hok
      obtain rfl : n' = n := by simpa [Pc.privateNode] using hq
      exact ⟨hok.2.2.2.2.2.2.1, hok.2.2.2.2.2.1, hnot⟩
  | _ =>
      rw [hpcq] at hq
      exact absurd hq (by simp [Pc.privateNode])

/-- `new Node()` and `initNode` touch a node that nothing refers to. -/
theorem Inv.alloc (h : Inv P s c) {key : Int} {pred succ n : Addr}
    (hpc : s.thread p = .searched .insertIfAbsent key pred succ) (hval : s.val succ ≠ key)
    (hnull : n ≠ NULL) (hfree : s.allocated n = false) :
    Inv P ((s.initNode n pred succ key false).goto p (.insertExecute key pred succ n)) c := by
  set s' := (s.initNode n pred succ key false).goto p (.insertExecute key pred succ n) with hs'
  have hne : ∀ a, s.allocated a = true → a ≠ n := by
    rintro a ha rfl
    rw [hfree] at ha
    exact absurd ha (by simp)
  have hword : ∀ a f, a ≠ n → s'.word (a, f) = s.word (a, f) := by
    intro a f ha
    simp [hs', State.initNode, ha]
  have hvalEq : ∀ a, a ≠ n → s'.val a = s.val a := by
    intro a ha
    simp [hs', State.initNode, ha]
  have halloc : ∀ a, a ≠ n → s'.allocated a = s.allocated a := by
    intro a ha
    simp [hs', State.initNode, ha]
  have hpriv : ∀ q, (s'.thread q).privateNode
      = if q = p then some n else (s.thread q).privateNode := by
    intro q
    rw [hs', goto_thread]
    split <;> rfl
  have hpNone : (s.thread p).privateNode = none := by rw [hpc]; rfl
  have hprivNe : ∀ q a, (s.thread q).privateNode = some a → a ≠ n :=
    fun q a hq => hne a (h.private_node hq).1
  have hpub : ∀ a, Published s' a ↔ Published s a := by
    intro a
    constructor
    · rintro ⟨ha, hq⟩
      have han : a ≠ n := by
        rintro rfl
        exact hq p (by rw [hpriv, if_pos rfl])
      refine ⟨by rw [← halloc a han]; exact ha, fun q hqa => ?_⟩
      by_cases hqp : q = p
      · rw [hqp, hpNone] at hqa
        exact absurd hqa (by simp)
      · exact hq q (by rw [hpriv, if_neg hqp]; exact hqa)
    · rintro ⟨ha, hq⟩
      refine ⟨by rw [halloc a (hne a ha)]; exact ha, fun q hqa => ?_⟩
      rw [hpriv] at hqa
      split at hqa
      · exact hne a ha (by simpa using hqa.symm)
      · exact hq q hqa
  have hpubNe : ∀ a, Published s a → a ≠ n := fun a ha => hne a ha.1
  have hcNe : ∀ a ∈ c, a ≠ n := fun a ha => hpubNe a (h.pub a ha)
  have hhead : head ∈ c := List.mem_of_head? h.head_first
  have htail : tail ∈ c := List.mem_of_getLast? h.tail_last
  have hframe : ∀ a, Published s a → Published s' a ∧ s'.val a = s.val a :=
    fun a ha => ⟨(hpub a).mpr ha, hvalEq a (hpubNe a ha)⟩
  refine
    { head_first := h.head_first, tail_last := h.tail_last, linked := ?_
      prev_head := by rw [hword _ _ (hcNe _ hhead)]; exact h.prev_head
      next_tail := by rw [hword _ _ (hcNe _ htail)]; exact h.next_tail
      val_head := by rw [hvalEq _ (hcNe _ hhead)]; exact h.val_head
      val_tail := by rw [hvalEq _ (hcNe _ htail)]; exact h.val_tail
      null_free := by rw [halloc _ (Ne.symm hnull)]; exact h.null_free
      pub := fun a ha => (hpub a).mpr (h.pub a ha)
      marked := ?_, next_pub := ?_, count := ?_, private_inj := ?_, pcOk := ?_ }
  · refine h.linked.imp_of_mem_imp ?_
    intro a b ha hb hl
    refine ⟨?_, ?_, ?_⟩
    · rw [hword _ _ (hcNe a ha)]; exact hl.1
    · rw [hword _ _ (hcNe b hb)]; exact hl.2.1
    · rw [hvalEq _ (hcNe a ha), hvalEq _ (hcNe b hb)]; exact hl.2.2
  · intro a ha
    have ha' := (hpub a).mp ha
    rw [hword _ _ (hpubNe a ha')]
    exact h.marked a ha'
  · intro a ha hat
    have ha' := (hpub a).mp ha
    rw [hword _ _ (hpubNe a ha')]
    exact (hpub _).mpr (h.next_pub a ha' hat)
  · intro k hk
    have hiff : (∃ a ∈ c, s'.val a = k) ↔ ∃ a ∈ c, s.val a = k := by
      refine exists_congr fun a => and_congr_right fun ha => ?_
      rw [hvalEq a (hcNe a ha)]
    simp only [hiff]
    exact h.count k hk
  · intro q q' m hq hq'
    rw [hpriv] at hq hq'
    split at hq
    · next hqp =>
      split at hq'
      · next hqp' => rw [hqp, hqp']
      · obtain rfl : n = m := by simpa using hq
        exact absurd rfl (hprivNe q' n hq')
    · split at hq'
      · obtain rfl : n = m := by simpa using hq'
        exact absurd rfl (hprivNe q n hq)
      · exact h.private_inj q q' m hq hq'
  · intro q
    by_cases hqp : q = p
    · subst hqp
      have hown := h.pcOk q
      rw [hpc] at hown
      obtain ⟨hk, hp, hs, hlt, hle⟩ := hown
      have hth : s'.thread q = .insertExecute key pred succ n := by
        rw [hs', goto_thread, if_pos rfl]
      rw [hth]
      refine ⟨hk, (hframe _ hp).1, (hframe _ hs).1, ?_, ?_, hnull, ?_, ?_, ?_, ?_, ?_⟩
      · rw [(hframe _ hp).2]; exact hlt
      · rw [(hframe _ hs).2]; exact lt_of_le_of_ne hle (Ne.symm hval)
      all_goals simp [hs', State.initNode]
    · have hth : s'.thread q = s.thread q := by
        rw [hs', goto_thread, if_neg hqp]
        rfl
      rw [hth]
      refine (h.pcOk q).frame hframe ?_
      intro m hm
      have hmn := hprivNe q m hm
      exact ⟨halloc m hmn, hvalEq m hmn, fun f => hword m f hmn⟩

/-- `delete n` after a failed k-CAS gives back a node nobody else has seen. -/
theorem Inv.insertRetry (h : Inv P s c) {key : Int} {pred succ n : Addr}
    (hpc : s.thread p = .insertExecute key pred succ n) :
    Inv P ({ s with allocated := Function.update s.allocated n false }.goto p
      (.searchTest .insertIfAbsent key head head)) c := by
  set s' := ({ s with allocated := Function.update s.allocated n false } : State).goto p
    (.searchTest .insertIfAbsent key head head) with hs'
  have hown : (s.thread p).privateNode = some n := by rw [hpc]; rfl
  obtain ⟨_, hnull, hnpub⟩ := h.private_node hown
  have halloc : ∀ a, a ≠ n → s'.allocated a = s.allocated a := by
    intro a ha
    simp [hs', ha]
  have hpriv : ∀ q, (s'.thread q).privateNode
      = if q = p then none else (s.thread q).privateNode := by
    intro q
    rw [hs', goto_thread]
    split <;> rfl
  have hpub : ∀ a, Published s' a ↔ Published s a := by
    intro a
    constructor
    · rintro ⟨ha, hq⟩
      have han : a ≠ n := by
        rintro rfl
        simp [hs'] at ha
      refine ⟨by rw [← halloc a han]; exact ha, fun q hqa => ?_⟩
      by_cases hqp : q = p
      · rw [hqp, hown, Option.some.injEq] at hqa
        exact han hqa.symm
      · exact hq q (by rw [hpriv, if_neg hqp]; exact hqa)
    · intro ha
      refine ⟨by rw [halloc a (hnpub a ha)]; exact ha.1, fun q hqa => ?_⟩
      rw [hpriv] at hqa
      split at hqa
      · exact absurd hqa (by simp)
      · exact ha.2 q hqa
  have hframe : ∀ a, Published s a → Published s' a ∧ s'.val a = s.val a :=
    fun a ha => ⟨(hpub a).mpr ha, rfl⟩
  refine
    { head_first := h.head_first, tail_last := h.tail_last, linked := h.linked
      prev_head := h.prev_head, next_tail := h.next_tail, val_head := h.val_head
      val_tail := h.val_tail
      null_free := by rw [halloc _ (Ne.symm hnull)]; exact h.null_free
      pub := fun a ha => (hpub a).mpr (h.pub a ha)
      marked := fun a ha => h.marked a ((hpub a).mp ha)
      next_pub := fun a ha hne => (hpub _).mpr (h.next_pub a ((hpub a).mp ha) hne)
      count := h.count
      private_inj := private_inj_goto rfl rfl h.private_inj
      pcOk := ?_ }
  intro q
  have hownOk := h.pcOk p
  rw [hpc] at hownOk
  rw [hs', goto_thread]
  split
  · have hheadPub : Published s' head := (hpub _).mpr (h.pub _ (List.mem_of_head? h.head_first))
    refine ⟨hownOk.1, hheadPub, hheadPub, ?_⟩
    have := hownOk.1.1
    show s.val head < key
    rw [h.val_head]
    omega
  · next hqp =>
    refine (h.pcOk q).frame hframe ?_
    intro m hm
    have hmn : m ≠ n := by
      rintro rfl
      exact hqp (h.private_inj q p m hm hown)
    exact ⟨halloc m hmn, rfl, fun _ => rfl⟩

/-- **A successful insert splices its node in.** -/
theorem Inv.insert (h : Inv P s c) {key : Int} {pred succ n : Addr}
    (hpc : s.thread p = .insertExecute key pred succ n)
    (hm : Matches s.word (insertEntries pred succ n)) :
    ∃ l₁ l₂, c = l₁ ++ pred :: succ :: l₂ ∧
      Inv P ({ s with
        word := commit s.word (insertEntries pred succ n)
        inserted := Function.update s.inserted key (s.inserted key + 1) }.goto p
          (.returned .insertIfAbsent key true)) (l₁ ++ pred :: n :: succ :: l₂) := by
  set s' := ({ s with
        word := commit s.word (insertEntries pred succ n)
        inserted := Function.update s.inserted key (s.inserted key + 1) } : State).goto p
          (.returned .insertIfAbsent key true) with hs'
  have hownOk := h.pcOk p
  rw [hpc] at hownOk
  obtain ⟨hk, hpp, hsp, hplt, hslt, hnull, hnall, hnprev, hnnext, hnmark, hnval⟩ := hownOk
  obtain ⟨hpm, hsm, hpnext, hsprev⟩ := insert_matches _ _ _ _ hm
  have hown : (s.thread p).privateNode = some n := by rw [hpc]; rfl
  obtain ⟨_, _, hnpub⟩ := h.private_node hown
  have hpc' : pred ∈ c := (h.marked pred hpp).mp hpm
  obtain ⟨l₁, l₂, hc⟩ := h.split_next hpc' (h.ne_tail hk hplt.le)
  rw [hpnext] at hc
  subst hc
  refine ⟨l₁, l₂, rfl, ?_⟩
  have hpn : pred ≠ n := hnpub pred hpp
  have hsn : succ ≠ n := hnpub succ hsp
  have hpriv : ∀ q, (s'.thread q).privateNode
      = if q = p then none else (s.thread q).privateNode := by
    intro q
    rw [hs', goto_thread]
    split <;> rfl
  have hpub : ∀ a, Published s' a ↔ Published s a ∨ a = n := by
    intro a
    constructor
    · rintro ⟨ha, hq⟩
      by_cases han : a = n
      · exact Or.inr han
      · refine Or.inl ⟨ha, fun q hqa => ?_⟩
        by_cases hqp : q = p
        · rw [hqp, hown, Option.some.injEq] at hqa
          exact han hqa.symm
        · exact hq q (by rw [hpriv, if_neg hqp]; exact hqa)
    · rintro (ha | rfl)
      · refine ⟨ha.1, fun q hqa => ?_⟩
        rw [hpriv] at hqa
        split at hqa
        · exact absurd hqa (by simp)
        · exact ha.2 q hqa
      · refine ⟨hnall, fun q hqa => ?_⟩
        rw [hpriv] at hqa
        split at hqa
        · exact absurd hqa (by simp)
        · next hqp => exact hqp (h.private_inj q p a hqa hown)
  have hnext : ∀ x, s'.word (x, .next) = if x = pred then n else s.word (x, .next) :=
    insert_next s.word pred succ n
  have hprev : ∀ x, s'.word (x, .prev) = if x = succ then n else s.word (x, .prev) :=
    insert_prev s.word pred succ n
  have hmark : ∀ x, s'.word (x, .mark) = s.word (x, .mark) :=
    fun x => insert_mark s.word pred succ n x hm
  have hmem : ∀ a, a ∈ l₁ ++ pred :: n :: succ :: l₂ ↔ a ∈ l₁ ++ pred :: succ :: l₂ ∨ a = n := by
    intro a
    simp only [List.mem_append, List.mem_cons]
    tauto
  have hframe : ∀ a, Published s a → Published s' a ∧ s'.val a = s.val a :=
    fun a ha => ⟨(hpub a).mpr (Or.inl ha), rfl⟩
  refine
    { head_first := ?_, tail_last := ?_, linked := ?_, prev_head := ?_, next_tail := ?_
      val_head := h.val_head, val_tail := h.val_tail, null_free := h.null_free
      pub := ?_, marked := ?_, next_pub := ?_, count := ?_
      private_inj := private_inj_goto rfl rfl h.private_inj, pcOk := ?_ }
  · have := h.head_first
    cases l₁ <;> simpa using this
  · have := h.tail_last
    simpa [List.getLast?_append, List.getLast?_cons_cons] using this
  · refine isChain_splice_in h.linked h.nodup ?_ ?_ ?_
    · rintro x y ⟨h₁, h₂, h₃⟩ hx hy
      exact ⟨by rw [hnext, if_neg hx]; exact h₁, by rw [hprev, if_neg hy]; exact h₂, h₃⟩
    · refine ⟨by rw [hnext, if_pos rfl], ?_, ?_⟩
      · rw [hprev, if_neg (Ne.symm hsn)]; exact hnprev
      · show s.val pred < s.val n
        rw [hnval]; exact hplt
    · refine ⟨?_, by rw [hprev, if_pos rfl], ?_⟩
      · rw [hnext, if_neg (Ne.symm hpn)]; exact hnnext
      · show s.val n < s.val succ
        rw [hnval]; exact hslt
  · rw [hprev, if_neg (h.ne_head hk hslt.le).symm]; exact h.prev_head
  · rw [hnext, if_neg (h.ne_tail hk hplt.le).symm]; exact h.next_tail
  · intro a ha
    rw [hpub]
    exact ((hmem a).mp ha).imp (h.pub a) id
  · intro a ha
    rw [hmark, hmem]
    rcases (hpub a).mp ha with ha | rfl
    · rw [h.marked a ha]
      exact (or_iff_left (hnpub a ha)).symm
    · exact ⟨fun _ => Or.inr rfl, fun _ => hnmark⟩
  · intro a ha hat
    rw [hnext, hpub]
    split
    · exact Or.inr rfl
    · rcases (hpub a).mp ha with ha | rfl
      · exact Or.inl (h.next_pub a ha hat)
      · rw [hnnext]; exact Or.inl hsp
  · intro k hkk
    have hcount := h.count k hkk
    have hiff : (∃ a ∈ l₁ ++ pred :: n :: succ :: l₂, s'.val a = k)
        ↔ (∃ a ∈ l₁ ++ pred :: succ :: l₂, s.val a = k) ∨ key = k := by
      constructor
      · rintro ⟨a, ha, hv⟩
        rcases (hmem a).mp ha with ha | rfl
        · exact Or.inl ⟨a, ha, hv⟩
        · exact Or.inr (hnval ▸ hv)
      · rintro (⟨a, ha, hv⟩ | hv)
        · exact ⟨a, (hmem a).mpr (Or.inl ha), hv⟩
        · exact ⟨n, (hmem n).mpr (Or.inr rfl), hnval.trans hv⟩
    -- the key was not on the list: `pred` and `succ` enclose it
    have habsent : ¬ ∃ a ∈ l₁ ++ pred :: succ :: l₂, s.val a = key := by
      rw [← h.keyOnList_iff]
      exact h.not_keyOnList_between hpc' (h.ne_tail hk hplt.le) hplt (by rw [hpnext]; exact hslt)
    simp only [hiff]
    show Function.update s.inserted key (s.inserted key + 1) k = s.erased k + _
    by_cases hkey : k = key
    · subst hkey
      rw [Function.update_self]
      rw [if_neg habsent] at hcount
      rw [if_pos (Or.inr rfl), hcount]
    · rw [Function.update_of_ne hkey, hcount]
      simp only [Ne.symm hkey, or_false]
  · intro q
    by_cases hqp : q = p
    · subst hqp
      rw [hs', goto_thread, if_pos rfl]
      trivial
    · have hth : s'.thread q = s.thread q := by
        rw [hs', goto_thread, if_neg hqp]
      rw [hth]
      refine (h.pcOk q).frame hframe ?_
      intro m hmq
      obtain ⟨_, _, hmpub⟩ := h.private_node hmq
      refine ⟨rfl, rfl, fun f => ?_⟩
      cases f with
      | prev => rw [hprev, if_neg (Ne.symm (hmpub succ hsp))]
      | next => rw [hnext, if_neg (Ne.symm (hmpub pred hpp))]
      | mark => exact hmark m

/-- **A successful erase splices its victim out**: although `succ->next` is not
among its entries, `after` is the node behind `succ`. -/
theorem Inv.erase (h : Inv P s c) {key : Int} {pred succ after : Addr}
    (hpc : s.thread p = .eraseExecute key pred succ after)
    (hm : Matches s.word (eraseEntries pred succ after)) :
    ∃ l₁ l₂, c = l₁ ++ pred :: succ :: after :: l₂ ∧
      Inv P ({ s with
        word := commit s.word (eraseEntries pred succ after)
        erased := Function.update s.erased key (s.erased key + 1) }.goto p
          (.returned .erase key true)) (l₁ ++ pred :: after :: l₂) := by
  set s' := ({ s with
        word := commit s.word (eraseEntries pred succ after)
        erased := Function.update s.erased key (s.erased key + 1) } : State).goto p
          (.returned .erase key true) with hs'
  have hownOk := h.pcOk p
  rw [hpc] at hownOk
  obtain ⟨hk, hpp, hsp, hap, hplt, hsval⟩ := hownOk
  obtain ⟨hpm, hsm, ham, hpnext, haprev⟩ := erase_matches _ _ _ _ hm
  have hpc' : pred ∈ c := (h.marked pred hpp).mp hpm
  have hac : after ∈ c := (h.marked after hap).mp ham
  have hps : pred ≠ succ := by
    rintro rfl
    omega
  -- `prev` inverts `next`: the node before `after` is `succ`
  have hah : after ≠ head := by
    rintro rfl
    rw [h.prev_head] at haprev
    exact h.ne_null_of_pub hsp haprev.symm
  have hsa : s.word (succ, .next) = after := by
    obtain ⟨m₁, m₂, hc⟩ := h.split_prev hac hah
    have hl := h.linked
    rw [hc, haprev] at hl
    exact (isChain_pair hl).1
  obtain ⟨l₁, l₂, hc⟩ := h.split_next hpc' (h.ne_tail hk hplt.le)
  rw [hpnext] at hc
  obtain ⟨l₂', rfl⟩ : ∃ l₂', l₂ = after :: l₂' := by
    have hscne : succ ≠ tail := h.ne_tail hk hsval.le
    cases l₂ with
    | nil =>
        have := h.tail_last
        rw [hc] at this
        simp only [List.getLast?_append, List.getLast?_cons_cons, List.getLast?_singleton,
          Option.some_or, Option.some.injEq] at this
        exact absurd this hscne
    | cons y l₂ =>
        have hl := h.linked
        rw [hc] at hl
        have hsy : Link s succ y := by
          have := (List.isChain_append_cons_cons.mp hl).2.2
          exact (List.isChain_cons_cons.mp this).1
        exact ⟨l₂, by rw [← hsy.1, hsa]⟩
  subst hc
  refine ⟨l₁, l₂', rfl, ?_⟩
  have hnd := h.nodup
  have hpub : ∀ a, Published s' a ↔ Published s a :=
    published_goto rfl rfl (by rw [hpc]; rfl) rfl
  have hnext : ∀ x, s'.word (x, .next) = if x = pred then after else s.word (x, .next) :=
    erase_next s.word pred succ after
  have hprev : ∀ x, s'.word (x, .prev) = if x = after then pred else s.word (x, .prev) :=
    erase_prev s.word pred succ after
  have hmark : ∀ x, s'.word (x, .mark) = if x = succ then 4 else s.word (x, .mark) :=
    fun x => erase_mark s.word pred succ after x hm hps
  have hvlt : s.val succ < s.val after := by
    have := (List.isChain_append_cons_cons.mp h.linked).2.2
    exact (List.isChain_cons_cons.mp this).1.2.2
  have hsnot : succ ∉ l₁ ++ pred :: after :: l₂' := by
    have hperm : (l₁ ++ pred :: succ :: after :: l₂').Perm
        (succ :: (l₁ ++ pred :: after :: l₂')) := by
      have h₁ : l₁ ++ pred :: succ :: after :: l₂' = (l₁ ++ [pred]) ++ succ :: after :: l₂' := by
        simp
      have h₂ : l₁ ++ pred :: after :: l₂' = (l₁ ++ [pred]) ++ after :: l₂' := by simp
      rw [h₁, h₂]
      exact List.perm_middle
    exact (List.nodup_cons.mp (hperm.nodup_iff.mp hnd)).1
  have hmem : ∀ a, a ∈ l₁ ++ pred :: succ :: after :: l₂'
      ↔ a ∈ l₁ ++ pred :: after :: l₂' ∨ a = succ := by
    intro a
    simp only [List.mem_append, List.mem_cons]
    tauto
  have hframe : ∀ a, Published s a → Published s' a ∧ s'.val a = s.val a :=
    fun a ha => ⟨(hpub a).mpr ha, rfl⟩
  refine
    { head_first := ?_, tail_last := ?_, linked := ?_, prev_head := ?_, next_tail := ?_
      val_head := h.val_head, val_tail := h.val_tail, null_free := h.null_free
      pub := ?_, marked := ?_, next_pub := ?_, count := ?_
      private_inj := private_inj_goto rfl rfl h.private_inj, pcOk := ?_ }
  · have := h.head_first
    cases l₁ <;> simpa using this
  · have := h.tail_last
    simpa [List.getLast?_append, List.getLast?_cons_cons] using this
  · refine isChain_splice_out h.linked hnd ?_ ?_
    · rintro x y ⟨h₁, h₂, h₃⟩ hx hy
      exact ⟨by rw [hnext, if_neg hx]; exact h₁, by rw [hprev, if_neg hy]; exact h₂, h₃⟩
    · refine ⟨by rw [hnext, if_pos rfl], by rw [hprev, if_pos rfl], ?_⟩
      show s.val pred < s.val after
      omega
  · rw [hprev, if_neg (Ne.symm hah)]; exact h.prev_head
  · rw [hnext, if_neg (h.ne_tail hk hplt.le).symm]; exact h.next_tail
  · intro a ha
    exact (hpub a).mpr (h.pub a ((hmem a).mpr (Or.inl ha)))
  · intro a ha
    rw [hmark]
    split
    · next has =>
      subst has
      exact ⟨fun h4 => absurd h4 (by simp), fun hin => absurd hin hsnot⟩
    · next has =>
      rw [h.marked a ((hpub a).mp ha), hmem]
      exact or_iff_left has
  · intro a ha hat
    rw [hnext, hpub]
    split
    · exact hap
    · exact h.next_pub a ((hpub a).mp ha) hat
  · intro k hkk
    have hcount := h.count k hkk
    have hiff : (∃ a ∈ l₁ ++ pred :: after :: l₂', s'.val a = k)
        ↔ (∃ a ∈ l₁ ++ pred :: succ :: after :: l₂', s.val a = k) ∧ k ≠ key := by
      constructor
      · rintro ⟨a, ha, hv⟩
        refine ⟨⟨a, (hmem a).mpr (Or.inl ha), hv⟩, ?_⟩
        rintro rfl
        have := h.eq_of_val_eq ((hmem a).mpr (Or.inl ha)) ((hmem succ).mpr (Or.inr rfl))
          (Eq.trans hv hsval.symm)
        exact hsnot (this ▸ ha)
      · rintro ⟨⟨a, ha, hv⟩, hne⟩
        rcases (hmem a).mp ha with ha | rfl
        · exact ⟨a, ha, hv⟩
        · exact absurd (hv.symm.trans hsval) hne
    simp only [hiff]
    show s.inserted k = Function.update s.erased key (s.erased key + 1) k + _
    by_cases hkey : k = key
    · subst hkey
      have hin : ∃ a ∈ l₁ ++ pred :: succ :: after :: l₂', s.val a = k :=
        ⟨succ, (hmem succ).mpr (Or.inr rfl), hsval⟩
      rw [if_pos hin] at hcount
      rw [Function.update_self, hcount]
      simp
    · rw [Function.update_of_ne hkey, hcount]
      simp only [ne_eq, hkey, not_false_eq_true, and_true]
  · intro q
    by_cases hqp : q = p
    · subst hqp
      rw [hs', goto_thread, if_pos rfl]
      trivial
    · have hth : s'.thread q = s.thread q := by
        rw [hs', goto_thread, if_neg hqp]
      rw [hth]
      refine (h.pcOk q).frame hframe ?_
      intro m hmq
      obtain ⟨_, _, hmpub⟩ := h.private_node hmq
      refine ⟨rfl, rfl, fun f => ?_⟩
      cases f with
      | prev => rw [hprev, if_neg (Ne.symm (hmpub after hap))]
      | next => rw [hnext, if_neg (Ne.symm (hmpub pred hpp))]
      | mark => rw [hmark, if_neg (Ne.symm (hmpub succ hsp))]

end Steps

/-! ## §6. Every reachable state. -/

theorem Inv.effect {P : Params} {s s' : State} {c : List Addr} {p : Tid} (h : Inv P s c)
    (he : Effect P s p s') : ∃ c', Inv P s' c' := by
  cases he with
  | move hm => exact ⟨c, h.move hm⟩
  | alloc hpc hval hnull hfree => exact ⟨c, h.alloc hpc hval hnull hfree⟩
  | insertRetry hpc => exact ⟨c, h.insertRetry hpc⟩
  | insert hpc hm =>
      obtain ⟨_, _, _, hinv⟩ := h.insert hpc hm
      exact ⟨_, hinv⟩
  | erase hpc hm =>
      obtain ⟨_, _, _, hinv⟩ := h.erase hpc hm
      exact ⟨_, hinv⟩

theorem reachable_inv {P : Params} {s : State} (h : Reachable (system P) s) : ∃ c, Inv P s c := by
  refine Reach.induct (P := fun s => ∃ c, Inv P s c) ⟨_, init_inv P⟩ ?_ h
  rintro s a s' _ ⟨c, hc⟩ _ hn
  exact hc.effect (next_effect hn)

/-- What the list promises of a state. -/
structure ListCorrect (P : Params) (s : State) : Prop where
  /-- The nodes reached from `head` form a finite chain that ends in `tail`,
  with `prev` the inverse of `next` and `val` strictly increasing. -/
  chain : ∃ c : List Addr,
    c.head? = some head ∧ c.getLast? = some tail ∧ (∀ a, a ∈ c ↔ OnList s a)
      ∧ c.IsChain (fun a b => s.word (a, .next) = b ∧ s.word (b, .prev) = a ∧ s.val a < s.val b)
  tail_next : s.word (tail, .next) = NULL
  /-- A published node is unmarked exactly when it is on the list. -/
  unmarked : ∀ a, Published s a → (s.word (a, .mark) = 0 ↔ OnList s a)
  /-- Successful inserts minus successful erases: `1` on the list, `0` off it. -/
  present : ∀ key, KeyOk P key → KeyOnList s key → s.inserted key = s.erased key + 1
  absent : ∀ key, KeyOk P key → ¬ KeyOnList s key → s.inserted key = s.erased key

/-- **The list never loses an update**, in any reachable state. -/
theorem list_correct (P : Params) (s : State) (h : Reachable (system P) s) : ListCorrect P s := by
  obtain ⟨c, hc⟩ := reachable_inv h
  refine ⟨⟨c, hc.head_first, hc.tail_last, hc.mem_iff_onList, hc.linked⟩, hc.next_tail, ?_, ?_, ?_⟩
  · intro a ha
    rw [hc.marked a ha, hc.mem_iff_onList]
  · intro key hk hon
    rw [hc.count key hk, if_pos ((hc.keyOnList_iff key).mp hon)]
  · intro key hk hoff
    rw [hc.count key hk, if_neg (fun hex => hoff ((hc.keyOnList_iff key).mpr hex))]
    rfl

/-- Two inserts into the list with keys `1..9`, then an erase of the first. -/
def sampleActions : List Action :=
  [.invoke 0 .insertIfAbsent 4] ++ List.replicate 5 (.step 0 3)
    ++ [.invoke 1 .insertIfAbsent 7] ++ List.replicate 7 (.step 1 4)
    ++ [.invoke 0 .erase 4] ++ List.replicate 6 (.step 0 0)

def sampleParams : Params := ⟨1, 9, by decide⟩

def sampleState : State := (system sampleParams).after sampleActions

theorem list_correct_sample : sampleState.inserted 4 = 1 ∧ sampleState.erased 4 = 1
    ∧ sampleState.word (head, .next) = 4 ∧ ListCorrect sampleParams sampleState := by
  refine ⟨by decide +kernel, by decide +kernel, by decide +kernel, ?_⟩
  exact list_correct sampleParams sampleState
    ((system sampleParams).after_reachable sampleActions (by decide +kernel))

end MultiCore.DoublyLinkedList
