/-
  MultiCore.LockFreeBlockBag.Stack — the shared bag is a linearizable stack.

  The blocks of the bag are linked from `head` (`Inv`).  A thread about to
  compare and swap has seen `head` with some tag (`Seen`).  Every update of
  `head` increments the tag, so that one with the same tag is the same `head`,
  and then the block is still the first one and its `next` pointer is the one
  that the thread has read.  That is so although the block may have left the bag
  in between and come back, and although `next` was then read from a block that
  was not in the bag.

    * `linearizable_stack` — every run is one of an atomic stack;
    * `one_place` — no block is in two places;
    * `failures_le` — a thread repeats its loop only because another thread has
      been successful, or because the CAS was weak.
-/
import MultiCore.LockFreeBlockBag.Model

namespace MultiCore.LockFreeBlockBag

open MultiCore.Lib

/-! ## §1. What a step can do. -/

@[simp] theorem goto_head (s : State) (p : Tid) (pc : Pc) : (s.goto p pc).head = s.head := rfl
@[simp] theorem goto_next (s : State) (p : Tid) (pc : Pc) : (s.goto p pc).next = s.next := rfl
@[simp] theorem goto_owner (s : State) (p : Tid) (pc : Pc) : (s.goto p pc).owner = s.owner := rfl

theorem goto_self (s : State) (p : Tid) (pc : Pc) : (s.goto p pc).thread p = pc :=
  Function.update_self _ _ _

theorem goto_other (s : State) {p q : Tid} (pc : Pc) (h : q ≠ p) :
    (s.goto p pc).thread q = s.thread q := Function.update_of_ne h _ _

@[simp] theorem give_head (s : State) (b : Addr) (o : Owner) : (s.give b o).head = s.head := rfl
@[simp] theorem give_next (s : State) (b : Addr) (o : Owner) : (s.give b o).next = s.next := rfl
@[simp] theorem give_thread (s : State) (b : Addr) (o : Owner) : (s.give b o).thread = s.thread := rfl

theorem give_self (s : State) (b : Addr) (o : Owner) : (s.give b o).owner b = o :=
  Function.update_self _ _ _

theorem give_other (s : State) {b b' : Addr} (o : Owner) (h : b' ≠ b) :
    (s.give b o).owner b' = s.owner b' := Function.update_of_ne h _ _

theorem setNext_self (s : State) (b : Addr) (z : Option Addr) : (s.setNext b z).next b = z :=
  Function.update_self _ _ _

theorem setNext_other (s : State) {b b' : Addr} (z : Option Addr) (h : b' ≠ b) :
    (s.setNext b z).next b' = s.next b' := Function.update_of_ne h _ _

/-- The steps of a thread, one constructor for each way through `step`. -/
inductive Steps (s : State) (p : Tid) : Bool → State → Prop where
  | empty {w : Bool} (hpc : s.thread p = .getLoad) (hptr : s.head.ptr = none) :
      Steps s p w (s.goto p (.got none))
  | load {w : Bool} {a : Addr} (hpc : s.thread p = .getLoad) (hptr : s.head.ptr = some a) :
      Steps s p w (s.goto p (.getNext a s.head.tag))
  | readNext {w : Bool} {a : Addr} {tag : ℕ} (hpc : s.thread p = .getNext a tag) :
      Steps s p w (s.goto p (.getCas a tag (s.next a)))
  | pop {a : Addr} {tag : ℕ} {next : Option Addr} (hpc : s.thread p = .getCas a tag next)
      (hhead : s.head = ⟨some a, tag⟩) :
      Steps s p false (((s.setHead ⟨next, tag + 1⟩).give a (.call p)).goto p (.getClear a))
  | popFails {w : Bool} {a : Addr} {tag : ℕ} {next : Option Addr}
      (hpc : s.thread p = .getCas a tag next) (hhead : w = false → s.head ≠ ⟨some a, tag⟩) :
      Steps s p w (s.goto p .getLoad)
  | clear {w : Bool} {a : Addr} (hpc : s.thread p = .getClear a) :
      Steps s p w ((s.setNext a none).goto p (.got (some a)))
  | addLoad {w : Bool} {b : Addr} (hpc : s.thread p = .addLoad b) :
      Steps s p w (s.goto p (.addNext b s.head))
  | writeNext {w : Bool} {b : Addr} {expHead : TaggedPtr} (hpc : s.thread p = .addNext b expHead) :
      Steps s p w ((s.setNext b expHead.ptr).goto p (.addCas b expHead))
  | push {b : Addr} {expHead : TaggedPtr} (hpc : s.thread p = .addCas b expHead)
      (hhead : s.head = expHead) :
      Steps s p false (((s.setHead ⟨some b, expHead.tag + 1⟩).give b .bag).goto p (.added b))
  | pushFails {w : Bool} {b : Addr} {expHead : TaggedPtr} (hpc : s.thread p = .addCas b expHead)
      (hhead : w = false → s.head ≠ expHead) : Steps s p w (s.goto p (.addLoad b))

theorem step_cases {s s' : State} {p : Tid} {w : Bool} (h : step s p w = some s') : Steps s p w s' := by
  unfold step at h
  split at h
  · exact absurd h (by simp)
  · exact absurd h (by simp)
  · exact absurd h (by simp)
  · rename_i hpc
    split at h
    · rename_i hptr
      obtain rfl := Option.some.inj h
      exact .empty hpc hptr
    · rename_i a hptr
      obtain rfl := Option.some.inj h
      exact .load hpc hptr
  · rename_i a tag hpc
    obtain rfl := Option.some.inj h
    exact .readNext hpc
  · rename_i a tag next hpc
    split at h
    · rename_i hcas
      obtain ⟨hhead, rfl⟩ := hcas
      obtain rfl := Option.some.inj h
      exact .pop hpc hhead
    · rename_i hcas
      obtain rfl := Option.some.inj h
      exact .popFails hpc fun hw hhead => hcas ⟨hhead, hw⟩
  · rename_i a hpc
    obtain rfl := Option.some.inj h
    exact .clear hpc
  · rename_i b hpc
    obtain rfl := Option.some.inj h
    exact .addLoad hpc
  · rename_i b expHead hpc
    obtain rfl := Option.some.inj h
    exact .writeNext hpc
  · rename_i b expHead hpc
    split at h
    · rename_i hcas
      obtain ⟨hhead, rfl⟩ := hcas
      obtain rfl := Option.some.inj h
      exact .push hpc hhead
    · rename_i hcas
      obtain rfl := Option.some.inj h
      exact .pushFails hpc fun hw hhead => hcas ⟨hhead, hw⟩

/-! ## §2. The invariant. -/

/-- What a thread knows that has loaded `e` from `head`. -/
structure Seen (head e : TaggedPtr) : Prop where
  le : e.tag ≤ head.tag
  same : e.tag = head.tag → head = e

def Local (s : State) (p : Tid) : Pc → Prop
  | .getNext a tag => Seen s.head ⟨some a, tag⟩
  | .getCas a tag next => Seen s.head ⟨some a, tag⟩ ∧ (tag = s.head.tag → s.next a = next)
  | .getClear a | .got (some a) | .addLoad a => s.owner a = .call p
  | .addNext b expHead => s.owner b = .call p ∧ Seen s.head expHead
  | .addCas b expHead => s.owner b = .call p ∧ Seen s.head expHead ∧ s.next b = expHead.ptr
  | _ => True

structure Inv (s : State) (l : List Addr) : Prop where
  linked : Linked s.next l none
  head : s.head.ptr = l.head?
  nodup : l.Nodup
  bag : ∀ b, s.owner b = .bag ↔ b ∈ l
  thread : ∀ p, Local s p (s.thread p)

/-- What a step of `p`, or of a caller, leaves to the other threads. -/
structure Frame (s s' : State) (p : Tid) : Prop where
  owner : ∀ b q, q ≠ p → s.owner b = .call q → s'.owner b = .call q ∧ s'.next b = s.next b
  head : (s'.head = s.head ∧ ∀ b, s.owner b = .bag → s'.next b = s.next b) ∨ s.head.tag < s'.head.tag

section Invariant

variable {s s' : State} {p q : Tid} {l : List Addr} {e : TaggedPtr} {a b : Addr}

theorem Seen.now : Seen e e := ⟨Nat.le_refl _, fun _ => rfl⟩

theorem Seen.later (h : Seen s.head e) (hf : Frame s s' p) : Seen s'.head e := by
  rcases hf.head with ⟨hhead, -⟩ | hlt
  · exact ⟨by rw [hhead]; exact h.le, by rw [hhead]; exact h.same⟩
  · exact ⟨h.le.trans hlt.le, fun heq => absurd h.le (by omega)⟩

/-- The first block of the bag. -/
theorem Inv.first (h : Inv s l) (hptr : s.head.ptr = some a) : ∃ l', l = a :: l' := by
  rw [h.head] at hptr
  exact List.head?_eq_some_iff.mp hptr

/-- **What another thread has found out stays so.** -/
theorem Frame.local (hf : Frame s s' p) (h : Inv s l) (hq : q ≠ p) {pc : Pc} (hpc : Local s q pc) :
    Local s' q pc := by
  cases pc with
  | idle => trivial
  | getLoad => trivial
  | added => trivial
  | getNext a tag => exact hpc.later hf
  | getCas a tag next =>
      refine ⟨hpc.1.later hf, fun htag => ?_⟩
      rcases hf.head with ⟨hhead, hnext⟩ | hlt
      · rw [hhead] at htag
        -- the tag is the same, so that the block is the first one of the bag
        have hptr := congrArg TaggedPtr.ptr (hpc.1.same htag)
        obtain ⟨l', rfl⟩ := h.first hptr
        rw [hnext a ((h.bag a).mpr List.mem_cons_self)]
        exact hpc.2 htag
      · have hle : tag ≤ s.head.tag := hpc.1.le
        omega
  | getClear a => exact (hf.owner a q hq hpc).1
  | got result =>
      cases result with
      | none => trivial
      | some a => exact (hf.owner a q hq hpc).1
  | addLoad a => exact (hf.owner a q hq hpc).1
  | addNext b expHead => exact ⟨(hf.owner b q hq hpc.1).1, hpc.2.later hf⟩
  | addCas b expHead =>
      obtain ⟨howner, hnext⟩ := hf.owner b q hq hpc.1
      exact ⟨howner, hpc.2.1.later hf, hnext.trans hpc.2.2⟩

/-- It does not matter where the thread is. -/
theorem local_goto {pc pc' : Pc} : Local (s.goto p pc') q pc ↔ Local s q pc := by
  cases pc with
  | got result => cases result <;> exact Iff.rfl
  | _ => exact Iff.rfl

/-- The invariant, when a step leaves the bag as it is. -/
theorem Inv.same (h : Inv s l) (hf : Frame s s' p) (hhead : s'.head = s.head)
    (hnext : ∀ b, s.owner b = .bag → s'.next b = s.next b)
    (hbag : ∀ b, s'.owner b = .bag ↔ s.owner b = .bag)
    (hother : ∀ q, q ≠ p → s'.thread q = s.thread q) (hlocal : Local s' p (s'.thread p)) :
    Inv s' l where
  linked := h.linked.congr fun b hb => hnext b ((h.bag b).mpr hb)
  head := by rw [hhead]; exact h.head
  nodup := h.nodup
  bag b := (hbag b).trans (h.bag b)
  thread q := by
    by_cases hq : q = p
    · rw [hq]
      exact hlocal
    · rw [hother q hq]
      exact hf.local h hq (h.thread q)

/-- A step that only goes on. -/
theorem Inv.goto (h : Inv s l) {pc : Pc} (hlocal : Local s p pc) : Inv (s.goto p pc) l := by
  have hf : Frame s (s.goto p pc) p := ⟨fun _ _ _ ho => ⟨ho, rfl⟩, Or.inl ⟨rfl, fun _ _ => rfl⟩⟩
  refine h.same hf rfl (fun _ _ => rfl) (fun _ => Iff.rfl) (fun q hq => goto_other s pc hq) ?_
  rw [goto_self]
  exact local_goto.mpr hlocal

/-- A step that sets the `next` pointer of a block of the call. -/
theorem Inv.setNext (h : Inv s l) (hb : s.owner b = .call p) (z : Option Addr) {pc : Pc}
    (hlocal : Local (s.setNext b z) p pc) : Inv ((s.setNext b z).goto p pc) l := by
  have hne : ∀ {o : Owner}, o ≠ .call p → ∀ c, s.owner c = o → (s.setNext b z).next c = s.next c := by
    intro o ho c hc
    refine setNext_other s z fun heq => ho ?_
    rw [← hc, heq, hb]
  have hbag := hne (o := .bag) Owner.noConfusion
  have hf : Frame s ((s.setNext b z).goto p pc) p := by
    refine ⟨fun c q hq hc => ⟨hc, hne (fun heq => hq ?_) c hc⟩, Or.inl ⟨rfl, hbag⟩⟩
    exact Owner.call.inj heq
  refine h.same hf rfl hbag (fun _ => Iff.rfl) (fun q hq => goto_other _ pc hq) ?_
  rw [goto_self]
  exact local_goto.mpr hlocal

/-- A block goes from a caller to a call of his, or back. -/
theorem Inv.give (h : Inv s l) {o : Owner} (hold : s.owner b = .caller ∨ s.owner b = .call p)
    (hnew : o ≠ .bag) {pc : Pc} (hlocal : Local (s.give b o) p pc) : Inv ((s.give b o).goto p pc) l := by
  have hne : ∀ c, (s.owner c = .bag ∨ ∃ q, q ≠ p ∧ s.owner c = .call q) → c ≠ b := by
    rintro c hc rfl
    rcases hc with hc | ⟨q, hq, hc⟩
    · rcases hold with hold | hold <;> exact absurd (hold.symm.trans hc) Owner.noConfusion
    · rcases hold with hold | hold
      · exact absurd (hold.symm.trans hc) Owner.noConfusion
      · exact hq (Owner.call.inj (hold.symm.trans hc)).symm
  have hf : Frame s ((s.give b o).goto p pc) p :=
    ⟨fun c q hq hc => ⟨(give_other s o (hne c (Or.inr ⟨q, hq, hc⟩))).trans hc, rfl⟩,
      Or.inl ⟨rfl, fun _ _ => rfl⟩⟩
  refine h.same hf rfl (fun _ _ => rfl) (fun c => ?_) (fun q hq => goto_other _ pc hq) ?_
  · by_cases hc : c = b
    · subst hc
      have howner : ((s.give c o).goto p pc).owner c = o := give_self _ _ _
      rw [howner]
      exact ⟨fun heq => absurd heq hnew, fun heq => absurd rfl (hne c (Or.inl heq))⟩
    · have howner : ((s.give b o).goto p pc).owner c = s.owner c := give_other _ _ hc
      rw [howner]
  · rw [goto_self]
    exact local_goto.mpr hlocal

/-- A caller sets the `next` pointer of a block that is his. -/
theorem Inv.write (h : Inv s l) (hb : s.owner b = .caller) (z : Option Addr) : Inv (s.setNext b z) l := by
  have hne : ∀ c o, s.owner c = o → o ≠ .caller → (s.setNext b z).next c = s.next c := by
    intro c o hc ho
    refine setNext_other s z fun heq => ho ?_
    rw [← hc, heq, hb]
  have hf : ∀ p, Frame s (s.setNext b z) p := fun p =>
    ⟨fun c q _ hc => ⟨hc, hne c _ hc Owner.noConfusion⟩,
      Or.inl ⟨rfl, fun c hc => hne c _ hc Owner.noConfusion⟩⟩
  exact
    { linked := h.linked.congr fun c hc => hne c _ ((h.bag c).mpr hc) Owner.noConfusion
      head := h.head
      nodup := h.nodup
      bag := h.bag
      thread := fun q => (hf (q + 1)).local h (Nat.ne_of_lt (Nat.lt_succ_self q)) (h.thread q) }

/-- **The first block is taken off.** -/
theorem Inv.pop (h : Inv s l) {tag : ℕ} {next : Option Addr} (hpc : s.thread p = .getCas a tag next)
    (hhead : s.head = ⟨some a, tag⟩) : ∃ l', l = a :: l'
      ∧ Inv (((s.setHead ⟨next, tag + 1⟩).give a (.call p)).goto p (.getClear a)) l' := by
  have hlocal := h.thread p
  rw [hpc] at hlocal
  have hptr : s.head.ptr = some a := congrArg TaggedPtr.ptr hhead
  have htag : tag = s.head.tag := (congrArg TaggedPtr.tag hhead).symm
  have hnext : s.next a = next := hlocal.2 htag
  obtain ⟨l', rfl⟩ := h.first hptr
  obtain ⟨hnot, hnodup⟩ := List.nodup_cons.mp h.nodup
  set s' := ((s.setHead ⟨next, tag + 1⟩).give a (.call p)).goto p (.getClear a) with hs'
  have howner : ∀ c, c ≠ a → s'.owner c = s.owner c := fun c hc => give_other _ _ hc
  have hf : Frame s s' p := by
    refine ⟨fun c q hq hc => ⟨(howner c fun heq => ?_).trans hc, rfl⟩, Or.inr ?_⟩
    · rw [heq, (h.bag a).mpr List.mem_cons_self] at hc
      exact absurd hc Owner.noConfusion
    · show s.head.tag < tag + 1
      rw [htag]
      exact Nat.lt_succ_self _
  refine ⟨l', rfl, ?_⟩
  refine ⟨h.linked.2, ?_, hnodup, fun c => ?_, fun q => ?_⟩
  · show next = l'.head?
    rw [← hnext, h.linked.1, Option.or_none]
  · by_cases hc : c = a
    · subst hc
      have hcall : s'.owner c = .call p := give_self _ _ _
      rw [hcall]
      exact ⟨fun hbag => absurd hbag Owner.noConfusion, fun hin => absurd hin hnot⟩
    · rw [howner c hc, h.bag c, List.mem_cons]
      exact ⟨fun hor => hor.resolve_left hc, Or.inr⟩
  · by_cases hq : q = p
    · subst hq
      have hthread : s'.thread q = .getClear a := goto_self _ _ _
      rw [hthread]
      exact give_self _ _ _
    · have hthread : s'.thread q = s.thread q := goto_other _ _ hq
      rw [hthread]
      exact hf.local h hq (h.thread q)

/-- **A block is put on top.** -/
theorem Inv.push (h : Inv s l) (hpc : s.thread p = .addCas b e) (hhead : s.head = e) :
    Inv (((s.setHead ⟨some b, e.tag + 1⟩).give b .bag).goto p (.added b)) (b :: l) := by
  have hlocal := h.thread p
  rw [hpc] at hlocal
  obtain ⟨hb, -, hnext⟩ := hlocal
  have hnot : b ∉ l := fun hin => by
    have hbag := (h.bag b).mpr hin
    rw [hb] at hbag
    exact absurd hbag Owner.noConfusion
  set s' := ((s.setHead ⟨some b, e.tag + 1⟩).give b .bag).goto p (.added b) with hs'
  have howner : ∀ c, c ≠ b → s'.owner c = s.owner c := fun c hc => give_other _ _ hc
  have hf : Frame s s' p := by
    refine ⟨fun c q hq hc => ⟨(howner c fun heq => hq ?_).trans hc, rfl⟩, Or.inr ?_⟩
    · rw [heq, hb] at hc
      exact (Owner.call.inj hc).symm
    · show s.head.tag < e.tag + 1
      rw [hhead]
      exact Nat.lt_succ_self _
  refine ⟨⟨?_, h.linked⟩, rfl, List.nodup_cons.mpr ⟨hnot, h.nodup⟩, fun c => ?_, fun q => ?_⟩
  · show s.next b = l.head?.or none
    rw [hnext, ← hhead, h.head, Option.or_none]
  · by_cases hc : c = b
    · subst hc
      have hbag : s'.owner c = .bag := give_self _ _ _
      rw [hbag]
      exact ⟨fun _ => List.mem_cons_self, fun _ => rfl⟩
    · rw [howner c hc, h.bag c, List.mem_cons]
      exact ⟨Or.inr, fun hor => hor.resolve_left hc⟩
  · by_cases hq : q = p
    · subst hq
      have hthread : s'.thread q = .added b := goto_self _ _ _
      rw [hthread]
      trivial
    · have hthread : s'.thread q = s.thread q := goto_other _ _ hq
      rw [hthread]
      exact hf.local h hq (h.thread q)

end Invariant

/-! ## §3. The simulation. -/

section Simulation

variable {s s' : State} {p : Tid} {t : Object.State (List Addr) Request (Option Addr)}

/-- The blocks of the bag, and what has become of the calls. -/
structure Simulates (s : State) (t : Object.State (List Addr) Request (Option Addr)) : Prop where
  inv : Inv s t.obj
  thread : ∀ p, t.thread p = (s.thread p).status

/-- A step that changes nothing for those outside. -/
theorem Simulates.quiet (h : Simulates s t) {pc : Pc} {s₁ : State} (hs₁ : s₁.thread = s.thread)
    (hstatus : pc.status = (s.thread p).status) (hinv : Inv (s₁.goto p pc) t.obj) :
    ∃ t', stack.Moves t none t' ∧ Simulates (s₁.goto p pc) t' := by
  refine ⟨t, .nothing, hinv, fun q => ?_⟩
  by_cases hq : q = p
  · rw [hq, goto_self, hstatus]
    exact h.thread p
  · rw [goto_other _ _ hq, hs₁]
    exact h.thread q

theorem Simulates.update (h : Simulates s t) {pc : Pc} {x : Status Request (Option Addr)}
    (hs' : s'.thread = Function.update s.thread p pc) (hx : pc.status = x) (q : Tid) :
    Function.update t.thread p x q = (s'.thread q).status := by
  rw [hs']
  by_cases hq : q = p
  · rw [hq, Function.update_self, Function.update_self, hx]
  · rw [Function.update_of_ne hq, Function.update_of_ne hq]
    exact h.thread q

/-- A step with which a call takes effect. -/
theorem Simulates.effect (h : Simulates s t) {pc : Pc} {s₁ : State} (hs₁ : s₁.thread = s.thread)
    {q : Request} {v : Option Addr} {l : List Addr} (hold : (s.thread p).status = .called q)
    (hnew : pc.status = .done q v) (hspec : Stack t.obj q v l) (hinv : Inv (s₁.goto p pc) l) :
    ∃ t', stack.Moves t none t' ∧ Simulates (s₁.goto p pc) t' := by
  refine ⟨⟨l, Function.update t.thread p (.done q v)⟩,
    .effect (.mk ((h.thread p).trans hold) hspec), hinv, h.update ?_ hnew⟩
  rw [← hs₁]
  rfl

theorem Simulates.step (h : Simulates s t) {w : Bool} (hstep : Steps s p w s') :
    ∃ t', stack.Moves t none t' ∧ Simulates s' t' := by
  have hlocal := h.inv.thread p
  cases hstep with
  | empty hpc hptr =>
      rw [h.inv.head, List.head?_eq_none_iff] at hptr
      refine h.effect rfl (by rw [hpc]; rfl) rfl ?_ (h.inv.goto trivial)
      rw [hptr]
      exact .empty
  | load hpc hptr =>
      refine h.quiet rfl (by rw [hpc]; rfl) (h.inv.goto ?_)
      show Seen s.head ⟨some _, s.head.tag⟩
      rw [← hptr]
      exact Seen.now
  | readNext hpc =>
      rw [hpc] at hlocal
      exact h.quiet rfl (by rw [hpc]; rfl) (h.inv.goto ⟨hlocal, fun _ => rfl⟩)
  | pop hpc hhead =>
      obtain ⟨l', hl, hinv⟩ := h.inv.pop hpc hhead
      refine h.effect rfl (by rw [hpc]; rfl) rfl ?_ hinv
      rw [hl]
      exact .getBlock
  | popFails hpc => exact h.quiet rfl (by rw [hpc]; rfl) (h.inv.goto trivial)
  | clear hpc =>
      rw [hpc] at hlocal
      exact h.quiet rfl (by rw [hpc]; rfl) (h.inv.setNext hlocal none hlocal)
  | addLoad hpc =>
      rw [hpc] at hlocal
      exact h.quiet rfl (by rw [hpc]; rfl) (h.inv.goto ⟨hlocal, Seen.now⟩)
  | writeNext hpc =>
      rw [hpc] at hlocal
      exact h.quiet rfl (by rw [hpc]; rfl)
        (h.inv.setNext hlocal.1 _ ⟨hlocal.1, hlocal.2, setNext_self _ _ _⟩)
  | push hpc hhead =>
      exact h.effect rfl (by rw [hpc]; rfl) rfl .addBlock (h.inv.push hpc hhead)
  | pushFails hpc =>
      rw [hpc] at hlocal
      exact h.quiet rfl (by rw [hpc]; rfl) (h.inv.goto hlocal.1)

theorem Simulates.perform (h : Simulates s t) {a : Action} (ha : Promise s a)
    (hnext : perform s a = some s') :
    ∃ t', stack.Moves t (event s a) t' ∧ Simulates s' t' := by
  cases a with
  | step p w => exact h.step (step_cases hnext)
  | write b z =>
      obtain rfl := Option.some.inj hnext
      exact ⟨t, .nothing, h.inv.write ha z, h.thread⟩
  | invoke p q =>
      simp only [LockFreeBlockBag.perform] at hnext
      split at hnext
      · rename_i hidle
        obtain rfl := Option.some.inj hnext
        have hcall : Object.Step t (.invoke p q)
            { t with thread := Function.update t.thread p (.called q) } :=
          .invoke ((h.thread p).trans (by rw [hidle]; rfl))
        refine ⟨_, .visible hcall, ?_⟩
        cases q with
        | getBlock => exact ⟨h.inv.goto trivial, h.update rfl rfl⟩
        | addBlock b =>
            exact ⟨h.inv.give (Or.inl ha) Owner.noConfusion (give_self _ _ _), h.update rfl rfl⟩
      · exact absurd hnext (by simp)
  | ret p =>
      have hlocal := h.inv.thread p
      simp only [LockFreeBlockBag.perform] at hnext
      simp only [event]
      split at hnext
      · rename_i result hpc
        obtain rfl := Option.some.inj hnext
        rw [hpc] at hlocal
        rw [hpc]
        have hret : Object.Step t (.ret p (some result))
            { t with thread := Function.update t.thread p .idle } :=
          .ret ((h.thread p).trans (by rw [hpc]; rfl))
        exact ⟨_, .visible hret, h.inv.give (Or.inr hlocal) Owner.noConfusion trivial,
          h.update rfl rfl⟩
      · rename_i hpc
        obtain rfl := Option.some.inj hnext
        rw [hpc]
        have hret : Object.Step t (.ret p none)
            { t with thread := Function.update t.thread p .idle } :=
          .ret ((h.thread p).trans (by rw [hpc]; rfl))
        exact ⟨_, .visible hret, h.inv.goto trivial, h.update rfl rfl⟩
      · rename_i b hpc
        obtain rfl := Option.some.inj hnext
        rw [hpc]
        have hret : Object.Step t (.ret p none)
            { t with thread := Function.update t.thread p .idle } :=
          .ret ((h.thread p).trans (by rw [hpc]; rfl))
        exact ⟨_, .visible hret, h.inv.goto trivial, h.update rfl rfl⟩
      · exact absurd hnext (by simp)

end Simulation

/-! ## §4. Runs. -/

/-- The blocks of the bag, the last one added first. -/
structure Represents (s : State) (l : List Addr) : Prop where
  linked : Linked s.next l none
  head : s.head.ptr = l.head?
  nodup : l.Nodup

/-- The block that a call has from its caller, or for him. -/
def Pc.holds : Pc → Option Addr
  | .getClear a | .got (some a) | .addLoad a | .addNext a _ | .addCas a _ => some a
  | _ => none

section Runs

variable {next : Addr → Option Addr} {s s' : State} {p : Tid} {b : Addr}

theorem new_simulates : Simulates (.new next) stack.new where
  inv :=
    { linked := trivial
      head := rfl
      nodup := List.nodup_nil
      bag := fun _ => ⟨fun h => absurd h Owner.noConfusion, fun h => absurd h List.not_mem_nil⟩
      thread := fun _ => trivial }
  thread _ := rfl

theorem Inv.represents {l : List Addr} (h : Inv s l) : Represents s l := ⟨h.linked, h.head, h.nodup⟩

theorem Inv.holds {l : List Addr} (h : Inv s l) (hb : (s.thread p).holds = some b) :
    s.owner b = .call p := by
  have hlocal := h.thread p
  generalize s.thread p = pc at hb hlocal
  cases pc with
  | getClear a =>
      obtain rfl := Option.some.inj hb
      exact hlocal
  | got result =>
      cases result with
      | none => exact absurd hb (by simp [Pc.holds])
      | some a =>
          obtain rfl := Option.some.inj hb
          exact hlocal
  | addLoad a =>
      obtain rfl := Option.some.inj hb
      exact hlocal
  | addNext a e =>
      obtain rfl := Option.some.inj hb
      exact hlocal.1
  | addCas a e =>
      obtain rfl := Option.some.inj hb
      exact hlocal.1
  | _ => exact absurd hb (by simp [Pc.holds])

/-- The tag counts the updates of `head`. -/
theorem tag_step {a : Action} (h : perform s a = some s') : s'.head.tag ≤ s.head.tag + 1 := by
  have hsame : s'.head = s.head → s'.head.tag ≤ s.head.tag + 1 := fun heq => by
    rw [heq]
    exact Nat.le_succ _
  cases a with
  | step p w =>
      cases step_cases h with
      | pop hpc hhead =>
          rw [hhead]
          exact Nat.le_refl _
      | push hpc hhead =>
          rw [hhead]
          exact Nat.le_refl _
      | _ => exact hsame rfl
  | write b z =>
      obtain rfl := Option.some.inj h
      exact hsame rfl
  | invoke p q =>
      simp only [perform] at h
      split at h
      · obtain rfl := Option.some.inj h
        cases q <;> exact hsame rfl
      · exact absurd h (by simp)
  | ret p =>
      simp only [perform] at h
      split at h
      · obtain rfl := Option.some.inj h
        exact hsame rfl
      · obtain rfl := Option.some.inj h
        exact hsame rfl
      · obtain rfl := Option.some.inj h
        exact hsame rfl
      · exact absurd h (by simp)

theorem run_tag (r : Run (system next)) {n : ℕ} (hn : n ≤ r.len) : (r.state n).head.tag ≤ n := by
  induction n with
  | zero =>
      rw [r.start]
      exact Nat.le_refl 0
  | succ n ih => exact (tag_step (r.step n hn)).trans (Nat.succ_le_succ (ih (Nat.le_of_succ_le hn)))

theorem reach_inv (h : Reach (system next) Promise s) : ∃ l, Inv s l := by
  have hsim : ∃ t, Simulates s t := by
    induction h with
    | init => exact ⟨_, new_simulates⟩
    | step _ ha hnext ih =>
        obtain ⟨t, ht⟩ := ih
        obtain ⟨t', -, ht'⟩ := ht.perform ha hnext
        exact ⟨t', ht'⟩
  obtain ⟨t, ht⟩ := hsim
  exact ⟨_, ht.inv⟩

/-- `n` steps of thread `p`, one after the other. -/
def steps (p : Tid) (n : ℕ) : List Action := List.replicate n (.step p false)

/-- Thread 0 is about to take block 1 off when thread 1 takes both blocks and puts
block 1 back. -/
def comesBackActions : List Action :=
  .invoke 1 (.addBlock 0) :: steps 1 3 ++ .ret 1 :: .invoke 1 (.addBlock 1) :: steps 1 3
    ++ .ret 1 :: .invoke 0 .getBlock :: steps 0 2 ++ .invoke 1 .getBlock :: steps 1 4
    ++ .ret 1 :: .invoke 1 .getBlock :: steps 1 4 ++ .ret 1 :: .write 0 (some 7)
    :: .invoke 1 (.addBlock 1) :: steps 1 3 ++ .ret 1 :: steps 0 5 ++ [.ret 0]

theorem comesBackActions_check : (system fun _ => none).check (fun s a => decide (Promise s a))
    (fun s => decide (s.head = ⟨none, 6⟩)) (.new fun _ => none) comesBackActions = true := by
  decide +kernel

/-- **No block is in two places**, in the bag, with a call or with a caller. -/
theorem one_place (h : Reach (system next) Promise s) : ∃ l, Represents s l
    ∧ (∀ p b, (s.thread p).holds = some b → b ∉ l ∧ s.owner b ≠ .caller
      ∧ ∀ q, (s.thread q).holds = some b → q = p)
    ∧ ∀ b, s.owner b = .caller → b ∉ l := by
  obtain ⟨l, hinv⟩ := reach_inv h
  refine ⟨l, hinv.represents, fun p b hb => ⟨fun hin => ?_, fun howner => ?_, fun q hq => ?_⟩,
    fun b howner hin => ?_⟩
  · have hbag := (hinv.bag b).mpr hin
    rw [hinv.holds hb] at hbag
    exact absurd hbag Owner.noConfusion
  · rw [hinv.holds hb] at howner
    exact absurd howner Owner.noConfusion
  · have hcall := hinv.holds hq
    rw [hinv.holds hb] at hcall
    exact (Owner.call.inj hcall).symm
  · rw [(hinv.bag b).mpr hin] at howner
    exact absurd howner Owner.noConfusion

/-- Thread 1 is about to put block 1 back, and thread 0 to take it off. -/
def puttingBack : State := (system fun _ => none).after (comesBackActions.take 29)

theorem one_place_comesBack : (puttingBack.thread 1).holds = some 1
    ∧ ∃ l, Represents puttingBack l
      ∧ (∀ p b, (puttingBack.thread p).holds = some b → b ∉ l ∧ puttingBack.owner b ≠ .caller
        ∧ ∀ q, (puttingBack.thread q).holds = some b → q = p)
      ∧ ∀ b, puttingBack.owner b = .caller → b ∉ l := by
  have hcheck : (system fun _ => none).check (fun s a => decide (Promise s a))
      (fun s => decide ((s.thread 1).holds = some 1)) (.new fun _ => none)
      (comesBackActions.take 29) = true := by decide +kernel
  obtain ⟨hreach, hholds⟩ :=
    (system fun _ => none).reach_of_check (fun _ _ => of_decide_eq_true) _ hcheck
  exact ⟨of_decide_eq_true hholds, one_place hreach⟩

/-- **The bag is a linearizable stack**, in every run whose callers keep their
promise; a call that returns has had its effect between the two. -/
theorem linearizable_stack (r : Run (system next))
    (hc : ∀ i < r.len, Promise (r.state i) (r.act i)) :
    ∃ t, Follows stack r event t
      ∧ (∀ n ≤ r.len, Represents (r.state n) (t n).obj ∧ (r.state n).head.tag ≤ n)
      ∧ ∀ p q v a b, a < b → b < r.len → event (r.state a) (r.act a) = some (.invoke p q) →
        event (r.state b) (r.act b) = some (.ret p v) →
        (∀ i, a < i → i < b → ∀ e ∈ event (r.state i) (r.act i), e.tid ≠ p) →
        ∃ i, a < i ∧ i < b ∧ Stack (t i).obj q v (t (i + 1)).obj := by
  obtain ⟨t, hfollows, hsim⟩ : ∃ t, Follows stack r event t
      ∧ ∀ n ≤ r.len, Simulates (r.state n) (t n) :=
    Follows.of_simulation r (R := fun n t => Simulates (r.state n) t)
      (by rw [r.start]; exact new_simulates) fun i hi u hu => hu.perform (hc i hi) (r.step i hi)
  refine ⟨t, hfollows, fun n hn => ⟨(hsim n hn).inv.represents, run_tag r hn⟩, ?_⟩
  intro p q v a b hab hb hcall hret hno
  obtain ⟨i, hai, hib, -, hspec⟩ := hfollows.instant hab hb hcall hret hno
  exact ⟨i, hai, hib, hspec⟩

theorem comesBackActions_run : ∃ r : Run (system fun _ => none),
    (∀ i < r.len, Promise (r.state i) (r.act i)) ∧ (r.state r.len).head = ⟨none, 6⟩ := by
  obtain ⟨r, hc, -, hend⟩ := Run.exists_of_check (C := Promise) (fun _ _ => of_decide_eq_true)
    comesBackActions (.step 0 false) comesBackActions_check
  exact ⟨r, hc, of_decide_eq_true hend⟩

theorem linearizable_stack_comesBack : ∃ r : Run (system fun _ => none),
    (r.state r.len).head = ⟨none, 6⟩
      ∧ ∃ t, Follows stack r event t ∧ ∀ n ≤ r.len, Represents (r.state n) (t n).obj := by
  obtain ⟨r, hc, hend⟩ := comesBackActions_run
  obtain ⟨t, hfollows, hrepresents, -⟩ := linearizable_stack r hc
  exact ⟨r, hend, t, hfollows, fun n hn => (hrepresents n hn).1⟩

end Runs

/-! ## §5. Progress. -/

/-- The value that `head` must have for the call to succeed. -/
def Pc.expected : Pc → Option TaggedPtr
  | .getNext a tag | .getCas a tag _ => some ⟨some a, tag⟩
  | .addNext _ expHead | .addCas _ expHead => some expHead
  | _ => none

def Pc.atCas : Pc → Bool
  | .getCas _ _ _ | .addCas _ _ => true
  | _ => false

/-- `head` has changed since the thread has loaded it. -/
def stale (s : State) (p : Tid) : Bool := (s.thread p).expected.any fun e => s.head ≠ e

/-- The step is a CAS of thread `p` that fails, and not for no reason. -/
def fails (p : Tid) (s : State) : Action → Bool
  | .step q spurious => q = p && !spurious && (s.thread q).atCas && stale s q
  | _ => false

/-- The step is a successful CAS of another thread. -/
def otherWins (p : Tid) (s : State) : Action → Bool
  | .step q spurious => q ≠ p && !spurious && (s.thread q).atCas && !stale s q
  | _ => false

section Progress

variable {next : Addr → Option Addr} {s s' : State} {p q : Tid} {a : Action}

theorem stale_of_expected {e : TaggedPtr} (h : (s.thread p).expected = some e) :
    stale s p = decide (s.head ≠ e) := by
  unfold stale
  rw [h]
  rfl

theorem not_stale (h : (s.thread p).expected = none) : stale s p = false := by
  unfold stale
  rw [h]
  rfl

theorem Steps.other {w : Bool} (h : Steps s q w s') (hq : p ≠ q) : s'.thread p = s.thread p := by
  cases h <;> exact goto_other _ _ hq

/-- Only a CAS that succeeds updates `head`. -/
theorem Steps.head {w : Bool} (h : Steps s q w s') :
    s'.head = s.head ∨ w = false ∧ (s.thread q).atCas = true ∧ stale s q = false := by
  cases h with
  | pop hpc hhead =>
      refine Or.inr ⟨rfl, by rw [hpc]; rfl, ?_⟩
      rw [stale_of_expected (by rw [hpc]; rfl), hhead]
      exact decide_eq_false (fun h => h rfl)
  | push hpc hhead =>
      refine Or.inr ⟨rfl, by rw [hpc]; rfl, ?_⟩
      rw [stale_of_expected (by rw [hpc]; rfl), hhead]
      exact decide_eq_false (fun h => h rfl)
  | _ => exact Or.inl rfl

/-- Another thread makes a call stale only with an update. -/
theorem Steps.stale_other {w : Bool} (h : Steps s q w s') (hq : q ≠ p) :
    (stale s' p).toNat ≤ (stale s p).toNat + (otherWins p s (.step q w)).toNat := by
  rcases h.head with hhead | ⟨rfl, hcas, hstale⟩
  · have hsame : stale s' p = stale s p := by
      unfold stale
      rw [hhead, h.other (Ne.symm hq)]
    rw [hsame]
    exact Nat.le_add_right _ _
  · have hwins : otherWins p s (.step q false) = true := by
      simp [otherWins, hq, hcas, hstale]
    rw [hwins]
    exact (Bool.toNat_le _).trans (Nat.le_add_left _ _)

theorem fails_le {w : Bool} : (fails p s (.step p w)).toNat ≤ (stale s p).toNat := by
  cases hstale : stale s p with
  | true => exact Bool.toNat_le _
  | false => simp [fails, hstale]

/-- A thread finds out at its CAS that its call is stale, and starts again. -/
theorem Steps.stale_own {w : Bool} (h : Steps s p w s') :
    (fails p s (.step p w)).toNat + (stale s' p).toNat ≤ (stale s p).toNat := by
  have hrestart : stale s' p = false →
      (fails p s (.step p w)).toNat + (stale s' p).toNat ≤ (stale s p).toNat := by
    intro hstale
    rw [hstale]
    exact fails_le
  have hon : (s.thread p).atCas = false → (s'.thread p).expected = (s.thread p).expected →
      s'.head = s.head → (fails p s (.step p w)).toNat + (stale s' p).toNat ≤ (stale s p).toNat := by
    intro hcas hexpected hhead
    have hfails : fails p s (.step p w) = false := by simp [fails, hcas]
    have hsame : stale s' p = stale s p := by
      unfold stale
      rw [hhead, hexpected]
    rw [hfails, hsame]
    exact (Nat.zero_add _).le
  cases h with
  | load hpc hptr =>
      refine hrestart ?_
      rw [stale_of_expected (by rw [goto_self]; rfl)]
      refine decide_eq_false fun hne => hne ?_
      rw [goto_head, ← hptr]
  | addLoad hpc =>
      refine hrestart ?_
      rw [stale_of_expected (by rw [goto_self]; rfl)]
      exact decide_eq_false fun hne => hne rfl
  | readNext hpc => exact hon (by rw [hpc]; rfl) (by rw [goto_self, hpc]; rfl) rfl
  | writeNext hpc => exact hon (by rw [hpc]; rfl) (by rw [goto_self, hpc]; rfl) rfl
  | _ => exact hrestart (not_stale (by rw [goto_self]; rfl))

theorem stale_step (h : perform s a = some s') : (fails p s a).toNat + (stale s' p).toNat
    ≤ (stale s p).toNat + (otherWins p s a).toNat := by
  -- a call, a return and a caller leave `head` as it is
  have hquiet : fails p s a = false → s'.head = s.head →
      (s'.thread p).expected = (s.thread p).expected ∨ (s'.thread p).expected = none →
      (fails p s a).toNat + (stale s' p).toNat ≤ (stale s p).toNat + (otherWins p s a).toNat := by
    intro hfails hhead hexpected
    rw [hfails]
    refine ((Nat.zero_add _).le.trans ?_).trans (Nat.le_add_right _ _)
    rcases hexpected with hsame | hnone
    · unfold stale
      rw [hhead, hsame]
    · rw [not_stale hnone]
      exact Nat.zero_le _
  have hgoto : ∀ {s₁ : State} {q : Tid} {pc : Pc}, s₁.thread = s.thread → pc.expected = none →
      ((s₁.goto q pc).thread p).expected = (s.thread p).expected
        ∨ ((s₁.goto q pc).thread p).expected = none := by
    intro s₁ q pc hs₁ hpc
    by_cases hq : p = q
    · rw [hq, goto_self]
      exact Or.inr hpc
    · rw [goto_other _ _ hq, hs₁]
      exact Or.inl rfl
  cases a with
  | step q w =>
      by_cases hq : q = p
      · subst hq
        exact (step_cases h).stale_own.trans (Nat.le_add_right _ _)
      · have hfails : fails p s (.step q w) = false := by simp [fails, hq]
        rw [hfails]
        exact (Nat.zero_add _).le.trans ((step_cases h).stale_other hq)
  | write b z =>
      obtain rfl := Option.some.inj h
      exact hquiet rfl rfl (Or.inl rfl)
  | invoke q request =>
      simp only [perform] at h
      split at h
      · obtain rfl := Option.some.inj h
        cases request <;> exact hquiet rfl rfl (hgoto rfl rfl)
      · exact absurd h (by simp)
  | ret q =>
      simp only [perform] at h
      split at h
      · obtain rfl := Option.some.inj h
        exact hquiet rfl rfl (hgoto rfl rfl)
      · obtain rfl := Option.some.inj h
        exact hquiet rfl rfl (hgoto rfl rfl)
      · obtain rfl := Option.some.inj h
        exact hquiet rfl rfl (hgoto rfl rfl)
      · exact absurd h (by simp)

/-- **A CAS fails only because of another one**: spurious failures aside, no more
CASs of a thread fail than CASs of other threads have succeeded. -/
theorem failures_le (r : Run (system next)) (p : Tid) {n : ℕ} (hn : n ≤ r.len) :
    r.count (fails p) n ≤ r.count (otherWins p) n := by
  have hstart : (stale (r.state 0) p).toNat = 0 := by
    rw [r.start]
    rfl
  exact r.count_le_count (fun i => (stale (r.state i) p).toNat) hstart
    (fun i hi => stale_step (r.step i hi)) hn

theorem failures_le_comesBack : ∃ r : Run (system fun _ => none),
    (r.state r.len).head = ⟨none, 6⟩ ∧ r.count (fails 0) r.len ≤ r.count (otherWins 0) r.len := by
  obtain ⟨r, -, hend⟩ := comesBackActions_run
  exact ⟨r, hend, failures_le r 0 (Nat.le_refl _)⟩

end Progress

end MultiCore.LockFreeBlockBag
