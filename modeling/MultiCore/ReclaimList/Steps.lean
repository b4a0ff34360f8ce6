/-
  MultiCore.ReclaimList.Steps — every step keeps the invariant.

  The steps of the operations are steps of `DoublyLinkedList` on the shadow.
  What they do to the record manager is said by the rules of
  `Lib.Reclamation`: an insert hands a node out or deallocates it, an erase
  retires its victim.
-/
import MultiCore.ReclaimList.Invariant

namespace MultiCore.ReclaimList

open MultiCore.Lib MultiCore.Lib.Reclamation MultiCore.Kcas
open MultiCore.DoublyLinkedList (Tid Addr NULL Loc Field Params Op Pc head tail insertEntries
  eraseEntries Published OnList PcOk KeyOk)

variable {P : Params} {s : State} {c : List Addr} {t : Tid}

/-! ## §1. Steps that leave the published nodes alone. -/

theorem shadow_goto {pc' : Pc} {m : Manager Tid Addr} (hcalls : m.calls = s.mgr.calls)
    (hpinned : m.pinned = s.mgr.pinned) :
    (⟨s.list.goto t pc', m⟩ : State).shadow = s.shadow.goto t pc' := by
  refine shadow_eq rfl ?_
  intro a
  show s.shadow.allocated a = true ↔ s.list.allocated a = true
    ∧ (∀ u, Call.deallocate a ∉ m.calls u) ∧ (Marked s.list a → (m.pinned a).Nonempty)
  rw [shadow_allocated, hcalls, hpinned]
  rfl

/-- Who goes on without a private node owns nothing new. -/
theorem owned_goto {l : DoublyLinkedList.State} {pc' : Pc}
    (hthread : l.thread = s.list.thread)
    (hpriv : pc'.privateNode = none) {a : Addr} (ha : Owned (l.goto t pc') a) :
    Owned s.list a := by
  obtain ⟨u, hu⟩ := ha
  rw [DoublyLinkedList.goto_thread, hthread] at hu
  split at hu
  · rw [hpriv] at hu
    exact absurd hu (by simp)
  · exact ⟨u, hu⟩

/-- A thread moves, and the record manager may open its guard. -/
theorem Inv.goto (h : Inv P s c) {pc' : Pc} {m : Manager Tid Addr}
    (hl : DoublyLinkedList.LocalMove P s.list (s.list.thread t) pc')
    (hmgr : m.Ok s.list.allocated) (hcalls : m.calls = s.mgr.calls)
    (hpinned : m.pinned = s.mgr.pinned) (hretired : m.retired = s.mgr.retired)
    (hguards : ∀ u, u ∉ m.guards → u ≠ t ∧ u ∉ s.mgr.guards) :
    Inv P ⟨s.list.goto t pc', m⟩ c := by
  have hshadow : (⟨s.list.goto t pc', m⟩ : State).shadow = s.shadow.goto t pc' :=
    shadow_goto hcalls hpinned
  have hlist := h.list.move (LocalMove.shadow hl)
  obtain ⟨hpriv, hpriv'⟩ := hl.privateNode_eq
  have hpub : ∀ a, Published (⟨s.list.goto t pc', m⟩ : State).shadow a ↔ Published s.shadow a := by
    intro a
    rw [hshadow]
    exact DoublyLinkedList.published_goto (s := s.shadow) rfl rfl hpriv hpriv' a
  have hagrees : s.mgr.Agrees (Marked s.list) (Owned (s.list.goto t pc')) :=
    h.agrees.share fun b hb => owned_goto rfl hpriv' hb
  refine
    { list := by rw [hshadow]; exact hlist, mgr := hmgr, agrees := ?_, noLeak := ?_, active := ?_,
      pinned_next := ?_, known := ?_ }
  · exact ⟨fun u a hc => hagrees.retire_removed u a (hcalls ▸ hc),
      fun a hr => hagrees.retired_removed a (hretired ▸ hr),
      fun u a hc => hagrees.deallocate_hidden u a (hcalls ▸ hc)⟩
  · intro a ha hm
    show m.retired a = true ∨ ∃ u, Call.retire a ∈ m.calls u
    rw [hretired, hcalls]
    exact h.noLeak a ha hm
  · intro u hu
    obtain ⟨hut, hold⟩ := hguards u hu
    show ¬ Active ((s.list.goto t pc').thread u) ∧ m.calls u = []
    rw [DoublyLinkedList.goto_thread, if_neg hut, hcalls]
    exact h.active u hold
  · intro a ha hm hmn
    show m.pinned a ⊆ m.pinned _
    rw [hpinned]
    exact h.pinned_next a ((hpub a).mp ha) hm hmn
  · intro u a ha hm
    show u ∈ m.pinned a
    rw [hpinned]
    have ha' : a ∈ ReclaimList.known (if u = t then pc' else s.list.thread u) := by
      rw [← DoublyLinkedList.goto_thread]
      exact ha
    split at ha'
    · rename_i hut
      subst hut
      rcases known_move hl ha' with heq | hold | ⟨b, hb, heq⟩
      · exact absurd hm (heq ▸ (h.mem_shown h.head_mem).2)
      · exact h.known u a hold hm
      · -- the node behind a known one
        have hbpub : Published s.shadow b := known_published (h.list.pcOk u) b hb
        have hapub : Published s.shadow a := by
          have hknown : Published (s.shadow.goto u pc') a := by
            refine known_published (hlist.pcOk u) a ?_
            rw [DoublyLinkedList.goto_thread, if_pos rfl]
            exact ha'
          rw [← hshadow] at hknown
          exact (hpub a).mp hknown
        have hbt : b ≠ tail := by
          intro hbt
          rw [hbt] at heq
          exact h.list.ne_null_of_pub hapub (heq.trans h.list.next_tail)
        have hmb : Marked s.list b := by
          by_contra hun
          exact h.next_unmarked hbpub hbt hun (heq ▸ hm)
        rw [heq]
        exact h.pinned_next b hbpub hmb (heq ▸ hm) (h.known u b hb hmb)
    · exact h.known u a ha' hm

/-! ## §2. Allocation. -/

section Alloc

variable {key : Int} {pred succ n : Addr}

/-- The state in which an insert has its new node. -/
def holding (s : DoublyLinkedList.State) (t : Tid) (key : Int) (pred succ n : Addr) :
    DoublyLinkedList.State :=
  (s.initNode n pred succ key false).goto t (.insertExecute key pred succ n)

theorem holding_word {s : DoublyLinkedList.State} {a : Addr} (ha : a ≠ n) (f : Field) :
    (holding s t key pred succ n).word (a, f) = s.word (a, f) := by
  simp [holding, DoublyLinkedList.State.initNode, ha]

theorem holding_allocated {s : DoublyLinkedList.State} (a : Addr) :
    (holding s t key pred succ n).allocated a = if a = n then true else s.allocated a := by
  simp [holding, DoublyLinkedList.State.initNode, Function.update_apply]

theorem holding_handsOut (hfree : s.list.allocated n = false) :
    Manager.HandsOut s.list.allocated (holding s.list t key pred succ n).allocated (Marked s.list)
      (Marked (holding s.list t key pred succ n)) [n] where
  free b hb := by
    rw [List.mem_singleton.mp hb]
    exact hfree
  inUse_iff b := by
    rw [holding_allocated, List.mem_singleton]
    by_cases hb : b = n
    · simp [hb]
    · simp [hb]
  fresh b hb := by
    rw [List.mem_singleton.mp hb]
    simp [Marked, holding, DoublyLinkedList.State.initNode]
  other b hb := by
    unfold Marked
    rw [holding_word (fun hbn => hb (List.mem_singleton.mpr hbn))]

theorem holding_owned {a : Addr} (ha : Owned (holding s.list t key pred succ n) a) :
    Owned s.list a ∨ a ∈ [n] := by
  obtain ⟨u, hu⟩ := ha
  unfold holding at hu
  rw [DoublyLinkedList.goto_thread] at hu
  split at hu
  · right
    rw [List.mem_singleton]
    exact (Option.some.inj hu).symm
  · exact Or.inl ⟨u, hu⟩

theorem Inv.alloc (h : Inv P s c) (hpc : s.list.thread t = .searched .insertIfAbsent key pred succ)
    (hval : s.list.val succ ≠ key) (hnull : n ≠ NULL) (hfree : s.list.allocated n = false) :
    Inv P ⟨holding s.list t key pred succ n, s.mgr⟩ c := by
  have hout : Manager.HandsOut s.list.allocated (holding s.list t key pred succ n).allocated
      (Marked s.list) (Marked (holding s.list t key pred succ n)) [n] := holding_handsOut hfree
  have hshadow : (⟨holding s.list t key pred succ n, s.mgr⟩ : State).shadow
      = holding s.shadow t key pred succ n := by
    refine shadow_eq rfl ?_
    intro a
    refine Iff.trans ?_ (Manager.shown_allocate h.mgr hout).symm
    rw [holding_allocated, List.mem_singleton]
    by_cases ha : a = n
    · simp [ha]
    · rw [if_neg ha]
      simp only [ha, or_false]
      exact shadow_allocated
  have hfree' := not_shadow_allocated hfree
  have hlist : DoublyLinkedList.Inv P (holding s.shadow t key pred succ n) c :=
    h.list.alloc hpc hval hnull hfree'
  have hne : ∀ {a}, s.list.allocated a = true → a ≠ n := by
    rintro a ha rfl
    rw [hfree] at ha
    exact absurd ha (by simp)
  have hpub : ∀ a, Published (holding s.shadow t key pred succ n) a → Published s.shadow a := by
    rintro a ⟨ha, hq⟩
    have han : a ≠ n := by
      rintro rfl
      refine hq t ?_
      unfold holding
      rw [DoublyLinkedList.goto_thread, if_pos rfl]
      rfl
    rw [holding_allocated, if_neg han] at ha
    refine ⟨ha, fun u hu => hq u ?_⟩
    unfold holding
    rw [DoublyLinkedList.goto_thread]
    split
    · rename_i hut
      have hu' : (s.list.thread u).privateNode = some a := hu
      rw [hut, hpc] at hu'
      exact absurd hu' (by simp [Pc.privateNode])
    · exact hu
  have hmark : ∀ a, s.list.allocated a = true →
      (Marked (holding s.list t key pred succ n) a ↔ Marked s.list a) :=
    fun a ha => hout.other a (fun hmem => hne ha (List.mem_singleton.mp hmem))
  refine
    { list := by rw [hshadow]; exact hlist, mgr := ?_,
      agrees := h.agrees.allocate h.mgr hout fun b hb => holding_owned hb,
      noLeak := h.noLeak.allocate hout, active := ?_, pinned_next := ?_, known := ?_ }
  · exact (Manager.Step.allocate fun a ha => (hout.inUse_iff a).mpr (Or.inl ha)).ok h.mgr
  · intro u hu
    have hold := h.active u hu
    have hut : u ≠ t := by
      intro heq
      rw [heq, hpc] at hold
      exact hold.1 trivial
    refine ⟨?_, hold.2⟩
    show ¬ Active ((holding s.list t key pred succ n).thread u)
    unfold holding
    rw [DoublyLinkedList.goto_thread, if_neg hut]
    exact hold.1
  · intro a ha hm hmn
    rw [hshadow] at ha
    have hold := hpub a ha
    have hm' : Marked s.list a := (hmark a (shadow_allocated.mp hold.1).1).mp hm
    have hat : a ≠ tail := by
      rintro rfl
      exact (h.mem_shown (List.mem_of_getLast? h.list.tail_last)).2 hm'
    have hbehind := (shadow_allocated.mp (h.list.next_pub a hold hat).1).1
    have hnext : (holding s.list t key pred succ n).word (a, .next) = s.list.word (a, .next) :=
      holding_word (hne (shadow_allocated.mp hold.1).1) _
    have hmn' : Marked (holding s.list t key pred succ n)
        ((holding s.list t key pred succ n).word (a, .next)) := hmn
    show s.mgr.pinned a ⊆ s.mgr.pinned ((holding s.list t key pred succ n).word (a, .next))
    rw [hnext] at hmn' ⊢
    exact h.pinned_next a hold hm' ((hmark _ hbehind).mp hmn')
  · intro u a ha hm
    have hknown : ∀ b ∈ ReclaimList.known (s.list.thread u), s.list.allocated b = true :=
      fun b hb => (shadow_allocated.mp (known_published (h.list.pcOk u) b hb).1).1
    have ha' : a ∈ ReclaimList.known (s.list.thread u) := by
      have hmem : a ∈ ReclaimList.known (if u = t then .insertExecute key pred succ n
          else s.list.thread u) := by
        rw [← DoublyLinkedList.goto_thread]
        exact ha
      split at hmem
      · rename_i hut
        rw [hut, hpc]
        exact hmem
      · exact hmem
    exact h.known u a ha' ((hmark a (hknown a ha')).mp hm)

end Alloc

/-! ## §3. Failed and successful k-CASes. -/

/-- Where only the thread `t` has moved on from an open call, the others are as
active as before. -/
theorem Inv.active_goto (h : Inv P s c) {list : DoublyLinkedList.State} {pc' : Pc}
    {m : Manager Tid Addr} (hactive : Active (s.list.thread t))
    (hthread : list.thread = s.list.thread) (hguards : m.guards = s.mgr.guards)
    (hcalls : ∀ u, u ≠ t → m.calls u = s.mgr.calls u) (u : Tid) (hu : u ∉ m.guards) :
    ¬ Active ((list.goto t pc').thread u) ∧ m.calls u = [] := by
  rw [hguards] at hu
  have hut : u ≠ t := by
    intro heq
    exact (h.active u hu).1 (heq ▸ hactive)
  rw [DoublyLinkedList.goto_thread, if_neg hut, hthread, hcalls u hut]
  exact h.active u hu

/-- What the others know is what they knew. -/
theorem known_goto {l : DoublyLinkedList.State} {pc' : Pc}
    (hthread : l.thread = s.list.thread) {u : Tid} {a : Addr}
    (ha : a ∈ known ((l.goto t pc').thread u)) :
    u = t ∧ a ∈ known pc' ∨ a ∈ known (s.list.thread u) := by
  rw [DoublyLinkedList.goto_thread, hthread] at ha
  split at ha
  · rename_i hut
    exact Or.inl ⟨hut, ha⟩
  · exact Or.inr ha

theorem giveBack_calls {m : Manager Tid Addr} {cs : List (Call Addr)} {gone : List Addr} {u : Tid}
    (hut : u ≠ t) : (m.giveBack t cs gone).calls u = m.calls u :=
  Function.update_of_ne hut _ _

/-- A failed insert may give its node back. -/
theorem Inv.insertRetry_mgr (h : Inv P s c) {key : Int} {pred succ n : Addr}
    (hcalls : s.mgr.calls t = []) (hpc : s.list.thread t = .insertExecute key pred succ n) :
    Manager.Step s.mgr s.list.allocated (s.mgr.giveBack t [.deallocate n] []) s.list.allocated := by
  refine h.agrees.giveBack_step hcalls [] (by simp) ?_
  intro c' hc'
  rw [List.mem_singleton.mp hc']
  exact h.owned_facts (t := t) (by rw [hpc]; rfl)

theorem Inv.insertRetry (h : Inv P s c) {key : Int} {pred succ n : Addr}
    (hcalls : s.mgr.calls t = []) (hpc : s.list.thread t = .insertExecute key pred succ n) :
    Inv P ⟨s.list.goto t (.searchTest .insertIfAbsent key head head),
      s.mgr.giveBack t [.deallocate n] []⟩ c := by
  set pc' : Pc := .searchTest .insertIfAbsent key head head with hpc'
  set m := s.mgr.giveBack t [.deallocate n] [] with hm
  have hown : (s.list.thread t).privateNode = some n := by
    rw [hpc]
    rfl
  obtain ⟨hshown, hun⟩ := h.owned_facts hown
  have hmpinned : m.pinned = s.mgr.pinned := by
    funext a
    show (if a ∈ [] then s.mgr.guards else s.mgr.pinned a) = _
    rw [if_neg List.not_mem_nil]
  have hshadow : (⟨s.list.goto t pc', m⟩ : State).shadow
      = { s.shadow with allocated := Function.update s.shadow.allocated n false }.goto t pc' := by
    refine shadow_eq rfl ?_
    intro a
    have hdealloc : Shown ⟨s.list.goto t pc', m⟩ a ↔ Shown s a ∧ a ∉ [n] :=
      Manager.shown_deallocate (l := [n]) hcalls
    rw [hdealloc, List.mem_singleton]
    show Function.update s.shadow.allocated n false a = true ↔ _
    rw [Function.update_apply]
    split
    · rename_i ha
      simp [ha]
    · rename_i ha
      rw [shadow_allocated]
      exact (and_iff_left ha).symm
  -- the node is owned by nobody any more
  have howned : ∀ b, Owned (s.list.goto t pc') b → Owned s.list b ∧ b ≠ n := by
    intro b hb
    refine ⟨owned_goto rfl rfl hb, ?_⟩
    rintro rfl
    obtain ⟨u, hu⟩ := hb
    rw [DoublyLinkedList.goto_thread] at hu
    split at hu
    · exact absurd hu (by simp [hpc', Pc.privateNode])
    · rename_i hut
      exact hut (h.list.private_inj u t b hu hown)
  have hpub : ∀ a, Published (⟨s.list.goto t pc', m⟩ : State).shadow a → Published s.shadow a := by
    rintro a ⟨ha, hq⟩
    have hdealloc := (Manager.shown_deallocate (l := [n]) hcalls).mp (shadow_allocated.mp ha)
    have han : a ≠ n := fun heq => hdealloc.2 (List.mem_singleton.mpr heq)
    refine ⟨shadow_allocated.mpr hdealloc.1, ?_⟩
    intro u hu
    refine hq u ?_
    show ((s.list.goto t pc').thread u).privateNode = some a
    rw [DoublyLinkedList.goto_thread]
    split
    · rename_i hut
      rw [hut] at hu
      exact absurd (Option.some.inj (hu.symm.trans hown)) han
    · exact hu
  refine
    { list := by rw [hshadow]; exact h.list.insertRetry hpc,
      mgr := (h.insertRetry_mgr hcalls hpc).ok h.mgr,
      agrees := h.agrees.deallocate (l := [n]) hcalls ?_ fun b hb => (howned b hb).1,
      noLeak := h.noLeak.deallocate (l := [n]) hcalls,
      active := h.active_goto (by rw [hpc]; trivial) rfl rfl fun u hut => giveBack_calls hut,
      pinned_next := ?_, known := ?_ }
  · intro b hb
    rw [List.mem_singleton.mp hb]
    exact ⟨hun, fun ho => (howned n ho).2 rfl⟩
  · intro a ha hmk hmn
    show m.pinned a ⊆ m.pinned _
    rw [hmpinned]
    exact h.pinned_next a (hpub a ha) hmk hmn
  · intro u a ha hmk
    show u ∈ m.pinned a
    rw [hmpinned]
    rcases known_goto rfl ha with ⟨-, hnew⟩ | hold
    · have hhead : a = head := by
        rcases List.mem_pair.mp hnew with heq | heq
        · exact heq
        · exact heq
      exact absurd hmk (hhead ▸ (h.mem_shown h.head_mem).2)
    · exact h.known u a hold hmk

section Insert

variable {key : Int} {pred succ n : Addr}

/-- An insert marks nothing. -/
theorem inserting_marked (hm : Matches s.list.word (insertEntries pred succ n)) :
    Marked (inserting s.list t key pred succ n) = Marked s.list := by
  funext a
  unfold Marked
  rw [show (inserting s.list t key pred succ n).word (a, .mark) = s.list.word (a, .mark) from
    DoublyLinkedList.insert_mark s.list.word pred succ n a hm]

theorem inserting_next (a : Addr) : (inserting s.list t key pred succ n).word (a, .next)
    = if a = pred then n else s.list.word (a, .next) :=
  DoublyLinkedList.insert_next s.list.word pred succ n a

theorem Inv.insert (h : Inv P s c) (hpc : s.list.thread t = .insertExecute key pred succ n)
    (hm : Matches s.list.word (insertEntries pred succ n)) :
    ∃ c', Inv P ⟨inserting s.list t key pred succ n, s.mgr⟩ c' := by
  have hmarked : Marked (inserting s.list t key pred succ n) = Marked s.list := inserting_marked hm
  have hshadow : (⟨inserting s.list t key pred succ n, s.mgr⟩ : State).shadow
      = inserting s.shadow t key pred succ n := by
    refine shadow_eq rfl ?_
    intro a
    show s.shadow.allocated a = true ↔ s.mgr.Shown s.list.allocated
      (Marked (inserting s.list t key pred succ n)) a
    rw [hmarked]
    exact shadow_allocated
  obtain ⟨l₁, l₂, hc, hlist⟩ := h.list.insert hpc hm
  have hown : (s.list.thread t).privateNode = some n := by
    rw [hpc]
    rfl
  have hpred : pred ∈ c := by
    rw [hc]
    simp
  refine ⟨l₁ ++ pred :: n :: succ :: l₂, ?_⟩
  refine
    { list := by rw [hshadow]; exact hlist, mgr := h.mgr, agrees := ?_, noLeak := ?_,
      active := h.active_goto (by rw [hpc]; trivial) rfl rfl fun _ _ => rfl,
      pinned_next := ?_, known := ?_ }
  · show s.mgr.Agrees (Marked (inserting s.list t key pred succ n)) _
    rw [hmarked]
    exact h.agrees.share fun b hb => owned_goto (l := { s.list with word := _, inserted := _ })
      rfl rfl hb
  · show s.mgr.NoLeak s.list.allocated (Marked (inserting s.list t key pred succ n))
    rw [hmarked]
    exact h.noLeak
  · intro a ha hmk hmn
    have hmk' : Marked s.list a := by
      rw [← hmarked]
      exact hmk
    have hap : a ≠ pred := fun heq => (h.mem_shown hpred).2 (heq ▸ hmk')
    have han : a ≠ n := fun heq => (h.owned_facts hown).2 (heq ▸ hmk')
    have hold : Published s.shadow a := by
      rw [hshadow] at ha
      refine ⟨ha.1, ?_⟩
      intro u hu
      refine ha.2 u ?_
      unfold inserting
      rw [DoublyLinkedList.goto_thread]
      split
      · rename_i hut
        rw [hut] at hu
        exact absurd (Option.some.inj (hu.symm.trans hown)) han
      · exact hu
    have hmn' : Marked s.list ((inserting s.list t key pred succ n).word (a, .next)) := by
      rw [← hmarked]
      exact hmn
    show s.mgr.pinned a ⊆ s.mgr.pinned ((inserting s.list t key pred succ n).word (a, .next))
    rw [inserting_next, if_neg hap] at hmn' ⊢
    exact h.pinned_next a hold hmk' hmn'
  · intro u a ha hmk
    have hmk' : Marked s.list a := by
      rw [← hmarked]
      exact hmk
    rcases known_goto (l := { s.list with word := _, inserted := _ }) rfl ha with ⟨-, hnew⟩ | hold
    · exact absurd hnew List.not_mem_nil
    · exact h.known u a hold hmk'

end Insert

section Erase

variable {key : Int} {pred succ after : Addr}

theorem erasing_next (a : Addr) : (erasing s.list t key pred succ after).word (a, .next)
    = if a = pred then after else s.list.word (a, .next) :=
  DoublyLinkedList.erase_next s.list.word pred succ after a

/-- An erase marks its victim, which was on the list. -/
theorem Inv.erasing (h : Inv P s c) (hpc : s.list.thread t = .eraseExecute key pred succ after)
    (hm : Matches s.list.word (eraseEntries pred succ after)) :
    pred ∈ c ∧ succ ∈ c ∧ ∀ a,
      Marked (ReclaimList.erasing s.list t key pred succ after) a ↔ Marked s.list a ∨ a ∈ [succ] := by
  obtain ⟨l₁, l₂, hc, -⟩ := h.list.erase hpc hm
  have hnodup := h.list.nodup
  rw [hc] at hnodup
  have hps : pred ≠ succ := by
    have htail : (pred :: succ :: after :: l₂).Nodup := (List.nodup_append.mp hnodup).2.1
    rw [List.nodup_cons] at htail
    exact fun heq => htail.1 (heq ▸ List.mem_cons_self)
  refine ⟨by rw [hc]; simp, by rw [hc]; simp, ?_⟩
  intro a
  unfold Marked
  rw [show (ReclaimList.erasing s.list t key pred succ after).word (a, .mark)
      = if a = succ then 4 else s.list.word (a, .mark) from
    DoublyLinkedList.erase_mark s.list.word pred succ after a hm hps, List.mem_singleton]
  split
  · rename_i ha
    simp [ha]
  · rename_i ha
    exact (or_iff_left ha).symm

/-- A successful erase may give its victim back. -/
theorem Inv.erase_mgr (h : Inv P s c) (hcalls : s.mgr.calls t = [])
    (hpc : s.list.thread t = .eraseExecute key pred succ after)
    (hm : Matches s.list.word (eraseEntries pred succ after)) :
    Manager.Step s.mgr s.list.allocated (s.mgr.giveBack t [.retire succ] [succ])
      s.list.allocated := by
  refine h.agrees.giveBack_step hcalls [succ] (by simp) ?_
  intro c' hc'
  rw [List.mem_singleton.mp hc']
  exact h.mem_shown (h.erasing hpc hm).2.1

theorem Inv.erase (h : Inv P s c) (hcalls : s.mgr.calls t = [])
    (hpc : s.list.thread t = .eraseExecute key pred succ after)
    (hm : Matches s.list.word (eraseEntries pred succ after)) :
    ∃ c', Inv P ⟨ReclaimList.erasing s.list t key pred succ after,
      s.mgr.giveBack t [.retire succ] [succ]⟩ c' := by
  set list' := ReclaimList.erasing s.list t key pred succ after with hlist'
  set m := s.mgr.giveBack t [.retire succ] [succ] with hmdef
  obtain ⟨hpred, hsucc, hmarked⟩ := h.erasing hpc hm
  have hactive : Active (s.list.thread t) := by
    rw [hpc]
    trivial
  have hopen := h.open_of_active hactive
  have hshown : ∀ a, Shown ⟨list', m⟩ a ↔ Shown s a := fun a =>
    Manager.shown_retire (l := [succ]) hcalls hopen hmarked fun b hb =>
      (List.mem_singleton.mp hb) ▸ (h.mem_shown hsucc).1
  have hshadow : (⟨list', m⟩ : State).shadow
      = ReclaimList.erasing s.shadow t key pred succ after := by
    refine shadow_eq rfl ?_
    intro a
    rw [hshown]
    exact shadow_allocated
  have hmpinned : ∀ a, m.pinned a = if a = succ then s.mgr.guards else s.mgr.pinned a := by
    intro a
    show (if a ∈ [succ] then s.mgr.guards else s.mgr.pinned a) = _
    simp only [List.mem_singleton]
  have hpub : ∀ a, Published (ReclaimList.erasing s.shadow t key pred succ after) a
      ↔ Published s.shadow a :=
    DoublyLinkedList.published_goto rfl rfl (by rw [show s.shadow.thread t = _ from hpc]; rfl) rfl
  obtain ⟨l₁, l₂, hc, hlist⟩ := h.list.erase hpc hm
  refine ⟨l₁ ++ pred :: after :: l₂, ?_⟩
  refine
    { list := by rw [hshadow]; exact hlist, mgr := (h.erase_mgr hcalls hpc hm).ok h.mgr,
      agrees := h.agrees.retire (l := [succ]) hcalls hmarked ?_ ?_,
      noLeak := h.noLeak.retire (l := [succ]) hcalls hmarked,
      active := h.active_goto hactive rfl rfl fun u hut => giveBack_calls hut,
      pinned_next := ?_, known := ?_ }
  · intro b hb u hc'
    rw [List.mem_singleton.mp hb] at hc'
    exact (h.mem_shown hsucc).1.2.1 u hc'
  · exact fun b hb => owned_goto (l := { s.list with word := _, erased := _ }) rfl rfl hb
  · intro a ha hmk hmn
    rw [hshadow, hpub] at ha
    have hmk' := (hmarked a).mp hmk
    show m.pinned a ⊆ m.pinned (list'.word (a, .next))
    by_cases hap : a = pred
    · -- `pred` is on the list, and is not the victim
      exfalso
      rw [hap] at hmk'
      rcases hmk' with hmk' | hmk'
      · exact (h.mem_shown hpred).2 hmk'
      · have hnodup := h.list.nodup
        rw [hc, List.nodup_append] at hnodup
        have htail := hnodup.2.1
        rw [List.nodup_cons, ← List.mem_singleton.mp hmk'] at htail
        exact htail.1 List.mem_cons_self
    · have hnext : list'.word (a, .next) = s.list.word (a, .next) := by
        rw [hlist', erasing_next, if_neg hap]
      have hmn' := (hmarked _).mp hmn
      show m.pinned a ⊆ m.pinned (list'.word (a, .next))
      have hmn'' : Marked s.list (list'.word (a, .next)) ∨ list'.word (a, .next) ∈ [succ] := hmn'
      rw [hnext, List.mem_singleton] at hmn''
      rw [hnext, hmpinned, hmpinned]
      by_cases hbehind : s.list.word (a, .next) = succ
      · rw [if_pos hbehind]
        split
        · exact Finset.Subset.refl _
        · exact h.mgr.pinned_open a
      · -- the node behind was erased before, so the node was too
        have hbm : Marked s.list (s.list.word (a, .next)) := hmn''.resolve_right hbehind
        have hat : a ≠ tail := by
          rintro rfl
          have hnull : s.list.word (tail, .next) = NULL := h.list.next_tail
          have htail := (h.mem_shown (List.mem_of_getLast? h.list.tail_last)).2
          rcases hmk' with hmk' | hmk'
          · exact htail hmk'
          · rw [List.mem_singleton] at hmk'
            have hlt : s.shadow.val succ = key := by
              have hknown := h.list.pcOk t
              rw [show s.shadow.thread t = _ from hpc] at hknown
              exact hknown.2.2.2.2.2
            have hkey : KeyOk P key := by
              have hknown := h.list.pcOk t
              rw [show s.shadow.thread t = _ from hpc] at hknown
              exact hknown.1
            exact h.list.ne_tail hkey hlt.le hmk'.symm
        have hma : Marked s.list a := by
          by_contra hun
          exact h.next_unmarked ha hat hun hbm
        have hasucc : a ≠ succ := fun heq => (h.mem_shown hsucc).2 (heq ▸ hma)
        rw [if_neg hasucc, if_neg hbehind]
        exact h.pinned_next a ha hma hbm
  · intro u a ha hmk
    show u ∈ m.pinned a
    rw [hmpinned]
    rcases known_goto (l := { s.list with word := _, erased := _ }) rfl ha with ⟨-, hnew⟩ | hold
    · exact absurd hnew List.not_mem_nil
    · split
      · -- whoever knows a node has an open guard
        by_contra hclosed
        rw [known_of_idle (h.active u hclosed).1] at hold
        exact absurd hold List.not_mem_nil
      · rename_i hne
        refine h.known u a hold (((hmarked a).mp hmk).resolve_right ?_)
        exact fun hmem => hne (List.mem_singleton.mp hmem)

end Erase

/-! ## §4. Steps of the record manager. -/

/-- Where the shadow, the pins and the guards are the same, so is what the
threads know of it. -/
theorem Inv.mgr_step (h : Inv P s c) {mgr : Manager Tid Addr} {inUse : Addr → Bool}
    (hmgr : mgr.Ok inUse) (hagrees : mgr.Agrees (Marked s.list) (Owned s.list))
    (hleak : mgr.NoLeak inUse (Marked s.list)) (hguards : mgr.guards = s.mgr.guards)
    (hpinned : mgr.pinned = s.mgr.pinned)
    (hcalls : ∀ u, s.mgr.calls u = [] → mgr.calls u = [])
    (hshown : ∀ a, mgr.Shown inUse (Marked s.list) a ↔ Shown s a) :
    Inv P ⟨{ s.list with allocated := inUse }, mgr⟩ c := by
  have hshadow : (⟨{ s.list with allocated := inUse }, mgr⟩ : State).shadow = s.shadow :=
    shadow_eq rfl fun a => shadow_allocated.trans (hshown a).symm
  refine
    { list := by rw [hshadow]; exact h.list, mgr := hmgr, agrees := hagrees, noLeak := hleak,
      active := ?_, pinned_next := ?_, known := ?_ }
  · intro u hu
    have hold := h.active u (by rw [← hguards]; exact hu)
    exact ⟨hold.1, hcalls u hold.2⟩
  · intro a ha hm hmn
    rw [hshadow] at ha
    show mgr.pinned a ⊆ mgr.pinned _
    rw [hpinned]
    exact h.pinned_next a ha hm hmn
  · intro u a ha hm
    show u ∈ mgr.pinned a
    rw [hpinned]
    exact h.known u a ha hm

theorem Inv.perform (h : Inv P s c) {mgr : Manager Tid Addr} {inUse : Addr → Bool}
    (hp : s.mgr.perform s.list.allocated t = some (mgr, inUse)) :
    Inv P ⟨{ s.list with allocated := inUse }, mgr⟩ c := by
  obtain ⟨hagrees, hshown⟩ := h.agrees.perform hp
  obtain ⟨c', rest, hhead, hguards, hpinned, hcalls, -⟩ := Manager.perform_cases hp
  refine h.mgr_step ((Manager.Step.perform hp).ok h.mgr) hagrees (h.noLeak.perform hp) hguards
    hpinned ?_ hshown
  intro u hu
  have hut : u ≠ t := by
    rintro rfl
    rw [hu] at hhead
    exact absurd hhead (by simp)
  rw [hcalls, Function.update_of_ne hut]
  exact hu

theorem Inv.reclaim (h : Inv P s c) {b : Addr} {mgr : Manager Tid Addr} {inUse : Addr → Bool}
    (hr : s.mgr.reclaim s.list.allocated b = some (mgr, inUse)) :
    Inv P ⟨{ s.list with allocated := inUse }, mgr⟩ c := by
  obtain ⟨hagrees, hshown⟩ := h.agrees.reclaim hr
  have hmgr := (Manager.Step.reclaim hr).ok h.mgr
  have hleak := h.noLeak.reclaim hr
  obtain ⟨-, -, rfl, rfl⟩ := Manager.reclaim_cases hr
  exact h.mgr_step hmgr hagrees hleak rfl rfl (fun _ hu => hu) hshown

/-- **A guard that closes makes the shadow forget what only it could reach.** -/
theorem Inv.leave (h : Inv P s c) (hcalls : s.mgr.calls t = [])
    (hidle : ¬ Active (s.list.thread t)) : Inv P ⟨s.list, s.mgr.leave t⟩ c := by
  have hshown : ∀ a, Shown ⟨s.list, s.mgr.leave t⟩ a ↔ Shown s a
      ∧ (Marked s.list a → ((s.mgr.pinned a).erase t).Nonempty) := fun _ => Manager.shown_leave
  have hkeep : ∀ {a}, Shown s a → ¬ Marked s.list a → Shown ⟨s.list, s.mgr.leave t⟩ a :=
    fun hs hun => (hshown _).mpr ⟨hs, fun hm => absurd hm hun⟩
  have hother : ∀ {u a}, a ∈ ReclaimList.known (s.list.thread u) → u ≠ t := by
    intro u a ha hut
    rw [hut, known_of_idle hidle] at ha
    exact absurd ha List.not_mem_nil
  refine
    { list := ?_, mgr := (Manager.Step.leave t).ok h.mgr,
      agrees := ⟨h.agrees.retire_removed, h.agrees.retired_removed, h.agrees.deallocate_hidden⟩,
      noLeak := h.noLeak, active := ?_, pinned_next := ?_, known := ?_ }
  · refine forget (s := s.shadow) (A := (⟨s.list, s.mgr.leave t⟩ : State).shadow.allocated) h.list
      ?_ ?_ ?_ ?_ ?_
    · intro a ha
      exact shadow_allocated.mpr ((hshown a).mp (shadow_allocated.mp ha)).1
    · intro a ha
      obtain ⟨hs, hun⟩ := h.mem_shown ha
      exact shadow_allocated.mpr (hkeep hs hun)
    · intro a ha hat hA
      rw [shadow_allocated, hshown] at hA
      have hnext := h.list.next_pub a ha hat
      rw [shadow_allocated, hshown]
      refine ⟨shadow_allocated.mp hnext.1, ?_⟩
      intro hmn
      have hma : Marked s.list a := by
        by_contra hun
        exact h.next_unmarked ha hat hun hmn
      exact (hA.2 hma).mono (Finset.erase_subset_erase t (h.pinned_next a ha hma hmn))
    · intro u a ha
      obtain ⟨hs, hun⟩ := h.owned_facts ha
      exact shadow_allocated.mpr (hkeep hs hun)
    · intro u a ha
      rw [shadow_allocated, hshown]
      refine ⟨shadow_allocated.mp (known_published (h.list.pcOk u) a ha).1, ?_⟩
      intro hm
      exact ⟨u, Finset.mem_erase.mpr ⟨hother ha, h.known u a ha hm⟩⟩
  · intro u hu
    by_cases hut : u = t
    · rw [hut]
      exact ⟨hidle, hcalls⟩
    · refine h.active u ?_
      intro hopen
      exact hu (Finset.mem_erase.mpr ⟨hut, hopen⟩)
  · intro a ha hm hmn
    have hold : Published s.shadow a :=
      ⟨shadow_allocated.mpr ((hshown a).mp (shadow_allocated.mp ha.1)).1, ha.2⟩
    exact Finset.erase_subset_erase t (h.pinned_next a hold hm hmn)
  · intro u a ha hm
    exact Finset.mem_erase.mpr ⟨hother ha, h.known u a ha hm⟩

/-! ## §5. Every run. -/

theorem init_unmarked (P : Params) (a : Addr) : ¬ Marked (DoublyLinkedList.init P) a := by
  intro hm
  apply hm
  unfold DoublyLinkedList.init DoublyLinkedList.State.initNode
  simp [Function.update_apply]

theorem init_inv (P : Params) : Inv P (init P) [head, tail] := by
  have hshadow : (init P).shadow = DoublyLinkedList.init P := by
    refine shadow_eq rfl ?_
    intro a
    constructor
    · exact fun ha => ⟨ha, fun _ => List.not_mem_nil, fun hm => absurd hm (init_unmarked P a)⟩
    · exact fun hs => hs.1
  exact
    { list := by rw [hshadow]; exact DoublyLinkedList.init_inv P
      mgr := Manager.new_ok _
      agrees := ⟨fun _ _ hc => absurd hc List.not_mem_nil,
        fun _ hr => absurd hr (by simp [init, Manager.new]),
        fun _ _ hc => absurd hc List.not_mem_nil⟩
      noLeak := fun a _ hm => absurd hm (init_unmarked P a)
      active := fun _ _ => ⟨id, rfl⟩
      pinned_next := fun a _ hm => absurd hm (init_unmarked P a)
      known := fun _ a _ hm => absurd hm (init_unmarked P a) }

/-- One step keeps the invariant. -/
theorem Inv.effect {s' : State} {act : Action} (h : Inv P s c) (he : Effect P s act s') :
    ∃ c', Inv P s' c' := by
  cases he with
  | @enter t op key hidle hguard hkey =>
      refine ⟨c, h.goto (.call ?_ hkey) ((Manager.Step.enter t).ok h.mgr) rfl rfl rfl ?_⟩
      · generalize s.list.thread t = pc at hidle
        cases pc with
        | idle => rfl
        | returned _ _ _ => rfl
        | _ => exact absurd trivial hidle
      · exact fun u hu => (s.mgr.not_mem_enter t u).mp hu
  | move hactive hcalls hl =>
      refine ⟨c, h.goto hl h.mgr rfl rfl rfl ?_⟩
      intro u hu
      exact ⟨fun hut => (h.active u hu).1 (hut ▸ hactive), hu⟩
  | alloc hcalls hpc hval hnull hfree => exact ⟨c, h.alloc hpc hval hnull hfree⟩
  | insertRetry hcalls hpc _ => exact ⟨c, h.insertRetry hcalls hpc⟩
  | insert _ hpc hm => exact h.insert hpc hm
  | erase hcalls hpc hm => exact h.erase hcalls hpc hm
  | perform hp => exact ⟨c, h.perform hp⟩
  | leave hcalls hidle => exact ⟨c, h.leave hcalls hidle⟩
  | reclaim hr => exact ⟨c, h.reclaim hr⟩

/-- What a step does to the record manager. -/
theorem Inv.effect_mgr {s' : State} {act : Action} (h : Inv P s c) (he : Effect P s act s') :
    Manager.Step s.mgr s.list.allocated s'.mgr s'.list.allocated := by
  cases he with
  | enter _ _ _ => exact .enter _
  | move _ _ _ => exact .quiet
  | alloc _ _ _ _ hfree =>
      exact .allocate fun a ha => ((holding_handsOut hfree).inUse_iff a).mpr (Or.inl ha)
  | insertRetry hcalls hpc _ => exact h.insertRetry_mgr hcalls hpc
  | insert _ _ _ => exact .quiet
  | erase hcalls hpc hm => exact h.erase_mgr hcalls hpc hm
  | perform hp => exact .perform hp
  | leave _ _ => exact .leave _
  | reclaim hr => exact .reclaim hr

theorem run_inv (r : Run (system P)) {i : ℕ} (hi : i ≤ r.len) : ∃ c, Inv P (r.state i) c := by
  refine r.invariant (P := fun _ s => ∃ c, Inv P s c) ⟨_, init_inv P⟩ hi ?_
  rintro j - hj ⟨c, hc⟩
  exact hc.effect (next_effect (r.step j hj))

end MultiCore.ReclaimList
