/-
  MultiCore.Debra.Steps — every step keeps the invariant.

  `Inv` puts the facts of `MultiCore.Debra.Invariant` together for all threads.
  Beside the proof that a step keeps it stands what the step is to the record
  manager of the library: the guards are the threads in an operation, the
  retired records those in the bags, and a record is taken back only when nobody
  pins it (`Inv.unpinned`).

    * `Opened` — how far the epoch can be ahead of an open operation;
    * `Inv.move`, `Move.manager_enter` — the steps inside `startOp`;
    * `Inv.free`, `Inv.reclaim`, `Inv.retire`, `Inv.perform_retire`, … — the
      other steps, one by one;
    * `Inv.step` — all of them.
-/
import MultiCore.Debra.Invariant

namespace MultiCore.Debra

open MultiCore.Lib MultiCore.Lib.Reclamation

variable {α : Type*} [DecidableEq α] {P : Params}

/-! ## §1. The records in the bags. -/

section Limbo

variable {s s' : State α} {t : Tid} {j : ℕ} {a : α}

theorem mem_slots {p : Tid × ℕ} : p ∈ slots P ↔ p.1 < P.NUM_PROCESSES ∧ p.2 < NUMBER_OF_EPOCH_BAGS := by
  unfold slots
  rw [Finset.mem_product, Finset.mem_range, Finset.mem_range]

omit [DecidableEq α] in
theorem mem_limbo : a ∈ limbo P s ↔ ∃ t < P.NUM_PROCESSES, ∃ j < NUMBER_OF_EPOCH_BAGS,
    a ∈ (s.threadData t).epochbags j := by
  unfold limbo
  rw [mem_contents]
  constructor
  · rintro ⟨⟨t, j⟩, hp, ha⟩
    exact ⟨t, (mem_slots.mp hp).1, j, (mem_slots.mp hp).2, ha⟩
  · rintro ⟨t, ht, j, hj, ha⟩
    exact ⟨(t, j), mem_slots.mpr ⟨ht, hj⟩, ha⟩

omit [DecidableEq α] in
theorem limbo_congr (h : ∀ u, (s'.threadData u).epochbags = (s.threadData u).epochbags) :
    limbo P s' = limbo P s :=
  contents_congr fun p _ => congrFun (h p.1) p.2

omit [DecidableEq α] in
/-- The bags besides the one that is changed. -/
theorem setBag_other {l : List α} {p : Tid × ℕ} (hne : p ≠ (t, j)) :
    ((s.setData t ((s.threadData t).setBag j l)).threadData p.1).epochbags p.2
      = (s.threadData p.1).epochbags p.2 := by
  rw [setData_data]
  by_cases ht : p.1 = t
  · have hj : p.2 ≠ j := fun hj => hne (Prod.ext ht hj)
    rw [ht, Function.update_self]
    show Function.update (s.threadData t).epochbags j l p.2 = _
    exact Function.update_of_ne hj _ _
  · rw [Function.update_of_ne ht]

omit [DecidableEq α] in
theorem setBag_self {l : List α} :
    ((s.setData t ((s.threadData t).setBag j l)).threadData t).epochbags j = l := by
  rw [setData_data, Function.update_self]
  show Function.update (s.threadData t).epochbags j l j = l
  exact Function.update_self _ _ _

omit [DecidableEq α] in
theorem limbo_push (ht : t < P.NUM_PROCESSES) (hj : j < NUMBER_OF_EPOCH_BAGS) :
    limbo P (s.setData t ((s.threadData t).setBag j (a :: (s.threadData t).epochbags j)))
      = a ::ₘ limbo P s :=
  contents_push (mem_slots.mpr ⟨ht, hj⟩) (fun _ _ hne => setBag_other hne) setBag_self

omit [DecidableEq α] in
theorem limbo_pop {rest : List α} (ht : t < P.NUM_PROCESSES) (hj : j < NUMBER_OF_EPOCH_BAGS)
    (hbag : (s.threadData t).epochbags j = a :: rest) :
    limbo P s = a ::ₘ limbo P (s.setData t ((s.threadData t).setBag j rest)) := by
  refine contents_pop (mem_slots.mpr ⟨ht, hj⟩) (fun _ _ hne => setBag_other hne) ?_
  show (s.threadData t).epochbags j = a :: _
  rw [setBag_self, hbag]

end Limbo

/-! ## §2. The invariant. -/

/-- While thread `t` is in an operation the epoch is at most one increment ahead
of its announcement, and a scan for the next one has not passed it. -/
structure Opened (P : Params) (s : State α) (g : Ghost α) (t : Tid) : Prop where
  even : g.openEpoch t % 2 = 0
  local_le : (s.threadData t).localvarAnnouncedEpoch ≤ g.openEpoch t
  le : g.openEpoch t ≤ s.epoch
  once : s.epoch ≤ g.openEpoch t + 2
  blocked : ∀ q < P.NUM_PROCESSES, (s.threadData q).localvarAnnouncedEpoch = g.openEpoch t + 2 →
    (s.threadData q).checked ≤ t

structure Inv (P : Params) (s : State α) (inUse : α → Bool) (g : Ghost α) : Prop where
  even : s.epoch % 2 = 0
  thread : ∀ t < P.NUM_PROCESSES,
    ThreadInv P.NUM_PROCESSES s.epoch g.stamp (s.pc t) (s.threadData t)
  outside : ∀ t, P.NUM_PROCESSES ≤ t → s.pc t = .quiescent
  busy : ∀ t, s.calls t ≠ [] → s.pc t = .operating
  stamp_le : ∀ a, g.stamp a ≤ s.epoch
  opened : ∀ t, (s.pc t).announced = true → Opened P s g t
  pinned : ∀ a, ∀ t ∈ g.pinned a, g.openEpoch t ≤ g.stamp a
  nodup : (limbo P s).Nodup
  ok : (manager P s g).Ok inUse

section Inv

variable {s s' : State α} {inUse inUse' : α → Bool} {g g' : Ghost α} {t : Tid}

omit [DecidableEq α] in
theorem mem_operating : t ∈ operating P s ↔ t < P.NUM_PROCESSES ∧ s.pc t = .operating := by
  unfold operating
  rw [Finset.mem_filter, Finset.mem_range]

theorem Inv.lt_of_ne (h : Inv P s inUse g) (hpc : s.pc t ≠ .quiescent) : t < P.NUM_PROCESSES := by
  by_contra hge
  exact hpc (h.outside t (Nat.le_of_not_lt hge))

theorem Inv.calls_nil (h : Inv P s inUse g) (hpc : s.pc t ≠ .operating) : s.calls t = [] := by
  by_contra hne
  exact hpc (h.busy t hne)

omit [DecidableEq α] in
/-- A thread has read an epoch that is not ahead, or none. -/
theorem ThreadInv.local_cases {n epoch : ℕ} {stamp : α → ℕ} {pc : Pc} {d : ThreadData α}
    (h : ThreadInv n epoch stamp pc d) :
    d.localvarAnnouncedEpoch = 1 ∨ d.localvarAnnouncedEpoch ≤ epoch := by
  have hphase := h.phase
  cases pc with
  | quiescent => exact hphase.2.imp And.left fun h => h.1.2
  | _ => exact Or.inr hphase.2.1.2

theorem manager_eq (hguards : operating P s' = operating P s) (hcalls : s'.calls = s.calls)
    (hlimbo : limbo P s' = limbo P s) (hpinned : g'.pinned = g.pinned) :
    manager P s' g' = manager P s g := by
  unfold manager
  rw [hguards, hcalls, hlimbo, hpinned]

omit [DecidableEq α] in
/-- Thread `t` has opened an operation. -/
theorem operating_enter (hpc : s'.pc = Function.update s.pc t .operating)
    (ht : t < P.NUM_PROCESSES) : operating P s' = insert t (operating P s) := by
  ext u
  rw [Finset.mem_insert, mem_operating, mem_operating, hpc, Function.update_apply]
  by_cases hu : u = t
  · simp [hu, ht]
  · simp [hu]

omit [DecidableEq α] in
/-- Thread `t` is in no operation. -/
theorem operating_leave {pc' : Pc} (hpc : s'.pc = Function.update s.pc t pc')
    (hne : pc' ≠ .operating) : operating P s' = (operating P s).erase t := by
  ext u
  rw [Finset.mem_erase, mem_operating, mem_operating, hpc, Function.update_apply]
  by_cases hu : u = t
  · simp [hu, hne]
  · simp [hu]

omit [DecidableEq α] in
/-- Thread `t` is still in no operation. -/
theorem operating_stay {pc' : Pc} (hpc : s'.pc = Function.update s.pc t pc')
    (hne : pc' ≠ .operating) (hold : s.pc t ≠ .operating) : operating P s' = operating P s := by
  rw [operating_leave hpc hne]
  exact Finset.erase_eq_of_notMem fun h => hold (mem_operating.mp h).2

end Inv

/-! ## §3. A step of `startOp`. -/

section Move

variable {s : State α} {inUse : α → Bool} {g : Ghost α} {t : Tid} {pc' : Pc} {d' : ThreadData α}

omit [DecidableEq α] in
theorem Move.bags (hm : Move P s t pc' d') : d'.epochbags = (s.threadData t).epochbags := by
  cases hm <;> rfl

omit [DecidableEq α] in
theorem Move.not_operating (hm : Move P s t pc' d') : s.pc t ≠ .operating := by
  intro hpc
  cases hm with
  | reopen h _ | newEpoch h _ | rotated h _ | announceOpen h _ | announceScan h _ | scanMiss h _
  | scanHit h _ _ | scanLast h _ _ => exact absurd (hpc.symm.trans h) Pc.noConfusion

omit [DecidableEq α] in
theorem Ghost.moved_of_ne (h : ∀ ro e, s.pc t ≠ .announcing ro e) : g.moved s t = g := by
  unfold Ghost.moved
  split
  · rename_i ro e hpc
    exact absurd hpc (h ro e)
  · rfl

omit [DecidableEq α] in
theorem Ghost.moved_announcing {ro : Bool} {e : ℕ} (hpc : s.pc t = .announcing ro e) :
    g.moved s t = { g with openEpoch := Function.update g.openEpoch t s.epoch } := by
  unfold Ghost.moved
  rw [hpc]

omit [DecidableEq α] in
@[simp] theorem Ghost.moved_stamp : (g.moved s t).stamp = g.stamp := by
  unfold Ghost.moved
  split <;> rfl

omit [DecidableEq α] in
@[simp] theorem Ghost.moved_pinned : (g.moved s t).pinned = g.pinned := by
  unfold Ghost.moved
  split <;> rfl

omit [DecidableEq α] in
theorem Ghost.moved_other {u : Tid} (hu : u ≠ t) : (g.moved s t).openEpoch u = g.openEpoch u := by
  unfold Ghost.moved
  split
  · exact Function.update_of_ne hu _ _
  · rfl

omit [DecidableEq α] in
/-- **A scan does not pass an open operation** that the epoch it scans for has
not reached. -/
theorem Move.blocked (hm : Move P s t pc' d') {u : Tid} (hopen : Opened P s g u)
    (ht : ThreadInv P.NUM_PROCESSES s.epoch g.stamp (s.pc t) (s.threadData t))
    (htn : t < P.NUM_PROCESSES)
    (hann : (s.threadData u).announcedEpoch = (s.threadData u).localvarAnnouncedEpoch)
    (hueven : (s.threadData u).localvarAnnouncedEpoch % 2 = 0)
    (heq : d'.localvarAnnouncedEpoch = g.openEpoch u + 2) : d'.checked ≤ u := by
  -- a thread that accepts another announcement has not read that of `u`
  have hscan : ∀ e, s.pc t = .scanning e →
      (s.threadData t).localvarAnnouncedEpoch = g.openEpoch u + 2 →
      (bitsEpoch (s.threadData (s.threadData t).checked).announcedEpoch = e
        ∨ isQuiescent (s.threadData (s.threadData t).checked).announcedEpoch = true) →
      (s.threadData t).checked + 1 ≤ u := by
    intro e hpc hlocal hyes
    have hle := hopen.blocked t htn hlocal
    have hphase := ht.phase
    rw [hpc] at hphase
    refine Nat.lt_of_le_of_ne hle ?_
    intro hcu
    rw [hcu, hann, accepts_even hueven, hphase.2.2.1, hlocal] at hyes
    have hlocal_le := hopen.local_le
    omega
  cases hm with
  | reopen hpc hsame =>
      have hlocal : s.epoch = g.openEpoch u + 2 := heq
      exact hopen.blocked t htn (hsame.symm.trans hlocal)
  | newEpoch => exact Nat.zero_le u
  | rotated | announceOpen | announceScan | scanMiss => exact hopen.blocked t htn heq
  | scanHit hpc _ hyes | scanLast hpc _ hyes => exact hscan _ hpc heq hyes

omit [DecidableEq α] in
/-- Thread `t` announces an operation. -/
theorem opened_announce {s' : State α} {ro : Bool} {e : ℕ} (hpc : s.pc t = .announcing ro e)
    (heven : s.epoch % 2 = 0) (hepoch : s'.epoch = s.epoch)
    (hlocal : ∀ q, (s'.threadData q).localvarAnnouncedEpoch
      = (s.threadData q).localvarAnnouncedEpoch)
    (hle : ∀ q < P.NUM_PROCESSES, (s.threadData q).localvarAnnouncedEpoch = 1
      ∨ (s.threadData q).localvarAnnouncedEpoch ≤ s.epoch)
    (hself : (s.threadData t).localvarAnnouncedEpoch ≤ s.epoch) :
    Opened P s' (g.moved s t) t := by
  have hopen : (g.moved s t).openEpoch t = s.epoch := by
    rw [Ghost.moved_announcing hpc]
    exact Function.update_self _ _ _
  refine ⟨?_, ?_, ?_, ?_, ?_⟩
  · rw [hopen]
    exact heven
  · rw [hopen, hlocal]
    exact hself
  · rw [hopen, hepoch]
  · rw [hopen, hepoch]
    exact Nat.le_add_right _ _
  · -- no thread has read a later epoch
    intro q hq hahead
    rw [hopen, hlocal] at hahead
    have hcases := hle q hq
    omega

omit [DecidableEq α] in
theorem ThreadInv.announced {n epoch : ℕ} {stamp : α → ℕ} {pc : Pc} {d : ThreadData α}
    (h : ThreadInv n epoch stamp pc d) (hpc : pc.announced = true) :
    d.announcedEpoch = d.localvarAnnouncedEpoch ∧ d.HasEpoch epoch := by
  have hphase := h.phase
  cases pc with
  | scanning | advancing | operating => exact ⟨hphase.1, hphase.2.1⟩
  | quiescent | rotating | announcing => exact absurd hpc (by simp [Pc.announced])

omit [DecidableEq α] in
/-- A step of `startOp` announces the operation, or the operation was announced. -/
theorem Move.announced (hm : Move P s t pc' d') (hpc' : pc'.announced = true) :
    (∃ ro e, s.pc t = .announcing ro e) ∨ (s.pc t).announced = true := by
  cases hm with
  | reopen | newEpoch | rotated => exact absurd hpc' (by simp [Pc.announced])
  | announceOpen hpc | announceScan hpc => exact Or.inl ⟨_, _, hpc⟩
  | scanMiss hpc | scanHit hpc | scanLast hpc =>
      right
      rw [hpc]
      rfl

omit [DecidableEq α] in
/-- What has been announced is not announced again before `endOp`. -/
theorem Move.local_eq (hm : Move P s t pc' d') (hne : s.pc t ≠ .quiescent) :
    d'.localvarAnnouncedEpoch = (s.threadData t).localvarAnnouncedEpoch := by
  cases hm with
  | reopen hpc | newEpoch hpc => exact absurd hpc hne
  | rotated | announceOpen | announceScan | scanMiss | scanHit | scanLast => rfl

omit [DecidableEq α] in
theorem Move.limbo (hm : Move P s t pc' d') :
    limbo P ((s.setData t d').goto t pc') = limbo P s := by
  apply limbo_congr
  intro u
  rw [goto_data, setData_data, Function.update_apply]
  split
  · rename_i hu
    rw [hm.bags, hu]
  · rfl

/-- To the record manager, the last step of `startOp` opens the guard. -/
theorem Move.manager_enter (hm : Move P s t pc' d') (ht : t < P.NUM_PROCESSES)
    (hpc' : pc' = .operating) :
    manager P ((s.setData t d').goto t pc') (g.moved s t) = (manager P s g).enter t := by
  have hguards : operating P ((s.setData t d').goto t pc') = insert t (operating P s) :=
    operating_enter (by rw [hpc']; rfl) ht
  unfold manager Manager.enter
  rw [hguards, hm.limbo, Ghost.moved_pinned]
  rfl

/-- The other steps of `startOp` are nothing to it. -/
theorem Move.manager_eq (hm : Move P s t pc' d') (hpc' : pc' ≠ .operating) :
    manager P ((s.setData t d').goto t pc') (g.moved s t) = manager P s g :=
  Debra.manager_eq (operating_stay rfl hpc' hm.not_operating) rfl hm.limbo Ghost.moved_pinned

theorem Move.step (hm : Move P s t pc' d') (ht : t < P.NUM_PROCESSES) :
    Manager.Step (manager P s g) inUse
      (manager P ((s.setData t d').goto t pc') (g.moved s t)) inUse := by
  by_cases hpc' : pc' = .operating
  · rw [hm.manager_enter ht hpc']
    exact .enter t
  · rw [hm.manager_eq hpc']
    exact .quiet

/-- **A step of `startOp` keeps the invariant.** -/
theorem Inv.move (h : Inv P s inUse g) (hm : Move P s t pc' d') (ht : t < P.NUM_PROCESSES) :
    Inv P ((s.setData t d').goto t pc') inUse (g.moved s t) := by
  have hn : 0 < P.NUM_PROCESSES := Nat.zero_lt_of_lt ht
  have hdata : ∀ u, u ≠ t → ((s.setData t d').goto t pc').threadData u = s.threadData u :=
    fun u hu => Function.update_of_ne hu _ _
  have hself : ((s.setData t d').goto t pc').threadData t = d' := Function.update_self _ _ _
  have hpcs : ∀ u, u ≠ t → ((s.setData t d').goto t pc').pc u = s.pc u :=
    fun u hu => Function.update_of_ne hu _ _
  have hpct : ((s.setData t d').goto t pc').pc t = pc' := Function.update_self _ _ _
  refine ⟨h.even, ?_, ?_, ?_, ?_, ?_, ?_, ?_, (hm.step ht).ok h.ok⟩
  · -- the threads
    intro u hu
    rw [Ghost.moved_stamp]
    by_cases hut : u = t
    · rw [hut, hself, hpct]
      exact hm.threadInv (h.thread t ht) h.even h.stamp_le hn
    · rw [hdata u hut, hpcs u hut]
      exact h.thread u hu
  · intro u hu
    have hut : u ≠ t := by
      rintro rfl
      exact absurd ht (Nat.not_lt_of_le hu)
    rw [hpcs u hut]
    exact h.outside u hu
  · intro u hcalls
    have hut : u ≠ t := by
      rintro rfl
      exact hm.not_operating (h.busy u hcalls)
    rw [hpcs u hut]
    exact h.busy u hcalls
  · rw [Ghost.moved_stamp]
    exact h.stamp_le
  · -- the open operations
    intro u hann
    by_cases hut : u = t
    · subst hut
      rw [hpct] at hann
      have hcases := fun q hq => (h.thread q hq).local_cases
      rcases hm.announced hann with ⟨ro, e, hpc⟩ | hopen
      · have hphase := (h.thread u ht).phase
        have hlocal : d'.localvarAnnouncedEpoch = (s.threadData u).localvarAnnouncedEpoch :=
          hm.local_eq (by rw [hpc]; exact Pc.noConfusion)
        rw [hpc] at hphase
        refine opened_announce hpc h.even rfl ?_ hcases hphase.2.1.2
        intro q
        by_cases hqu : q = u
        · rw [hqu, hself, hlocal]
        · rw [hdata q hqu]
      · have hnot : ∀ ro e, s.pc u ≠ .announcing ro e := by
          intro ro e hpc
          rw [hpc] at hopen
          exact absurd hopen (by simp [Pc.announced])
        have hlocal : d'.localvarAnnouncedEpoch = (s.threadData u).localvarAnnouncedEpoch := by
          apply hm.local_eq
          intro hpc
          rw [hpc] at hopen
          exact absurd hopen (by simp [Pc.announced])
        have hold := h.opened u hopen
        rw [Ghost.moved_of_ne hnot]
        refine ⟨hold.even, ?_, hold.le, hold.once, ?_⟩
        · rw [hself, hlocal]
          exact hold.local_le
        · intro q hq hahead
          by_cases hqu : q = u
          · -- a thread is not ahead of its own operation
            rw [hqu, hself, hlocal] at hahead
            have hle := hold.local_le
            omega
          · rw [hdata q hqu] at hahead ⊢
            exact hold.blocked q hq hahead
    · rw [hpcs u hut] at hann
      have hold := h.opened u hann
      have hun : u < P.NUM_PROCESSES := by
        apply h.lt_of_ne
        intro hpc
        rw [hpc] at hann
        exact absurd hann (by simp [Pc.announced])
      have hu := (h.thread u hun).announced hann
      refine ⟨?_, ?_, ?_, ?_, ?_⟩
      · rw [Ghost.moved_other hut]
        exact hold.even
      · rw [Ghost.moved_other hut, hdata u hut]
        exact hold.local_le
      · rw [Ghost.moved_other hut]
        exact hold.le
      · rw [Ghost.moved_other hut]
        exact hold.once
      · intro q hq hahead
        rw [Ghost.moved_other hut] at hahead
        by_cases hqt : q = t
        · rw [hqt, hself] at hahead ⊢
          exact hm.blocked hold (h.thread t ht) ht hu.1 hu.2.1 hahead
        · rw [hdata q hqt] at hahead ⊢
          exact hold.blocked q hq hahead
  · -- what is pinned is pinned by an operation, and `t` was in none
    intro a u hu
    rw [Ghost.moved_pinned] at hu
    have hop : u ∈ operating P s := h.ok.pinned_open a hu
    have hut : u ≠ t := by
      rintro rfl
      exact hm.not_operating (mem_operating.mp hop).2
    rw [Ghost.moved_other hut, Ghost.moved_stamp]
    exact h.pinned a u hu
  · rw [hm.limbo]
    exact h.nodup

end Move

/-! ## §4. The other steps. -/

section Bags

variable {n epoch : ℕ} {stamp : α → ℕ} {d : ThreadData α} {j : ℕ} {l : List α}

omit [DecidableEq α] in
/-- Records may leave a bag. -/
theorem ThreadInv.shrink {pc : Pc} (h : ThreadInv n epoch stamp pc d)
    (hl : ∀ a ∈ l, a ∈ d.epochbags j) : ThreadInv n epoch stamp pc (d.setBag j l) := by
  have hsub : ∀ i, ∀ a ∈ (d.setBag j l).epochbags i, a ∈ d.epochbags i := by
    intro i a ha
    have ha' : a ∈ Function.update d.epochbags j l i := ha
    rw [Function.update_apply] at ha'
    split at ha'
    · rename_i hi
      rw [hi]
      exact hl a ha'
    · exact ha'
  have hnil : ∀ i, d.epochbags i = [] → (d.setBag j l).epochbags i = [] := by
    intro i hi
    rw [List.eq_nil_iff_forall_not_mem]
    intro a ha
    have hold := hsub i a ha
    rw [hi] at hold
    exact absurd hold List.not_mem_nil
  refine ⟨h.index_lt, ?_, ?_, fun k h₁ hk => hnil _ (h.empty k h₁ hk)⟩
  · have hphase := h.phase
    cases pc with
    | quiescent =>
        refine ⟨hphase.1, hphase.2.imp_left ?_⟩
        exact fun hnew => ⟨hnew.1, hnew.2.1, fun i => hnil i (hnew.2.2 i)⟩
    | _ => exact hphase
  · have haged := h.aged
    cases pc with
    | rotating => exact fun k hk a ha => haged k hk a (hsub _ a ha)
    | _ => exact fun k h₁ hk a ha => haged k h₁ hk a (hsub _ a ha)

omit [DecidableEq α] in
/-- A record may join the current bag. -/
theorem ThreadInv.grow (h : ThreadInv n epoch stamp .operating d) :
    ThreadInv n epoch stamp .operating (d.setBag d.index l) := by
  have hindex := h.index_lt
  have hother : ∀ k, 1 ≤ k → k < 9 → (d.setBag d.index l).bagOfAge k = d.bagOfAge k := by
    intro k h₁ hk
    apply bagOfAge_update_ne
    omega
  refine ⟨hindex, h.phase, ?_, ?_⟩
  · intro k h₁ hk a ha
    rw [hother k h₁ hk] at ha
    exact h.aged k h₁ hk a ha
  · intro k h₁ hk
    rw [hother k (by omega) hk]
    exact h.empty k h₁ hk

end Bags

section Steps

variable {s s' : State α} {inUse inUse' : α → Bool} {g : Ghost α} {t : Tid}

/-- Steps that leave the epochs, the announcements and the program points alone. -/
theorem Inv.frame (h : Inv P s inUse g) (hepoch : s'.epoch = s.epoch) (hpc : s'.pc = s.pc)
    (hlocal : ∀ q, (s'.threadData q).localvarAnnouncedEpoch
      = (s.threadData q).localvarAnnouncedEpoch)
    (hchecked : ∀ q, (s'.threadData q).checked = (s.threadData q).checked)
    (hthread : ∀ u < P.NUM_PROCESSES,
      ThreadInv P.NUM_PROCESSES s.epoch g.stamp (s.pc u) (s'.threadData u))
    (hbusy : ∀ u, s'.calls u ≠ [] → s.calls u ≠ []) (hnodup : (limbo P s').Nodup)
    (hok : (manager P s' g).Ok inUse') : Inv P s' inUse' g := by
  refine ⟨?_, ?_, ?_, ?_, ?_, ?_, h.pinned, hnodup, hok⟩
  · rw [hepoch]
    exact h.even
  · rw [hepoch, hpc]
    exact hthread
  · rw [hpc]
    exact h.outside
  · rw [hpc]
    exact fun u hu => h.busy u (hbusy u hu)
  · rw [hepoch]
    exact h.stamp_le
  · intro u hu
    rw [hpc] at hu
    have hold := h.opened u hu
    refine ⟨hold.even, ?_, hepoch ▸ hold.le, hepoch ▸ hold.once, ?_⟩
    · rw [hlocal]
      exact hold.local_le
    · intro q hq hahead
      rw [hlocal] at hahead
      rw [hchecked]
      exact hold.blocked q hq hahead

omit [DecidableEq α] in
theorem setBag_local {j : ℕ} {l : List α} (q : Tid) :
    ((s.setData t ((s.threadData t).setBag j l)).threadData q).localvarAnnouncedEpoch
      = (s.threadData q).localvarAnnouncedEpoch := by
  rw [setData_data, Function.update_apply]
  split
  · rename_i hq
    rw [hq]
    rfl
  · rfl

omit [DecidableEq α] in
theorem setBag_checked {j : ℕ} {l : List α} (q : Tid) :
    ((s.setData t ((s.threadData t).setBag j l)).threadData q).checked
      = (s.threadData q).checked := by
  rw [setData_data, Function.update_apply]
  split
  · rename_i hq
    rw [hq]
    rfl
  · rfl

omit [DecidableEq α] in
theorem setBag_thread {n epoch : ℕ} {stamp : α → ℕ} {j : ℕ} {l : List α}
    (hall : ∀ u < n, ThreadInv n epoch stamp (s.pc u) (s.threadData u))
    (ht : ThreadInv n epoch stamp (s.pc t) ((s.threadData t).setBag j l)) :
    ∀ u < n, ThreadInv n epoch stamp (s.pc u)
      ((s.setData t ((s.threadData t).setBag j l)).threadData u) := by
  intro u hu
  rw [setData_data, Function.update_apply]
  split
  · rename_i hut
    rw [hut]
    exact ht
  · exact hall u hu

omit [DecidableEq α] in
/-- A thread that has a call left had one before. -/
theorem calls_tail {c : Call α} {rest : List (Call α)} {u : Tid} (hcalls : s.calls t = c :: rest)
    (hu : Function.update s.calls t rest u ≠ []) : s.calls u ≠ [] := by
  rw [Function.update_apply] at hu
  split at hu
  · rename_i hut
    rw [hut, hcalls]
    exact List.cons_ne_nil _ _
  · exact hu

/-- **What is freed is pinned by nobody**: the bag is five rotations old. -/
theorem Inv.unpinned (h : Inv P s inUse g) {ro : Bool} {e i : ℕ} {a : α}
    (hpc : s.pc t = .rotating ro e i) (ha : a ∈ (s.threadData t).epochbags (freeable i)) :
    g.pinned a = ∅ := by
  have ht : t < P.NUM_PROCESSES := h.lt_of_ne (by rw [hpc]; exact Pc.noConfusion)
  have hthread := h.thread t ht
  rw [hpc] at hthread
  obtain ⟨-, hepoch, -, rfl, -⟩ := hthread.phase
  rw [freeable_slot hthread.index_lt] at ha
  have hage := hthread.aged 5 (by decide) a ha
  rw [Finset.eq_empty_iff_forall_notMem]
  intro u hu
  have hop : s.pc u = .operating := (mem_operating.mp (h.ok.pinned_open a hu)).2
  have hopen := h.opened u (by rw [hop]; rfl)
  have hpin := h.pinned a u hu
  have honce := hopen.once
  have hlocal := hepoch.2
  omega

/-- To the record manager, the step that frees a record takes it back. -/
theorem Inv.reclaim (h : Inv P s inUse g) {ro : Bool} {e i : ℕ} {ptr : α} {rest : List α}
    (hpc : s.pc t = .rotating ro e i)
    (hbag : (s.threadData t).epochbags (freeable i) = ptr :: rest)
    (hs' : s' = s.setData t ((s.threadData t).setBag (freeable i) rest)) :
    (limbo P s').Nodup ∧ (manager P s g).reclaim inUse ptr
      = some (manager P s' g, Function.update inUse ptr false) := by
  have ht : t < P.NUM_PROCESSES := h.lt_of_ne (by rw [hpc]; exact Pc.noConfusion)
  have hj : freeable i < NUMBER_OF_EPOCH_BAGS := Nat.mod_lt _ (by decide)
  have hmem : ptr ∈ (s.threadData t).epochbags (freeable i) := by
    rw [hbag]
    exact List.mem_cons_self
  have hpop : limbo P s = ptr ::ₘ limbo P s' := by
    rw [hs']
    exact limbo_pop ht hj hbag
  have hnodup := h.nodup
  rw [hpop, Multiset.nodup_cons] at hnodup
  refine ⟨hnodup.2, ?_⟩
  have hret : (manager P s g).retired ptr = true := by
    show decide (ptr ∈ limbo P s) = true
    rw [hpop, decide_eq_true_eq]
    exact Multiset.mem_cons_self _ _
  have hempty : (manager P s g).pinned ptr = ∅ := h.unpinned hpc hmem
  unfold Manager.reclaim
  rw [if_pos ⟨hret, hempty⟩]
  -- the rest of the records stay retired
  have hrest : (manager P s' g).retired = Function.update (manager P s g).retired ptr false := by
    funext b
    show decide (b ∈ limbo P s') = Function.update (fun b => decide (b ∈ limbo P s)) ptr false b
    rw [Function.update_apply]
    split
    · rename_i hb
      rw [hb]
      exact decide_eq_false hnodup.1
    · rename_i hb
      rw [hpop]
      simp [hb]
  have heq : manager P s' g = { manager P s g with
      retired := Function.update (manager P s g).retired ptr false } := by
    rw [← hrest, hs']
    rfl
  rw [heq]

theorem Inv.free (h : Inv P s inUse g) {ro : Bool} {e i : ℕ} {ptr : α} {rest : List α}
    (hpc : s.pc t = .rotating ro e i)
    (hbag : (s.threadData t).epochbags (freeable i) = ptr :: rest)
    (hs' : s' = s.setData t ((s.threadData t).setBag (freeable i) rest)) :
    Inv P s' (Function.update inUse ptr false) g := by
  have ht : t < P.NUM_PROCESSES := h.lt_of_ne (by rw [hpc]; exact Pc.noConfusion)
  obtain ⟨hnodup, hreclaim⟩ := h.reclaim hpc hbag hs'
  have hshrink := (h.thread t ht).shrink (j := freeable i) (l := rest) (by
    intro a ha
    rw [hbag]
    exact List.mem_cons_of_mem ptr ha)
  subst hs'
  exact h.frame rfl rfl setBag_local setBag_checked (setBag_thread h.thread hshrink) (fun _ => id)
    hnodup ((Manager.Step.reclaim hreclaim).ok h.ok)

/-- The current bag of a thread that makes a call. -/
theorem Inv.current (h : Inv P s inUse g) {c : Call α} {rest : List (Call α)}
    (hcalls : s.calls t = c :: rest) : s.pc t = .operating ∧ t < P.NUM_PROCESSES
      ∧ ThreadInv P.NUM_PROCESSES s.epoch g.stamp .operating (s.threadData t) := by
  have hop : s.pc t = .operating := h.busy t (by rw [hcalls]; exact List.cons_ne_nil _ _)
  have ht : t < P.NUM_PROCESSES := h.lt_of_ne (by rw [hop]; exact Pc.noConfusion)
  have hthread := h.thread t ht
  rw [hop] at hthread
  exact ⟨hop, ht, hthread⟩

/-- It retires into its current bag a record that is in none. -/
theorem Inv.limbo_retire (h : Inv P s inUse g) {a : α} {rest : List (Call α)} {j : ℕ}
    (hcalls : s.calls t = .retire a :: rest) (hbag : (s.threadData t).currentBag = some j)
    (hs' : s' = ({ s with calls := Function.update s.calls t rest } : State α).setData t
      ((s.threadData t).setBag j (a :: (s.threadData t).epochbags j))) :
    j = (s.threadData t).index ∧ limbo P s' = a ::ₘ limbo P s ∧ a ∉ limbo P s := by
  obtain ⟨hop, ht, hthread⟩ := h.current hcalls
  obtain rfl : j = (s.threadData t).index := by
    have hcur := hthread.phase.2.2.1
    rw [hbag] at hcur
    exact Option.some.inj hcur
  refine ⟨rfl, ?_, ?_⟩
  · rw [hs']
    exact limbo_push (s := { s with calls := Function.update s.calls t rest }) ht hthread.index_lt
  · intro ha
    have hpending := h.ok.pending t (.retire a) (by
      show Call.retire a ∈ s.calls t
      rw [hcalls]
      exact List.mem_cons_self)
    exact hpending (Or.inl (decide_eq_true ha))

theorem Inv.perform_retire (h : Inv P s inUse g) {a : α} {rest : List (Call α)} {j : ℕ}
    (hcalls : s.calls t = .retire a :: rest) (hbag : (s.threadData t).currentBag = some j)
    (hs' : s' = ({ s with calls := Function.update s.calls t rest } : State α).setData t
      ((s.threadData t).setBag j (a :: (s.threadData t).epochbags j))) :
    (manager P s g).perform inUse t = some (manager P s' g, inUse) := by
  obtain ⟨-, hpush, -⟩ := h.limbo_retire hcalls hbag hs'
  unfold Manager.perform
  have hhead : (manager P s g).calls t = .retire a :: rest := hcalls
  rw [hhead]
  have hret : (manager P s' g).retired = Function.update (manager P s g).retired a true := by
    funext b
    show decide (b ∈ limbo P s') = Function.update (fun b => decide (b ∈ limbo P s)) a true b
    rw [Function.update_apply, hpush]
    split
    · rename_i hb
      simp [hb]
    · rename_i hb
      simp [hb]
  have heq : manager P s' g = { manager P s g with
      calls := Function.update (manager P s g).calls t rest
      retired := Function.update (manager P s g).retired a true } := by
    rw [← hret, hs']
    rfl
  rw [heq]

theorem Inv.retire (h : Inv P s inUse g) {a : α} {rest : List (Call α)} {j : ℕ}
    (hcalls : s.calls t = .retire a :: rest) (hbag : (s.threadData t).currentBag = some j)
    (hs' : s' = ({ s with calls := Function.update s.calls t rest } : State α).setData t
      ((s.threadData t).setBag j (a :: (s.threadData t).epochbags j))) :
    Inv P s' inUse g := by
  have hok := (Manager.Step.perform (h.perform_retire hcalls hbag hs')).ok h.ok
  obtain ⟨hop, -, hthread⟩ := h.current hcalls
  obtain ⟨rfl, hpush, hnot⟩ := h.limbo_retire hcalls hbag hs'
  have hnodup : (limbo P s').Nodup := by
    rw [hpush, Multiset.nodup_cons]
    exact ⟨hnot, h.nodup⟩
  have hgrow : ThreadInv P.NUM_PROCESSES s.epoch g.stamp (s.pc t)
      ((s.threadData t).setBag (s.threadData t).index
        (a :: (s.threadData t).epochbags (s.threadData t).index)) := by
    rw [hop]
    exact hthread.grow
  subst hs'
  exact h.frame rfl rfl setBag_local setBag_checked (setBag_thread h.thread hgrow)
    (fun u hu => calls_tail hcalls hu) hnodup hok

omit [DecidableEq α] in
theorem perform_deallocate [DecidableEq α] {a : α} {rest : List (Call α)}
    (hcalls : s.calls t = .deallocate a :: rest)
    (hs' : s' = { s with calls := Function.update s.calls t rest }) :
    (manager P s g).perform inUse t = some (manager P s' g, Function.update inUse a false) := by
  unfold Manager.perform
  have hhead : (manager P s g).calls t = .deallocate a :: rest := hcalls
  rw [hhead, hs']
  rfl

theorem Inv.deallocate (h : Inv P s inUse g) {a : α} {rest : List (Call α)}
    (hcalls : s.calls t = .deallocate a :: rest)
    (hs' : s' = { s with calls := Function.update s.calls t rest }) :
    Inv P s' (Function.update inUse a false) g := by
  have hperform : (manager P s g).perform inUse t
      = some (manager P s' g, Function.update inUse a false) := perform_deallocate hcalls hs'
  have hok := (Manager.Step.perform hperform).ok h.ok
  subst hs'
  exact h.frame rfl rfl (fun _ => rfl) (fun _ => rfl) h.thread (fun u hu => calls_tail hcalls hu)
    h.nodup hok

theorem Inv.allocate (h : Inv P s inUse g) (huse : ∀ a, inUse a = true → inUse' a = true) :
    Inv P s inUse' g :=
  h.frame rfl rfl (fun _ => rfl) (fun _ => rfl) h.thread (fun _ => id) h.nodup
    ((Manager.Step.allocate huse).ok h.ok)

/-- The step behind the scan opens the guard. -/
theorem manager_advance {e : ℕ} (ht : t < P.NUM_PROCESSES) :
    manager P (advance s t e) g = (manager P s g).enter t := by
  have hguards : operating P (advance s t e) = insert t (operating P s) := operating_enter rfl ht
  unfold manager Manager.enter
  rw [hguards]
  rfl

/-- The compare-and-swap.  It succeeds only when no open operation is behind. -/
theorem Inv.advance (h : Inv P s inUse g) {e : ℕ} (hpc : s.pc t = .advancing e) :
    Inv P (advance s t e) inUse g := by
  have ht : t < P.NUM_PROCESSES := h.lt_of_ne (by rw [hpc]; exact Pc.noConfusion)
  have hthread := h.thread t ht
  rw [hpc] at hthread
  obtain ⟨hann, hepoch, rfl, hbag, hchecked⟩ := hthread.phase
  have hok : (manager P (Debra.advance s t (s.threadData t).localvarAnnouncedEpoch) g).Ok inUse := by
    rw [manager_advance ht]
    exact (Manager.Step.enter t).ok h.ok
  have hmono : s.epoch ≤ (Debra.advance s t (s.threadData t).localvarAnnouncedEpoch).epoch := by
    show s.epoch ≤ if s.epoch = _ then _ + 2 else s.epoch
    split <;> omega
  refine ⟨?_, ?_, ?_, ?_, fun a => (h.stamp_le a).trans hmono, ?_, h.pinned, h.nodup, hok⟩
  · show (if s.epoch = _ then _ + 2 else s.epoch) % 2 = 0
    have heven := h.even
    split <;> omega
  · intro u hu
    by_cases hut : u = t
    · subst hut
      show ThreadInv _ _ _ (Function.update s.pc u .operating u) (s.threadData u)
      rw [Function.update_self]
      refine ⟨hthread.index_lt, ?_, hthread.aged, hthread.empty⟩
      refine ⟨hann, ⟨hepoch.1, hepoch.2.trans hmono⟩, hbag, Or.inr ⟨hchecked, ?_⟩⟩
      -- the epoch of the scan is over, whoever has ended it
      show _ < if s.epoch = (s.threadData u).localvarAnnouncedEpoch
        then (s.threadData u).localvarAnnouncedEpoch + 2 else s.epoch
      have hle := hepoch.2
      split <;> omega
    · show ThreadInv _ _ _ (Function.update s.pc t .operating u) (s.threadData u)
      rw [Function.update_of_ne hut]
      exact (h.thread u hu).mono hmono
  · intro u hu
    have hut : u ≠ t := by
      rintro rfl
      exact absurd ht (Nat.not_lt_of_le hu)
    show Function.update s.pc t .operating u = .quiescent
    rw [Function.update_of_ne hut]
    exact h.outside u hu
  · intro u hu
    show Function.update s.pc t .operating u = .operating
    rw [Function.update_apply]
    split
    · rfl
    · exact h.busy u hu
  · -- the open operations
    intro u hu
    have hold : Opened P s g u := by
      apply h.opened u
      by_cases hut : u = t
      · rw [hut, hpc]
        rfl
      · have hu' : (Function.update s.pc t .operating u).announced = true := hu
        rwa [Function.update_of_ne hut] at hu'
    have hun : u < P.NUM_PROCESSES := by
      by_contra hge
      have hut : u ≠ t := by
        rintro rfl
        exact hge ht
      have hu' : (Function.update s.pc t .operating u).announced = true := hu
      rw [Function.update_of_ne hut, h.outside u (Nat.le_of_not_lt hge)] at hu'
      exact absurd hu' (by simp [Pc.announced])
    refine ⟨hold.even, hold.local_le, hold.le.trans hmono, ?_, hold.blocked⟩
    show (if s.epoch = (s.threadData t).localvarAnnouncedEpoch
      then (s.threadData t).localvarAnnouncedEpoch + 2 else s.epoch) ≤ g.openEpoch u + 2
    split
    · rename_i heq
      -- the scan of `t` has passed `u`, so `t` did not scan for a later epoch
      have hne : (s.threadData t).localvarAnnouncedEpoch ≠ g.openEpoch u + 2 := by
        intro hahead
        have hle := hold.blocked t ht hahead
        rw [hchecked] at hle
        exact absurd hun (Nat.not_lt_of_le hle)
      have honce := hold.once
      have heven := h.even
      have hopen := hold.even
      omega
    · exact hold.once

/-- `endOp` closes the guard. -/
theorem manager_endOp
    (hs' : s' = (s.setData t { s.threadData t with
      announcedEpoch := getWithQuiescent (s.threadData t).localvarAnnouncedEpoch }).goto t
        .quiescent) :
    limbo P s' = limbo P s
      ∧ manager P s' (g.after P s (.endOp t)) = (manager P s g).leave t := by
  have hlimbo : limbo P s' = limbo P s := by
    apply limbo_congr
    intro u
    rw [hs', goto_data, setData_data, Function.update_apply]
    split
    · rename_i hu
      rw [hu]
    · rfl
  refine ⟨hlimbo, ?_⟩
  have hguards : operating P s' = (operating P s).erase t := by
    rw [hs']
    exact operating_leave rfl Pc.noConfusion
  unfold manager Manager.leave
  rw [hguards, hlimbo, hs']
  rfl

theorem Inv.endOp (h : Inv P s inUse g) (hpc : s.pc t = .operating) (hcalls : s.calls t = [])
    (hs' : s' = (s.setData t { s.threadData t with
      announcedEpoch := getWithQuiescent (s.threadData t).localvarAnnouncedEpoch }).goto t
        .quiescent) :
    Inv P s' inUse (g.after P s (.endOp t)) := by
  have ht : t < P.NUM_PROCESSES := h.lt_of_ne (by rw [hpc]; exact Pc.noConfusion)
  have hthread := h.thread t ht
  rw [hpc] at hthread
  obtain ⟨-, hepoch, hbag, hscan⟩ := hthread.phase
  have hdata : ∀ u, u ≠ t → s'.threadData u = s.threadData u := by
    intro u hu
    rw [hs']
    exact Function.update_of_ne hu _ _
  have hself : s'.threadData t = { s.threadData t with
      announcedEpoch := getWithQuiescent (s.threadData t).localvarAnnouncedEpoch } := by
    rw [hs']
    exact Function.update_self _ _ _
  have hpcs : ∀ u, u ≠ t → s'.pc u = s.pc u := by
    intro u hu
    rw [hs']
    exact Function.update_of_ne hu _ _
  have hpct : s'.pc t = .quiescent := by
    rw [hs']
    exact Function.update_self _ _ _
  have hsame : ∀ u, (s'.threadData u).localvarAnnouncedEpoch
        = (s.threadData u).localvarAnnouncedEpoch
      ∧ (s'.threadData u).checked = (s.threadData u).checked
      ∧ (s'.threadData u).epochbags = (s.threadData u).epochbags := by
    intro u
    by_cases hut : u = t
    · rw [hut, hself]
      exact ⟨rfl, rfl, rfl⟩
    · rw [hdata u hut]
      exact ⟨rfl, rfl, rfl⟩
  obtain ⟨hlimbo, hleave⟩ := manager_endOp (P := P) (g := g) hs'
  have hok : (manager P s' (g.after P s (.endOp t))).Ok inUse := by
    rw [hleave]
    exact (Manager.Step.leave t).ok h.ok
  have hepoch' : s'.epoch = s.epoch := by
    rw [hs']
    rfl
  refine ⟨hepoch' ▸ h.even, ?_, ?_, ?_, hepoch' ▸ h.stamp_le, ?_, ?_, hlimbo ▸ h.nodup, hok⟩
  · intro u hu
    rw [hepoch']
    by_cases hut : u = t
    · rw [hut, hself, hpct]
      refine ⟨hthread.index_lt, ?_, hthread.aged, hthread.empty⟩
      exact ⟨getWithQuiescent_odd _, Or.inr ⟨hepoch, hbag, hscan⟩⟩
    · rw [hdata u hut, hpcs u hut]
      exact h.thread u hu
  · intro u hu
    by_cases hut : u = t
    · rw [hut, hpct]
    · rw [hpcs u hut]
      exact h.outside u hu
  · intro u hu
    have hu' : s.calls u ≠ [] := by
      rw [hs'] at hu
      exact hu
    have hut : u ≠ t := by
      rintro rfl
      exact hu' hcalls
    rw [hpcs u hut]
    exact h.busy u hu'
  · intro u hu
    have hut : u ≠ t := by
      rintro rfl
      rw [hpct] at hu
      exact absurd hu (by simp [Pc.announced])
    rw [hpcs u hut] at hu
    have hold := h.opened u hu
    refine ⟨hold.even, ?_, hepoch' ▸ hold.le, hepoch' ▸ hold.once, ?_⟩
    · rw [(hsame u).1]
      exact hold.local_le
    · intro q hq hahead
      rw [(hsame q).1] at hahead
      rw [(hsame q).2.1]
      exact hold.blocked q hq hahead
  · intro a u hu
    exact h.pinned a u (Finset.mem_of_mem_erase hu)

theorem giveBack_step (h : Inv P s inUse g) {cs : List (Call α)} {gone : List α}
    (hcalls : s.calls t = []) (hpromise : Promise P (s, inUse) (.giveBack t cs gone)) :
    Manager.Step (manager P s g) inUse ((manager P s g).giveBack t cs gone) inUse := by
  obtain ⟨hnodup, hfresh, -⟩ := hpromise
  refine .giveBack t cs gone hcalls hnodup fun c hc => ?_
  obtain ⟨huse, hnot, hother⟩ := hfresh c hc
  refine ⟨huse, decide_eq_false hnot, fun u c' hc' => ?_⟩
  refine hother u (h.lt_of_ne ?_) c' hc'
  rw [h.busy u (List.ne_nil_of_mem hc')]
  exact Pc.noConfusion

theorem Inv.giveBack (h : Inv P s inUse g) {cs : List (Call α)} {gone : List α}
    (hpc : s.pc t = .operating) (hcalls : s.calls t = [])
    (hpromise : Promise P (s, inUse) (.giveBack t cs gone))
    (hs' : s' = { s with calls := Function.update s.calls t cs }) :
    Inv P s' inUse (g.after P s (.giveBack t cs gone)) := by
  have hok := (giveBack_step h hcalls hpromise).ok h.ok
  obtain ⟨-, -, hgone⟩ := hpromise
  subst hs'
  refine ⟨h.even, ?_, h.outside, ?_, ?_, ?_, ?_, h.nodup, hok⟩
  · -- what is in a bag keeps its stamp
    intro u hu
    refine (h.thread u hu).congr ?_
    intro j hj a ha
    have hmem : a ∈ limbo P s := mem_limbo.mpr ⟨u, hu, j, hj, ha⟩
    show (if a ∈ gone then s.epoch else g.stamp a) = g.stamp a
    rw [if_neg fun hin => hgone a hin hmem]
  · intro u hu
    have hu' : Function.update s.calls t cs u ≠ [] := hu
    rw [Function.update_apply] at hu'
    split at hu'
    · rename_i hut
      rw [hut]
      exact hpc
    · exact h.busy u hu'
  · intro a
    show (if a ∈ gone then s.epoch else g.stamp a) ≤ s.epoch
    split
    · exact Nat.le_refl _
    · exact h.stamp_le a
  · intro u hu
    have hold := h.opened u hu
    exact ⟨hold.even, hold.local_le, hold.le, hold.once, hold.blocked⟩
  · intro a u hu
    show g.openEpoch u ≤ if a ∈ gone then s.epoch else g.stamp a
    have hu' : u ∈ if a ∈ gone then operating P s else g.pinned a := hu
    by_cases ha : a ∈ gone
    · rw [if_pos ha] at hu' ⊢
      refine (h.opened u ?_).le
      rw [(mem_operating.mp hu').2]
      rfl
    · rw [if_neg ha] at hu' ⊢
      exact h.pinned a u hu'

/-- **Every step keeps the invariant.** -/
theorem Inv.step (h : Inv P s inUse g) {a : Action α}
    (hnext : next P (s, inUse) a = some (s', inUse')) (hpromise : Promise P (s, inUse) a) :
    Inv P s' inUse' (g.after P s a) := by
  -- a step adds to the history only when it announces
  have hquiet : ∀ {t}, (∀ ro e, s.pc t ≠ .announcing ro e) → g.after P s (.step t) = g :=
    fun hpc => Ghost.moved_of_ne hpc
  cases next_effect hnext with
  | @start t ro pc' d' ht hm hpc _ =>
      have hsame : g.moved s t = g :=
        Ghost.moved_of_ne fun ro e heq => Pc.noConfusion (hpc.symm.trans heq)
      have hinv := h.move hm ht
      rw [hsame] at hinv
      exact hinv
  | @move t pc' d' hm hpc => exact h.move hm (h.lt_of_ne hpc)
  | @free t ro e i ptr rest hpc hbag =>
      rw [hquiet fun ro e heq => Pc.noConfusion (hpc.symm.trans heq)]
      exact h.free hpc hbag rfl
  | @advance t e hpc =>
      rw [hquiet fun ro e heq => Pc.noConfusion (hpc.symm.trans heq)]
      exact h.advance hpc
  | @retire t a rest j hcalls hbag =>
      have hpc := (h.current hcalls).1
      rw [hquiet fun ro e heq => Pc.noConfusion (hpc.symm.trans heq)]
      exact h.retire hcalls hbag rfl
  | @deallocate t a rest hcalls =>
      have hpc := (h.current hcalls).1
      rw [hquiet fun ro e heq => Pc.noConfusion (hpc.symm.trans heq)]
      exact h.deallocate hcalls rfl
  | endOp hpc hcalls => exact h.endOp hpc hcalls rfl
  | @allocate a =>
      refine h.allocate fun b hb => ?_
      rw [Function.update_apply]
      split
      · rfl
      · exact hb
  | giveBack hpc hcalls => exact h.giveBack hpc hcalls hpromise rfl

omit [DecidableEq α] in
theorem new_limbo : limbo P (.new : State α) = 0 := contents_empty fun _ _ => rfl

theorem new_manager : manager P .new .new = (Manager.new : Manager Tid α) := by
  have hguards : operating P (.new : State α) = ∅ := by
    rw [Finset.eq_empty_iff_forall_notMem]
    exact fun t ht => Pc.noConfusion (mem_operating.mp ht).2
  have hret : (fun a : α => decide (a ∈ limbo P (.new : State α))) = fun _ => false := by
    funext a
    rw [new_limbo]
    exact decide_eq_false (Multiset.notMem_zero a)
  unfold manager
  rw [hguards, hret]
  rfl

theorem new_inv : Inv P .new inUse (.new : Ghost α) where
  even := rfl
  thread _ _ := new_threadInv
  outside _ _ := rfl
  busy _ h := absurd rfl h
  stamp_le _ := Nat.le_refl 0
  opened t h := absurd h (by simp [State.new, Pc.announced])
  pinned a t h := absurd h (Finset.notMem_empty t)
  nodup := by
    rw [new_limbo]
    exact Multiset.nodup_zero
  ok := by
    rw [new_manager]
    exact Manager.new_ok inUse

end Steps

end MultiCore.Debra
