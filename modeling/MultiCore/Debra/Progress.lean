/-
  MultiCore.Debra.Progress — the epoch advances, and records are freed.

  A thread that is on its own, all others being quiescent, looks at one
  announcement in `MIN_OPS_BEFORE_READ` operations and accepts every one.  The
  `potential` counts what it has done: the epochs it has closed, the threads it
  has checked for the current one, and the operations since the last look.  An
  operation adds one to it, whatever it does, so the epoch can be read off the
  number of operations.

    * `Alone` and `Alone.step` — what holds of such a thread, and the step lemma
      for the potential;
    * `alone_epoch` — `NUM_PROCESSES * MIN_OPS_BEFORE_READ` operations advance
      the epoch, exactly once;
    * `alone_drains` — six epochs and one operation later every record that the
      thread had retired is freed;
    * `startOp_waitFree` — with any number of other threads, `startOp` takes no
      more steps than there are records to free, and four.
-/
import MultiCore.Debra.GracePeriod

namespace MultiCore.Debra

open MultiCore.Lib MultiCore.Lib.Reclamation

variable {α : Type*} [DecidableEq α] {P : Params}

/-! ## §1. A thread on its own. -/

/-- Thread `t` performs operations that are not read-only and retires nothing. -/
def acts (t : Tid) : Action α → Bool
  | .startOp u readOnly => u = t && !readOnly
  | .step u | .endOp u => u = t
  | _ => false

def endsOp (t : Tid) : Action α → Bool
  | .endOp u => u = t
  | _ => false

/-- All other threads are quiescent. -/
structure Alone (P : Params) (s : State α) (t : Tid) : Prop where
  others : ∀ u, u ≠ t → s.pc u = .quiescent
  calls : s.calls t = []
  /-- Nobody else advances the epoch. -/
  current : s.pc t ≠ .quiescent → s.pc t ≠ .operating →
    (s.threadData t).localvarAnnouncedEpoch = s.epoch
  writes : (∀ e i, s.pc t ≠ .rotating true e i) ∧ ∀ e, s.pc t ≠ .announcing true e
  ops_lt : (s.threadData t).opsSinceRead < P.MIN_OPS_BEFORE_READ

/-- The operations that it takes to advance the epoch. -/
def Params.period (P : Params) : ℕ := P.NUM_PROCESSES * P.MIN_OPS_BEFORE_READ

/-- A thread that is about to look has used up its operations. -/
def Pc.due (ops : ℕ) : Pc → ℕ
  | .scanning _ => ops
  | _ => 0

/-- The operation that is open has been counted. -/
def Pc.counted : Pc → ℕ
  | .scanning _ | .advancing _ | .operating => 1
  | _ => 0

def potential (P : Params) (s : State α) (t : Tid) : ℕ :=
  s.epoch / 2 * P.period
    + (if (s.threadData t).localvarAnnouncedEpoch = s.epoch
        then (s.threadData t).checked * P.MIN_OPS_BEFORE_READ else 0)
    + (s.threadData t).opsSinceRead
    + (s.pc t).due P.MIN_OPS_BEFORE_READ

section Alone

variable {s s' : State α} {inUse inUse' : α → Bool} {g : Ghost α} {t : Tid} {a : Action α}

omit [DecidableEq α] in
theorem goto_self {d' : ThreadData α} {pc' : Pc} :
    ((s.setData t d').goto t pc').pc t = pc' ∧ ((s.setData t d').goto t pc').threadData t = d' :=
  ⟨Function.update_self _ _ _, Function.update_self _ _ _⟩

/-- A scan accepts every announcement. -/
theorem Alone.accepts (ha : Alone P s t) (h : Inv P s inUse g) {e : ℕ}
    (hpc : s.pc t = .scanning e) :
    bitsEpoch (s.threadData (s.threadData t).checked).announcedEpoch = e
      ∨ isQuiescent (s.threadData (s.threadData t).checked).announcedEpoch = true := by
  have ht := h.lt_of_ne (t := t) (by rw [hpc]; exact Pc.noConfusion)
  have hphase := (h.thread t ht).phase
  rw [hpc] at hphase
  obtain ⟨hann, hepoch, he, -, hlt⟩ := hphase
  by_cases hself : (s.threadData t).checked = t
  · -- its own announcement
    left
    rw [hself, hann, he, bitsEpoch_of_even hepoch.1]
  · right
    have hother := (h.thread _ hlt).phase
    rw [ha.others _ hself] at hother
    rw [isQuiescent_iff]
    exact hother.1

/-- One step of `startOp` adds what it has counted. -/
theorem Alone.potential_move (ha : Alone P s t) (h : Inv P s inUse g) {pc' : Pc}
    {d' : ThreadData α} (hm : Move P s t pc' d') :
    potential P ((s.setData t d').goto t pc') t + (s.pc t).counted
      = potential P s t + pc'.counted := by
  have hcur := ha.current
  unfold potential
  rw [goto_self.1, goto_self.2, goto_epoch, setData_epoch]
  cases hm with
  | reopen hpc hsame =>
      rw [hpc]
      simp only [Pc.counted, Pc.due, ← hsame, if_true]
  | newEpoch hpc hne =>
      rw [hpc]
      simp only [Pc.counted, Pc.due, if_true, if_neg (Ne.symm hne), Nat.zero_mul]
  | rotated hpc =>
      rw [hpc]
      simp only [Pc.counted, Pc.due]
  | @announceOpen ro e ops hpc hops =>
      rw [hpc]
      rcases hops with ⟨hro, -⟩ | ⟨hops, -⟩
      · exact absurd (hro ▸ hpc) (ha.writes.2 e)
      · simp only [Pc.counted, Pc.due, hops]
        omega
  | announceScan hpc hops =>
      rw [hpc]
      simp only [Pc.counted, Pc.due]
      omega
  | scanMiss hpc hno => exact absurd (ha.accepts h hpc) hno
  | scanHit hpc | scanLast hpc =>
      -- the look is paid for
      rw [hpc] at hcur ⊢
      have hlocal := hcur Pc.noConfusion Pc.noConfusion
      simp only [Pc.counted, Pc.due, hlocal, if_true, Nat.add_mul, Nat.one_mul]
      omega

omit [DecidableEq α] in
/-- A step of `startOp` leaves the thread alone with a current epoch. -/
theorem Alone.move (ha : Alone P s t) {pc' : Pc} {d' : ThreadData α} (hm : Move P s t pc' d')
    (hro : s.pc t = .quiescent → pc' = .announcing false s.epoch ∨ ∃ i, pc' = .rotating false s.epoch i) :
    Alone P ((s.setData t d').goto t pc') t := by
  have hlt := ha.ops_lt
  refine ⟨?_, ha.calls, ?_, ?_, ?_⟩
  · intro u hu
    rw [goto_pc, setData_pc, Function.update_of_ne hu]
    exact ha.others u hu
  · rw [goto_self.1, goto_self.2, goto_epoch, setData_epoch]
    intro h₁ h₂
    have hcur := ha.current
    cases hm with
    | reopen | newEpoch => rfl
    | rotated hpc | announceScan hpc | scanLast hpc =>
        exact hcur (by rw [hpc]; exact Pc.noConfusion) (by rw [hpc]; exact Pc.noConfusion)
    | announceOpen | scanMiss | scanHit => exact absurd rfl h₂
  · rw [goto_self.1]
    have hwrites := ha.writes
    cases hm with
    | reopen hpc | newEpoch hpc =>
        rcases hro hpc with heq | ⟨i, heq⟩ <;> rw [heq] <;> simp
    | @rotated ro e i hpc =>
        refine ⟨fun _ _ => Pc.noConfusion, fun e' heq => ?_⟩
        obtain ⟨rfl, rfl⟩ := Pc.announcing.inj heq
        exact hwrites.1 _ _ hpc
    | announceOpen | announceScan | scanMiss | scanHit | scanLast =>
        exact ⟨fun _ _ => Pc.noConfusion, fun _ => Pc.noConfusion⟩
  · rw [goto_self.2]
    cases hm with
    | reopen | newEpoch | rotated | scanMiss | scanHit | scanLast => exact hlt
    | @announceOpen ro e ops _ hops =>
        show ops < P.MIN_OPS_BEFORE_READ
        omega
    | announceScan => exact P.pos

/-- **An operation adds one to the potential**: every step adds what it has
counted, and `endOp` closes what was counted. -/
theorem Alone.step (ha : Alone P s t) (h : Inv P s inUse g) (hact : acts t a = true)
    (he : Effect P s inUse a s' inUse') :
    Alone P s' t ∧ potential P s' t + (s.pc t).counted
      = potential P s t + (s'.pc t).counted + if endsOp t a = true then 1 else 0 := by
  cases he with
  | @start u ro pc' d' hu hm hpc hro =>
      simp only [acts, Bool.and_eq_true, decide_eq_true_eq, Bool.not_eq_true'] at hact
      obtain ⟨rfl, rfl⟩ := hact
      refine ⟨ha.move hm fun _ => hro, ?_⟩
      rw [goto_self.1]
      exact ha.potential_move h hm
  | @move u pc' d' hm hpc =>
      obtain rfl : u = t := of_decide_eq_true hact
      refine ⟨ha.move hm fun hq => absurd hq hpc, ?_⟩
      rw [goto_self.1]
      exact ha.potential_move h hm
  | @free u ro e i ptr rest hpc hbag =>
      obtain rfl : u = t := of_decide_eq_true hact
      have hself : (s.setData u ((s.threadData u).setBag (freeable i) rest)).threadData u
          = (s.threadData u).setBag (freeable i) rest := Function.update_self _ _ _
      refine ⟨⟨ha.others, ha.calls, ?_, ha.writes, ?_⟩, ?_⟩
      · rw [hself]
        exact ha.current
      · rw [hself]
        exact ha.ops_lt
      · unfold potential
        rw [hself]
        rfl
  | @advance u e hpc =>
      obtain rfl : u = t := of_decide_eq_true hact
      have ht := h.lt_of_ne (t := u) (by rw [hpc]; exact Pc.noConfusion)
      have hphase := (h.thread u ht).phase
      rw [hpc] at hphase
      obtain ⟨-, -, rfl, -, hchecked⟩ := hphase
      have hlocal := ha.current (by rw [hpc]; exact Pc.noConfusion) (by rw [hpc]; exact Pc.noConfusion)
      have hpc' : (advance s u (s.threadData u).localvarAnnouncedEpoch).pc u = .operating :=
        Function.update_self _ _ _
      have hepoch : (advance s u (s.threadData u).localvarAnnouncedEpoch).epoch = s.epoch + 2 := by
        show (if s.epoch = _ then _ + 2 else s.epoch) = s.epoch + 2
        rw [hlocal, if_pos rfl]
      refine ⟨⟨?_, ha.calls, ?_, ?_, ha.ops_lt⟩, ?_⟩
      · intro v hv
        show Function.update s.pc u .operating v = .quiescent
        rw [Function.update_of_ne hv]
        exact ha.others v hv
      · rw [hpc']
        exact fun _ hno => absurd rfl hno
      · rw [hpc']
        exact ⟨fun _ _ => Pc.noConfusion, fun _ => Pc.noConfusion⟩
      · -- all threads have been checked: a period is complete
        have hdata : (advance s u (s.threadData u).localvarAnnouncedEpoch).threadData
            = s.threadData := rfl
        have hdiv : (s.epoch + 2) / 2 = s.epoch / 2 + 1 := by omega
        have hne : ¬ s.epoch = s.epoch + 2 := by omega
        unfold potential
        rw [hepoch, hpc', hdata, hpc, hlocal, hchecked, if_pos rfl, if_neg hne, hdiv,
          Nat.add_mul]
        simp only [Pc.counted, Pc.due, endsOp, Params.period]
        simp
  | @retire u b rest j hcalls hbag =>
      obtain rfl : u = t := of_decide_eq_true hact
      rw [ha.calls] at hcalls
      exact absurd hcalls.symm (List.cons_ne_nil _ _)
  | @deallocate u b rest hcalls =>
      obtain rfl : u = t := of_decide_eq_true hact
      rw [ha.calls] at hcalls
      exact absurd hcalls.symm (List.cons_ne_nil _ _)
  | @endOp u hpc hcalls =>
      obtain rfl : u = t := of_decide_eq_true hact
      refine ⟨⟨?_, ha.calls, ?_, ?_, ?_⟩, ?_⟩
      · intro v hv
        rw [goto_pc, setData_pc, Function.update_of_ne hv]
        exact ha.others v hv
      · rw [goto_self.1]
        exact fun hno => absurd rfl hno
      · rw [goto_self.1]
        exact ⟨fun _ _ => Pc.noConfusion, fun _ => Pc.noConfusion⟩
      · rw [goto_self.2]
        exact ha.ops_lt
      · unfold potential
        rw [goto_self.1, goto_self.2, hpc]
        simp only [Pc.counted, Pc.due, endsOp, decide_true, if_true]
        rfl
  | allocate => exact absurd hact (by simp [acts])
  | giveBack => exact absurd hact (by simp [acts])

/-- Between operations the potential says which epoch it is. -/
theorem Alone.epoch_eq (ha : Alone P s t) (h : Inv P s inUse g) (ht : t < P.NUM_PROCESSES)
    (hpc : s.pc t = .quiescent) : s.epoch / 2 = potential P s t / P.period := by
  have hops := ha.ops_lt
  have hphase := (h.thread t ht).phase
  have heven := h.even
  rw [hpc] at hphase
  have hpos : 0 < P.period := Nat.mul_pos (Nat.zero_lt_of_lt ht) P.pos
  -- what has been checked for the current epoch is less than a period
  have hrest : (if (s.threadData t).localvarAnnouncedEpoch = s.epoch
      then (s.threadData t).checked * P.MIN_OPS_BEFORE_READ else 0)
        + (s.threadData t).opsSinceRead < P.period := by
    split
    · rename_i hlocal
      have hlt : (s.threadData t).checked + 1 ≤ P.NUM_PROCESSES := by
        rcases hphase.2 with ⟨hone, -, -⟩ | ⟨-, -, hlt | ⟨-, hover⟩⟩
        · omega
        · exact hlt
        · omega
      calc (s.threadData t).checked * P.MIN_OPS_BEFORE_READ + (s.threadData t).opsSinceRead
          < ((s.threadData t).checked + 1) * P.MIN_OPS_BEFORE_READ := by
            rw [Nat.add_mul, Nat.one_mul]
            omega
        _ ≤ P.period := Nat.mul_le_mul_right _ hlt
    · have hle : P.MIN_OPS_BEFORE_READ ≤ P.period :=
        Nat.le_mul_of_pos_left _ (Nat.zero_lt_of_lt ht)
      omega
  unfold potential
  rw [hpc]
  simp only [Pc.due, Nat.add_zero, Nat.add_assoc]
  rw [Nat.mul_comm, Nat.mul_add_div hpos, Nat.div_eq_of_lt hrest, Nat.add_zero]

end Alone

/-! ## §2. Its bags. -/

/-- The thread has been on its own since the epoch was `start`, and has retired
nothing since: with every epoch it has read one more bag is empty. -/
structure Draining (start : ℕ) (s : State α) (t : Tid) : Prop where
  le : start ≤ s.epoch
  near : s.epoch = start ∨ s.epoch ≤ (s.threadData t).localvarAnnouncedEpoch + 2
  empty : ∀ k < 9, start + 2 * (k + 1) ≤ (s.threadData t).localvarAnnouncedEpoch →
    (∀ ro e i, s.pc t ≠ .rotating ro e i) → (s.threadData t).bagOfAge k = []
  /-- The epoch has been read, the bags have not been rotated. -/
  rotating : ∀ ro e i, s.pc t = .rotating ro e i → ∀ k < 9,
    start + 2 * (k + 2) ≤ (s.threadData t).localvarAnnouncedEpoch →
    (s.threadData t).bagOfAge k = []

section Draining

variable {s s' : State α} {inUse inUse' : α → Bool} {g : Ghost α} {t : Tid} {a : Action α}
  {start : ℕ}

omit [DecidableEq α] in
/-- Steps that leave the bags, the index and the thread's epoch alone. -/
theorem Draining.frame (hd : Draining start s t) {pc' : Pc} {d' : ThreadData α}
    (hold : ∀ ro e i, s.pc t ≠ .rotating ro e i) (hnew : ∀ ro e i, pc' ≠ .rotating ro e i)
    (hbags : d'.epochbags = (s.threadData t).epochbags) (hindex : d'.index = (s.threadData t).index)
    (hlocal : d'.localvarAnnouncedEpoch = (s.threadData t).localvarAnnouncedEpoch) :
    Draining start ((s.setData t d').goto t pc') t := by
  refine ⟨hd.le, ?_, ?_, ?_⟩
  · rw [goto_self.2, hlocal]
    exact hd.near
  · rw [goto_self.1, goto_self.2, hlocal]
    intro k hk hle _
    unfold ThreadData.bagOfAge
    rw [hbags, hindex]
    exact hd.empty k hk hle hold
  · rw [goto_self.1]
    exact fun ro e i hpc => absurd hpc (hnew ro e i)

omit [DecidableEq α] in
theorem Draining.move (hd : Draining start s t) {pc' : Pc} {d' : ThreadData α} {n : ℕ}
    {stamp : α → ℕ} (h : ThreadInv n s.epoch stamp (s.pc t) (s.threadData t))
    (hm : Move P s t pc' d') : Draining start ((s.setData t d').goto t pc') t := by
  have hnear := hd.near
  have hphase := h.phase
  cases hm with
  | reopen hpc hsame =>
      exact hd.frame (fun _ _ _ => by rw [hpc]; exact Pc.noConfusion) (fun _ _ _ => Pc.noConfusion)
        rfl rfl hsame
  | newEpoch hpc hne =>
      refine ⟨hd.le, ?_, ?_, ?_⟩
      · rw [goto_self.2]
        exact Or.inr (Nat.le_add_right _ _)
      · rw [goto_self.1]
        exact fun _ _ _ hrot => absurd rfl (hrot _ _ _)
      · rw [goto_self.2]
        intro _ _ _ _ k hk hle
        have hle' : start + 2 * (k + 2) ≤ s.epoch := hle
        have hold : (s.threadData t).bagOfAge k = [] := by
          refine hd.empty k hk ?_ (fun _ _ _ => by rw [hpc]; exact Pc.noConfusion)
          omega
        exact hold
  | @rotated ro e i hpc hbag =>
      rw [hpc] at hphase
      obtain ⟨-, -, -, rfl, -⟩ := hphase
      have hindex := h.index_lt
      refine ⟨hd.le, ?_, ?_, ?_⟩
      · rw [goto_self.2]
        exact hnear
      · rw [goto_self.2]
        intro k hk hle _
        have hle' : start + 2 * (k + 1) ≤ (s.threadData t).localvarAnnouncedEpoch := hle
        cases k with
        | zero =>
            rw [bagOfAge_rotate_zero hindex]
            exact h.empty 8 (by omega) (by omega)
        | succ k =>
            rw [bagOfAge_rotate (by omega) hindex]
            exact hd.rotating _ _ _ hpc k (by omega) (by omega)
      · rw [goto_self.1]
        exact fun _ _ _ hrot => absurd hrot Pc.noConfusion
  | announceOpen hpc | announceScan hpc | scanMiss hpc | scanHit hpc | scanLast hpc =>
      exact hd.frame (fun _ _ _ => by rw [hpc]; exact Pc.noConfusion) (fun _ _ _ => Pc.noConfusion)
        rfl rfl rfl

omit [DecidableEq α] in
/-- What is freed leaves the other bags as they are. -/
theorem Draining.free (hd : Draining start s t) {j : ℕ} {ptr : α} {rest : List α}
    (hbag : (s.threadData t).epochbags j = ptr :: rest) :
    Draining start (s.setData t ((s.threadData t).setBag j rest)) t := by
  have hself : (s.setData t ((s.threadData t).setBag j rest)).threadData t
      = (s.threadData t).setBag j rest := Function.update_self _ _ _
  have hother : ∀ k, (s.threadData t).bagOfAge k = [] →
      ((s.threadData t).setBag j rest).bagOfAge k = [] := by
    intro k hk
    rw [bagOfAge_update_ne]
    · exact hk
    · rintro rfl
      exact absurd (hk.symm.trans hbag) (List.cons_ne_nil _ _).symm
  refine ⟨hd.le, ?_, ?_, ?_⟩
  · rw [hself]
    exact hd.near
  · rw [hself]
    exact fun k hk hle hpc => hother k (hd.empty k hk hle hpc)
  · rw [hself]
    exact fun ro e i hpc k hk hle => hother k (hd.rotating ro e i hpc k hk hle)

theorem Draining.step (hd : Draining start s t) (ha : Alone P s t) (h : Inv P s inUse g)
    (hact : acts t a = true) (he : Effect P s inUse a s' inUse') : Draining start s' t := by
  cases he with
  | @start u ro pc' d' hu hm hpc hro =>
      simp only [acts, Bool.and_eq_true, decide_eq_true_eq] at hact
      obtain rfl := hact.1
      exact hd.move (h.thread u hu) hm
  | @move u pc' d' hm hpc =>
      obtain rfl : u = t := of_decide_eq_true hact
      exact hd.move (h.thread u (h.lt_of_ne hpc)) hm
  | @free u ro e i ptr rest hpc hbag =>
      obtain rfl : u = t := of_decide_eq_true hact
      exact hd.free hbag
  | @advance u e hpc =>
      obtain rfl : u = t := of_decide_eq_true hact
      have hphase := (h.thread u (h.lt_of_ne (by rw [hpc]; exact Pc.noConfusion))).phase
      rw [hpc] at hphase
      obtain ⟨-, -, rfl, -, -⟩ := hphase
      have hlocal := ha.current (by rw [hpc]; exact Pc.noConfusion) (by rw [hpc]; exact Pc.noConfusion)
      have hle := hd.le
      have hepoch : (advance s u (s.threadData u).localvarAnnouncedEpoch).epoch
          = (s.threadData u).localvarAnnouncedEpoch + 2 := by
        show (if s.epoch = _ then _ + 2 else s.epoch) = _
        rw [if_pos hlocal.symm]
      have hpc' : (advance s u (s.threadData u).localvarAnnouncedEpoch).pc u = .operating :=
        Function.update_self _ _ _
      refine ⟨?_, ?_, ?_, ?_⟩
      · rw [hepoch]
        omega
      · rw [hepoch]
        exact Or.inr (Nat.le_refl _)
      · exact fun k hk hle _ => hd.empty k hk hle (fun _ _ _ => by rw [hpc]; exact Pc.noConfusion)
      · rw [hpc']
        exact fun _ _ _ hrot => absurd hrot Pc.noConfusion
  | @retire u b rest j hcalls hbag =>
      obtain rfl : u = t := of_decide_eq_true hact
      rw [ha.calls] at hcalls
      exact absurd hcalls.symm (List.cons_ne_nil _ _)
  | @deallocate u b rest hcalls =>
      obtain rfl : u = t := of_decide_eq_true hact
      rw [ha.calls] at hcalls
      exact absurd hcalls.symm (List.cons_ne_nil _ _)
  | @endOp u hpc hcalls =>
      obtain rfl : u = t := of_decide_eq_true hact
      exact hd.frame (fun _ _ _ => by rw [hpc]; exact Pc.noConfusion) (fun _ _ _ => Pc.noConfusion)
        rfl rfl rfl
  | allocate => exact absurd hact (by simp [acts])
  | giveBack => exact absurd hact (by simp [acts])

end Draining

/-! ## §3. Runs of one thread. -/

section Runs

variable {inUse : α → Bool} {s s' : State α × (α → Bool)} {t : Tid} {as : List (Action α)}

theorem ops_lt (h : Reachable (system P inUse) s) (t : Tid) :
    (s.1.threadData t).opsSinceRead < P.MIN_OPS_BEFORE_READ := by
  induction h generalizing t with
  | init => exact P.pos
  | @step s s' a _ _ hnext ih =>
      have hother : ∀ {u : Tid} {d' : ThreadData α},
          d'.opsSinceRead < P.MIN_OPS_BEFORE_READ →
          (Function.update s.1.threadData u d' t).opsSinceRead < P.MIN_OPS_BEFORE_READ := by
        intro u d' hd'
        rw [Function.update_apply]
        split
        · exact hd'
        · exact ih t
      have hmove : ∀ {u pc' d'}, Move P s.1 u pc' d' → d'.opsSinceRead < P.MIN_OPS_BEFORE_READ := by
        intro u pc' d' hm
        have hu := ih u
        cases hm with
        | reopen | newEpoch | rotated | scanMiss | scanHit | scanLast => exact hu
        | @announceOpen ro e ops _ hops =>
            show ops < P.MIN_OPS_BEFORE_READ
            omega
        | announceScan => exact P.pos
      have heff : Effect P s.1 s.2 a s'.1 s'.2 := next_effect hnext
      obtain ⟨s₁, inUse₁⟩ := s'
      cases heff with
      | start _ hm | move hm => exact hother (hmove hm)
      | @free u | @retire u | @endOp u => exact hother (ih u)
      | advance | deallocate | allocate | giveBack => exact ih t

/-- What a run of one thread keeps, and what it adds to the potential. -/
theorem Alone.exec {g : Ghost α} {start : ℕ} (h : Inv P s.1 s.2 g) (ha : Alone P s.1 t)
    (hd : Draining start s.1 t) (hacts : ∀ a ∈ as, acts t a = true)
    (hexec : (system P inUse).exec s as = some s') :
    ∃ g', Inv P s'.1 s'.2 g' ∧ Alone P s'.1 t ∧ Draining start s'.1 t
      ∧ potential P s'.1 t + (s.1.pc t).counted
        = potential P s.1 t + (s'.1.pc t).counted + as.countP (endsOp t) := by
  induction as generalizing s g with
  | nil =>
      obtain rfl := Option.some.inj hexec
      exact ⟨g, h, ha, hd, rfl⟩
  | cons a as ih =>
      simp only [Sys.exec, Option.bind_eq_some_iff] at hexec
      obtain ⟨s₁, hnext, hexec⟩ := hexec
      have hact := hacts a List.mem_cons_self
      have heff : Effect P s.1 s.2 a s₁.1 s₁.2 := next_effect hnext
      -- it makes no promise, for it retires nothing
      have hpromise : Promise P (s.1, s.2) a := by
        cases a with
        | giveBack => exact absurd hact (by simp [acts])
        | startOp | step | endOp | allocate => trivial
      have hstep := ha.step h hact heff
      obtain ⟨g', h', ha', hd', hsum⟩ := ih (h.step hnext hpromise) hstep.1
        (hd.step ha h hact heff) (fun b hb => hacts b (List.mem_cons_of_mem a hb)) hexec
      refine ⟨g', h', ha', hd', ?_⟩
      have hfirst := hstep.2
      rw [List.countP_cons]
      omega

/-- Where such a run leads to from a state in which nobody is in an operation. -/
theorem alone_exec (h : Reach (system P inUse) (Promise P) s) (ht : t < P.NUM_PROCESSES)
    (hquiet : ∀ u, s.1.pc u = .quiescent) (hacts : ∀ a ∈ as, acts t a = true)
    (hexec : (system P inUse).exec s as = some s') (hpc : s'.1.pc t = .quiescent) :
    ∃ g', Inv P s'.1 s'.2 g' ∧ Alone P s'.1 t ∧ Draining s.1.epoch s'.1 t
      ∧ s'.1.epoch / 2 = (potential P s.1 t + as.countP (endsOp t)) / P.period := by
  obtain ⟨g, hinv⟩ := exists_history h
  have hne : s.1.pc t ≠ .operating := by
    rw [hquiet t]
    exact Pc.noConfusion
  have halone : Alone P s.1 t := by
    refine ⟨fun u _ => hquiet u, hinv.calls_nil hne, fun hno => absurd (hquiet t) hno, ?_, ?_⟩
    · rw [hquiet t]
      exact ⟨fun _ _ => Pc.noConfusion, fun _ => Pc.noConfusion⟩
    · exact ops_lt (h.mono fun _ _ _ => trivial) t
  have hdraining : Draining s.1.epoch s.1 t := by
    have hlocal := (hinv.thread t ht).local_cases
    refine ⟨Nat.le_refl _, Or.inl rfl, fun k _ hle _ => ?_, fun _ _ _ hrot => ?_⟩
    · -- it has read no epoch since
      omega
    · rw [hquiet t] at hrot
      exact absurd hrot Pc.noConfusion
  obtain ⟨g', hinv', halone', hdraining', hsum⟩ :=
    halone.exec hinv hdraining hacts hexec
  refine ⟨g', hinv', halone', hdraining', ?_⟩
  rw [hquiet t, hpc] at hsum
  simp only [Pc.counted, Nat.add_zero] at hsum
  rw [halone'.epoch_eq hinv' ht hpc, hsum]

/-- **Alone, a thread advances the epoch** once in every `NUM_PROCESSES *
MIN_OPS_BEFORE_READ` operations. -/
theorem alone_epoch (h : Reach (system P inUse) (Promise P) s) (ht : t < P.NUM_PROCESSES)
    (hquiet : ∀ u, s.1.pc u = .quiescent) (hacts : ∀ a ∈ as, acts t a = true)
    (hexec : (system P inUse).exec s as = some s') (hpc : s'.1.pc t = .quiescent) {j : ℕ}
    (hcount : as.countP (endsOp t) = j * (P.NUM_PROCESSES * P.MIN_OPS_BEFORE_READ)) :
    s'.1.epoch = s.1.epoch + EPOCH_INCREMENT * j := by
  obtain ⟨g', hinv', -, -, hend⟩ := alone_exec h ht hquiet hacts hexec hpc
  have hnil : (system P inUse).exec s [] = some s := rfl
  obtain ⟨g, -, -, -, hstart⟩ := alone_exec h ht hquiet (fun _ h => absurd h (by simp)) hnil
    (hquiet t)
  have hpos : 0 < P.period := Nat.mul_pos (Nat.zero_lt_of_lt ht) P.pos
  have hcount' : as.countP (endsOp t) = P.period * j := hcount.trans (Nat.mul_comm _ _)
  rw [hcount', Nat.add_mul_div_left _ _ hpos] at hend
  rw [List.countP_nil, Nat.add_zero] at hstart
  obtain ⟨g₀, hinv⟩ := exists_history h
  have heven := hinv.even
  have heven' := hinv'.even
  show s'.1.epoch = s.1.epoch + 2 * j
  omega

/-- Seven operations of the only thread, behind the one in which it retires a
record. -/
def sevenOps : List (Action ℕ) :=
  aloneOp [] ++ aloneOp [] ++ aloneOp [] ++ aloneOp [] ++ aloneOp [] ++ [.startOp 0 false]
    ++ [.step 0] ++ [.step 0, .step 0, .step 0, .step 0, .endOp 0] ++ aloneOp []

def retiredState : State ℕ × (ℕ → Bool) :=
  (system ⟨1, 1, Nat.one_pos⟩ fun _ => true).after (aloneOp [.giveBack 0 [.retire 7] [7], .step 0])

/-- Nobody is in an operation, the record is in the bag, and nobody but thread 0
has done anything. -/
theorem retiredState_reach :
    Reach (system ⟨1, 1, Nat.one_pos⟩ fun _ => true) (Promise ⟨1, 1, Nat.one_pos⟩) retiredState
      ∧ decide (retiredState.1.pc 0 = .quiescent
        ∧ (retiredState.1.threadData 0).epochbags 1 = [7]) = true :=
  Sys.reach_of_check _ (c := fun s a => decide (Promise ⟨1, 1, Nat.one_pos⟩ s a))
    (f := fun s => decide (s.1.pc 0 = .quiescent ∧ (s.1.threadData 0).epochbags 1 = [7]))
    (fun _ _ h => of_decide_eq_true h) _ (by decide +kernel)

theorem retiredState_quiet : ∀ u, retiredState.1.pc u = .quiescent := by
  intro u
  cases u with
  | zero => exact (of_decide_eq_true retiredState_reach.2).1
  | succ u =>
      obtain ⟨g, hinv⟩ := exists_history retiredState_reach.1
      exact hinv.outside _ (Nat.le_add_left _ _)

theorem alone_epoch_seven :
    ∃ s', (system ⟨1, 1, Nat.one_pos⟩ fun _ => true).exec retiredState sevenOps = some s'
      ∧ s'.1.epoch = retiredState.1.epoch + EPOCH_INCREMENT * 7 := by
  have hsome : ((system ⟨1, 1, Nat.one_pos⟩ fun _ => true).exec retiredState sevenOps).any
      (fun s' => decide (s'.1.pc 0 = .quiescent)) = true := by decide +kernel
  obtain ⟨s', hexec, hpc⟩ := (Option.any_eq_true _ _).mp hsome
  exact ⟨s', hexec, alone_epoch retiredState_reach.1 (t := 0) Nat.one_pos retiredState_quiet
    (by decide) hexec (of_decide_eq_true hpc) (by decide)⟩

/-- **Alone, a thread gets its records freed**: when the epoch has advanced seven
times, nothing is left of what it had retired. -/
theorem alone_drains (h : Reach (system P inUse) (Promise P) s) (ht : t < P.NUM_PROCESSES)
    (hquiet : ∀ u, s.1.pc u = .quiescent) (hacts : ∀ a ∈ as, acts t a = true)
    (hexec : (system P inUse).exec s as = some s') (hpc : s'.1.pc t = .quiescent)
    (hcount : 7 * (P.NUM_PROCESSES * P.MIN_OPS_BEFORE_READ) ≤ as.countP (endsOp t)) :
    ∀ j < NUMBER_OF_EPOCH_BAGS, (s'.1.threadData t).epochbags j = [] := by
  obtain ⟨g', hinv', halone', hdraining, hend⟩ := alone_exec h ht hquiet hacts hexec hpc
  have hnil : (system P inUse).exec s [] = some s := rfl
  obtain ⟨g, -, -, -, hstart⟩ := alone_exec h ht hquiet (fun _ h => absurd h (by simp)) hnil
    (hquiet t)
  rw [List.countP_nil, Nat.add_zero] at hstart
  have hpos : 0 < P.period := Nat.mul_pos (Nat.zero_lt_of_lt ht) P.pos
  have hseven : s.1.epoch / 2 + 7 ≤ s'.1.epoch / 2 := by
    rw [hend, hstart, ← Nat.add_mul_div_left _ _ hpos]
    apply Nat.div_le_div_right
    have hcount' : 7 * P.period ≤ as.countP (endsOp t) := hcount
    rw [Nat.mul_comm] at hcount'
    omega
  obtain ⟨g₀, hinv⟩ := exists_history h
  have heven := hinv.even
  have hthread := hinv'.thread t ht
  have hnear := hdraining.near
  intro j hj
  obtain ⟨k, hk, hage⟩ := exists_age hj hthread.index_lt
  rw [hage]
  rcases Nat.lt_or_ge k 6 with hlt | hge
  · refine hdraining.empty k hk ?_ (fun _ _ _ => by rw [hpc]; exact Pc.noConfusion)
    omega
  · exact hthread.empty k hge hk

theorem alone_drains_seven :
    ∃ s', (system ⟨1, 1, Nat.one_pos⟩ fun _ => true).exec retiredState sevenOps = some s'
      ∧ ∀ j < NUMBER_OF_EPOCH_BAGS, (s'.1.threadData 0).epochbags j = [] := by
  have hsome : ((system ⟨1, 1, Nat.one_pos⟩ fun _ => true).exec retiredState sevenOps).any
      (fun s' => decide (s'.1.pc 0 = .quiescent)) = true := by decide +kernel
  obtain ⟨s', hexec, hpc⟩ := (Option.any_eq_true _ _).mp hsome
  exact ⟨s', hexec, alone_drains retiredState_reach.1 (t := 0) Nat.one_pos retiredState_quiet
    (by decide) hexec (of_decide_eq_true hpc) (by decide)⟩

end Runs

/-! ## §4. Any number of threads. -/

/-- How many steps are left of `startOp`. -/
def rank (s : State α) (t : Tid) : ℕ :=
  match s.pc t with
  | .rotating _ _ nextIndex => ((s.threadData t).epochbags (freeable nextIndex)).length + 4
  | .announcing _ _ => 3
  | .scanning _ => 2
  | .advancing _ => 1
  | .quiescent | .operating => 0

section WaitFree

variable {inUse : α → Bool}

theorem busy_operating {s : State α × (α → Bool)} (h : Reachable (system P inUse) s) {t : Tid}
    (hcalls : s.1.calls t ≠ []) : s.1.pc t = .operating := by
  induction h with
  | init => exact absurd rfl hcalls
  | @step s s' a _ _ hnext ih =>
      have heff : Effect P s.1 s.2 a s'.1 s'.2 := next_effect hnext
      by_cases hold : s.1.calls t = []
      · -- it has just got its calls
        obtain ⟨s₁, inUse₁⟩ := s'
        cases heff with
        | @giveBack u cs gone hpc _ =>
            have hcalls' : Function.update s.1.calls u cs t ≠ [] := hcalls
            have htu : t = u := by
              by_contra hne
              rw [Function.update_of_ne hne] at hcalls'
              exact hcalls' hold
            rw [htu]
            exact hpc
        | retire hcalls' | deallocate hcalls' => exact absurd hold (calls_tail hcalls' hcalls)
        | start | move | free | advance | endOp | allocate => exact absurd hold hcalls
      · refine heff.operating (ih hold) ?_
        rintro rfl
        obtain ⟨s₁, inUse₁⟩ := s'
        cases heff with
        | endOp _ hnil => exact hold hnil

/-- **Each of its steps brings a thread closer to the end of `startOp`**, and
nothing that others do takes it back. -/
theorem Effect.rank_le {s s' : State α} {inUse inUse' : α → Bool} {a : Action α} {t : Tid}
    (he : Effect P s inUse a s' inUse') (hcalls : s.calls t = [])
    (hpc : s.pc t ≠ .quiescent ∧ s.pc t ≠ .operating) :
    s'.pc t ≠ .quiescent ∧ rank s' t + (if a = .step t then 1 else 0) ≤ rank s t := by
  have hother : ∀ {b}, b ≠ .step t → s'.pc t = s.pc t → s'.threadData t = s.threadData t →
      a = b → s'.pc t ≠ .quiescent ∧ rank s' t + (if a = .step t then 1 else 0) ≤ rank s t := by
    rintro b hb h₁ h₂ rfl
    unfold rank
    rw [if_neg hb, h₁, h₂, Nat.add_zero]
    exact ⟨hpc.1, Nat.le_refl _⟩
  have hmoved : ∀ {u : Tid} {pc' d'}, t ≠ u →
      ((s.setData u d').goto u pc').pc t = s.pc t
        ∧ ((s.setData u d').goto u pc').threadData t = s.threadData t :=
    fun hne => ⟨Function.update_of_ne hne _ _, Function.update_of_ne hne _ _⟩
  have hstep : ∀ {u : Tid}, t ≠ u → (.step u : Action α) ≠ .step t := by
    rintro u hne heq
    exact hne (Action.step.inj heq).symm
  cases he with
  | @start u ro pc' d' _ _ hq =>
      have hne : t ≠ u := by
        rintro rfl
        exact hpc.1 hq
      exact hother (by simp) (hmoved hne).1 (hmoved hne).2 rfl
  | @move u pc' d' hm hq =>
      by_cases hne : t = u
      · subst hne
        unfold rank
        rw [goto_self.1, goto_self.2, if_pos rfl]
        cases hm with
        | reopen hq' | newEpoch hq' => exact absurd hq' hq
        | rotated hq' | announceOpen hq' | announceScan hq' | scanMiss hq' | scanHit hq'
        | scanLast hq' =>
            rw [hq']
            refine ⟨Pc.noConfusion, ?_⟩
            simp
      · exact hother (hstep hne) (hmoved hne).1 (hmoved hne).2 rfl
  | @free u ro e i ptr rest hq hbag =>
      by_cases hne : t = u
      · subst hne
        have hself : (s.setData t ((s.threadData t).setBag (freeable i) rest)).threadData t
            = (s.threadData t).setBag (freeable i) rest := Function.update_self _ _ _
        have hrest : ((s.threadData t).setBag (freeable i) rest).epochbags (freeable i) = rest :=
          Function.update_self _ _ _
        refine ⟨hpc.1, ?_⟩
        unfold rank
        rw [setData_pc, hq, hself, if_pos rfl]
        simp only [hrest, hbag, List.length_cons]
        omega
      · exact hother (hstep hne) rfl (Function.update_of_ne hne _ _) rfl
  | @advance u e hq =>
      by_cases hne : t = u
      · subst hne
        have hpc' : (Debra.advance s t e).pc t = .operating := Function.update_self _ _ _
        unfold rank
        rw [hpc', hq, if_pos rfl]
        exact ⟨Pc.noConfusion, Nat.le_refl _⟩
      · exact hother (hstep hne) (Function.update_of_ne hne _ _) rfl rfl
  | @retire u b rest j hcalls' hbag =>
      have hne : t ≠ u := by
        rintro rfl
        exact absurd (hcalls.symm.trans hcalls') (List.cons_ne_nil _ _).symm
      exact hother (hstep hne) rfl (Function.update_of_ne hne _ _) rfl
  | @deallocate u b rest hcalls' =>
      have hne : t ≠ u := by
        rintro rfl
        exact absurd (hcalls.symm.trans hcalls') (List.cons_ne_nil _ _).symm
      exact hother (hstep hne) rfl rfl rfl
  | @endOp u hq _ =>
      have hne : t ≠ u := by
        rintro rfl
        exact hpc.2 hq
      exact hother (by simp) (hmoved hne).1 (hmoved hne).2 rfl
  | allocate => exact hother (by simp) rfl rfl rfl
  | giveBack => exact hother (by simp) rfl rfl rfl

/-- Where `startOp` begins. -/
theorem Effect.rank_start {s s' : State α} {inUse inUse' : α → Bool} {ro : Bool} {t : Tid}
    (he : Effect P s inUse (.startOp t ro) s' inUse') :
    s'.pc t ≠ .quiescent ∧ rank s' t ≤ ((s.threadData t).epochbags
      (freeable (((s.threadData t).index + 1) % NUMBER_OF_EPOCH_BAGS))).length + 4 := by
  cases he with
  | @start _ _ pc' d' _ hm hq =>
      unfold rank
      rw [goto_self.1, goto_self.2]
      cases hm with
      | reopen =>
          refine ⟨Pc.noConfusion, ?_⟩
          show 3 ≤ _
          omega
      | newEpoch => exact ⟨Pc.noConfusion, Nat.le_refl _⟩
      | rotated hq' | announceOpen hq' | announceScan hq' | scanMiss hq' | scanHit hq'
      | scanLast hq' => exact absurd (hq.symm.trans hq') Pc.noConfusion

/-- **`startOp` is wait-free**: whatever the other threads do, it returns when its
thread has taken four steps and one for each record in the bag that it frees. -/
theorem startOp_waitFree (r : Run (system P inUse)) {t : Tid} {ro : Bool} {i n : ℕ} (hin : i < n)
    (hn : n ≤ r.len) (hact : r.act i = .startOp t ro)
    (hopen : ∀ j, i < j → j < n → (r.state j).1.pc t ≠ .operating) :
    r.count (fun _ a => decide (a = .step t)) n
      ≤ r.count (fun _ a => decide (a = .step t)) (i + 1)
        + (((r.state i).1.threadData t).epochbags
            (freeable ((((r.state i).1.threadData t).index + 1) % NUMBER_OF_EPOCH_BAGS))).length
        + 4 := by
  have hstart : Effect P (r.state i).1 (r.state i).2 (.startOp t ro) (r.state (i + 1)).1
      (r.state (i + 1)).2 := by
    rw [← hact]
    exact next_effect (r.step i (Nat.lt_of_lt_of_le hin hn))
  -- the rank pays for the steps
  have hpaid : (r.state n).1.pc t ≠ .quiescent
      ∧ r.count (fun _ a => decide (a = .step t)) n + rank (r.state n).1 t
        ≤ r.count (fun _ a => decide (a = .step t)) (i + 1) + rank (r.state (i + 1)).1 t := by
    induction n, hin using Nat.le_induction with
    | base => exact ⟨hstart.rank_start.1, Nat.le_refl _⟩
    | succ n hle ih =>
        obtain ⟨hpc, hsum⟩ := ih (Nat.le_of_succ_le hn)
          fun j h₁ h₂ => hopen j h₁ (Nat.lt_succ_of_lt h₂)
        have hop := hopen n hle (Nat.lt_succ_self n)
        have heff : Effect P (r.state n).1 (r.state n).2 (r.act n) (r.state (n + 1)).1
            (r.state (n + 1)).2 := next_effect (r.step n hn)
        have hcalls : (r.state n).1.calls t = [] := by
          by_contra hne
          exact hop (busy_operating (r.reachable n (Nat.le_of_succ_le hn)) hne)
        obtain ⟨hpc', hrank⟩ := heff.rank_le hcalls ⟨hpc, hop⟩
        refine ⟨hpc', ?_⟩
        show r.count _ n + (if decide (r.act n = .step t) = true then 1 else 0) + _ ≤ _
        simp only [decide_eq_true_eq]
        omega
  have hbound := hstart.rank_start.2
  omega

/-- Thread 0 retires two records in its first operation and frees them in its
thirteenth, while thread 1 opens one. -/
def freeing : List (Action ℕ) :=
  [.startOp 0 false, .step 0, .step 0, .step 0, .giveBack 0 [.retire 7, .retire 8] [7, 8],
      .step 0, .step 0, .endOp 0]
    ++ (List.replicate 11 [.startOp 0 false, .step 0, .step 0, .step 0, .endOp 0]).flatten
    ++ [.startOp 0 false, .step 0, .startOp 1 false, .step 0, .step 1, .step 0, .step 0]

def freeingRun : Run (system ⟨2, 1, Nat.one_pos⟩ fun _ : ℕ => true) :=
  Run.ofActions _ freeing (.step 0) (by decide +kernel)

theorem startOp_waitFree_freeing :
    ((freeingRun.state 63).1.threadData 0).epochbags 1 = [8, 7]
      ∧ freeingRun.count (fun _ a => decide (a = .step 0)) 70
        ≤ freeingRun.count (fun _ a => decide (a = .step 0)) 64
          + (((freeingRun.state 63).1.threadData 0).epochbags
              (freeable ((((freeingRun.state 63).1.threadData 0).index + 1)
                % NUMBER_OF_EPOCH_BAGS))).length + 4 := by
  have hopen : ∀ j < 70, 63 < j → (freeingRun.state j).1.pc 0 ≠ .operating := by
    decide +kernel
  have hact : freeingRun.act 63 = .startOp 0 false := by decide +kernel
  refine ⟨by decide +kernel, ?_⟩
  exact startOp_waitFree freeingRun (by decide) (by decide) hact fun j h₁ h₂ => hopen j h₂ h₁

end WaitFree

end MultiCore.Debra
