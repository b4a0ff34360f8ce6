/-
  MultiCore.AlgorithmD.Ledger — how far a computed size can be off.

  While a thread adds up `insertAC` and `deleteAC`, the others go on.  `ledger`
  is the history of its errors:

    * an insert whose CAS comes after its thread's part has been read, or that
      is not counted yet when the part is read, is missed;
    * an erase counter that is flushed after its part has been read, or is
      flushed but not cleared yet when the part is read, is counted twice.

  `ReadOk` bounds the locals of `startExpansion` by what is in the table and the
  ledger; `Measured.step` keeps it across every step of every thread.
-/
import MultiCore.AlgorithmD.Sizing

namespace MultiCore.AlgorithmD.Concurrent

open MultiCore.Lib MultiCore.Util

/-! ## §1. The ledger. -/

/-- What the next step of thread `tid` hides from a thread that computes a
size. -/
def State.slip (s : State) (tid : Tid) (op : Op) (key : Key) (pc : Pc) : Thread → Nat
  | .running _ _ (.inserts t n _) =>
      if tid.val < n then s.makes op key .insertIfAbsent t pc else 0
  | .running _ _ (.deletes t _ n _) =>
      s.makes op key .insertIfAbsent t pc
        + if tid.val < n then Thread.flushes .erase t (.running op key pc) else 0
  | .running _ _ (.publish t _) => s.makes op key .insertIfAbsent t pc
  | _ => 0

/-- The errors of a thread's reading so far, after its own next step. -/
def State.misread (s : State) (missed : Nat) : Pc → Nat
  | .current _ => 0
  | .inserts t n _ =>
      missed + if h : n < MAX_THREADS then (s.split .insertIfAbsent t).owed ⟨n, h⟩ else 0
  | .deletes t _ n _ =>
      missed + if h : n < MAX_THREADS then (s.split .erase t).twice ⟨n, h⟩ else 0
  | _ => missed

/-- The errors of every thread's reading so far, after one more action. -/
def ledger (s : State) (missed : Tid → Nat) : Action → Tid → Nat
  | .invoke _ _ _ => missed
  | .step tid =>
      match s.thread tid with
      | .idle => missed
      | .running op key pc => fun v =>
          if v = tid then s.misread (missed v) pc
          else missed v + s.slip tid op key pc (s.thread v)

theorem ledger_step {s : State} {tid : Tid} {op : Op} {key : Key} {pc : Pc}
    (hth : s.thread tid = .running op key pc) (missed : Tid → Nat) (v : Tid) :
    ledger s missed (.step tid) v
      = if v = tid then s.misread (missed v) pc
        else missed v + s.slip tid op key pc (s.thread v) := by
  simp only [ledger, hth]

/-- A step that neither stores nor flushes hides nothing. -/
theorem slip_eq_zero {s : State} {tid : Tid} {op : Op} {key : Key} {pc : Pc}
    (hmakes : ∀ t, s.makes op key .insertIfAbsent t pc = 0)
    (hcount : Thread.counting (.running op key pc) = none) (th : Thread) :
    s.slip tid op key pc th = 0 := by
  unfold State.slip
  split
  · rw [hmakes, ite_self]
  · rw [hmakes, Thread.flushes_of_none hcount, ite_self]
  · exact hmakes _
  · rfl

/-! ## §2. What the locals are worth. -/

/-- The parts of the counters that a thread has read, and the size it has
computed from them. -/
def ReadOk (s : State) (bumps : Op → Nat → Tid → Nat) (missed : Nat) : Thread → Prop
  | .running _ _ (.inserts t n ret) =>
      0 ≤ ret ∧ ret ≤ SplitCounter.below (bumps .insertIfAbsent t) n
        ∧ (s.used t : Int) ≤ (s.split .insertIfAbsent t).read n ret + missed
  | .running _ _ (.deletes t inserts n ret) =>
      0 ≤ inserts ∧ inserts ≤ 2 * s.used t
        ∧ 0 ≤ ret ∧ ret ≤ SplitCounter.below (bumps .erase t) n
        ∧ s.used t + (s.split .erase t).read n ret ≤ inserts + s.tombs t + missed
  | .running _ _ (.publish t newCap) =>
      newCap < 2 ^ 31 ∧ 4 * s.used t ≤ newCap + 4 * s.tombs t + 4 * missed
  | _ => True

/-- The counters of all tables are what they should be, and so is what has been
read from them. -/
structure Measured (s : State) (missed : Tid → Nat) (bumps : Op → Nat → Tid → Nat) : Prop where
  tally : ∀ op, ∀ t ≤ s.currentTable, (s.split op t).Inv (s.stored op t) (bumps op t)
  readOk : ∀ v, ReadOk s bumps (missed v) (s.thread v)

section Reading

variable {s s' : State} {bumps bumps' : Op → Nat → Tid → Nat} {missed : Nat}

theorem ReadOk.mono (th : Thread) (h : ReadOk s' bumps missed th)
    (hok : ThreadOk s th) (hb : ∀ op, ∀ t ≤ s.currentTable, ∀ v, bumps op t v ≤ bumps' op t v) :
    ReadOk s' bumps' missed th := by
  have hbelow : ∀ op, ∀ t ≤ s.currentTable, ∀ n,
      SplitCounter.below (bumps op t) n ≤ SplitCounter.below (bumps' op t) n :=
    fun op t ht n => SplitCounter.below_mono (hb op t ht) n
  cases th with
  | idle => trivial
  | running op key pc =>
      cases pc with
      | inserts t n ret =>
          obtain ⟨h₁, h₂, h₃⟩ := h
          have := hbelow .insertIfAbsent t hok.1 n
          exact ⟨h₁, by omega, h₃⟩
      | deletes t inserts n ret =>
          obtain ⟨h₁, h₂, h₃, h₄, h₅⟩ := h
          have := hbelow .erase t hok.1 n
          exact ⟨h₁, h₂, h₃, by omega, h₅⟩
      | publish t newCap => exact h
      | _ => trivial

/-- `ReadOk` reads the counters and what they count. -/
theorem ReadOk.congr {th : Thread} (h : ReadOk s bumps missed th)
    (hsplit : ∀ op t, s'.split op t = s.split op t)
    (hstored : ∀ op t, s'.stored op t = s.stored op t) : ReadOk s' bumps missed th := by
  have hused : ∀ t, s'.used t = s.used t := hstored .insertIfAbsent
  have htombs : ∀ t, s'.tombs t = s.tombs t := hstored .erase
  cases th with
  | idle => trivial
  | running op key pc =>
      cases pc with
      | inserts t n ret =>
          simp only [ReadOk] at h ⊢
          rw [hsplit, hused]
          exact h
      | deletes t inserts n ret =>
          simp only [ReadOk] at h ⊢
          rw [hsplit, hused, htombs]
          exact h
      | publish t newCap =>
          simp only [ReadOk] at h ⊢
          rw [hused, htombs]
          exact h
      | _ => trivial

/-- **A step of another thread**: what it hides is entered into the ledger. -/
theorem ReadOk.other {tid : Tid} {op : Op} {key : Key} {pc : Pc} {th : Thread}
    (htally : ∀ op, ∀ t ≤ s.currentTable, (s.split op t).Inv (s.stored op t) (bumps op t))
    (hmove : ∀ op', ∀ t ≤ s.currentTable,
      SplitCounter.Move (s.split op' t) tid (s'.split op' t)
          (s.makes op key op' t pc) (Thread.flushes op' t (.running op key pc))
        ∧ s'.stored op' t = s.stored op' t + s.makes op key op' t pc)
    (hok : ThreadOk s th) (h : ReadOk s bumps missed th) :
    ReadOk s' bumps (missed + s.slip tid op key pc th) th := by
  cases th with
  | idle => trivial
  | running op' key' pc' =>
      cases pc' with
      | inserts t n ret =>
          obtain ⟨h₁, h₂, h₃⟩ := h
          have ht : t ≤ s.currentTable := hok.1
          obtain ⟨hm, hstored⟩ := hmove .insertIfAbsent t ht
          have hread := SplitCounter.read_move (htally .insertIfAbsent t ht) hm n ret
          refine ⟨h₁, h₂, ?_⟩
          show (s'.stored .insertIfAbsent t : Int) ≤ _ + (missed + (if _ then _ else _) : Nat)
          change (s.stored .insertIfAbsent t : Int) ≤ _ at h₃
          rw [hread, hstored]
          split <;> split <;> omega
      | deletes t inserts n ret =>
          obtain ⟨h₁, h₂, h₃, h₄, h₅⟩ := h
          have ht : t ≤ s.currentTable := hok.1
          obtain ⟨-, hused⟩ := hmove .insertIfAbsent t ht
          obtain ⟨hm, htombs⟩ := hmove .erase t ht
          have hread := SplitCounter.read_move (htally .erase t ht) hm n ret
          change s'.used t = s.used t + _ at hused
          change s'.tombs t = s.tombs t + _ at htombs
          refine ⟨h₁, by omega, h₃, h₄, ?_⟩
          show _ ≤ inserts + s'.tombs t + (missed + (_ + (if _ then _ else _)) : Nat)
          rw [hread, hused, htombs]
          split <;> split <;> omega
      | publish t newCap =>
          obtain ⟨h₁, h₂⟩ := h
          have ht : t ≤ s.currentTable := hok.1
          obtain ⟨-, hused⟩ := hmove .insertIfAbsent t ht
          obtain ⟨-, htombs⟩ := hmove .erase t ht
          change s'.used t = s.used t + _ at hused
          change s'.tombs t = s.tombs t + _ at htombs
          refine ⟨h₁, ?_⟩
          show 4 * s'.used t ≤ newCap + 4 * s'.tombs t
            + 4 * (missed + s.makes op key .insertIfAbsent t pc)
          omega
      | _ => trivial

/-- The four subtractions and multiplications of `newCapacity` do not wrap. -/
theorem newCapacity_eq {a b : Int} {newCap : Nat} (ha : 0 ≤ a) (hb : 0 ≤ b) (ha' : a < 2 ^ 29)
    (hb' : b < 2 ^ 29) (h : newCapacity a b = .ok newCap) :
    (newCap : Int) = 4 * (a - b) ∧ newCap < 2 ^ 31 := by
  have h₁ : toInt (a - b) = a - b := toInt_eq (by omega) (by omega)
  have h₂ : toInt (4 * (a - b)) = 4 * (a - b) := toInt_eq (by omega) (by omega)
  unfold newCapacity at h
  simp only [h₁, h₂] at h
  split at h
  · exact absurd h (by simp)
  split at h
  · exact absurd h (by simp)
  · have : (4 * (a - b)).toNat = newCap := by simpa using h
    omega

/-- **A step of the reader itself.** -/
theorem ReadOk.own {tid : Tid} {op : Op} {key : Key} {pc pc' : Pc} (hq : Quiet s op key pc pc')
    (htally : ∀ op, ∀ t ≤ s.currentTable, (s.split op t).Inv (s.stored op t) (bumps op t))
    (hth : s.thread tid = .running op key pc)
    (hok : PcOk s op key.val pc)
    (hfew : ∀ t inserts n ret, pc = .deletes t inserts n ret → ¬ n < MAX_THREADS →
      s.used t < 2 ^ 28)
    (h : ReadOk s bumps missed (.running op key pc)) :
    ReadOk (s.goto tid (.running op key pc')) bumps (s.misread missed pc)
      (.running op key pc') := by
  have hsplit : ∀ op' t, (s.goto tid (.running op key pc')).split op' t = s.split op' t := by
    intro op' t
    apply split_goto_quiet
    · rw [hth]
      exact hq.counting.1
    · exact hq.counting.2
  cases hq with
  | @current t hc =>
      refine ⟨Int.le_refl 0, Int.natCast_nonneg _, ?_⟩
      rw [hsplit, SplitCounter.read_zero (htally .insertIfAbsent t hok.1)]
      show (s.used t : Int) ≤ (s.used t : Int) + (0 : Nat)
      omega
  | @insertsNext t n ret hn =>
      obtain ⟨h₁, h₂, h₃⟩ := h
      have hread := (s.split .insertIfAbsent t).read_next ⟨n, hn⟩ ret
      have hbelow := SplitCounter.below_next (bumps .insertIfAbsent t) ⟨n, hn⟩
      have hpart := (htally .insertIfAbsent t hok.1).part_le ⟨n, hn⟩
      change (s.insertAC t).subcounters n ≤ _ at hpart
      change (s.split .insertIfAbsent t).read (n + 1) (ret + (s.insertAC t).subcounters n) + _
        = (s.split .insertIfAbsent t).read n ret + _ at hread
      change SplitCounter.below _ (n + 1) = SplitCounter.below _ n + _ at hbelow
      refine ⟨by omega, by omega, ?_⟩
      rw [hsplit]
      show (s.used t : Int) ≤ _ + (missed + (if _ : n < MAX_THREADS then _ else _) : Nat)
      rw [dif_pos hn]
      omega
  | @insertsDone t n ret hn =>
      obtain ⟨h₁, h₂, h₃⟩ := h
      have hinv := htally .insertIfAbsent t hok.1
      have hlast := (s.split .insertIfAbsent t).read_last (Nat.le_of_not_lt hn) ret
      have hle := SplitCounter.below_le hinv n
      have hglobal := hinv.global_le
      have hnonneg := hinv.nonneg
      change _ = ret + (s.insertAC t).globalCounter at hlast
      change (s.insertAC t).globalCounter ≤ (s.used t : Int) at hglobal
      change 0 ≤ (s.insertAC t).globalCounter at hnonneg
      change _ ≤ s.used t at hle
      refine ⟨by omega, ?_, Int.le_refl 0, Int.natCast_nonneg _, ?_⟩
      · show _ ≤ 2 * (s.used t : Int)
        omega
      · rw [hsplit, SplitCounter.read_zero (htally .erase t hok.1)]
        show (s.used t : Int) + (s.tombs t : Int) ≤ _ + (s.tombs t : Int)
          + (missed + (if _ : n < MAX_THREADS then _ else _) : Nat)
        rw [dif_neg hn]
        omega
  | @deletesNext t n inserts ret hn =>
      obtain ⟨h₁, h₂, h₃, h₄, h₅⟩ := h
      have hread := (s.split .erase t).read_next ⟨n, hn⟩ ret
      have hbelow := SplitCounter.below_next (bumps .erase t) ⟨n, hn⟩
      have hpart := (htally .erase t hok.1).part_le ⟨n, hn⟩
      change (s.deleteAC t).subcounters n ≤ _ at hpart
      change (s.split .erase t).read (n + 1) (ret + (s.deleteAC t).subcounters n) + _
        = (s.split .erase t).read n ret + _ at hread
      change SplitCounter.below _ (n + 1) = SplitCounter.below _ n + _ at hbelow
      refine ⟨h₁, h₂, by omega, by omega, ?_⟩
      rw [hsplit]
      show (s.used t : Int) + _ ≤ inserts + (s.tombs t : Int)
        + (missed + (if _ : n < MAX_THREADS then _ else _) : Nat)
      rw [dif_pos hn]
      omega
  | @deletesDone t n newCap inserts ret hn hc =>
      obtain ⟨h₁, h₂, h₃, h₄, h₅⟩ := h
      have hinv := htally .erase t hok.1
      have hlast := (s.split .erase t).read_last (Nat.le_of_not_lt hn) ret
      have hle := SplitCounter.below_le hinv n
      have hglobal := hinv.global_le
      have hnonneg := hinv.nonneg
      have hsmall := hfew t inserts n ret rfl hn
      have hused := used_eq s t
      change _ = ret + (s.deleteAC t).globalCounter at hlast
      change (s.deleteAC t).globalCounter ≤ (s.tombs t : Int) at hglobal
      change 0 ≤ (s.deleteAC t).globalCounter at hnonneg
      change _ ≤ s.tombs t at hle
      obtain ⟨hcap, hlt⟩ := newCapacity_eq h₁ (by omega) (by omega) (by omega) hc
      refine ⟨hlt, ?_⟩
      show 4 * s.used t ≤ newCap + 4 * s.tombs t
        + 4 * (missed + (if _ : n < MAX_THREADS then _ else _))
      rw [dif_neg hn]
      omega
  | load hi => rcases iterate_ok hi with ⟨-, rfl⟩ | ⟨-, -, rfl⟩ <;> trivial
  | readNext hm he hk hi => rcases iterate_ok hi with ⟨-, rfl⟩ | ⟨-, -, rfl⟩ <;> trivial
  | rereadNext hm hd hi => rcases iterate_ok hi with ⟨-, rfl⟩ | ⟨-, -, rfl⟩ <;> trivial
  | _ => trivial

end Reading

/-! ## §3. Every step. -/

theorem stored_blank {s : State} {t : Nat} (h : s.keys t = fun _ => EMPTY) (op : Op) :
    s.stored op t = 0 := by
  cases op with
  | insertIfAbsent =>
      show usedCount (s.keys t) _ = 0
      rw [h]
      exact bucketCount_blank (p := fun v => v ≠ EMPTY) (fun h => h rfl) _
  | erase =>
      show bucketCount (fun v => v = TOMBSTONE) (s.keys t) _ = 0
      rw [h]
      exact bucketCount_blank (p := fun v => v = TOMBSTONE) tombstone_ne_empty.symm _

theorem init_measured (n c : Nat) :
    Measured (init n c) (fun _ => 0) (fun _ _ _ => 0) := by
  constructor
  · intro op t _
    rw [stored_blank rfl]
    exact SplitCounter.Inv.start rfl (fun _ => rfl) (fun _ => rfl)
  · intro v
    trivial

/-- A thread counts in a table that has been published. -/
theorem counting_le {s : State} {th : Thread} (hok : ThreadOk s th) {op : Op} {t : Nat}
    {step : Inc} (hc : th.counting = some (op, t, step)) : t ≤ s.currentTable := by
  unfold Thread.counting at hc
  split at hc
  · simp only [Option.some.injEq, Prod.mk.injEq] at hc
    obtain ⟨-, rfl, -⟩ := hc
    exact hok
  · next op' key k t' c i key' t'' step' =>
    simp only [Option.some.injEq, Prod.mk.injEq] at hc
    obtain ⟨-, rfl, -⟩ := hc
    obtain ⟨hle, -, heq⟩ := PcOk.help hok
    exact heq ▸ hle
  · exact absurd hc (by simp)

/-- The table that a step publishes is empty, and nobody counts in it yet. -/
theorem publish_split {s : State} {done : Nat → Finset Nat} (hinv : Inv s done) {tid : Tid}
    {op : Op} {key : Key} {newCap : Nat} (op' : Op) :
    (((s.publish s.currentTable newCap).goto tid (.running op key .reload)).split op'
        (s.currentTable + 1)).Inv
      (((s.publish s.currentTable newCap).goto tid (.running op key .reload)).stored op'
        (s.currentTable + 1)) (fun _ => 0) := by
  obtain ⟨-, hdata, -, -⟩ := @publish_new s newCap
  set s' := (s.publish s.currentTable newCap).goto tid (.running op key .reload) with hs'
  have hcounter : s'.counter op' (s.currentTable + 1) = Counter.new s.numThreads :=
    Function.update_self _ _ _
  have hkeys : s'.keys (s.currentTable + 1) = fun _ => EMPTY := by
    show keysOf ((s.publish s.currentTable newCap).data (s.currentTable + 1)) = _
    rw [hdata]
    rfl
  -- a thread that counts, counts in a table that has been published
  have hquiet : ∀ v, (s.thread v).phase op' (s.currentTable + 1) = .quiet := by
    intro v
    have hok := hinv.threadOk v
    cases hc : (s.thread v).counting with
    | none => exact Thread.phase_of_none hc _ _
    | some r =>
        obtain ⟨o, t, step⟩ := r
        have ht : t ≤ s.currentTable := counting_le hok hc
        rw [Thread.phase_of_some hc, if_neg (by omega)]
  rw [stored_blank hkeys]
  apply SplitCounter.Inv.start
  · show (s'.counter op' (s.currentTable + 1)).globalCounter = 0
    rw [hcounter]
    rfl
  · intro v
    show (s'.counter op' (s.currentTable + 1)).subcounters v = 0
    rw [hcounter]
    rfl
  · intro v
    show (s'.thread v).phase op' (s.currentTable + 1) = .quiet
    rw [hs', goto_thread]
    split
    · rfl
    · exact hquiet v

/-- **The counters of all tables, after a step.** -/
theorem Measured.tally_effect {s s₁ : State} {done : Nat → Finset Nat} (hinv : Inv s done)
    {missed : Tid → Nat} {bumps : Op → Nat → Tid → Nat} (h : Measured s missed bumps) {tid : Tid}
    {op : Op} {key : Key} {pc pc' : Pc} (hth : s.thread tid = .running op key pc)
    (he : Effect s tid op key pc s₁ pc') :
    ∃ bumps' : Op → Nat → Tid → Nat,
      (∀ op', ∀ t ≤ s₁.currentTable,
        ((s₁.goto tid (.running op key pc')).split op' t).Inv
          ((s₁.goto tid (.running op key pc')).stored op' t) (bumps' op' t))
      ∧ ∀ op', ∀ t ≤ s.currentTable, ∀ v, bumps op' t v ≤ bumps' op' t v := by
  have hall : ∀ op' t, ∃ b : Tid → Nat,
      (t ≤ s₁.currentTable → ((s₁.goto tid (.running op key pc')).split op' t).Inv
        ((s₁.goto tid (.running op key pc')).stored op' t) b)
      ∧ (t ≤ s.currentTable → ∀ v, bumps op' t v ≤ b v) := by
    intro op' t
    by_cases ht : t ≤ s.currentTable
    · obtain ⟨hm, hstored⟩ := he.split hinv hth op' ht
      obtain ⟨b, hb, hmono⟩ := (h.tally op' t ht).move hm
      refine ⟨b, fun _ => ?_, fun _ => hmono⟩
      rw [hstored]
      exact hb
    · -- only a published table is new
      refine ⟨fun _ => 0, fun hle => ?_, fun hle => absurd hle ht⟩
      cases he with
      | publish =>
          have heq : t = s.currentTable + 1 := by
            change t ≤ s.currentTable + 1 at hle
            omega
          rw [heq]
          exact publish_split hinv op'
      | mark => exact absurd hle ht
      | reinsert hempty => exact absurd hle ht
      | cas hexp => exact absurd hle ht
      | _ => exact absurd hle ht
  choose bumps' hbumps using hall
  exact ⟨bumps', fun op' t ht => (hbumps op' t).1 ht, fun op' t ht => (hbumps op' t).2 ht⟩

/-- The thread that takes a step goes on reading, or does not read at all. -/
theorem ReadOk.effect {s s₁ : State} {done : Nat → Finset Nat} (hinv : Inv s done)
    {bumps bumps' : Op → Nat → Tid → Nat} {missed : Nat} {tid : Tid}
    {op : Op} {key : Key} {pc pc' : Pc} (hth : s.thread tid = .running op key pc)
    (he : Effect s tid op key pc s₁ pc')
    (htally : ∀ op, ∀ t ≤ s.currentTable, (s.split op t).Inv (s.stored op t) (bumps op t))
    (hmono : ∀ op', ∀ t ≤ s.currentTable, ∀ v, bumps op' t v ≤ bumps' op' t v)
    (hfew : ∀ t inserts n ret, pc = .deletes t inserts n ret → ¬ n < MAX_THREADS →
      s.used t < 2 ^ 28)
    (h : ReadOk s bumps missed (.running op key pc)) :
    ReadOk (s₁.goto tid (.running op key pc')) bumps' (s.misread missed pc)
      (.running op key pc') := by
  have hok : PcOk s op key.val pc := by
    have := hinv.threadOk tid
    rw [hth] at this
    exact this
  cases he with
  | quiet hq =>
      exact (ReadOk.own hq htally hth hok hfew h).mono (.running op key pc')
        (hinv.quiet_ok hth hq) hmono
  | _ => trivial

/-- **Every step keeps the counters and what has been read from them**, as long
as a table in use has fewer than `2^28` buckets in use when a size is computed
from it. -/
theorem Measured.transition {s s' : State} {done : Nat → Finset Nat} (hinv : Inv s done)
    {missed : Tid → Nat} {bumps : Op → Nat → Tid → Nat} (h : Measured s missed bumps) {a : Action}
    (ht : Transition s a s')
    (hfew : ∀ tid op key t inserts n ret, a = .step tid →
      s.thread tid = .running op key (.deletes t inserts n ret) → ¬ n < MAX_THREADS →
      s.used t < 2 ^ 28) :
    ∃ bumps', Measured s' (ledger s missed a) bumps' := by
  -- calls start and end outside of the counters
  have hgoto : ∀ {tid : Tid} {th : Thread} {s₁ : State} {m : Tid → Nat},
      s₁.counter = s.counter → s₁.thread = s.thread → s₁.currentTable = s.currentTable →
      (∀ op t, s₁.stored op t = s.stored op t) →
      (s.thread tid).counting = none → th.counting = none →
      (∀ v, v ≠ tid → m v = missed v) → (∀ b, ReadOk (s₁.goto tid th) b (m tid) th) →
      Measured (s₁.goto tid th) m bumps := by
    intro tid th s₁ m hcounter hthread hcur hstored hbefore hafter hm hself
    have hsplit : ∀ op t, (s₁.goto tid th).split op t = s.split op t := by
      intro op t
      rw [split_goto_quiet (by rw [hthread]; exact hbefore) hafter]
      unfold State.split
      rw [hcounter, hthread]
    constructor
    · intro op t hle
      change t ≤ s₁.currentTable at hle
      rw [hcur] at hle
      have hst : (s₁.goto tid th).stored op t = s.stored op t := hstored op t
      rw [hsplit, hst]
      exact h.tally op t hle
    · intro v
      rw [goto_thread, hthread]
      split
      · next hv =>
        rw [hv]
        exact hself bumps
      · next hv =>
        rw [hm v hv]
        exact (h.readOk v).congr hsplit (fun op t => hstored op t)
  cases ht with
  | invoke op key hth =>
      exact ⟨bumps, hgoto rfl rfl rfl (fun _ _ => rfl) (by rw [hth]; rfl) rfl (fun _ _ => rfl)
        (fun _ => trivial)⟩
  | @call tid op key pc pc' s₁ hth he =>
      obtain ⟨bumps', htally, hmono⟩ := h.tally_effect hinv hth he
      refine ⟨bumps', htally, ?_⟩
      intro v
      rw [ledger_step hth, goto_thread, he.thread]
      split
      · next hv =>
        subst hv
        have hread := h.readOk v
        rw [hth] at hread
        exact ReadOk.effect hinv hth he h.tally hmono
          (fun t inserts n ret hpc => hfew v op key t inserts n ret rfl (by rw [hth, hpc])) hread
      · have hother := ReadOk.other h.tally (fun op' t ht => he.split hinv hth op' ht)
          (hinv.threadOk v) (h.readOk v)
        exact hother.mono _ (hinv.threadOk v) hmono
  | @ret tid op key result hth =>
      refine ⟨bumps, hgoto rfl rfl rfl (fun _ _ => rfl) (by rw [hth]; rfl) rfl ?_ (fun _ => trivial)⟩
      intro v hv
      rw [ledger_step hth, if_neg hv, slip_eq_zero (fun _ => rfl) rfl]
      rfl

end MultiCore.AlgorithmD.Concurrent
