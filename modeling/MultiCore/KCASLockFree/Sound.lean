/-
  MultiCore.KCASLockFree.Sound — every step keeps the invariant.

  `Moves` is what a step of thread `p` has to show: it keeps the invariant of
  the shared state, it does to the plain words what `Effect` allows, and the
  thread knows what it needs for its next step.

  Main results:
    * `Sound.next` — every action of a client that hands over well-formed
      descriptors keeps `Sound`;
    * `run_sound` — so it holds along every run.
-/
import MultiCore.KCASLockFree.Helping

namespace MultiCore.KCASLockFree

open MultiCore.Lib

/-! ## §1. What a step must show. -/

/-- What callers promise: the addresses of a descriptor are pairwise distinct,
and its values carry no tag bits. -/
def Promised (s : State) : Action → Prop
  | .execute p => WellFormed (s.mem.kcas p).list
  | _ => True

def Word.isPlain : Word → Bool
  | plain _ => true
  | _ => false

/-- The promise, as a test. -/
def promisedTest (s : State) : Action → Bool
  | .execute p => decide (((s.mem.kcas p).list.map Entry.addr).Nodup)
      && (s.mem.kcas p).list.all fun e => e.oldval.isPlain && e.newval.isPlain
  | _ => true

theorem Word.eq_plain {w : Word} (h : w.isPlain = true) : ∃ v, w = .plain v := by
  cases w with
  | plain v => exact ⟨v, rfl⟩
  | _ => exact absurd h (by simp [isPlain])

theorem promised_of_test (s : State) (a : Action) (h : promisedTest s a = true) : Promised s a := by
  cases a with
  | execute p =>
      obtain ⟨hnodup, hall⟩ := Bool.and_eq_true_iff.mp h
      refine ⟨of_decide_eq_true hnodup, fun e he => ?_⟩
      obtain ⟨hold, hnew⟩ := Bool.and_eq_true_iff.mp (List.all_eq_true.mp hall e he)
      exact ⟨Word.eq_plain hold, Word.eq_plain hnew⟩
  | _ => trivial

structure Sound (K : ℕ) (s : State) : Prop where
  inv : Inv K s.mem
  thread : ∀ p, ThreadOk s.mem p (s.thread p)

/-- A step of thread `p`, which then is at `th'`. -/
structure Moves (K : ℕ) (p : Tid) (m m' : Shared) (th' : Thread) : Prop where
  keeps : Keeps K p m m'
  effect : Effect m m'
  thread : ThreadOk m' p th'

section Moves

variable {K : ℕ} {p : Tid} {m m' : Shared} {th th' : Thread}

/-- **The step rule.** -/
theorem Sound.step {s : State} (h : Sound K s) (hm : Moves K p s.mem m' th') :
    Sound K (s.set p m' th') where
  inv := hm.keeps.inv
  thread q := by
    show ThreadOk m' q (Function.update s.thread p th' q)
    rw [Function.update_apply]
    split
    · rename_i hqp
      rw [hqp]
      exact hm.thread
    · rename_i hqp
      exact (h.thread q).stable h.inv hm.keeps.later hm.keeps.steady hqp

/-- A thread outside of `help` and of the code around its publication. -/
theorem ThreadOk.outside {call : Call} {ready : Bool} (hexec : call ≠ .executing)
    (hinit : call.Initializing = false) (hreading : ∀ a h, call ≠ .readingOther a h)
    (hfresh : ready = true ∨ call.Preparing = true →
      m.ops ⟨p, (m.kcas p).seqBits.seq⟩ = none ∧ (m.kcas p).seqBits.state = .undecided)
    (hdecided : m.state ⟨p, (m.kcas p).seqBits.seq⟩ ≠ some .undecided) :
    ThreadOk m p ⟨call, ready, []⟩ where
  frames f hf := absurd hf List.not_mem_nil
  stack := hexec
  fresh := hfresh
  decided _ := hdecided
  unready hc := absurd (hinit.symm.trans hc) (by simp)
  wf hc := absurd (hinit.symm.trans hc) (by simp)
  initWrite v hc := by
    change call = .initWrite v at hc
    rw [hc] at hinit
    exact absurd hinit (by simp [Call.Initializing])
  reading a hh hc := absurd hc (hreading a hh)

theorem state_of_none {t : Tag} (h : m.ops t = none) : m.state t ≠ some .undecided := by
  unfold Shared.state
  rw [h]
  simp

/-- A thread that is in a call of `help` is in `execute` or in `readPtr`. -/
theorem Stack.call {call : Call} : ∀ {fs : List Help}, Stack m p call fs → fs ≠ [] →
    call = .executing ∨ ∃ a, call = .reading a
  | [], _, hne => absurd rfl hne
  | [_], h, _ => h.elim (fun h => Or.inl h.1) fun h => Or.inr h.1
  | _ :: _ :: _, h, _ => Stack.call h.2.2 (by simp)

/-- All calls of `help` but the innermost wait. -/
theorem Stack.waiting {call : Call} : ∀ {f : Help} {fs : List Help}, Stack m p call (f :: fs) →
    ∀ f' ∈ fs, ∃ i, f'.pc = .entry i
  | _, [], _, f', hf' => absurd hf' List.not_mem_nil
  | _, f₁ :: fs, h, f', hf' => by
      rcases List.mem_cons.mp hf' with rfl | hf'
      · exact h.2.1
      · exact Stack.waiting h.2.2 f' hf'

theorem ThreadOk.frames_nil (h : ThreadOk m p th) (hc : th.call ≠ .executing)
    (hr : ∀ a, th.call ≠ .reading a) : th.frames = [] := by
  by_contra hne
  rcases h.stack.call hne with he | ⟨a, ha⟩
  · exact hc he
  · exact hr a ha

end Moves

/-! ## §2. The steps around `help`. -/

section Calls

variable {K : ℕ} {p : Tid} {m m' : Shared} {call : Call} {ready : Bool} {th' : Thread}

/-- A thread writes to its descriptor while nobody else can see it. -/
theorem Moves.prepare (hi : Inv K m) (hfresh : m.ops ⟨p, (m.kcas p).seqBits.seq⟩ = none)
    {d : KcasDesc} (hbits : d.seqBits = (m.kcas p).seqBits) (hK : d.numEntries ≤ K)
    (hth : ThreadOk (m.setKcas p d) p th') : Moves K p m (m.setKcas p d) th' where
  keeps :=
    ⟨hi.setKcas (by rw [hbits]) hK fun op hop => absurd (hfresh.symm.trans hop) (by simp),
      Later.setKcas (by rw [hbits]), Steady.setKcas⟩
  effect := Effect.of_ops rfl rfl
  thread := hth

/-- A step that only reads. -/
theorem Moves.of_read (hi : Inv K m) (hth : ThreadOk m p th') : Moves K p m m th' :=
  ⟨Keeps.refl hi, Effect.of_ops rfl rfl, hth⟩

/-- What is written to a descriptor that keeps its sequence number. -/
theorem ThreadOk.prepared {d : KcasDesc} (hbits : d.seqBits = (m.kcas p).seqBits)
    (hexec : call ≠ .executing) (hinit : call.Initializing = false)
    (hreading : ∀ a h, call ≠ .readingOther a h)
    (hfresh : m.ops ⟨p, (m.kcas p).seqBits.seq⟩ = none ∧ (m.kcas p).seqBits.state = .undecided) :
    ThreadOk (m.setKcas p d) p ⟨call, ready, []⟩ := by
  have hown : (m.setKcas p d).kcas p = d := by rw [setKcas_apply, if_pos rfl]
  apply ThreadOk.outside hexec hinit hreading
  · intro _
    rw [hown, hbits]
    exact hfresh
  · rw [hown, hbits]
    exact state_of_none hfresh.1

theorem starting_moves (hi : Inv K m) (hok : ThreadOk m p ⟨.starting, ready, []⟩)
    (hstep : callStep K m p ⟨.starting, ready, []⟩ = some (m', th')) : Moves K p m m' th' := by
  obtain ⟨rfl, rfl⟩ := Prod.mk.inj (Option.some.inj hstep)
  have hfresh := hok.fresh (Or.inr rfl)
  exact Moves.prepare hi hfresh.1 rfl (Nat.zero_le K)
    (ThreadOk.prepared rfl (by simp) rfl (by simp) hfresh)

theorem adding_moves (hi : Inv K m) {a : Loc} {oldval newval : Word} {j : ℕ}
    (hok : ThreadOk m p ⟨.adding a oldval newval j, ready, []⟩)
    (hstep : callStep K m p ⟨.adding a oldval newval j, ready, []⟩ = some (m', th')) :
    Moves K p m m' th' := by
  have hfresh := hok.fresh (Or.inr rfl)
  have hK := hi.numEntries_le p
  unfold callStep at hstep
  dsimp only at hstep
  split at hstep
  · obtain ⟨rfl, rfl⟩ := Prod.mk.inj (Option.some.inj hstep)
    exact Moves.prepare hi hfresh.1 rfl hK (ThreadOk.prepared rfl (by simp) rfl (by simp) hfresh)
  · obtain ⟨rfl, rfl⟩ := Prod.mk.inj (Option.some.inj hstep)
    exact Moves.prepare hi hfresh.1 rfl hK (ThreadOk.prepared rfl (by simp) rfl (by simp) hfresh)
  · obtain ⟨rfl, rfl⟩ := Prod.mk.inj (Option.some.inj hstep)
    exact Moves.prepare hi hfresh.1 rfl hK (ThreadOk.prepared rfl (by simp) rfl (by simp) hfresh)
  · split at hstep
    · rename_i hle
      obtain ⟨rfl, rfl⟩ := Prod.mk.inj (Option.some.inj hstep)
      exact Moves.prepare hi hfresh.1 rfl hle (ThreadOk.prepared rfl (by simp) rfl (by simp) hfresh)
    · exact absurd hstep (by simp)

theorem initRead_moves (hi : Inv K m) (hok : ThreadOk m p ⟨.initRead, ready, []⟩)
    (hstep : callStep K m p ⟨.initRead, ready, []⟩ = some (m', th')) : Moves K p m m' th' := by
  obtain ⟨rfl, rfl⟩ := Prod.mk.inj (Option.some.inj hstep)
  have hfresh := hok.fresh (Or.inr rfl)
  refine Moves.of_read hi
    { frames := fun f hf => absurd hf List.not_mem_nil, stack := by simp [Stack]
      fresh := fun _ => hfresh, decided := fun _ => state_of_none hfresh.1
      unready := fun _ => hok.unready rfl, wf := fun _ => hok.wf rfl, initWrite := ?_
      reading := fun a h hc => absurd hc (by simp) }
  intro v hc
  exact (Call.initWrite.inj hc).symm

/-- **The publication of an operation.** -/
theorem initWrite_moves (hi : Inv K m) {v : SeqBits}
    (hok : ThreadOk m p ⟨.initWrite v, ready, []⟩)
    (hstep : callStep K m p ⟨.initWrite v, ready, []⟩ = some (m', th')) : Moves K p m m' th' := by
  obtain ⟨hfresh, hund⟩ := hok.fresh (Or.inr rfl)
  obtain rfl := hok.initWrite v rfl
  have hready : ready = false := hok.unready rfl
  obtain ⟨rfl, rfl⟩ := Prod.mk.inj (Option.some.inj hstep)
  set n := (m.kcas p).seqBits.seq + 1 with hn
  set d : KcasDesc := { m.kcas p with seqBits := { (m.kcas p).seqBits with seq := n } } with hd
  set tag : Tag := ⟨p, n⟩ with htag
  set m₁ := m.setKcas p d with hm₁
  have hown : m₁.kcas p = d := by rw [hm₁, setKcas_apply, if_pos rfl]
  have hle : (m.kcas p).seqBits.seq ≤ d.seqBits.seq := Nat.le_succ _
  have hi₁ : Inv K m₁ := hi.setKcas hle (hi.numEntries_le p) fun op hop =>
    absurd (hfresh.symm.trans hop) (by simp)
  have hnone : m₁.ops tag = none := by
    show m.ops tag = none
    cases hop : m.ops tag with
    | none => rfl
    | some op =>
        have hseq : n ≤ (m.kcas p).seqBits.seq := hi.op_seq tag op hop
        omega
  have hpublish : Shared.mk m₁.word m₁.kcas m₁.rdcss
      (Function.update m₁.ops tag (some ⟨d.list, (m.kcas p).seqBits.state, false⟩)) m₁.rops
      = m₁.publish tag := by
    unfold Shared.publish
    have hlist : (m₁.kcas tag.tid).list = d.list := congrArg KcasDesc.list hown
    rw [hund, hlist]
  rw [hpublish]
  have hsteady : Steady p m₁ (m₁.publish tag) := Steady.publish (t := tag)
  have hkeeps₁ : Keeps K p m m₁ := ⟨hi₁, Later.setKcas hle, Steady.setKcas⟩
  have hinv : Inv K (m₁.publish tag) := by
    apply hi₁.publish hnone
    · show (m₁.kcas p).seqBits.seq = n
      rw [hown]
    · show (m₁.kcas p).seqBits.state = .undecided
      rw [hown]
      exact hund
    · show WellFormed (m₁.kcas p).list
      rw [hown]
      exact hok.wf rfl
  have hop : (m₁.publish tag).ops tag = some ⟨d.list, .undecided, false⟩ := by
    have hlist : (m₁.kcas tag.tid).list = d.list := congrArg KcasDesc.list hown
    rw [publish_ops, if_pos rfl, hlist]
  have heffect := Effect.publish hi₁ hnone
  refine
    { keeps := hkeeps₁.trans hi ⟨hinv, Later.publish hi₁ hnone, hsteady⟩
      effect := ⟨heffect.quiet, heffect.commits, heffect.one, heffect.fresh, heffect.differed⟩
      thread :=
        { frames := ?_, stack := Or.inl ⟨rfl, rfl, ?_⟩, fresh := ?_
          decided := fun hc => absurd rfl hc
          unready := fun hc => absurd hc (by simp [Call.Initializing])
          wf := fun hc => absurd hc (by simp [Call.Initializing])
          initWrite := fun v hc => absurd hc (by simp)
          reading := fun a h hc => absurd hc (by simp) } }
  · intro f hf
    obtain rfl := List.mem_singleton.mp hf
    exact ⟨_, hop, fun ho => absurd ho (by simp), rfl, rfl⟩
  · show tag = ⟨p, (m₁.kcas p).seqBits.seq⟩
    rw [hown]
  · intro hc
    rw [hready] at hc
    exact absurd hc (by simp [Call.Preparing])

/-- What a thread that reads a word keeps of its own descriptor. -/
theorem ThreadOk.reads {m : Shared} {call call' : Call} (hok : ThreadOk m p ⟨call, ready, []⟩)
    (hcall : call ≠ .executing) (hexec : call' ≠ .executing) (hinit : call'.Initializing = false)
    (hprep : call'.Preparing = false) (hreading : ∀ a h, call' ≠ .readingOther a h) :
    ThreadOk m p ⟨call', ready, []⟩ :=
  ThreadOk.outside hexec hinit hreading
    (fun hc => hok.fresh (Or.inl (hc.resolve_right (by rw [hprep]; simp)))) (hok.decided hcall)

theorem reading_moves (hi : Inv K m) {a : Loc} (hok : ThreadOk m p ⟨.reading a, ready, []⟩)
    (hstep : callStep K m p ⟨.reading a, ready, []⟩ = some (m', th')) : Moves K p m m' th' := by
  have hready : ready = true → _ := fun hr => hok.fresh (Or.inl hr)
  have hdecided := hok.decided (by simp)
  unfold callStep at hstep
  dsimp only at hstep
  cases hword : m.word a with
  | rdcss t =>
      rw [hword] at hstep
      obtain ⟨rfl, rfl⟩ := Prod.mk.inj (Option.some.inj hstep)
      refine Moves.of_read hi
        { frames := fun f hf => absurd hf List.not_mem_nil, stack := by simp [Stack]
          fresh := fun hc => hready (hc.resolve_right (by simp [Call.Preparing]))
          decided := fun _ => hdecided
          unready := fun hc => absurd hc (by simp [Call.Initializing])
          wf := fun hc => absurd hc (by simp [Call.Initializing])
          initWrite := fun v hc => absurd hc (by simp), reading := ?_ }
      intro a' h hc
      obtain ⟨rfl, rfl⟩ := Call.readingOther.inj hc
      exact RdcssHelp.Ok.call hi hword
  | kcas t =>
      rw [hword] at hstep
      obtain ⟨rfl, rfl⟩ := Prod.mk.inj (Option.some.inj hstep)
      refine Moves.of_read hi
        { frames := ?_, stack := Or.inr ⟨⟨a, rfl⟩, rfl⟩
          fresh := fun hc => hready (hc.resolve_right (by simp [Call.Preparing]))
          decided := fun _ => hdecided
          unready := fun hc => absurd hc (by simp [Call.Initializing])
          wf := fun hc => absurd hc (by simp [Call.Initializing])
          initWrite := fun v hc => absurd hc (by simp)
          reading := fun a h hc => absurd hc (by simp) }
      intro f hf
      obtain rfl := List.mem_singleton.mp hf
      exact Help.Ok.call hi hword
  | plain v =>
      rw [hword] at hstep
      obtain ⟨rfl, rfl⟩ := Prod.mk.inj (Option.some.inj hstep)
      exact Moves.of_read hi (hok.reads (by simp) (by simp) rfl rfl (by simp))

theorem readingOther_moves (hi : Inv K m) {a : Loc} {h : RdcssHelp}
    (hok : ThreadOk m p ⟨.readingOther a h, ready, []⟩)
    (hstep : callStep K m p ⟨.readingOther a h, ready, []⟩ = some (m', th')) :
    Moves K p m m' th' := by
  have hh := hok.reading a h rfl
  have hready : ready = true → _ := fun hr => hok.fresh (Or.inl hr)
  have hdecided := hok.decided (by simp)
  unfold callStep at hstep
  dsimp only at hstep
  split at hstep
  · rename_i m₁ h' hs
    obtain ⟨rfl, rfl⟩ := Prod.mk.inj (Option.some.inj hstep)
    obtain ⟨hsame, hh', -⟩ := RdcssHelp.step_ok hi hh (by rw [hs])
    have hm : m₁ = m := by rw [← hsame, hs]
    rw [hm]
    refine Moves.of_read hi
      { frames := fun f hf => absurd hf List.not_mem_nil, stack := by simp [Stack]
        fresh := fun hc => hready (hc.resolve_right (by simp [Call.Preparing]))
        decided := fun _ => hdecided
        unready := fun hc => absurd hc (by simp [Call.Initializing])
        wf := fun hc => absurd hc (by simp [Call.Initializing])
        initWrite := fun v hc => absurd hc (by simp), reading := ?_ }
    intro a' h₁ hc
    obtain ⟨rfl, rfl⟩ := Call.readingOther.inj hc
    exact hh'
  · rename_i m₁ hs
    obtain ⟨rfl, rfl⟩ := Prod.mk.inj (Option.some.inj hstep)
    obtain rfl : m₁ = (h.step m).1 := by rw [hs]
    obtain ⟨hkeeps, hvalue⟩ := RdcssHelp.step_keeps hi hh
    obtain ⟨word, heq⟩ := RdcssHelp.step_eq (m := m) (h := h)
    refine ⟨hkeeps p, Effect.of_ops (by rw [heq]) hvalue, ?_⟩
    have hok' : ThreadOk (h.step m).1 p ⟨.read a (.plain 0), ready, []⟩ := by
      rw [heq]
      exact ThreadOk.outside (by simp) rfl (by simp)
        (fun hc => hready (hc.resolve_right (by simp [Call.Preparing]))) hdecided
    exact hok'.reads (by simp) (by simp) rfl rfl (by simp)

/-- **A step around `help`.** -/
theorem callStep_moves (hi : Inv K m) (hok : ThreadOk m p ⟨call, ready, []⟩)
    (hstep : callStep K m p ⟨call, ready, []⟩ = some (m', th')) : Moves K p m m' th' := by
  cases call with
  | starting => exact starting_moves hi hok hstep
  | adding a oldval newval j => exact adding_moves hi hok hstep
  | initRead => exact initRead_moves hi hok hstep
  | initWrite v => exact initWrite_moves hi hok hstep
  | reading a => exact reading_moves hi hok hstep
  | readingOther a h => exact readingOther_moves hi hok hstep
  | _ => exact absurd hstep (by simp [callStep])

end Calls

/-! ## §3. The steps of `help`. -/

section Frames

variable {K : ℕ} {p : Tid} {m m' : Shared} {call : Call} {ready : Bool} {f : Help}
  {fs : List Help} {o : Outcome}

/-- What is known of the calls that wait. -/
theorem Help.Correct.waiting (hc : f.Correct K p m m' o)
    (hok : ThreadOk m p ⟨call, ready, f :: fs⟩) : ∀ f' ∈ fs, f'.Ok m' p := by
  intro f' hf'
  obtain ⟨i, hpc⟩ := Stack.waiting hok.stack f' hf'
  exact (hok.frames f' (List.mem_cons_of_mem f hf')).waiting hc.keeps.later hpc

/-- The calls that are open stay open. -/
theorem Stack.replace {f' : Help} (htag : f'.tag = f.tag) (ho : f'.helpingOther = f.helpingOther)
    (h : Stack m p call (f :: fs)) : Stack m p call (f' :: fs) := by
  cases fs with
  | nil =>
      unfold Stack at h ⊢
      rw [htag, ho]
      exact h
  | cons f₁ fs => exact ⟨ho.trans h.1, h.2.1, h.2.2⟩

/-- What a step of `help` leaves of the rest of its thread. -/
theorem ThreadOk.helped (hok : ThreadOk m p ⟨call, ready, f :: fs⟩) (hq : Quiet m m')
    (hl : Later m m') {call' : Call} {fs' : List Help} (hframes : ∀ f' ∈ fs', f'.Ok m' p)
    (hstack : Stack m' p call' fs')
    (hcall : call' = call ∨ call = .executing ∧ (∃ result, call' = .executed result)
      ∧ m'.state ⟨p, (m'.kcas p).seqBits.seq⟩ ≠ some .undecided) :
    ThreadOk m' p ⟨call', ready, fs'⟩ := by
  have hwhere := hok.stack.call (by simp)
  have hplain : call'.Preparing = false ∧ call'.Initializing = false
      ∧ ∀ a h, call' ≠ .readingOther a h := by
    rcases hcall with rfl | ⟨rfl, ⟨result, rfl⟩, -⟩
    · rcases hwhere with heq | ⟨a, heq⟩
      · change call' = _ at heq
        rw [heq]
        exact ⟨rfl, rfl, by simp⟩
      · change call' = _ at heq
        rw [heq]
        exact ⟨rfl, rfl, by simp⟩
    · exact ⟨rfl, rfl, by simp⟩
  obtain ⟨hprep, hinit, hreading⟩ := hplain
  refine
    { frames := hframes, stack := hstack, fresh := ?_, decided := ?_
      unready := fun hc => absurd (hinit.symm.trans hc) (by simp)
      wf := fun hc => absurd (hinit.symm.trans hc) (by simp), initWrite := ?_
      reading := fun a h hc => absurd hc (hreading a h) }
  · intro hc
    have hr := hc.resolve_right (by rw [hprep]; simp)
    obtain ⟨hnone, hund⟩ := hok.fresh (Or.inl hr)
    rw [hq.kcas p hnone]
    exact ⟨hq.ops _ hnone, hund⟩
  · intro hc
    rcases hcall with rfl | ⟨-, -, hdec⟩
    · have hdec := hok.decided hc
      rw [hq.kcas_seq p]
      cases hop : m.ops ⟨p, (m.kcas p).seqBits.seq⟩ with
      | none => exact state_of_none (hq.ops _ hop)
      | some op => exact hl.decided (by rw [hop]; simp) hdec
    · exact hdec
  · intro v hc
    change call' = .initWrite v at hc
    rw [hc] at hinit
    exact absurd hinit (by simp [Call.Initializing])

/-- The open calls behind the step. -/
def Outcome.frames (fs : List Help) : Outcome → List Help
  | .stay f => f :: fs
  | .call f t => helpOther t :: f :: fs
  | .ret _ => fs

/-- What the thread is in behind the step: the outermost `help` hands its result
to its caller. -/
def Outcome.resumed (c : Call) (fs : List Help) (o : Outcome) : Call :=
  match fs, o with
  | [], .ret result => c.resume result
  | _, _ => c

theorem Outcome.resumed_cases (c : Call) (fs : List Help) (o : Outcome) :
    o.resumed c fs = c ∨ fs = [] ∧ ∃ result, o = .ret result ∧ o.resumed c fs = c.resume result := by
  cases fs with
  | cons f fs => exact Or.inl rfl
  | nil =>
      cases o with
      | ret result => exact Or.inr ⟨rfl, result, rfl, rfl⟩
      | _ => exact Or.inl rfl

/-- **Where a step of the innermost call of `help` leaves its thread.** -/
theorem step_help {th th' : Thread} (hf : th.frames = f :: fs)
    (hstep : KCASLockFree.step K m p th = some (m', th')) :
    ∃ o, f.step K p m = some (m', o) ∧ th' = ⟨o.resumed th.call fs, th.ready, o.frames fs⟩ := by
  unfold KCASLockFree.step at hstep
  rw [hf] at hstep
  dsimp only at hstep
  split at hstep
  · exact absurd hstep (by simp)
  · rename_i m₁ f' hs
    obtain ⟨rfl, rfl⟩ := Prod.mk.inj (Option.some.inj hstep)
    refine ⟨_, hs, ?_⟩
    cases fs <;> rfl
  · rename_i m₁ f' t hs
    obtain ⟨rfl, rfl⟩ := Prod.mk.inj (Option.some.inj hstep)
    refine ⟨_, hs, ?_⟩
    cases fs <;> rfl
  · rename_i m₁ result hs
    obtain ⟨rfl, rfl⟩ := Prod.mk.inj (Option.some.inj hstep)
    refine ⟨_, hs, ?_⟩
    cases fs <;> rfl

/-- **A step of the innermost call of `help`.** -/
theorem help_moves (hi : Inv K m) (hok : ThreadOk m p ⟨call, ready, f :: fs⟩) {th' : Thread}
    (hstep : KCASLockFree.step K m p ⟨call, ready, f :: fs⟩ = some (m', th')) :
    Moves K p m m' th' := by
  obtain ⟨o, hs, rfl⟩ := step_help rfl hstep
  have hc := Help.step_correct hi (hok.frames f List.mem_cons_self) hs
  have hafter := hc.after
  cases o with
  | stay f' =>
      obtain ⟨hf', htag, ho⟩ := hafter
      refine ⟨hc.keeps, hc.effect, hok.helped hc.quiet hc.keeps.later ?_ ?_ (Or.inl ?_)⟩
      · intro f₁ hf₁
        rcases List.mem_cons.mp hf₁ with rfl | hf₁
        · exact hf'
        · exact hc.waiting hok f₁ hf₁
      · have hstack := Stack.congr (hc.quiet.kcas_seq p) (Stack.replace htag ho hok.stack)
        cases fs <;> exact hstack
      · cases fs <;> rfl
  | call f' t =>
      obtain ⟨hf', htag, ho, hpc, ht⟩ := hafter
      refine ⟨hc.keeps, hc.effect, hok.helped hc.quiet hc.keeps.later ?_ ?_ (Or.inl ?_)⟩
      · intro f₁ hf₁
        rcases List.mem_cons.mp hf₁ with rfl | hf₁
        · exact ht
        rcases List.mem_cons.mp hf₁ with rfl | hf₁
        · exact hf'
        · exact hc.waiting hok f₁ hf₁
      · have hstack := Stack.congr (hc.quiet.kcas_seq p) (Stack.replace htag ho hok.stack)
        cases fs <;> exact ⟨rfl, hpc, hstack⟩
      · cases fs <;> rfl
  | ret result =>
      cases fs with
      | cons f₁ fs =>
          refine ⟨hc.keeps, hc.effect, hok.helped hc.quiet hc.keeps.later ?_ ?_ (Or.inl rfl)⟩
          · exact hc.waiting hok
          · exact Stack.congr (hc.quiet.kcas_seq p) hok.stack.2.2
      | nil =>
          refine ⟨hc.keeps, hc.effect, hok.helped hc.quiet hc.keeps.later ?_ ?_ ?_⟩
          · exact fun f' hf' => absurd hf' List.not_mem_nil
          · show call.resume result ≠ .executing
            cases call <;> simp [Call.resume]
          · rcases hok.stack with ⟨hcall, -, htag⟩ | ⟨⟨a, hcall⟩, -⟩
            · change call = .executing at hcall
              subst hcall
              refine Or.inr ⟨rfl, ⟨result, rfl⟩, ?_⟩
              obtain ⟨op, hop, hdec, -⟩ := hafter (by rw [htag]; exact hc.quiet.kcas_seq p)
              rw [htag] at hop
              rw [hc.quiet.kcas_seq p, state_eq hop]
              exact fun heq => hdec (Option.some.inj heq)
            · change call = .reading a at hcall
              subst hcall
              exact Or.inl rfl

end Frames

/-! ## §4. The calls of clients. -/

section Actions

variable {K : ℕ} {p : Tid} {m m' : Shared} {th th' : Thread}

theorem sort_list (d : KcasDesc) : d.sort.list = Kcas.kcasdesc_sort d.list := by
  have hlength : (Kcas.kcasdesc_sort d.list).length = d.numEntries := by
    rw [(Kcas.kcasdesc_sort_perm d.list).length_eq, list_length]
  refine List.ext_getElem? fun i => ?_
  rw [list_getElem?]
  show (if i < d.numEntries then some ((Kcas.kcasdesc_sort d.list).getD i (d.entries i)) else none) = _
  split
  · rename_i hi
    rw [List.getD_eq_getElem?_getD, List.getElem?_eq_getElem (by omega), Option.getD_some]
  · rename_i hi
    rw [List.getElem?_eq_none (by omega)]

/-- Sorting keeps a descriptor well formed. -/
theorem WellFormed.perm {es es' : List (Entry Loc Word)} (hp : es.Perm es') (h : WellFormed es) :
    WellFormed es' where
  nodup := (hp.map Entry.addr).nodup_iff.mp h.nodup
  plain e he := h.plain e (hp.mem_iff.mpr he)

theorem start_moves (hi : Inv K m) (hok : ThreadOk m p th) (hret : th.call.Returned = true)
    (hstep : KCASLockFree.call m th (.start p) = some (m', th')) : Moves K p m m' th' := by
  have hexec : th.call ≠ .executing := fun hc => absurd (hc ▸ hret) (by simp [Call.Returned])
  obtain ⟨rfl, rfl⟩ := Prod.mk.inj (Option.some.inj hstep)
  set d : KcasDesc := { m.kcas p with seqBits := ⟨(m.kcas p).seqBits.seq + 1, .undecided⟩ } with hd
  have hown : (m.setKcas p d).kcas p = d := by rw [setKcas_apply, if_pos rfl]
  have hle : (m.kcas p).seqBits.seq ≤ d.seqBits.seq := Nat.le_succ _
  have hnone : (m.setKcas p d).ops ⟨p, ((m.setKcas p d).kcas p).seqBits.seq⟩ = none := by
    rw [hown]
    show m.ops ⟨p, (m.kcas p).seqBits.seq + 1⟩ = none
    cases hop : m.ops ⟨p, (m.kcas p).seqBits.seq + 1⟩ with
    | none => rfl
    | some op =>
        have hseq : (m.kcas p).seqBits.seq + 1 ≤ (m.kcas p).seqBits.seq := hi.op_seq _ op hop
        omega
  refine ⟨⟨hi.setKcas hle (hi.numEntries_le p) fun op hop => ⟨Nat.lt_succ_self _, ?_⟩,
    Later.setKcas hle, Steady.setKcas⟩, Effect.of_ops rfl rfl,
    ThreadOk.outside (by simp) rfl (by simp) (fun _ => ⟨hnone, by rw [hown]⟩) (state_of_none hnone)⟩
  -- the operation of the last `execute` is decided
  intro hund
  exact hok.decided hexec (by rw [state_eq hop, hund])

theorem add_moves (hi : Inv K m) (hok : ThreadOk m p th) (hret : th.call.Returned = true)
    {a : Loc} {oldval newval : Word}
    (hstep : KCASLockFree.call m th (.add p a oldval newval) = some (m', th')) :
    Moves K p m m' th' := by
  have hexec : th.call ≠ .executing := fun hc => absurd (hc ▸ hret) (by simp [Call.Returned])
  have hnil := hok.frames_nil hexec fun a hc => absurd (hc ▸ hret) (by simp [Call.Returned])
  obtain ⟨call, ready, frames⟩ := th
  obtain rfl : frames = [] := hnil
  unfold KCASLockFree.call at hstep
  dsimp only at hstep
  split at hstep
  · rename_i hready
    obtain ⟨rfl, rfl⟩ := Prod.mk.inj (Option.some.inj hstep)
    exact Moves.of_read hi (ThreadOk.outside (by simp) rfl (by simp)
      (fun _ => hok.fresh (Or.inl hready)) (hok.decided hexec))
  · exact absurd hstep (by simp)

theorem execute_moves (hi : Inv K m) (hok : ThreadOk m p th) (hwf : WellFormed (m.kcas p).list)
    (hstep : KCASLockFree.call m th (.execute p) = some (m', th')) : Moves K p m m' th' := by
  unfold KCASLockFree.call at hstep
  dsimp only at hstep
  split at hstep
  · rename_i hready
    obtain ⟨rfl, rfl⟩ := Prod.mk.inj (Option.some.inj hstep)
    have hfresh := hok.fresh (Or.inl hready)
    have hown : (m.setKcas p (m.kcas p).sort).kcas p = (m.kcas p).sort := by
      rw [setKcas_apply, if_pos rfl]
    refine Moves.prepare hi hfresh.1 rfl (hi.numEntries_le p)
      { frames := fun f hf => absurd hf List.not_mem_nil, stack := by simp [Stack], fresh := ?_
        decided := ?_, unready := fun _ => rfl, wf := ?_
        initWrite := fun v hc => absurd hc (by simp)
        reading := fun a h hc => absurd hc (by simp) }
    · intro _
      rw [hown]
      exact hfresh
    · intro _
      rw [hown]
      exact state_of_none hfresh.1
    · intro _
      rw [hown, sort_list]
      exact hwf.perm (Kcas.kcasdesc_sort_perm _).symm
  · exact absurd hstep (by simp)

theorem readPtr_moves (hi : Inv K m) (hok : ThreadOk m p th) (hret : th.call.Returned = true)
    {a : Loc} (hstep : KCASLockFree.call m th (.readPtr p a) = some (m', th')) :
    Moves K p m m' th' := by
  have hexec : th.call ≠ .executing := fun hc => absurd (hc ▸ hret) (by simp [Call.Returned])
  have hnil := hok.frames_nil hexec fun a hc => absurd (hc ▸ hret) (by simp [Call.Returned])
  obtain ⟨call, ready, frames⟩ := th
  obtain rfl : frames = [] := hnil
  obtain ⟨rfl, rfl⟩ := Prod.mk.inj (Option.some.inj hstep)
  exact Moves.of_read hi (hok.reads hexec (by simp) rfl rfl (by simp))

/-- **Every action is one of the moves.** -/
theorem next_moves {s s' : State} {a : Action} (h : Sound K s) (hc : Promised s a)
    (hn : next K s a = some s') :
    ∃ m' th', s' = s.set a.tid m' th' ∧ Moves K a.tid s.mem m' th' := by
  unfold next at hn
  rw [Option.map_eq_some_iff] at hn
  obtain ⟨⟨m', th'⟩, hmoved, rfl⟩ := hn
  refine ⟨m', th', rfl, ?_⟩
  have hok := h.thread a.tid
  -- an action other than a step is a call of a thread that is in no call
  have hcall : ∀ {x : Option (Shared × Thread)},
      (if (s.thread a.tid).call.Returned then x else none) = some (m', th') →
      (s.thread a.tid).call.Returned = true ∧ x = some (m', th') := by
    intro x hx
    split at hx
    · rename_i hret
      exact ⟨hret, hx⟩
    · exact absurd hx (by simp)
  cases a with
  | start p =>
      obtain ⟨hret, hx⟩ := hcall hmoved
      exact start_moves h.inv hok hret hx
  | add p a oldval newval =>
      obtain ⟨hret, hx⟩ := hcall hmoved
      exact add_moves h.inv hok hret hx
  | execute p =>
      obtain ⟨-, hx⟩ := hcall hmoved
      exact execute_moves h.inv hok hc hx
  | readPtr p a =>
      obtain ⟨hret, hx⟩ := hcall hmoved
      exact readPtr_moves h.inv hok hret hx
  | step p =>
      change KCASLockFree.step K s.mem p (s.thread p) = some (m', th') at hmoved
      change ThreadOk s.mem p (s.thread p) at hok
      generalize s.thread p = th at hmoved hok
      obtain ⟨call, ready, frames⟩ := th
      cases frames with
      | nil => exact callStep_moves h.inv hok hmoved
      | cons f fs => exact help_moves h.inv hok hmoved

theorem Sound.next {s s' : State} {a : Action} (h : Sound K s) (hc : Promised s a)
    (hn : next K s a = some s') : Sound K s' ∧ Effect s.mem s'.mem := by
  obtain ⟨m', th', rfl, hm⟩ := next_moves h hc hn
  exact ⟨h.step hm, hm.effect⟩

/-- Before the first call there is no operation. -/
theorem init_sound (word : Loc → ℕ) : Sound K (init word) where
  inv :=
    { numEntries_le := fun _ => Nat.zero_le K
      op_seq := fun _ _ h => absurd h (by simp [init])
      op_live := fun _ _ h => absurd h (by simp [init])
      op_old := fun _ _ h => absurd h (by simp [init])
      op_length := fun _ _ h => absurd h (by simp [init])
      op_wf := fun _ _ h => absurd h (by simp [init])
      differed := fun _ _ h => absurd h (by simp [init])
      tag_op := fun _ _ h => absurd h (by simp [init])
      tag_first := fun _ _ h => absurd h (by simp [init])
      rop_seq := fun _ _ h => absurd h (by simp [init])
      rop_live := fun _ _ h => absurd h (by simp [init])
      rop_op := fun _ _ h => absurd h (by simp [init])
      rop_first := fun _ _ h => absurd h (by simp [init])
      tag_rop := fun _ _ h => absurd h (by simp [init]) }
  thread p := by
    apply ThreadOk.outside (by simp) rfl (by simp)
    · intro hc
      exact absurd hc (by simp [Call.Preparing])
    · exact state_of_none rfl

/-- **Every run is sound**, as long as its clients keep their promise. -/
theorem run_sound {word : Loc → ℕ} {r : Run (system K word)}
    (hc : ∀ i < r.len, Promised (r.state i) (r.act i)) {i : ℕ} (hi : i ≤ r.len) :
    Sound K (r.state i) :=
  r.invariant (P := fun _ => Sound K) (init_sound word) hi
    fun i _ hlt h => (h.next (hc i hlt) (r.step i hlt)).1

end Actions

end MultiCore.KCASLockFree
