/-
  MultiCore.KCASLockFree.Dangling — when a tag stays in a word for ever.

  A call of `help` that finds the descriptor reused returns without its second
  phase, since the owner has done that before it reused the descriptor.  But an
  RDCSS that has read `UNDECIDED` may write the tag of the operation after the
  owner has passed over the word.  If the calls that are left then all find the
  descriptor reused, nobody takes the tag out again.

  Main results:
    * `no_tags_iff` — when all calls have returned, the words carry no tags,
      unless a call has given up the last care of one;
    * `givesUp_swings` — before that, a late RDCSS has written the tag;
    * `dangling` — a run in which that happens;
    * `reads_for_ever` — what `readPtr` does from then on.
-/
import MultiCore.KCASLockFree.Tags

namespace MultiCore.KCASLockFree

open MultiCore.Lib

/-! ## §1. Tags that somebody is in charge of. -/

/-- The thread is neither in `execute` nor in `readPtr`. -/
def Call.Outside : Call → Bool
  | initRead | initWrite _ | executing | reading _ | readingOther .. => false
  | _ => true

/-- Some call of `help` for the operation `t` is still to pass over the word `a`. -/
def Covered (s : State) (t : Tag) (a : Loc) : Prop :=
  ∃ q, ∃ f ∈ (s.thread q).frames, f.tag = t ∧ f.Covers a

/-- The step is the last sequence check of a call of `help`: the owner has reused
the descriptor, a word carries the tag of the operation, and no other call is
still to pass over that word. -/
def GivesUp (s : State) : Action → Prop
  | .step p => ∃ f fs a, (s.thread p).frames = f :: fs ∧ f.pc = .finalRead
      ∧ (s.mem.kcas f.tag.tid).seqBits.seq ≠ f.tag.seq ∧ s.mem.word a = .kcas f.tag
      ∧ ∀ q, ∀ f' ∈ (s.thread q).frames, f'.tag = f.tag → f'.Covers a → q = p ∧ f' = f
  | _ => False

section Steps

variable {K : ℕ} {s s' : State} {a : Action}

/-- The thread whose RDCSS tag is in a word has not left `rdcss`. -/
def Installed (s : State) : Prop :=
  ∀ b u, s.mem.word b = .rdcss u → ∃ f ∈ (s.thread u.tid).frames, f.Installs u

theorem Installed.next (h : Sound K s) (hg : Installed s) (hn : next K s a = some s') :
    Installed s' := by
  have ht := next_tags h hn
  intro b u hu
  rcases ht.rdcss b u hu with hold | ⟨htid, hnew⟩
  · obtain ⟨f, hf, hinst⟩ := hg b u hold
    by_cases htid : a.tid = u.tid
    · rw [← htid] at hf ⊢
      exact ht.installs u f hf hinst b hu
    · rw [next_other hn htid]
      exact ⟨f, hf, hinst⟩
  · rw [htid]
    exact hnew

/-- An RDCSS that waits in a word is part of a call that covers the word. -/
theorem Installed.covered (h : Sound K s) (hg : Installed s) {b : Loc} {u : Tag} {r : ROp}
    (hw : s.mem.word b = .rdcss u) (hr : s.mem.rops u = some r) : Covered s r.target b := by
  obtain ⟨f, hf, i, hh, hpc, rfl⟩ := hg b u hw
  refine ⟨hh.tag.tid, f, hf, ?_, Help.covers_locking hpc trivial b⟩
  obtain ⟨op, -, -, hknows⟩ := (h.thread hh.tag.tid).frames f hf
  unfold Help.Knows at hknows
  rw [hpc] at hknows
  obtain ⟨-, -, ⟨-, r', hr', htarget, -⟩, -⟩ := hknows
  obtain rfl := Option.some.inj (hr.symm.trans hr')
  exact htarget.symm

/-- A word that is covered stays so while it carries the tag, unless the last call
in charge gives up. -/
theorem Covered.next (h : Sound K s) (hn : next K s a = some s') (hgives : ¬ GivesUp s a) {t : Tag}
    {b : Loc} (hcov : Covered s t b) (hw : s'.mem.word b = .kcas t) : Covered s' t b := by
  have ht := next_tags h hn
  -- a call that covers the word and does not take the step
  have hother : ∀ q f, f ∈ (s.thread q).frames → q ≠ a.tid → f.tag = t → f.Covers b →
      Covered s' t b := by
    intro q f hf hq htag hc
    refine ⟨q, f, ?_, htag, hc⟩
    rw [next_other hn hq.symm]
    exact hf
  obtain ⟨q, f, hf, rfl, hc⟩ := hcov
  by_cases hq : q = a.tid
  · subst hq
    rcases ht.covers b f hf hc hw with ⟨f', hf', htag', -, hc'⟩ | ⟨hframes, hpc, hseq, hmem⟩
    · exact ⟨a.tid, f', hf', htag', hc'⟩
    · have hstep : a = .step a.tid := by
        apply next_inside hn rfl
        have hcall := (h.thread a.tid).stack.call (by rw [hframes]; simp)
        rcases hcall with heq | ⟨b', heq⟩ <;>
          · rw [heq]
            rfl
      -- the call returns without its second phase: it is not the last one
      by_contra hno
      apply hgives
      rw [hstep]
      refine ⟨f, _, b, hframes, hpc, hseq, by rw [← hmem]; exact hw, fun q f' hf' htag hc' => ?_⟩
      by_cases hq : q = a.tid
      · refine ⟨hq, ?_⟩
        rw [hq, hframes] at hf'
        rcases List.mem_cons.mp hf' with heq | hf'
        · exact heq
        · exact absurd ⟨a.tid, f', hf', htag, hc'⟩ hno
      · exact absurd (hother q f' hf' hq htag hc') hno
  · exact hother q f hf hq rfl hc

/-- Every tag of an operation has a call in charge of it. -/
def Guarded (s : State) : Prop := ∀ b t, s.mem.word b = .kcas t → Covered s t b

theorem Guarded.next (h : Sound K s) (hi : Installed s) (hg : Guarded s)
    (hgives : ¬ GivesUp s a) (hn : next K s a = some s') : Guarded s' := by
  intro b t hw
  apply Covered.next h hn hgives _ hw
  rcases (next_tags h hn).kcas b t hw with hold | ⟨hh, -, -, hu, r, hr, rfl⟩
  · exact hg b t hold
  · exact hi.covered h hu hr

/-! ## §2. Tags that nobody is in charge of. -/

/-- The word carries the tag of an operation whose descriptor has been reused, and
no call is to take it out. -/
structure Abandoned (s : State) (t : Tag) (b : Loc) : Prop where
  word : s.mem.word b = .kcas t
  reused : (s.mem.kcas t.tid).seqBits.seq ≠ t.seq
  uncovered : ¬ Covered s t b

theorem GivesUp.abandons (h : Sound K s) (hn : next K s a = some s') (hgives : GivesUp s a) :
    ∃ t b, Abandoned s' t b := by
  cases a with
  | step p =>
      obtain ⟨f, fs, b, hframes, hpc, hseq, hw, hlast⟩ := hgives
      obtain ⟨m', th', hstep, hmem, hth⟩ := next_step hn
      obtain ⟨o, hs, rfl⟩ := step_help hframes hstep
      have hwait := Stack.waiting (hframes ▸ (h.thread p).stack)
      unfold Help.step at hs
      rw [hpc] at hs
      dsimp only at hs
      rw [if_neg hseq] at hs
      obtain ⟨rfl, rfl⟩ := Prod.mk.inj (Option.some.inj hs)
      refine ⟨f.tag, b, by rw [hmem]; exact hw, by rw [hmem]; exact hseq, ?_⟩
      rintro ⟨q, f', hf', htag, hc⟩
      by_cases hq : q = p
      · subst hq
        rw [hth] at hf'
        obtain ⟨-, rfl⟩ := hlast q f' (by rw [hframes]; exact List.mem_cons_of_mem f hf') htag hc
        obtain ⟨i, hentry⟩ := hwait f' hf'
        exact absurd (hpc.symm.trans hentry) (by simp)
      · rw [next_other hn (fun heq => hq heq.symm)] at hf'
        exact hq (hlast q f' hf' htag hc).1
  | _ => exact absurd hgives id

/-- **Nobody takes an abandoned tag out.** -/
theorem Abandoned.next (h : Sound K s) (hc : Promised s a) (hn : next K s a = some s') {t : Tag}
    {b : Loc} (ha : Abandoned s t b) : Abandoned s' t b := by
  have ht := next_tags h hn
  refine ⟨?_, ?_, ?_⟩
  · rcases ht.stays b t ha.word with hstay | ⟨f, hf, htag, hcov⟩
    · exact hstay
    · exact absurd ⟨a.tid, f, hf, htag, hcov⟩ ha.uncovered
  · have hle := h.inv.seq_le ha.word
    have hne := ha.reused
    obtain ⟨m', th', rfl, hm⟩ := next_moves h hc hn
    have hlater := hm.keeps.later.kcas_seq t.tid
    show (m'.kcas t.tid).seqBits.seq ≠ t.seq
    omega
  · rintro ⟨q, f, hf, htag, hcov⟩
    by_cases hq : a.tid = q
    · subst hq
      refine ht.uncovers b t ha.word ha.reused (fun f hf htag hcov => ?_) f hf htag hcov
      exact ha.uncovered ⟨a.tid, f, hf, htag, hcov⟩
    · rw [next_other hn hq] at hf
      exact ha.uncovered ⟨q, f, hf, htag, hcov⟩

/-- Outside of `execute` and `readPtr` no call of `help` is open. -/
theorem Sound.frames_nil (h : Sound K s) {p : Tid} (hout : (s.thread p).call.Outside = true) :
    (s.thread p).frames = [] := by
  refine (h.thread p).frames_nil (fun hc => ?_) fun b hc => ?_
  · rw [hc] at hout
    exact absurd hout (by simp [Call.Outside])
  · rw [hc] at hout
    exact absurd hout (by simp [Call.Outside])

theorem Sound.uncovered (h : Sound K s) (hout : ∀ p, (s.thread p).call.Outside = true) (t : Tag)
    (b : Loc) : ¬ Covered s t b := by
  rintro ⟨q, f, hf, -⟩
  rw [h.frames_nil (hout q)] at hf
  exact absurd hf List.not_mem_nil

/-! ## §3. The cause. -/

/-- The step is the CAS of `rdcssHelp`, with the tag of an operation that has been
decided since the call has read `UNDECIDED`. -/
def SwingsLate (s : State) (a : Action) : Prop :=
  ∃ h b t, (s.thread a.tid).rdcssHelp = some h ∧ h.Swings s.mem b t
    ∧ s.mem.state t ≠ some .undecided

/-- `execute` of the owner of the operation is still to pass over the word. -/
def OwnerCovers (s : State) (t : Tag) (b : Loc) : Prop :=
  ∃ f ∈ (s.thread t.tid).frames, f.helpingOther = false ∧ f.tag = t ∧ f.Covers b

/-- A call of `help` for an operation of one's own is for the last one. -/
theorem Stack.owner_tag {m : Shared} {p : Tid} {call : Call} :
    ∀ {fs : List Help}, Stack m p call fs → ∀ f ∈ fs, f.helpingOther = false →
      f.tag = ⟨p, (m.kcas p).seqBits.seq⟩
  | [], _, f, hf, _ => absurd hf List.not_mem_nil
  | [f₁], h, f, hf, ho => by
      obtain rfl := List.mem_singleton.mp hf
      rcases h with ⟨-, -, htag⟩ | ⟨-, hother⟩
      · exact htag
      · exact absurd (ho.symm.trans hother) (by simp)
  | f₁ :: f₂ :: fs, h, f, hf, ho => by
      rcases List.mem_cons.mp hf with rfl | hf
      · exact absurd (ho.symm.trans h.1) (by simp)
      · exact Stack.owner_tag h.2.2 f hf ho

theorem Stack.owner {m : Shared} {p : Tid} :
    ∀ {fs : List Help}, Stack m p .executing fs → ∃ f ∈ fs, f.helpingOther = false
  | [], h => absurd rfl h
  | [f], h => by
      rcases h with ⟨-, hother, -⟩ | ⟨⟨a, hcall⟩, -⟩
      · exact ⟨f, List.mem_singleton.mpr rfl, hother⟩
      · exact absurd hcall (by simp)
  | f :: f' :: fs, h => by
      obtain ⟨f₁, hf₁, hother⟩ := Stack.owner h.2.2
      exact ⟨f₁, List.mem_cons_of_mem f hf₁, hother⟩

/-- The owner of an undecided operation is still to pass over all words. -/
theorem Sound.owner (h : Sound K s) {t : Tag} (hund : s.mem.state t = some .undecided) (b : Loc) :
    OwnerCovers s t b := by
  obtain ⟨op, hop, hstate⟩ := exists_of_state hund
  have hok := h.thread t.tid
  have hseq : (s.mem.kcas t.tid).seqBits.seq = t.seq := by
    by_contra hne
    exact h.inv.op_old t op hop hne hstate
  have htag : (⟨t.tid, (s.mem.kcas t.tid).seqBits.seq⟩ : Tag) = t := by rw [hseq]
  have hcall : (s.thread t.tid).call = .executing := by
    by_contra hne
    exact hok.decided hne (by rw [htag]; exact hund)
  have hstack := hok.stack
  rw [hcall] at hstack
  obtain ⟨f, hf, hother⟩ := hstack.owner
  have hft : f.tag = t := (hstack.owner_tag f hf hother).trans htag
  refine ⟨f, hf, hother, hft, ?_⟩
  obtain ⟨op', hop', -, hknows⟩ := hok.frames f hf
  rw [hft] at hop'
  obtain rfl := Option.some.inj (hop.symm.trans hop')
  unfold Help.Knows at hknows
  cases hpc : f.pc with
  | copy j =>
      rw [hpc] at hknows
      exact absurd (hother.symm.trans hknows.1) (by simp)
  | readState =>
      unfold Help.Covers
      rw [hpc]
      exact hother
  | unlock i succeeded =>
      rw [hpc] at hknows
      exact absurd hstate hknows.2.1
  | _ => exact Help.covers_locking hpc trivial b

theorem OwnerCovers.next (h : Sound K s) (hn : next K s a = some s') {t : Tag} {b : Loc}
    (hcov : OwnerCovers s t b) (hw : s'.mem.word b = .kcas t) : OwnerCovers s' t b := by
  obtain ⟨f, hf, hother, rfl, hc⟩ := hcov
  by_cases hq : a.tid = f.tag.tid
  · have ht := next_tags h hn
    rw [hq] at ht
    rcases ht.covers b f hf hc hw with ⟨f', hf', htag, ho, hc'⟩ | ⟨-, -, hseq, -⟩
    · exact ⟨f', hf', ho.trans hother, htag, hc'⟩
    · -- nobody else reuses the descriptor
      have hsame := congrArg Tag.seq ((h.thread f.tag.tid).stack.owner_tag f hf hother)
      exact absurd hsame.symm hseq
  · refine ⟨f, ?_, hother, rfl, hc⟩
    rw [next_other hn hq]
    exact hf

/-- Every tag of an operation is still to be passed over by its owner. -/
def Owned (s : State) : Prop := ∀ b t, s.mem.word b = .kcas t → OwnerCovers s t b

theorem Owned.next (h : Sound K s) (ho : Owned s) (hlate : ¬ SwingsLate s a)
    (hn : next K s a = some s') : Owned s' := by
  intro b t hw
  apply OwnerCovers.next h hn _ hw
  rcases (next_tags h hn).kcas b t hw with hold | ⟨hh, hopen, hswings⟩
  · exact ho b t hold
  · by_cases hund : s.mem.state t = some .undecided
    · exact h.owner hund b
    · exact absurd ⟨hh, b, t, hopen, hswings, hund⟩ hlate

/-- The owner of a tag has not reused its descriptor. -/
theorem Owned.not_givesUp (h : Sound K s) (ho : Owned s) : ¬ GivesUp s a := by
  intro hgives
  cases a with
  | step p =>
      obtain ⟨f, -, b, -, -, hseq, hw, -⟩ := hgives
      obtain ⟨f', hf', hother, htag, -⟩ := ho b f.tag hw
      have hsame := (h.thread f.tag.tid).stack.owner_tag f' hf' hother
      rw [htag] at hsame
      exact absurd (congrArg Tag.seq hsame).symm hseq
  | _ => exact hgives

end Steps

/-! ## §4. Along a run. -/

section Runs

variable {K : ℕ} {word : Loc → ℕ} {r : Run (system K word)}

theorem run_installed (hc : ∀ i < r.len, Promised (r.state i) (r.act i)) {i : ℕ} (hi : i ≤ r.len) :
    Installed (r.state i) := by
  refine r.invariant (P := fun _ => Installed) ?_ hi fun i _ hlt h => ?_
  · exact fun b u hu => absurd hu (by simp [system, init])
  · exact h.next (run_sound hc (Nat.le_of_lt hlt)) (r.step i hlt)

theorem run_guarded (hc : ∀ i < r.len, Promised (r.state i) (r.act i)) {i : ℕ} (hi : i ≤ r.len)
    (hgives : ∀ j < i, ¬ GivesUp (r.state j) (r.act j)) : Guarded (r.state i) := by
  refine r.invariant (P := fun _ => Guarded) ?_ hi fun j hji hj h => ?_
  · exact fun b t ht => absurd ht (by simp [system, init])
  · have hle : j ≤ r.len := Nat.le_of_lt hj
    exact h.next (run_sound hc hle) (run_installed hc hle) (hgives j hji) (r.step j hj)

/-- **Only a late CAS of `rdcssHelp` leads there.** -/
theorem givesUp_swings (hc : ∀ i < r.len, Promised (r.state i) (r.act i)) {n : ℕ} (hn : n ≤ r.len)
    (hgives : GivesUp (r.state n) (r.act n)) : ∃ i < n, SwingsLate (r.state i) (r.act i) := by
  by_contra hno
  push Not at hno
  have howned : Owned (r.state n) := by
    refine r.invariant (P := fun _ => Owned) ?_ hn fun i hin hi h => ?_
    · exact fun b t ht => absurd ht (by simp [system, init])
    · exact h.next (run_sound hc (Nat.le_of_lt hi)) (hno i hin) (r.step i hi)
  exact howned.not_givesUp (run_sound hc hn) hgives

/-- **An abandoned tag is there for ever.** -/
theorem run_abandoned (hc : ∀ i < r.len, Promised (r.state i) (r.act i)) {i j : ℕ} (hij : i ≤ j)
    (hj : j ≤ r.len) {t : Tag} {b : Loc} (ha : Abandoned (r.state i) t b) :
    Abandoned (r.state j) t b :=
  r.persists (P := (Abandoned · t b)) hij hj ha
    fun k _ _ hk h => h.next (run_sound hc (Nat.le_of_lt hk)) (hc k hk) (r.step k hk)

/-- **When all calls of `execute` and `readPtr` have returned**, the shared words
carry no tags, if and only if no call has given up a tag that it was the last to
take care of. -/
theorem no_tags_iff (K : ℕ) (word : Loc → ℕ) (r : Run (system K word))
    (hc : ∀ i < r.len, Promised (r.state i) (r.act i)) (n : ℕ) (hn : n ≤ r.len)
    (hout : ∀ p, (callAt r p n).Outside = true) :
    (∀ a, ∃ v, (r.state n).mem.word a = .plain v)
      ↔ ∀ i < n, ¬ GivesUp (r.state i) (r.act i) := by
  have hs := run_sound hc hn
  constructor
  · intro hplain i hi hgives
    have hlt : i < r.len := Nat.lt_of_lt_of_le hi hn
    obtain ⟨t, b, ha⟩ := hgives.abandons (run_sound hc (Nat.le_of_lt hlt)) (r.step i hlt)
    have hword := (run_abandoned hc hi hn ha).word
    obtain ⟨v, hv⟩ := hplain b
    rw [hv] at hword
    exact absurd hword (by simp)
  · intro hgives a
    cases hw : (r.state n).mem.word a with
    | plain v => exact ⟨v, rfl⟩
    | rdcss u =>
        obtain ⟨rop, hr, -⟩ := hs.inv.tag_rop a u hw
        exact absurd ((run_installed hc hn).covered hs hw hr) (hs.uncovered hout _ a)
    | kcas t => exact absurd (run_guarded hc hn hgives a t hw) (hs.uncovered hout t a)

/-! ## §5. A tag that stays. -/

/-- Thread 0 has locked word 0, and thread 1 helps it.  Thread 0 sees a 5 in word
1 that thread 2 takes back before thread 1 gets there.  Thread 1 reads
`UNDECIDED`, thread 0 decides, passes over both words and starts again, and only
then thread 1 writes the tag. -/
def danglingActions : List Action :=
  prepares 0 [⟨0, .plain 0, .plain 1⟩, ⟨1, .plain 0, .plain 1⟩] ++ .execute 0 :: steps 0 14
    ++ .readPtr 1 0 :: steps 1 18
    ++ prepares 2 [⟨1, .plain 0, .plain 5⟩] ++ .execute 2 :: steps 2 19
    ++ steps 0 8
    ++ prepares 2 [⟨1, .plain 5, .plain 0⟩] ++ .execute 2 :: steps 2 19
    ++ steps 1 2 ++ steps 0 5 ++ .start 0 :: steps 1 5

/-- A thread that no action is of stays idle. -/
theorem callAt_idle {p : Tid} (h : ∀ i < r.len, (r.act i).tid ≠ p) {n : ℕ} (hn : n ≤ r.len) :
    callAt r p n = .idle := by
  refine r.invariant (P := fun _ s => (s.thread p).call = .idle) rfl hn fun i _ hi hidle => ?_
  rw [next_other (r.step i hi) (h i hi)]
  exact hidle

/-- What the words and the threads are at the end of `danglingActions`. -/
def danglingTest (s : State) : Bool :=
  ((List.range 3).all fun p => (s.thread p).call.Outside) && (s.mem.word 1 = .kcas ⟨0, 3⟩)
    && ((s.mem.kcas 0).seqBits.seq = 4)

set_option maxRecDepth 4000 in
theorem danglingActions_run : ∃ r : Run (system 2 fun _ => 0),
    (∀ i < r.len, Promised (r.state i) (r.act i)) ∧ (∀ p, (callAt r p r.len).Outside = true)
      ∧ (r.state r.len).mem.word 1 = .kcas ⟨0, 3⟩
      ∧ ((r.state r.len).mem.kcas 0).seqBits.seq = 4 := by
  obtain ⟨r, hc, -, hend⟩ := Run.exists_of_check (M := system 2 fun _ => 0)
    (C := fun s a => Promised s a ∧ a.tid < 3)
    (c := fun s a => promisedTest s a && decide (a.tid < 3)) (f := danglingTest)
    (fun s a h => ⟨promised_of_test s a (Bool.and_eq_true_iff.mp h).1,
      of_decide_eq_true (Bool.and_eq_true_iff.mp h).2⟩)
    danglingActions (.step 0) (by decide +kernel)
  unfold danglingTest at hend
  rw [Bool.and_eq_true, Bool.and_eq_true] at hend
  obtain ⟨⟨hcalls, hword⟩, hseq⟩ := hend
  refine ⟨r, fun i hi => (hc i hi).1, fun p => ?_, of_decide_eq_true hword, of_decide_eq_true hseq⟩
  by_cases hp : p < 3
  · exact List.all_eq_true.mp hcalls p (List.mem_range.mpr hp)
  · have hidle : callAt r p r.len = .idle := by
      apply callAt_idle _ (Nat.le_refl _)
      intro i hi heq
      have hlt := (hc i hi).2
      rw [heq] at hlt
      exact hp hlt
    rw [hidle]
    rfl

theorem no_tags_iff_dangling : ∃ r : Run (system 2 fun _ => 0),
    (∀ p, (callAt r p r.len).Outside = true) ∧ ∃ i < r.len, GivesUp (r.state i) (r.act i) := by
  obtain ⟨r, hc, hout, hword, -⟩ := danglingActions_run
  refine ⟨r, hout, ?_⟩
  by_contra hno
  push Not at hno
  obtain ⟨v, hv⟩ := (no_tags_iff 2 (fun _ => 0) r hc r.len (Nat.le_refl _) hout).mpr hno 1
  rw [hv] at hword
  exact absurd hword (by simp)

/-- **Tags can stay behind**: nobody is inside `execute` or `readPtr`, and a word
carries the tag of a descriptor that has been reused. -/
theorem dangling : ¬ ∀ (K : ℕ) (word : Loc → ℕ) (r : Run (system K word)),
    (∀ i < r.len, Promised (r.state i) (r.act i)) → ∀ n ≤ r.len,
      (∀ p, (callAt r p n).Outside = true) → ∀ a, ∃ v, (r.state n).mem.word a = .plain v := by
  intro h
  obtain ⟨r, hc, hout, hword, -⟩ := danglingActions_run
  obtain ⟨v, hv⟩ := h 2 (fun _ => 0) r hc r.len (Nat.le_refl _) hout 1
  rw [hv] at hword
  exact absurd hword (by simp)

/-! ## §6. Readers of an abandoned tag. -/

/-- A call of `readPtr` for an abandoned word does not return. -/
theorem run_reads (hc : ∀ i < r.len, Promised (r.state i) (r.act i)) {i j : ℕ} (hij : i ≤ j)
    (hj : j ≤ r.len) {t : Tag} {b : Loc} (ha : Abandoned (r.state i) t b) {p : Tid}
    (hreads : (callAt r p i).Reads b) : (callAt r p j).Reads b := by
  refine r.persists (P := fun s => (s.thread p).call.Reads b) hij hj hreads ?_
  intro k hik _ hk hbefore
  have hstep : next K (r.state k) (r.act k) = some (r.state (k + 1)) := r.step k hk
  by_cases htid : (r.act k).tid = p
  · have hopen : ((r.state k).thread p).call.Returned = false := by
      cases hcall : ((r.state k).thread p).call <;> simp_all [Call.Reads, Call.Returned]
    rw [next_inside hstep htid hopen] at hstep
    obtain ⟨m', th', hth, -, heq⟩ := next_step hstep
    rw [heq]
    rcases step_reading hbefore hth with hgo | ⟨v, -, hv⟩
    · exact hgo
    · -- it would have to see a plain word
      have hword := (run_abandoned hc hik (Nat.le_of_lt hk) ha).word
      rw [hv] at hword
      exact absurd hword (by simp)
  · rw [next_other hstep htid]
    exact hbefore

/-- **An abandoned tag is in the word for ever**, and no call of `readPtr` for the
word returns. -/
theorem reads_for_ever (hc : ∀ i < r.len, Promised (r.state i) (r.act i)) {i j : ℕ} (hij : i ≤ j)
    (hj : j ≤ r.len) {t : Tag} {b : Loc} (ha : Abandoned (r.state i) t b) :
    (r.state j).mem.word b = .kcas t
      ∧ ∀ p, (callAt r p i).Reads b → (callAt r p j).Reads b := by
  constructor
  · exact (run_abandoned hc hij hj ha).word
  · intro p hreads
    exact run_reads hc hij hj ha hreads

/-- Thread 1 reads word 1 when the tag has been left there. -/
def readingActions : List Action := danglingActions ++ .readPtr 1 1 :: steps 1 60

/-- The states before and behind the call. -/
def readingTest (s s' : State) : Bool :=
  danglingTest s && ((s'.thread 1).call = .reading 1)

set_option maxRecDepth 4000 in
theorem readingActions_run : ∃ r : Run (system 2 fun _ => 0), danglingActions.length < r.len
    ∧ (∀ i < r.len, Promised (r.state i) (r.act i) ∧ (r.act i).tid < 3)
    ∧ readingTest (r.state danglingActions.length) (r.state (danglingActions.length + 1)) = true := by
  have htest : readingTest ((system 2 fun _ => 0).after (readingActions.take danglingActions.length))
      ((system 2 fun _ => 0).after (readingActions.take (danglingActions.length + 1))) = true := by
    decide +kernel
  refine Run.exists_of_check_at (C := fun s a => Promised s a ∧ a.tid < 3)
    (c := fun s a => promisedTest s a && decide (a.tid < 3)) (f := readingTest) (fun s a h => ?_)
    readingActions (.step 0) (by decide +kernel) ?_ htest
  · rw [Bool.and_eq_true] at h
    exact ⟨promised_of_test s a h.1, of_decide_eq_true h.2⟩
  · unfold readingActions
    rw [List.length_append, List.length_cons]
    omega

theorem reads_for_ever_dangling : ∃ r : Run (system 2 fun _ => 0), ∃ i < r.len,
    ∀ j ≤ r.len, i < j → (r.state j).mem.word 1 = .kcas ⟨0, 3⟩ ∧ (callAt r 1 j).Reads 1 := by
  obtain ⟨r, hn, hc', htest⟩ := readingActions_run
  generalize danglingActions.length = n at hn htest
  have hc := fun i hi => (hc' i hi).1
  unfold readingTest danglingTest at htest
  rw [Bool.and_eq_true, Bool.and_eq_true, Bool.and_eq_true] at htest
  obtain ⟨⟨⟨hcalls, hword⟩, hseq⟩, hreads⟩ := htest
  have hout : ∀ p, (callAt r p n).Outside = true := by
    intro p
    by_cases hp : p < 3
    · exact List.all_eq_true.mp hcalls p (List.mem_range.mpr hp)
    · have hidle : callAt r p n = .idle := by
        refine r.invariant (P := fun _ s => (s.thread p).call = .idle) rfl (Nat.le_of_succ_le hn)
          fun i _ hi hidle => ?_
        have hlt := (hc' i hi).2
        rw [next_other (r.step i hi) fun heq => hp (by rw [← heq]; exact hlt)]
        exact hidle
      rw [hidle]
      rfl
  have habandoned : Abandoned (r.state n) ⟨0, 3⟩ 1 := by
    refine ⟨of_decide_eq_true hword, ?_, ?_⟩
    · show ((r.state n).mem.kcas 0).seqBits.seq ≠ 3
      rw [of_decide_eq_true hseq]
      decide
    · exact (run_sound hc (Nat.le_of_succ_le hn)).uncovered hout _ _
  have hbegun : (callAt r 1 (n + 1)).Reads 1 := by
    have hcall : callAt r 1 (n + 1) = .reading 1 := of_decide_eq_true hreads
    rw [hcall]
    exact rfl
  refine ⟨r, n, hn, fun j hj hnj => ?_⟩
  obtain ⟨hword, hreading⟩ :=
    reads_for_ever hc hnj hj (run_abandoned hc (Nat.le_succ n) hn habandoned)
  exact ⟨hword, hreading 1 hbegun⟩

/-- The run that leaves a tag behind has such a step. -/
theorem givesUp_swings_dangling : ∃ r : Run (system 2 fun _ => 0),
    ∃ i < r.len, SwingsLate (r.state i) (r.act i) := by
  obtain ⟨r, hc, hout, hword, -⟩ := danglingActions_run
  have hgives : ∃ n < r.len, GivesUp (r.state n) (r.act n) := by
    by_contra hno
    push Not at hno
    have hguarded := run_guarded hc (Nat.le_refl _) hno
    exact (run_sound hc (Nat.le_refl _)).uncovered hout _ 1 (hguarded 1 _ hword)
  obtain ⟨n, hn, hgives⟩ := hgives
  obtain ⟨i, hi, hswings⟩ := givesUp_swings hc (Nat.le_of_lt hn) hgives
  exact ⟨r, i, hi.trans hn, hswings⟩

end Runs

end MultiCore.KCASLockFree
