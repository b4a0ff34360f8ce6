/-
  MultiCore.KCASLockFree.Frames — what a thread knows.

    * `RdcssHelp.Ok` — of the RDCSS that a call of `rdcssHelp` finishes;
    * `Help.Ok` — of the operation that a call of `help` works on;
    * `ThreadOk` — a whole thread: its descriptor and its open calls.

  The steps of other threads keep all of this (`ThreadOk.stable`): a copy that
  is out of date is thrown away, a word that the operation holds stays held
  while the operation is undecided, and a decision is final.
-/
import MultiCore.KCASLockFree.Writes

namespace MultiCore.KCASLockFree

open MultiCore.Lib

/-! ## §1. RDCSS helping. -/

/-- What a call of `rdcssHelpOther` or `rdcssHelp` knows of its RDCSS `r`. -/
def RdcssHelp.Knows (m : Shared) (h : RdcssHelp) (r : ROp) : Prop :=
  match h.pc with
  | .copy j => (m.rdcss h.tag.tid).seq = h.tag.seq → ∀ i < j, r.desc.copyWord h.snap i = h.snap
  | .readState => h.snap = r.desc
  | .cas true => h.snap = r.desc
      ∧ (m.word r.desc.addr2 = .rdcss h.tag → m.state r.target ≠ some .succeeded)
  | .cas false => h.snap = r.desc ∧ m.state r.target ≠ some .undecided

def RdcssHelp.Ok (m : Shared) (h : RdcssHelp) : Prop :=
  ∃ r, m.rops h.tag = some r ∧ r.installed = true ∧ h.Knows m r

theorem RdcssDesc.copyWord_comm (d snap : RdcssDesc) (i j : ℕ) :
    d.copyWord (d.copyWord snap i) j = d.copyWord (d.copyWord snap j) i := by
  rcases i with _ | _ | _ | _ | _ | i <;> rcases j with _ | _ | _ | _ | _ | j <;> rfl

theorem RdcssDesc.copyWord_self (d snap : RdcssDesc) (i : ℕ) :
    d.copyWord (d.copyWord snap i) i = d.copyWord snap i := by
  rcases i with _ | _ | _ | _ | _ | i <;> rfl

/-- A copy with all words is the descriptor. -/
theorem RdcssDesc.copied {d snap : RdcssDesc} (h : ∀ i < rdcssSize, d.copyWord snap i = snap) :
    snap = d := by
  have h₀ := congrArg RdcssDesc.seq (h 0 (by decide))
  have h₁ := congrArg RdcssDesc.addr1 (h 1 (by decide))
  have h₂ := congrArg RdcssDesc.old1 (h 2 (by decide))
  have h₃ := congrArg RdcssDesc.addr2 (h 3 (by decide))
  have h₄ := congrArg RdcssDesc.old2 (h 4 (by decide))
  have h₅ := congrArg RdcssDesc.new2 (h 5 (by decide))
  cases d
  cases snap
  simp_all [RdcssDesc.copyWord]

section Rdcss

variable {K : ℕ} {m m' : Shared} {h : RdcssHelp}

/-- What is known of an RDCSS stays true. -/
theorem RdcssHelp.Ok.later (hi : Inv K m) (hl : Later m m') (hok : h.Ok m) : h.Ok m' := by
  obtain ⟨r, hr, hinst, hknows⟩ := hok
  obtain ⟨r', hr', hdesc, htarget, -, hinst'⟩ := hl.rops h.tag r hr
  obtain ⟨op, e, hop, -⟩ := hi.rop_op h.tag r hr
  have hsome : m.ops r.target ≠ none := by
    rw [hop]
    simp
  refine ⟨r', hr', hinst' hinst, ?_⟩
  unfold RdcssHelp.Knows at hknows ⊢
  rw [hdesc, htarget]
  cases hpc : h.pc with
  | copy j =>
      rw [hpc] at hknows
      intro hseq
      have hle := hl.rdcss_seq h.tag.tid
      have hge := hi.rop_seq h.tag r hr
      exact hknows (by omega)
  | readState =>
      rw [hpc] at hknows
      exact hknows
  | cas undecided =>
      rw [hpc] at hknows
      cases undecided with
      | true =>
          refine ⟨hknows.1, fun hw hs => ?_⟩
          have hwas : m.word r.desc.addr2 = .rdcss h.tag := by
            by_contra hne
            exact hl.gone h.tag r _ hr hinst hne hw
          exact hknows.2 hwas (hl.late h.tag r hr hinst hw hs)
      | false => exact ⟨hknows.1, hl.decided hsome hknows.2⟩

/-- The tag of an RDCSS that is seen in a word has been installed. -/
theorem RdcssHelp.Ok.call (hi : Inv K m) {a : Loc} {t : Tag} (hw : m.word a = .rdcss t) :
    (rdcssHelpOther t).Ok m := by
  obtain ⟨r, hr, hinst, -⟩ := hi.tag_rop a t hw
  exact ⟨r, hr, hinst, fun _ i hlt => absurd hlt (Nat.not_lt_zero i)⟩

end Rdcss

/-! ## §2. k-CAS helping. -/

/-- The word `w` of an entry has been copied. -/
def EntryWord (e e' : Entry Loc Word) : ℕ → Prop
  | 0 => e.addr = e'.addr
  | 1 => e.oldval = e'.oldval
  | _ => e.newval = e'.newval

/-- The first `j` words of the copy are those of the operation. -/
structure Help.Copied (f : Help) (op : Op) (j : ℕ) : Prop where
  seq : 0 < j → f.snap.seqBits.seq = f.tag.seq
  length : 1 < j → f.snap.numEntries = op.entries.length
  entries : ∀ i e, i + 2 < j → op.entries[i / 3]? = some e →
    EntryWord (f.snap.entries (i / 3)) e (i % 3)

/-- The copy is complete. -/
structure Help.Snap (f : Help) (op : Op) : Prop where
  seq : f.snap.seqBits.seq = f.tag.seq
  list : f.snap.list = op.entries

namespace Shared

variable (m : Shared)

/-- The first `i` words of the operation are held. -/
def Held (t : Tag) (i : ℕ) : Prop := ∀ k < i, m.Holds t k

/-- Thread `p` has done `j` assignments to its RDCSS descriptor. -/
def Filling (p : Tid) (t : Tag) (op : Op) (i j : ℕ) : Prop :=
  m.rops ⟨p, (m.rdcss p).seq⟩ = none
    ∧ ∃ e, op.entries[i]? = some e ∧ ∀ k < j, (m.rdcss p).fill t e k = m.rdcss p

/-- The RDCSS of thread `p` is published, and its tag not yet installed. -/
def Filled (p : Tid) (t : Tag) (i : ℕ) : Prop :=
  m.rops ⟨p, (m.rdcss p).seq⟩ = some ⟨m.rdcss p, t, i, false⟩

/-- A thread finishes its own RDCSS: its tag waits in the word, or the RDCSS is
done. -/
def Finishing (t : Tag) (i : ℕ) (h : RdcssHelp) : Prop :=
  (∀ j, h.pc ≠ .copy j) ∧ ∃ r, m.rops h.tag = some r ∧ r.target = t ∧ r.index = i
    ∧ (m.word r.desc.addr2 = .rdcss h.tag ∨ m.Holds t i)

/-- The state that a call of `help` wants to write is the right one. -/
structure Verdict (t : Tag) (op : Op) (newstate : KState) : Prop where
  decided : newstate ≠ .undecided
  succeeded : newstate = .succeeded → ∀ i, m.Holds t i
  failed : newstate = .failed → op.differed = true

end Shared

/-- What a call of `help` by thread `p` knows of the operation `op`. -/
def Help.Knows (m : Shared) (p : Tid) (f : Help) (op : Op) : Prop :=
  match f.pc with
  | .copy j => f.helpingOther = true
      ∧ ((m.kcas f.tag.tid).seqBits.seq = f.tag.seq → f.Copied op j)
  | .readState => f.Snap op
  | .entry i => f.Snap op ∧ m.Held f.tag i
  | .fill i j => f.Snap op ∧ m.Held f.tag i ∧ m.Filling p f.tag op i j
  | .initialized i => f.Snap op ∧ m.Held f.tag i ∧ m.Filling p f.tag op i 5
  | .rdcss i => f.Snap op ∧ m.Held f.tag i ∧ m.Filled p f.tag i
  | .rdcssOther i h => f.Snap op ∧ m.Held f.tag i ∧ m.Filled p f.tag i ∧ h.Ok m
  | .rdcssOwn i h => f.Snap op ∧ m.Held f.tag i ∧ m.Finishing f.tag i h ∧ h.Ok m
  | .stateRead newstate => f.Snap op ∧ m.Verdict f.tag op newstate
  | .stateCas newstate v => f.Snap op ∧ m.Verdict f.tag op newstate ∧ v.seq = f.tag.seq
  | .stateReread newstate => f.Snap op ∧ m.Verdict f.tag op newstate
  | .finalRead => f.Snap op ∧ op.state ≠ .undecided
  | .unlock _ succeeded => f.Snap op ∧ op.state ≠ .undecided
      ∧ (succeeded = true ↔ op.state = .succeeded)

def Help.Ok (m : Shared) (p : Tid) (f : Help) : Prop :=
  ∃ op, m.ops f.tag = some op ∧ (f.helpingOther = true → m.Holds f.tag 0) ∧ f.Knows m p op

section Helping

variable {K : ℕ} {m m' : Shared} {p : Tid} {t : Tag} {op op' : Op} {f : Help}

theorem Held.later (hl : Later m m') (hop : m.ops t = some op) {i : ℕ} (h : m.Held t i) :
    m'.Held t i :=
  fun k hk => hl.holds t k (by rw [hop]; simp) (h k hk)

theorem Snap.congr (hentries : op'.entries = op.entries) (h : f.Snap op) : f.Snap op' :=
  ⟨h.seq, h.list.trans hentries.symm⟩

theorem Filling.congr (hentries : op'.entries = op.entries)
    (hrdcss : m'.rdcss p = m.rdcss p) (hrops : ∀ n, m'.rops ⟨p, n⟩ = m.rops ⟨p, n⟩) {i j : ℕ}
    (h : m.Filling p t op i j) : m'.Filling p t op' i j := by
  unfold Shared.Filling at h ⊢
  rw [hrdcss, hrops, hentries]
  exact h

theorem Filled.congr (hrdcss : m'.rdcss p = m.rdcss p)
    (hrops : ∀ n, m'.rops ⟨p, n⟩ = m.rops ⟨p, n⟩) {i : ℕ} (h : m.Filled p t i) :
    m'.Filled p t i := by
  unfold Shared.Filled at h ⊢
  rw [hrdcss, hrops]
  exact h

theorem Finishing.later (hl : Later m m') (hop : m.ops t = some op) {i : ℕ} {h : RdcssHelp}
    (hf : m.Finishing t i h) : m'.Finishing t i h := by
  obtain ⟨hpc, r, hr, htarget, hindex, hdone⟩ := hf
  obtain ⟨r', hr', hdesc, htarget', hindex', -⟩ := hl.rops h.tag r hr
  refine ⟨hpc, r', hr', htarget'.trans htarget, hindex'.trans hindex, ?_⟩
  rw [hdesc]
  rcases hdone with hw | hh
  · have hswung := hl.swung h.tag r hr hw
    rw [htarget, hindex] at hswung
    exact hswung
  · exact Or.inr (hl.holds t i (by rw [hop]; simp) hh)

theorem Verdict.later (hl : Later m m') (hop : m.ops t = some op)
    (hdiffered : op.differed = true → op'.differed = true) {newstate : KState}
    (h : m.Verdict t op newstate) : m'.Verdict t op' newstate where
  decided := h.decided
  succeeded heq i := hl.holds t i (by rw [hop]; simp) (h.succeeded heq i)
  failed heq := hdiffered (h.failed heq)

/-- What is known of an operation stays true, as long as the RDCSS descriptor of
the thread stays as it is. -/
theorem Help.Ok.later (hi : Inv K m) (hl : Later m m') (hrdcss : m'.rdcss p = m.rdcss p)
    (hrops : ∀ n, m'.rops ⟨p, n⟩ = m.rops ⟨p, n⟩) (hok : f.Ok m p) : f.Ok m' p := by
  obtain ⟨op, hop, hfirst, hknows⟩ := hok
  obtain ⟨op', hop', hentries, hstate, hdiffered⟩ := hl.ops f.tag op hop
  refine ⟨op', hop', fun ho => hl.holds f.tag 0 (by rw [hop]; simp) (hfirst ho), ?_⟩
  unfold Help.Knows at hknows ⊢
  cases hpc : f.pc with
  | copy j =>
      rw [hpc] at hknows
      refine ⟨hknows.1, fun hseq => ?_⟩
      have hle := hl.kcas_seq f.tag.tid
      have hge := hi.op_seq f.tag op hop
      obtain ⟨hs, hlength, hent⟩ := hknows.2 (by omega)
      exact ⟨hs, by rw [hentries]; exact hlength, by rw [hentries]; exact hent⟩
  | readState =>
      rw [hpc] at hknows
      exact Snap.congr hentries hknows
  | entry i =>
      rw [hpc] at hknows
      exact ⟨Snap.congr hentries hknows.1, Held.later hl hop hknows.2⟩
  | fill i j =>
      rw [hpc] at hknows
      obtain ⟨hsnap, hheld, hfill⟩ := hknows
      exact ⟨Snap.congr hentries hsnap, Held.later hl hop hheld,
        Filling.congr hentries hrdcss hrops hfill⟩
  | initialized i =>
      rw [hpc] at hknows
      obtain ⟨hsnap, hheld, hfill⟩ := hknows
      exact ⟨Snap.congr hentries hsnap, Held.later hl hop hheld,
        Filling.congr hentries hrdcss hrops hfill⟩
  | rdcss i =>
      rw [hpc] at hknows
      obtain ⟨hsnap, hheld, hfilled⟩ := hknows
      exact ⟨Snap.congr hentries hsnap, Held.later hl hop hheld, Filled.congr hrdcss hrops hfilled⟩
  | rdcssOther i h =>
      rw [hpc] at hknows
      obtain ⟨hsnap, hheld, hfilled, hh⟩ := hknows
      exact ⟨Snap.congr hentries hsnap, Held.later hl hop hheld, Filled.congr hrdcss hrops hfilled,
        hh.later hi hl⟩
  | rdcssOwn i h =>
      rw [hpc] at hknows
      obtain ⟨hsnap, hheld, hfin, hh⟩ := hknows
      exact ⟨Snap.congr hentries hsnap, Held.later hl hop hheld, Finishing.later hl hop hfin,
        hh.later hi hl⟩
  | stateRead newstate =>
      rw [hpc] at hknows
      exact ⟨Snap.congr hentries hknows.1, Verdict.later hl hop hdiffered hknows.2⟩
  | stateCas newstate v =>
      rw [hpc] at hknows
      obtain ⟨hsnap, hverdict, hv⟩ := hknows
      exact ⟨Snap.congr hentries hsnap, Verdict.later hl hop hdiffered hverdict, hv⟩
  | stateReread newstate =>
      rw [hpc] at hknows
      exact ⟨Snap.congr hentries hknows.1, Verdict.later hl hop hdiffered hknows.2⟩
  | finalRead =>
      rw [hpc] at hknows
      refine ⟨Snap.congr hentries hknows.1, ?_⟩
      rw [hstate hknows.2]
      exact hknows.2
  | unlock i succeeded =>
      rw [hpc] at hknows
      obtain ⟨hsnap, hdec, hsucc⟩ := hknows
      refine ⟨Snap.congr hentries hsnap, ?_, ?_⟩
      · rw [hstate hdec]
        exact hdec
      · rw [hstate hdec]
        exact hsucc

/-- A call that waits for another one knows nothing of its RDCSS descriptor. -/
theorem Help.Ok.waiting (hl : Later m m') {i : ℕ} (hpc : f.pc = .entry i) (hok : f.Ok m p) :
    f.Ok m' p := by
  obtain ⟨op, hop, hfirst, hknows⟩ := hok
  obtain ⟨op', hop', hentries, -⟩ := hl.ops f.tag op hop
  refine ⟨op', hop', fun ho => hl.holds f.tag 0 (by rw [hop]; simp) (hfirst ho), ?_⟩
  unfold Help.Knows at hknows ⊢
  rw [hpc] at hknows ⊢
  exact ⟨Snap.congr hentries hknows.1, Held.later hl hop hknows.2⟩

/-- The tag of an operation that is seen in a word: the owner has locked its
first word. -/
theorem Help.Ok.call (hi : Inv K m) {a : Loc} (hw : m.word a = .kcas t) :
    (helpOther t).Ok m p := by
  obtain ⟨op, hop, -⟩ := hi.tag_op a t hw
  refine ⟨op, hop, fun _ => hi.tag_first a t hw, rfl, fun _ => ⟨?_, ?_, ?_⟩⟩
  · exact fun hlt => absurd hlt (Nat.not_lt_zero 0)
  · exact fun hlt => absurd hlt (Nat.not_lt_zero 1)
  · exact fun i _ hlt => absurd hlt (Nat.not_lt_zero (i + 2))

end Helping

/-! ## §3. Threads. -/

/-- The calls in which a thread builds its descriptor. -/
def Call.Preparing : Call → Bool
  | starting | adding .. | initRead | initWrite _ => true
  | _ => false

/-- `execute` has been called and its operation is not published. -/
def Call.Initializing : Call → Bool
  | initRead | initWrite _ => true
  | _ => false

/-- The open calls of `help`: each waits for the one before it, and the last one
is that of `execute`, if the thread is there. -/
def Stack (m : Shared) (p : Tid) (call : Call) : List Help → Prop
  | [] => call ≠ .executing
  | [f] =>
      (call = .executing ∧ f.helpingOther = false ∧ f.tag = ⟨p, (m.kcas p).seqBits.seq⟩)
        ∨ ((∃ a, call = .reading a) ∧ f.helpingOther = true)
  | f :: f' :: fs => f.helpingOther = true ∧ (∃ i, f'.pc = .entry i) ∧ Stack m p call (f' :: fs)

/-- The state of thread `p`. -/
structure ThreadOk (m : Shared) (p : Tid) (th : Thread) : Prop where
  frames : ∀ f ∈ th.frames, f.Ok m p
  stack : Stack m p th.call th.frames
  /-- A descriptor under preparation is not published. -/
  fresh : th.ready = true ∨ th.call.Preparing = true →
    m.ops ⟨p, (m.kcas p).seqBits.seq⟩ = none ∧ (m.kcas p).seqBits.state = .undecided
  /-- The operation of the last `execute` is decided. -/
  decided : th.call ≠ .executing → m.state ⟨p, (m.kcas p).seqBits.seq⟩ ≠ some .undecided
  unready : th.call.Initializing = true → th.ready = false
  wf : th.call.Initializing = true → WellFormed (m.kcas p).list
  initWrite : ∀ v, th.call = .initWrite v → v = (m.kcas p).seqBits
  reading : ∀ a h, th.call = .readingOther a h → h.Ok m

section Threads

variable {K : ℕ} {m m' : Shared} {p q : Tid} {th : Thread}

theorem Stack.congr (hseq : (m'.kcas p).seqBits.seq = (m.kcas p).seqBits.seq) {call : Call} :
    ∀ {fs : List Help}, Stack m p call fs → Stack m' p call fs
  | [], h => h
  | [f], h => by
      unfold Stack at h ⊢
      rw [hseq]
      exact h
  | f :: f' :: fs, h => ⟨h.1, h.2.1, Stack.congr hseq h.2.2⟩

/-- **What a thread knows stays true while another thread takes steps.** -/
theorem ThreadOk.stable (hi : Inv K m) (hl : Later m m') (hs : Steady q m m') (hpq : p ≠ q)
    (h : ThreadOk m p th) : ThreadOk m' p th where
  frames f hf := (h.frames f hf).later hi hl (hs.rdcss p hpq) (fun n => hs.rops p n hpq)
  stack := Stack.congr (hs.kcas_seq p hpq) h.stack
  fresh hr := by
    obtain ⟨hnone, hund⟩ := h.fresh hr
    rw [hs.kcas p hpq hnone]
    exact ⟨hs.ops p _ hpq hnone, hund⟩
  decided hc := by
    have hdec := h.decided hc
    rw [hs.kcas_seq p hpq]
    cases hop : m.ops ⟨p, (m.kcas p).seqBits.seq⟩ with
    | none =>
        unfold Shared.state
        rw [hs.ops p _ hpq hop]
        simp
    | some op => exact hl.decided (by rw [hop]; simp) hdec
  unready := h.unready
  wf hc := by
    have hprep : th.call.Preparing = true := by
      cases hcall : th.call <;> simp_all [Call.Initializing, Call.Preparing]
    rw [hs.kcas p hpq (h.fresh (Or.inr hprep)).1]
    exact h.wf hc
  initWrite v hc := by
    have hprep : th.call.Preparing = true := by
      rw [hc]
      rfl
    rw [hs.kcas p hpq (h.fresh (Or.inr hprep)).1]
    exact h.initWrite v hc
  reading a hh hc := (h.reading a hh hc).later hi hl

end Threads

end MultiCore.KCASLockFree
