/-
  MultiCore.KCASLockFree.Steps — what steps do to the plain words.

    * `Effect` — what a step does to the plain words, and to what the operations
      have seen of them;
    * `Quiet` — what a step of `help` leaves to the owners of the descriptors;
    * `RdcssHelp.step_keeps`, `step_ok`, `step_done` — the steps of RDCSS
      helping, which change no plain word.
-/
import MultiCore.KCASLockFree.Frames

namespace MultiCore.KCASLockFree

open MultiCore.Lib

/-! ## §1. The plain words. -/

/-- The step decides that the operation succeeds. -/
def Succeeds (m m' : Shared) (t : Tag) : Prop :=
  m.state t = some .undecided ∧ m'.state t = some .succeeded

/-- What a step does to the plain words. -/
structure Effect (m m' : Shared) : Prop where
  quiet : (∀ t, ¬ Succeeds m m' t) → m'.value = m.value
  commits : ∀ t op, Succeeds m m' t → m.ops t = some op →
    Matches m.value op.entries ∧ m'.value = commit m.value op.entries
  one : ∀ t u, Succeeds m m' t → Succeeds m m' u → t = u
  fresh : ∀ t op', m.ops t = none → m'.ops t = some op' →
    op'.state = .undecided ∧ op'.differed = false
  differed : ∀ t op op', m.ops t = some op → m'.ops t = some op' → op'.differed = true →
    op.differed = true ∨ ∃ e ∈ op.entries, m.value e.addr ≠ e.oldval

/-- What a step of `help` leaves to the owners of the descriptors. -/
structure Quiet (m m' : Shared) : Prop where
  ops : ∀ t, m.ops t = none → m'.ops t = none
  kcas_seq : ∀ q, (m'.kcas q).seqBits.seq = (m.kcas q).seqBits.seq
  kcas : ∀ q, m.ops ⟨q, (m.kcas q).seqBits.seq⟩ = none → m'.kcas q = m.kcas q

section Effects

variable {K : ℕ} {m m' m'' : Shared} {p : Tid} {t : Tag} {op : Op}

theorem not_succeeds_of_state (h : m'.state t = m.state t) : ¬ Succeeds m m' t := by
  rintro ⟨hund, hsucc⟩
  rw [h, hund] at hsucc
  exact absurd hsucc (by simp)

/-- A step that changes no operation and no plain word. -/
theorem Effect.of_ops (hops : m'.ops = m.ops) (hv : m'.value = m.value) : Effect m m' where
  quiet _ := hv
  commits u _ hs := by
    refine absurd hs (not_succeeds_of_state ?_)
    unfold Shared.state
    rw [hops]
  one u _ hs := by
    refine absurd hs (not_succeeds_of_state ?_)
    unfold Shared.state
    rw [hops]
  fresh u op' hnone hop' := by
    rw [hops, hnone] at hop'
    exact absurd hop' (by simp)
  differed u op op' hop hop' hd := by
    rw [hops, hop] at hop'
    obtain rfl := Option.some.inj hop'
    exact Or.inl hd

theorem Effect.publish (h : Inv K m) (hnone : m.ops t = none) : Effect m (m.publish t) := by
  have hstate : ∀ u, ¬ Succeeds m (m.publish t) u := by
    rintro u ⟨hund, hsucc⟩
    obtain ⟨op, hop, -⟩ := exists_of_state hund
    have hne : u ≠ t := by
      rintro rfl
      exact absurd (hop.symm.trans hnone) (by simp)
    refine not_succeeds_of_state ?_ ⟨hund, hsucc⟩
    unfold Shared.state
    rw [publish_ops, if_neg hne]
  refine
    { quiet := fun _ => publish_value h hnone
      commits := fun u _ hs => absurd hs (hstate u), one := fun u _ hs => absurd hs (hstate u)
      fresh := ?_, differed := ?_ }
  · intro u op' hu hop'
    rw [publish_ops] at hop'
    split at hop'
    · obtain rfl := Option.some.inj hop'
      exact ⟨rfl, rfl⟩
    · exact absurd (hu.symm.trans hop') (by simp)
  · intro u op op' hop hop' hd
    rw [publish_ops] at hop'
    split at hop'
    · rename_i hut
      rw [hut, hnone] at hop
      exact absurd hop (by simp)
    · obtain rfl := Option.some.inj (hop.symm.trans hop')
      exact Or.inl hd

/-- A thread that notes a difference has just read the word. -/
theorem Effect.differ (h : Inv K m) (hop : m.ops t = some op) {e : Entry Loc Word}
    (he : e ∈ op.entries) (hne : m.value e.addr ≠ e.oldval) : Effect m (m.differ t) where
  quiet _ := differ_value h
  commits u _ hs := absurd hs (not_succeeds_of_state (differ_state u))
  one u _ hs := absurd hs (not_succeeds_of_state (differ_state u))
  fresh u op' hnone hop' := by
    obtain ⟨op, hop, -⟩ := differ_ops hop'
    exact absurd (hnone.symm.trans hop) (by simp)
  differed u op₁ op' hop₁ hop' hd := by
    by_cases hut : u = t
    · rw [hut] at hop₁
      obtain rfl := Option.some.inj (hop.symm.trans hop₁)
      exact Or.inr ⟨e, he, hne⟩
    · unfold Shared.differ at hop'
      rw [setOp_ops, if_neg hut, hop₁] at hop'
      obtain rfl := Option.some.inj hop'
      exact Or.inl hd

theorem Effect.settle (h : Inv K m) (hop : m.ops t = some op) (hund : op.state = .undecided)
    {st : KState} (hst : st ≠ .undecided) (hheld : st = .succeeded → ∀ i, m.Holds t i) :
    Effect m (m.settle t st) := by
  have hother : ∀ u, u ≠ t → (m.settle t st).state u = m.state u := by
    intro u hne
    unfold Shared.state
    rw [settle_ops hop, if_neg hne]
  have hself : (m.settle t st).state t = some st := by
    unfold Shared.state
    rw [settle_ops hop, if_pos rfl]
    rfl
  have honly : ∀ u, Succeeds m (m.settle t st) u → u = t ∧ st = .succeeded := by
    intro u hs
    by_cases hut : u = t
    · rw [hut] at hs
      exact ⟨hut, Option.some.inj (hself.symm.trans hs.2)⟩
    · exact absurd hs (not_succeeds_of_state (hother u hut))
  refine { quiet := ?_, commits := ?_, one := ?_, fresh := ?_, differed := ?_ }
  · intro hno
    cases st with
    | undecided => exact absurd rfl hst
    | succeeded => exact absurd ⟨by rw [state_eq hop, hund], hself⟩ (hno t)
    | failed => exact settle_failed_value hop hund
  · intro u op₁ hs hop₁
    obtain ⟨rfl, rfl⟩ := honly u hs
    obtain rfl := Option.some.inj (hop.symm.trans hop₁)
    exact settle_succeeded_value h hop hund (hheld rfl)
  · exact fun u u' hu hu' => (honly u hu).1.trans (honly u' hu').1.symm
  · intro u op' hnone hop'
    rw [settle_ops hop] at hop'
    split at hop'
    · rename_i hut
      rw [hut] at hnone
      exact absurd (hnone.symm.trans hop) (by simp)
    · exact absurd (hnone.symm.trans hop') (by simp)
  · intro u op₁ op' hop₁ hop' hd
    rw [settle_ops hop] at hop'
    split at hop'
    · rename_i hut
      rw [hut] at hop₁
      obtain rfl := Option.some.inj (hop.symm.trans hop₁)
      obtain rfl := Option.some.inj hop'
      exact Or.inl hd
    · obtain rfl := Option.some.inj (hop₁.symm.trans hop')
      exact Or.inl hd

/-- A step that no thread has to itself. -/
theorem Quiet.of_keeps (h : ∀ p, Keeps K p m m') : Quiet m m' where
  ops t hnone := (h (t.tid + 1)).steady.ops t.tid t.seq (Nat.succ_ne_self _).symm hnone
  kcas_seq q := (h (q + 1)).steady.kcas_seq q (Nat.succ_ne_self _).symm
  kcas q hnone := (h (q + 1)).steady.kcas q (Nat.succ_ne_self _).symm hnone

theorem Quiet.of_eq (hops : m'.ops = m.ops) (hkcas : m'.kcas = m.kcas) : Quiet m m' where
  ops t hnone := by rw [hops]; exact hnone
  kcas_seq q := by rw [hkcas]
  kcas q _ := by rw [hkcas]

theorem Later.trans (h : Inv K m) (h₁ : Later m m') (h₂ : Later m' m'') : Later m m'' where
  ops t op hop := by
    obtain ⟨op₁, hop₁, hentries₁, hstate₁, hdiffered₁⟩ := h₁.ops t op hop
    obtain ⟨op₂, hop₂, hentries₂, hstate₂, hdiffered₂⟩ := h₂.ops t op₁ hop₁
    refine ⟨op₂, hop₂, hentries₂.trans hentries₁, fun hdec => ?_, fun hd => ?_⟩
    · have hs := hstate₁ hdec
      rw [← hs]
      exact hstate₂ (by rw [hs]; exact hdec)
    · exact hdiffered₂ (hdiffered₁ hd)
  holds t i hsome hh := by
    obtain ⟨op, hop⟩ := Option.ne_none_iff_exists'.mp hsome
    obtain ⟨op₁, hop₁, -⟩ := h₁.ops t op hop
    exact h₂.holds t i (by rw [hop₁]; simp) (h₁.holds t i hsome hh)
  kcas_seq p := (h₁.kcas_seq p).trans (h₂.kcas_seq p)
  rdcss_seq p := (h₁.rdcss_seq p).trans (h₂.rdcss_seq p)
  rops t r hr := by
    obtain ⟨r₁, hr₁, hdesc₁, htarget₁, hindex₁, hinst₁⟩ := h₁.rops t r hr
    obtain ⟨r₂, hr₂, hdesc₂, htarget₂, hindex₂, hinst₂⟩ := h₂.rops t r₁ hr₁
    exact ⟨r₂, hr₂, hdesc₂.trans hdesc₁, htarget₂.trans htarget₁, hindex₂.trans hindex₁,
      fun hi => hinst₂ (hinst₁ hi)⟩
  gone t r a hr hinst hne := by
    obtain ⟨r₁, hr₁, -, -, -, hinst₁⟩ := h₁.rops t r hr
    exact h₂.gone t r₁ a hr₁ (hinst₁ hinst) (h₁.gone t r a hr hinst hne)
  swung t r hr hw := by
    obtain ⟨r₁, hr₁, hdesc₁, htarget₁, hindex₁, -⟩ := h₁.rops t r hr
    obtain ⟨op, e, hop, -⟩ := h.rop_op t r hr
    obtain ⟨op₁, hop₁, -⟩ := h₁.ops r.target op hop
    rcases h₁.swung t r hr hw with hw₁ | hh
    · have hswung := h₂.swung t r₁ hr₁ (by rw [hdesc₁]; exact hw₁)
      rw [hdesc₁, htarget₁, hindex₁] at hswung
      exact hswung
    · exact Or.inr (h₂.holds _ _ (by rw [hop₁]; simp) hh)
  late t r hr hinst hw hs := by
    obtain ⟨r₁, hr₁, hdesc₁, htarget₁, -, hinst₁⟩ := h₁.rops t r hr
    have hs₁ := h₂.late t r₁ hr₁ (hinst₁ hinst) (by rw [hdesc₁]; exact hw)
      (by rw [htarget₁]; exact hs)
    rw [htarget₁] at hs₁
    refine h₁.late t r hr hinst ?_ hs₁
    by_contra hne
    exact h₂.gone t r₁ _ hr₁ (hinst₁ hinst) hne hw

theorem Steady.trans (h₁ : Steady p m m') (h₂ : Steady p m' m'') : Steady p m m'' where
  rdcss q hq := (h₂.rdcss q hq).trans (h₁.rdcss q hq)
  rops q n hq := (h₂.rops q n hq).trans (h₁.rops q n hq)
  ops q n hq hnone := h₂.ops q n hq (h₁.ops q n hq hnone)
  kcas_seq q hq := (h₂.kcas_seq q hq).trans (h₁.kcas_seq q hq)
  kcas q hq hnone := by
    have hnone₁ := h₁.ops q _ hq hnone
    rw [← h₁.kcas_seq q hq] at hnone₁
    exact (h₂.kcas q hq hnone₁).trans (h₁.kcas q hq hnone)

theorem Keeps.trans (h : Inv K m) (h₁ : Keeps K p m m') (h₂ : Keeps K p m' m'') :
    Keeps K p m m'' :=
  ⟨h₂.inv, Later.trans h h₁.later h₂.later, h₁.steady.trans h₂.steady⟩

end Effects

/-! ## §2. RDCSS helping. -/

section Rdcss

variable {K : ℕ} {m m' : Shared} {p : Tid} {h : RdcssHelp}

theorem cas_eq (a : Loc) (old new : Word) :
    ∃ word, m.cas a old new = { m with word := word } := by
  unfold Shared.cas
  split
  · exact ⟨_, rfl⟩
  · exact ⟨_, rfl⟩

/-- A step of RDCSS helping writes to shared words only. -/
theorem RdcssHelp.step_eq : ∃ word, (h.step m).1 = { m with word := word } := by
  unfold RdcssHelp.step
  split
  · split
    · exact ⟨_, rfl⟩
    · split <;> exact ⟨_, rfl⟩
  · exact ⟨_, rfl⟩
  · exact cas_eq _ _ _

/-- An operation whose descriptor reads as undecided is undecided. -/
theorem Inv.reads_undecided (hi : Inv K m) {t : Tag} {op : Op} (hop : m.ops t = some op) :
    ((m.kcas t.tid).seqBits.seq = t.seq ∧ (m.kcas t.tid).seqBits.state = .undecided)
      ↔ op.state = .undecided := by
  constructor
  · rintro ⟨hseq, hund⟩
    rw [← (hi.op_live t op hop hseq).1]
    exact hund
  · intro hund
    have hseq : (m.kcas t.tid).seqBits.seq = t.seq := by
      by_contra hne
      exact hi.op_old t op hop hne hund
    exact ⟨hseq, by rw [(hi.op_live t op hop hseq).1]; exact hund⟩

/-- **A step of RDCSS helping** keeps every plain word. -/
theorem RdcssHelp.step_keeps (hi : Inv K m) (hok : h.Ok m) :
    (∀ p, Keeps K p m (h.step m).1) ∧ (h.step m).1.value = m.value := by
  obtain ⟨r, hr, hinst, hknows⟩ := hok
  unfold RdcssHelp.Knows at hknows
  unfold RdcssHelp.step
  cases hpc : h.pc with
  | copy j =>
      dsimp only
      split
      · exact ⟨fun p => Keeps.refl hi, rfl⟩
      · split <;> exact ⟨fun p => Keeps.refl hi, rfl⟩
  | readState => exact ⟨fun p => Keeps.refl hi, rfl⟩
  | cas undecided =>
      rw [hpc] at hknows
      cases undecided with
      | true =>
          obtain ⟨hsnap, hlate⟩ := hknows
          dsimp only
          rw [hsnap]
          have hgo := fun p => cas_rdcss (p := p) true hi hr (fun _ => hlate) (by simp)
          exact ⟨fun p => (hgo p).1, (hgo 0).2⟩
      | false =>
          obtain ⟨hsnap, hdec⟩ := hknows
          dsimp only
          rw [hsnap]
          have hback := fun p => cas_rdcss (p := p) false hi hr (by simp) fun _ => hdec
          exact ⟨fun p => (hback p).1, (hback 0).2⟩

/-- The next step of the call, if there is one, knows what it needs. -/
theorem RdcssHelp.step_ok (hi : Inv K m) (hok : h.Ok m) {h' : RdcssHelp}
    (hnext : (h.step m).2 = some h') :
    (h.step m).1 = m ∧ h'.Ok m ∧ h'.tag = h.tag ∧ ((∀ j, h.pc ≠ .copy j) → ∀ j, h'.pc ≠ .copy j) := by
  obtain ⟨r, hr, hinst, hknows⟩ := hok
  unfold RdcssHelp.Knows at hknows
  unfold RdcssHelp.step at hnext ⊢
  cases hpc : h.pc with
  | copy j =>
      rw [hpc] at hknows hnext
      dsimp only at hnext ⊢
      split at hnext
      · rename_i hj
        obtain rfl := Option.some.inj hnext
        rw [if_pos hj]
        refine ⟨rfl, ⟨r, hr, hinst, fun hseq i hlt => ?_⟩, rfl, fun hno => absurd rfl (hno j)⟩
        have hcopy := hknows hseq
        rw [hi.rop_live h.tag r hr hseq]
        show r.desc.copyWord (r.desc.copyWord h.snap j) i = r.desc.copyWord h.snap j
        rcases Nat.lt_succ_iff_lt_or_eq.mp hlt with hlt | rfl
        · rw [RdcssDesc.copyWord_comm, hcopy i hlt]
        · exact RdcssDesc.copyWord_self _ _ _
      · rename_i hj
        rw [if_neg hj]
        split at hnext
        · rename_i hseq
          obtain rfl := Option.some.inj hnext
          rw [if_pos hseq]
          refine ⟨rfl, ⟨r, hr, hinst, RdcssDesc.copied fun i hlt => ?_⟩, rfl,
            fun hno => absurd rfl (hno j)⟩
          exact hknows hseq i (by omega)
        · exact absurd hnext (by simp)
  | readState =>
      rw [hpc] at hknows hnext
      dsimp only at hnext ⊢
      obtain rfl := Option.some.inj hnext
      obtain ⟨op, e, hop, -, hdesc⟩ := hi.rop_op h.tag r hr
      have haddr : h.snap.addr1 = r.target.tid := by rw [hknows, hdesc]
      have hold : h.snap.old1.seq = r.target.seq := by rw [hknows, hdesc]; rfl
      have hreads := hi.reads_undecided hop
      refine ⟨rfl, ⟨r, hr, hinst, ?_⟩, rfl, fun _ j => by simp⟩
      unfold RdcssHelp.Knows
      dsimp only
      rw [haddr, hold]
      by_cases hund : op.state = .undecided
      · rw [decide_eq_true (hreads.mpr hund)]
        refine ⟨hknows, fun _ hs => ?_⟩
        rw [state_eq hop, hund] at hs
        exact absurd hs (by simp)
      · rw [decide_eq_false (fun hr => hund (hreads.mp hr))]
        refine ⟨hknows, fun hs => hund ?_⟩
        rw [state_eq hop] at hs
        exact Option.some.inj hs
  | cas undecided =>
      rw [hpc] at hnext
      exact absurd hnext (by simp)

/-- An RDCSS that has been finished leaves no tag behind. -/
theorem RdcssHelp.step_done (hi : Inv K m) (hok : h.Ok m) (hpc : ∀ j, h.pc ≠ .copy j)
    (hnext : (h.step m).2 = none) {r : ROp} (hr : m.rops h.tag = some r) :
    (h.step m).1.word r.desc.addr2 ≠ .rdcss h.tag := by
  obtain ⟨r', hr', -, hknows⟩ := hok
  obtain rfl := Option.some.inj (hr.symm.trans hr')
  obtain ⟨op, e, hop, he, hdesc⟩ := hi.rop_op h.tag r hr
  obtain ⟨⟨v, hv⟩, -⟩ := (hi.op_wf r.target op hop).plain e (List.mem_of_getElem? he)
  unfold RdcssHelp.Knows at hknows
  unfold RdcssHelp.step at hnext ⊢
  cases hcase : h.pc with
  | copy j => exact absurd hcase (hpc j)
  | readState =>
      rw [hcase] at hnext
      exact absurd hnext (by simp)
  | cas undecided =>
      rw [hcase] at hknows
      dsimp only
      have hsnap : h.snap = r.desc := by
        cases undecided with
        | true => exact hknows.1
        | false => exact hknows.1
      rw [hsnap]
      by_cases hw : m.word r.desc.addr2 = .rdcss h.tag
      · rw [(cas_written hw).word, if_pos rfl, hdesc]
        split
        · simp
        · rw [hv]
          simp
      · rw [cas_of_ne hw]
        exact hw

end Rdcss

end MultiCore.KCASLockFree
