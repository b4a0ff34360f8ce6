/-
  MultiCore.KCASLockFree.Helping — the steps of `help`.

  `Help.Correct` says what a step does, and what the call knows behind it: one
  lemma for each place in the code, and `Help.step_correct` for all of them.
-/
import MultiCore.KCASLockFree.Steps

namespace MultiCore.KCASLockFree

open MultiCore.Lib

/-! ## §1. What a step must do. -/

/-- What a step of `help` leaves to the calls of its thread. -/
def Help.After (m : Shared) (p : Tid) (f : Help) : Outcome → Prop
  | .stay f' => f'.Ok m p ∧ f'.tag = f.tag ∧ f'.helpingOther = f.helpingOther
  | .call f' t => f'.Ok m p ∧ f'.tag = f.tag ∧ f'.helpingOther = f.helpingOther
      ∧ (∃ i, f'.pc = .entry i) ∧ (helpOther t).Ok m p
  -- the owner of an operation returns its state
  | .ret result => (m.kcas f.tag.tid).seqBits.seq = f.tag.seq →
      ∃ op, m.ops f.tag = some op ∧ op.state ≠ .undecided
        ∧ (result = true ↔ op.state = .succeeded)

structure Help.Correct (K : ℕ) (p : Tid) (m : Shared) (f : Help) (m' : Shared) (o : Outcome) :
    Prop where
  keeps : Keeps K p m m'
  effect : Effect m m'
  quiet : Quiet m m'
  after : f.After m' p o

section Local

variable {K : ℕ} {p : Tid} {m : Shared} {f : Help}

/-- A step that only reads. -/
theorem Help.Correct.of_read (hi : Inv K m) {o : Outcome} (h : f.After m p o) :
    f.Correct K p m m o :=
  ⟨Keeps.refl hi, Effect.of_ops rfl rfl, Quiet.of_eq rfl rfl, h⟩

theorem Help.Snap.goto {op : Op} {pc : HelpPc} (h : f.Snap op) :
    ({ f with pc := pc } : Help).Snap op :=
  ⟨h.seq, h.list⟩

/-- A step that goes on at another place with the same snapshot. -/
theorem Help.After.goto {pc : HelpPc} (h : ({ f with pc := pc } : Help).Ok m p) :
    f.After m p (.stay { f with pc := pc }) :=
  ⟨h, rfl, rfl⟩

end Local

/-! ## §2. Copying. -/

section Copying

variable {K : ℕ} {p : Tid} {m m' : Shared} {f : Help} {o : Outcome}

theorem entryWord_copy_self (e dst : Entry Loc Word) (w : ℕ) :
    EntryWord (copyEntry e dst w) e w := by
  rcases w with _ | _ | w <;> rfl

theorem entryWord_copy {e dst : Entry Loc Word} {w : ℕ} (w' : ℕ) (h : EntryWord dst e w) :
    EntryWord (copyEntry e dst w') e w := by
  rcases w with _ | _ | w <;> rcases w' with _ | _ | w' <;> first | rfl | exact h

/-- An entry is its three words. -/
theorem entry_ext {e e' : Entry Loc Word} (h : ∀ w < 3, EntryWord e e' w) : e = e' := by
  have haddr : e.addr = e'.addr := h 0 (by omega)
  have hold : e.oldval = e'.oldval := h 1 (by omega)
  have hnew : e.newval = e'.newval := h 2 (by omega)
  cases e
  cases e'
  rw [Entry.mk.injEq]
  exact ⟨haddr, hold, hnew⟩

/-- The next word of the copy. -/
theorem Help.Copied.next {op : Op} {j : ℕ} {src : KcasDesc} (hseq : src.seqBits.seq = f.tag.seq)
    (hlist : src.list = op.entries) (h : f.Copied op j) {pc : HelpPc} :
    ({ f with snap := src.copyWord f.snap j, pc := pc } : Help).Copied op (j + 1) := by
  rcases j with _ | _ | j
  · refine ⟨fun _ => hseq, fun hlt => ?_, fun i e hlt => ?_⟩
    · omega
    · omega
  · refine ⟨fun _ => h.seq (by omega), fun _ => ?_, fun i e hlt => ?_⟩
    · show src.numEntries = _
      rw [← hlist, list_length]
    · omega
  · refine ⟨fun _ => h.seq (by omega), fun _ => h.length (by omega), fun i e hlt he => ?_⟩
    show EntryWord (Function.update f.snap.entries (j / 3) _ (i / 3)) e (i % 3)
    rw [Function.update_apply]
    split
    · rename_i hij
      have hsrc : src.entries (j / 3) = e := by
        rw [← hlist, list_getElem?, hij] at he
        split at he
        · exact Option.some.inj he
        · exact absurd he (by simp)
      rw [hsrc]
      by_cases hi : i = j
      · rw [hi]
        exact entryWord_copy_self e _ _
      · -- another word of the same entry
        have hold := h.entries i e (by omega) he
        rw [hij] at hold
        exact entryWord_copy _ hold
    · rename_i hij
      have hi : i ≠ j := fun heq => hij (by rw [heq])
      exact h.entries i e (by omega) he

/-- A complete copy is the operation. -/
theorem Help.Copied.snap {op : Op} {j : ℕ} (hK : op.entries.length ≤ K) (hj : kcasSize K ≤ j)
    (h : f.Copied op j) : f.Snap op := by
  unfold kcasSize at hj
  have hlength := h.length (by omega)
  refine ⟨h.seq (by omega), List.ext_getElem? fun i => ?_⟩
  rw [list_getElem?, hlength]
  split
  · rename_i hi
    rw [List.getElem?_eq_getElem hi, Option.some.injEq]
    have hword : ∀ w < 3, EntryWord (f.snap.entries i) (op.entries[i]) w := by
      intro w hw
      have hdiv : (3 * i + w) / 3 = i := by omega
      have hmod : (3 * i + w) % 3 = w := by omega
      have hentry := h.entries (3 * i + w) op.entries[i] (by omega)
        (by rw [hdiv]; exact List.getElem?_eq_getElem hi)
      rw [hdiv, hmod] at hentry
      exact hentry
    exact entry_ext hword
  · rename_i hi
    rw [List.getElem?_eq_none (by omega)]

theorem Help.step_copy (hi : Inv K m) {j : ℕ} (hpc : f.pc = .copy j) (hok : f.Ok m p)
    (hstep : f.step K p m = some (m', o)) : f.Correct K p m m' o := by
  obtain ⟨op, hop, hfirst, hknows⟩ := hok
  unfold Help.Knows at hknows
  rw [hpc] at hknows
  obtain ⟨hother, hcopied⟩ := hknows
  unfold Help.step at hstep
  rw [hpc] at hstep
  dsimp only at hstep
  split at hstep
  · obtain ⟨rfl, rfl⟩ := Prod.mk.inj (Option.some.inj hstep)
    refine Help.Correct.of_read hi ⟨⟨op, hop, hfirst, hother, fun hseq => ?_⟩, rfl, rfl⟩
    have hlive : (m.kcas f.tag.tid).seqBits.seq = f.tag.seq := hseq
    exact Help.Copied.next (f := f) hlive (hi.op_live f.tag op hop hlive).2 (hcopied hlive)
  · rename_i hj
    split at hstep
    · rename_i hseq
      obtain ⟨rfl, rfl⟩ := Prod.mk.inj (Option.some.inj hstep)
      have hsnap := (hcopied hseq).snap (hi.op_length f.tag op hop) (by omega)
      exact Help.Correct.of_read hi (Help.After.goto ⟨op, hop, hfirst, hsnap.goto⟩)
    · rename_i hseq
      obtain ⟨rfl, rfl⟩ := Prod.mk.inj (Option.some.inj hstep)
      exact Help.Correct.of_read hi fun hlive => absurd hlive hseq

end Copying

/-! ## §3. Before the loop. -/

section Entering

variable {K : ℕ} {p : Tid} {m m' : Shared} {f : Help} {o : Outcome}

/-- An operation that its descriptor does not show as undecided is decided. -/
theorem Inv.decided_of_read (hi : Inv K m) {t : Tag} {op : Op} (hop : m.ops t = some op)
    (h : (m.kcas t.tid).seqBits.seq = t.seq → (m.kcas t.tid).seqBits.state ≠ .undecided) :
    op.state ≠ .undecided := by
  intro hund
  have hreads := (hi.reads_undecided hop).mpr hund
  exact h hreads.1 hreads.2

theorem Help.step_readState (hi : Inv K m) (hpc : f.pc = .readState) (hok : f.Ok m p)
    (hstep : f.step K p m = some (m', o)) : f.Correct K p m m' o := by
  obtain ⟨op, hop, hfirst, hknows⟩ := hok
  unfold Help.Knows at hknows
  rw [hpc] at hknows
  unfold Help.step at hstep
  rw [hpc] at hstep
  dsimp only at hstep
  split at hstep
  · split at hstep
    · obtain ⟨rfl, rfl⟩ := Prod.mk.inj (Option.some.inj hstep)
      refine Help.Correct.of_read hi (Help.After.goto ⟨op, hop, hfirst, Help.Snap.goto hknows, ?_⟩)
      -- a helper starts behind the first entry
      intro k hk
      cases ho : f.helpingOther with
      | true =>
          have hk0 : k = 0 := by
            rw [ho] at hk
            exact Nat.lt_one_iff.mp hk
          rw [hk0]
          exact hfirst ho
      | false =>
          rw [ho] at hk
          exact absurd hk (Nat.not_lt_zero k)
    · rename_i hseq hstate
      obtain ⟨rfl, rfl⟩ := Prod.mk.inj (Option.some.inj hstep)
      have hdec := hi.decided_of_read hop fun _ => hstate
      exact Help.Correct.of_read hi (Help.After.goto ⟨op, hop, hfirst, Help.Snap.goto hknows, hdec⟩)
  · rename_i hseq
    split at hstep
    · obtain ⟨rfl, rfl⟩ := Prod.mk.inj (Option.some.inj hstep)
      exact Help.Correct.of_read hi fun hlive => absurd hlive hseq
    · exact absurd hstep (by simp)

end Entering

/-! ## §4. The RDCSS descriptor. -/

section Filling

variable {K : ℕ} {p : Tid} {m m' : Shared} {f : Help} {o : Outcome}

theorem Help.Snap.entry {op : Op} (h : f.Snap op) {i : ℕ} (hi : i < f.snap.numEntries) :
    op.entries[i]? = some (f.snap.entries i) := by
  rw [← h.list, list_getElem?, if_pos hi]

theorem Help.Snap.none {op : Op} (h : f.Snap op) {i : ℕ} (hi : ¬ i < f.snap.numEntries) :
    op.entries[i]? = .none := by
  rw [← h.list, list_getElem?, if_neg hi]

/-- All words of the operation are held. -/
theorem Held.all {op : Op} (hop : m.ops f.tag = some op) (hsnap : f.Snap op) {i : ℕ}
    (hi : ¬ i < f.snap.numEntries) (h : m.Held f.tag i) (k : ℕ) : m.Holds f.tag k := by
  by_cases hk : k < i
  · exact h k hk
  · intro op' e hop' _ he
    obtain rfl := Option.some.inj (hop.symm.trans hop')
    rw [hsnap.none (by omega)] at he
    exact absurd he (by simp)

/-- A descriptor with a new sequence number is not published. -/
theorem Inv.rops_next (hi : Inv K m) (p : Tid) {n : ℕ} (hn : (m.rdcss p).seq < n) :
    m.rops ⟨p, n⟩ = none := by
  cases hr : m.rops ⟨p, n⟩ with
  | none => rfl
  | some r =>
      have hle : n ≤ (m.rdcss p).seq := hi.rop_seq ⟨p, n⟩ r hr
      omega

/-- A step that writes to the RDCSS descriptor of its thread. -/
theorem Help.Correct.of_setRdcss (hi : Inv K m) {d : RdcssDesc} (hle : (m.rdcss p).seq ≤ d.seq)
    (hfree : ∀ r, m.rops ⟨p, (m.rdcss p).seq⟩ = some r → (m.rdcss p).seq < d.seq)
    (hafter : f.After (m.setRdcss p d) p o) : f.Correct K p m (m.setRdcss p d) o where
  keeps := ⟨hi.setRdcss hle hfree, Later.setRdcss hle, Steady.setRdcss⟩
  effect := Effect.of_ops rfl rfl
  quiet := Quiet.of_eq rfl rfl
  after := hafter

theorem Help.step_entry (hi : Inv K m) {i : ℕ} (hpc : f.pc = .entry i) (hok : f.Ok m p)
    (hstep : f.step K p m = some (m', o)) : f.Correct K p m m' o := by
  obtain ⟨op, hop, hfirst, hknows⟩ := hok
  unfold Help.Knows at hknows
  rw [hpc] at hknows
  obtain ⟨hsnap, hheld⟩ := hknows
  unfold Help.step at hstep
  rw [hpc] at hstep
  dsimp only at hstep
  split at hstep
  · rename_i hlt
    obtain ⟨rfl, rfl⟩ := Prod.mk.inj (Option.some.inj hstep)
    refine Help.Correct.of_setRdcss hi (Nat.le_succ _) (fun _ _ => Nat.lt_succ_self _)
      (Help.After.goto ⟨op, hop, hfirst, hsnap.goto, hheld, ?_, f.snap.entries i, hsnap.entry hlt, ?_⟩)
    · rw [setRdcss_apply, if_pos rfl]
      exact hi.rops_next p (Nat.lt_succ_self _)
    · intro k hk
      exact absurd hk (Nat.not_lt_zero k)
  · rename_i hge
    obtain ⟨rfl, rfl⟩ := Prod.mk.inj (Option.some.inj hstep)
    refine Help.Correct.of_read hi (Help.After.goto ⟨op, hop, hfirst, hsnap.goto, by simp, ?_, by simp⟩)
    intro _ k
    exact Held.all hop hsnap hge hheld k

theorem RdcssDesc.fill_comm (d : RdcssDesc) (t : Tag) (e : Entry Loc Word) (j k : ℕ) :
    (d.fill t e j).fill t e k = (d.fill t e k).fill t e j := by
  rcases j with _ | _ | _ | _ | j <;> rcases k with _ | _ | _ | _ | k <;> rfl

theorem RdcssDesc.fill_self (d : RdcssDesc) (t : Tag) (e : Entry Loc Word) (j : ℕ) :
    (d.fill t e j).fill t e j = d.fill t e j := by
  rcases j with _ | _ | _ | _ | j <;> rfl

/-- From the fourth assignment on, it is the last one. -/
theorem RdcssDesc.fill_last (d : RdcssDesc) (t : Tag) (e : Entry Loc Word) {j k : ℕ} (hj : 4 ≤ j)
    (hk : 4 ≤ k) : d.fill t e j = d.fill t e k := by
  obtain ⟨j, rfl⟩ := Nat.exists_eq_add_of_le' hj
  obtain ⟨k, rfl⟩ := Nat.exists_eq_add_of_le' hk
  rfl

theorem RdcssDesc.fill_seq (d : RdcssDesc) (t : Tag) (e : Entry Loc Word) (j : ℕ) :
    (d.fill t e j).seq = d.seq := by
  rcases j with _ | _ | _ | _ | j <;> rfl

/-- The descriptor behind the five assignments. -/
theorem RdcssDesc.filled {d : RdcssDesc} {t : Tag} {e : Entry Loc Word}
    (h : ∀ k < 5, d.fill t e k = d) :
    d = ⟨d.seq, t.tid, .kcas t, e.addr, e.oldval, .kcas t⟩ := by
  have h₀ := congrArg RdcssDesc.addr1 (h 0 (by decide))
  have h₁ := congrArg RdcssDesc.old1 (h 1 (by decide))
  have h₂ := congrArg RdcssDesc.old2 (h 2 (by decide))
  have h₃ := congrArg RdcssDesc.addr2 (h 3 (by decide))
  have h₄ := congrArg RdcssDesc.new2 (h 4 (by decide))
  cases d
  simp only [RdcssDesc.fill] at h₀ h₁ h₂ h₃ h₄
  subst h₀ h₁ h₂ h₃ h₄
  rfl

/-- One more assignment. -/
theorem Filling.next {op : Op} {i j : ℕ} {e : Entry Loc Word} (he : op.entries[i]? = some e)
    (h : m.Filling p f.tag op i j) {d : RdcssDesc} (hd : d = (m.rdcss p).fill f.tag e j) :
    ∀ k < j + 1, d.fill f.tag e k = d := by
  obtain ⟨-, e', he', hfill⟩ := h
  obtain rfl := Option.some.inj (he.symm.trans he')
  intro k hk
  rw [hd]
  rcases Nat.lt_succ_iff_lt_or_eq.mp hk with hlt | rfl
  · rw [RdcssDesc.fill_comm, hfill k hlt]
  · exact RdcssDesc.fill_self _ _ _ _

theorem Help.step_fill (hi : Inv K m) {i j : ℕ} (hpc : f.pc = .fill i j) (hok : f.Ok m p)
    (hstep : f.step K p m = some (m', o)) : f.Correct K p m m' o := by
  obtain ⟨op, hop, hfirst, hknows⟩ := hok
  unfold Help.Knows at hknows
  rw [hpc] at hknows
  obtain ⟨hsnap, hheld, hfill⟩ := hknows
  unfold Help.step at hstep
  rw [hpc] at hstep
  dsimp only at hstep
  obtain ⟨rfl, rfl⟩ := Prod.mk.inj (Option.some.inj hstep)
  obtain ⟨hnone, e, he, -⟩ := id hfill
  have hentry : f.snap.entries i = e := by
    have hlt : i < f.snap.numEntries := by
      by_contra hge
      rw [hsnap.none hge] at he
      exact absurd he (by simp)
    exact Option.some.inj ((hsnap.entry hlt).symm.trans he)
  rw [hentry]
  set d := (m.rdcss p).fill f.tag e j with hd
  have hseq : d.seq = (m.rdcss p).seq := RdcssDesc.fill_seq _ _ _ _
  have hnext := Filling.next he hfill hd
  have hown : (m.setRdcss p d).rdcss p = d := by rw [setRdcss_apply, if_pos rfl]
  have hfree : (m.setRdcss p d).rops ⟨p, ((m.setRdcss p d).rdcss p).seq⟩ = none := by
    rw [hown, hseq]
    exact hnone
  refine Help.Correct.of_setRdcss hi (Nat.le_of_eq hseq.symm) ?_ (Help.After.goto ?_)
  · intro r hr
    exact absurd (hnone.symm.trans hr) (by simp)
  · refine ⟨op, hop, hfirst, ?_⟩
    unfold Help.Knows
    by_cases hj : j < 4
    · rw [if_pos hj]
      refine ⟨hsnap.goto, hheld, hfree, e, he, ?_⟩
      rw [hown]
      exact hnext
    · rw [if_neg hj]
      refine ⟨hsnap.goto, hheld, hfree, e, he, ?_⟩
      rw [hown]
      intro k hk
      exact hnext k (by omega)

theorem Help.step_initialized (hi : Inv K m) {i : ℕ} (hpc : f.pc = .initialized i)
    (hok : f.Ok m p) (hstep : f.step K p m = some (m', o)) : f.Correct K p m m' o := by
  obtain ⟨op, hop, hfirst, hknows⟩ := hok
  unfold Help.Knows at hknows
  rw [hpc] at hknows
  obtain ⟨hsnap, hheld, hnone, e, he, hfill⟩ := hknows
  unfold Help.step at hstep
  rw [hpc] at hstep
  dsimp only at hstep
  obtain ⟨rfl, rfl⟩ := Prod.mk.inj (Option.some.inj hstep)
  set d : RdcssDesc := { m.rdcss p with seq := (m.rdcss p).seq + 1 } with hd
  set m₁ := m.setRdcss p d with hm₁
  have hown : m₁.rdcss p = d := by rw [hm₁, setRdcss_apply, if_pos rfl]
  have hi₁ : Inv K m₁ := hi.setRdcss (Nat.le_succ _) fun _ _ => Nat.lt_succ_self _
  have hnone₁ : m₁.rops ⟨p, d.seq⟩ = none := hi.rops_next p (Nat.lt_succ_self _)
  have hpublish : ({ m₁ with rops := Function.update m₁.rops ⟨p, d.seq⟩ (some ⟨d, f.tag, i, false⟩) }
      : Shared) = m₁.publishRdcss ⟨p, d.seq⟩ f.tag i := by
    unfold Shared.publishRdcss
    rw [hown]
  rw [hpublish]
  have hdesc : m₁.rdcss p = ⟨d.seq, f.tag.tid, .kcas f.tag, e.addr, e.oldval, .kcas f.tag⟩ := by
    rw [hown, hd, RdcssDesc.filled hfill]
  have hkeeps₁ : Keeps K p m m₁ := ⟨hi₁, Later.setRdcss (Nat.le_succ _), Steady.setRdcss⟩
  have hsteady : Steady p m₁ (m₁.publishRdcss ⟨p, d.seq⟩ f.tag i) :=
    Steady.publishRdcss (t := ⟨p, d.seq⟩)
  have hkeeps₂ : Keeps K p m₁ (m₁.publishRdcss ⟨p, d.seq⟩ f.tag i) :=
    ⟨hi₁.publishRdcss hnone₁ (by rw [hown]) hop he hdesc fun hne => hheld 0 (by omega),
      Later.publishRdcss hnone₁, hsteady⟩
  have hkeeps := hkeeps₁.trans hi hkeeps₂
  refine
    { keeps := hkeeps
      effect := Effect.of_ops rfl (publishRdcss_value hi₁ hnone₁)
      quiet := Quiet.of_eq rfl rfl
      after := Help.After.goto ⟨op, hop, hfirst, hsnap.goto, hheld, ?_⟩ }
  unfold Shared.Filled
  have hrdcss : (m₁.publishRdcss ⟨p, d.seq⟩ f.tag i).rdcss p = d := hown
  rw [hrdcss, publishRdcss_rops, if_pos rfl, hown]

end Filling

/-! ## §5. `rdcss`. -/

section Locking

variable {K : ℕ} {p : Tid} {m m' : Shared} {f : Help} {o : Outcome}

/-- The RDCSS that a thread is about to install. -/
theorem Inv.filled (hi : Inv K m) {op : Op} (hop : m.ops f.tag = some op) {i : ℕ}
    (h : m.Filled p f.tag i) : ∃ e, op.entries[i]? = some e
      ∧ (m.rdcss p).addr2 = e.addr ∧ (m.rdcss p).old2 = e.oldval ∧ ∃ v, e.oldval = .plain v := by
  obtain ⟨op', e, hop', he, hdesc⟩ := hi.rop_op _ _ h
  obtain rfl := Option.some.inj (hop.symm.trans hop')
  have hplain := ((hi.op_wf f.tag op hop).plain e (List.mem_of_getElem? he)).1
  exact ⟨e, he, congrArg RdcssDesc.addr2 hdesc, congrArg RdcssDesc.old2 hdesc, hplain⟩

/-- What the installation of an RDCSS tag leaves behind. -/
theorem install_eq {t : Tag} {r : ROp} (hr : m.rops t = some r)
    (hword : m.word r.desc.addr2 = r.desc.old2) :
    (m.install t r.desc).ops = m.ops ∧ (m.install t r.desc).kcas = m.kcas
      ∧ (m.install t r.desc).rops t = some { r with installed := true }
      ∧ (m.install t r.desc).word r.desc.addr2 = .rdcss t := by
  have hcas := cas_written (b := Word.rdcss t) hword
  refine ⟨hcas.ops, hcas.kcas, ?_, ?_⟩
  · unfold Shared.install
    rw [setROp_rops, if_pos rfl]
    unfold Shared.cas
    rw [if_pos hword, hr]
    rfl
  · have hself := hcas.word r.desc.addr2
    rw [if_pos rfl] at hself
    exact hself

theorem Help.step_rdcss (hi : Inv K m) {i : ℕ} (hpc : f.pc = .rdcss i) (hok : f.Ok m p)
    (hstep : f.step K p m = some (m', o)) : f.Correct K p m m' o := by
  obtain ⟨op, hop, hfirst, hknows⟩ := hok
  unfold Help.Knows at hknows
  rw [hpc] at hknows
  obtain ⟨hsnap, hheld, hfilled⟩ := hknows
  obtain ⟨e, he, haddr, hold, v, hv⟩ := hi.filled hop hfilled
  have hmem : e ∈ op.entries := List.mem_of_getElem? he
  unfold Help.step at hstep
  rw [hpc] at hstep
  dsimp only at hstep
  cases hword : m.word (m.rdcss p).addr2 with
  | rdcss t =>
      rw [hword] at hstep
      dsimp only at hstep
      have hne : m.word (m.rdcss p).addr2 ≠ (m.rdcss p).old2 := by
        rw [hword, hold, hv]
        simp
      rw [cas_of_ne hne] at hstep
      obtain ⟨rfl, rfl⟩ := Prod.mk.inj (Option.some.inj hstep)
      exact Help.Correct.of_read hi (Help.After.goto ⟨op, hop, hfirst, hsnap.goto, hheld, hfilled,
        RdcssHelp.Ok.call hi hword⟩)
  | kcas t =>
      rw [hword] at hstep
      dsimp only at hstep
      have hne : Word.kcas t ≠ (m.rdcss p).old2 := by
        rw [hold, hv]
        simp
      rw [if_neg hne] at hstep
      split at hstep
      · -- the word is locked for this operation already
        rename_i hself
        obtain ⟨rfl, rfl⟩ := Prod.mk.inj (Option.some.inj hstep)
        refine Help.Correct.of_read hi (Help.After.goto ⟨op, hop, hfirst, hsnap.goto, ?_⟩)
        intro k hk
        rcases Nat.lt_succ_iff_lt_or_eq.mp hk with hlt | rfl
        · exact hheld k hlt
        · intro op' e' hop' _ he'
          obtain rfl := Option.some.inj (hop.symm.trans hop')
          obtain rfl := Option.some.inj (he.symm.trans he')
          rw [← haddr, hword, hself]
      · obtain ⟨rfl, rfl⟩ := Prod.mk.inj (Option.some.inj hstep)
        exact Help.Correct.of_read hi ⟨⟨op, hop, hfirst, hsnap.goto, hheld⟩, rfl, rfl, ⟨i, rfl⟩,
          Help.Ok.call hi hword⟩
  | plain w =>
      rw [hword] at hstep
      dsimp only at hstep
      split at hstep
      · rename_i heq
        obtain ⟨rfl, rfl⟩ := Prod.mk.inj (Option.some.inj hstep)
        set tag : Tag := ⟨p, (m.rdcss p).seq⟩ with htag
        have hequal : m.word (m.rdcss p).addr2 = (m.rdcss p).old2 := hword.trans heq
        obtain ⟨hkeeps, hvalue⟩ := Shared.install_keeps hi hfilled rfl hequal
        obtain ⟨hops, hkcas, hrop, hnow⟩ := install_eq hfilled hequal
        change Help.Correct K p m f (m.install tag (m.rdcss p)) _
        refine
          { keeps := hkeeps, effect := Effect.of_ops hops hvalue, quiet := Quiet.of_eq hops hkcas
            after := Help.After.goto ⟨op, by rw [hops]; exact hop, ?_, hsnap.goto, ?_, ?_, ?_⟩ }
        · exact fun ho => hkeeps.later.holds f.tag 0 (by rw [hop]; simp) (hfirst ho)
        · exact Held.later hkeeps.later hop hheld
        · exact ⟨by simp, _, hrop, rfl, rfl, Or.inl hnow⟩
        · exact ⟨_, hrop, rfl, rfl⟩
      · rename_i hne
        obtain ⟨rfl, rfl⟩ := Prod.mk.inj (Option.some.inj hstep)
        have hvalue : m.value e.addr ≠ e.oldval := by
          rw [← haddr, value_plain hword, ← hold]
          exact hne
        obtain ⟨op', hop', hentries, -⟩ := differ_ops_some (t := f.tag) hop
        refine
          { keeps := differ_keeps hi
            effect := Effect.differ hi hop hmem hvalue
            quiet := Quiet.of_keeps fun _ => differ_keeps hi
            after := Help.After.goto ⟨op', hop', ?_, ?_, by simp, by simp, ?_⟩ }
        · exact fun ho => differ_holds (hfirst ho)
        · exact Snap.congr hentries hsnap.goto
        · intro _
          unfold Shared.differ at hop'
          rw [setOp_ops, if_pos rfl, hop] at hop'
          obtain rfl := Option.some.inj hop'
          rfl

/-- A step of RDCSS helping inside `help`. -/
theorem Help.Correct.of_rdcss (hi : Inv K m) {h : RdcssHelp} (hok : h.Ok m)
    (hafter : f.After (h.step m).1 p o) : f.Correct K p m (h.step m).1 o := by
  obtain ⟨hkeeps, hvalue⟩ := RdcssHelp.step_keeps hi hok
  obtain ⟨word, heq⟩ := RdcssHelp.step_eq (m := m) (h := h)
  have hops : (h.step m).1.ops = m.ops := by rw [heq]
  exact
    { keeps := hkeeps p, effect := Effect.of_ops hops hvalue, quiet := Quiet.of_keeps hkeeps
      after := hafter }

theorem Help.step_rdcssOther (hi : Inv K m) {i : ℕ} {h : RdcssHelp} (hpc : f.pc = .rdcssOther i h)
    (hok : f.Ok m p) (hstep : f.step K p m = some (m', o)) : f.Correct K p m m' o := by
  obtain ⟨op, hop, hfirst, hknows⟩ := hok
  unfold Help.Knows at hknows
  rw [hpc] at hknows
  obtain ⟨hsnap, hheld, hfilled, hh⟩ := hknows
  unfold Help.step at hstep
  rw [hpc] at hstep
  dsimp only at hstep
  split at hstep
  · rename_i m₁ h' hs
    obtain ⟨rfl, rfl⟩ := Prod.mk.inj (Option.some.inj hstep)
    obtain ⟨hsame, hh', -⟩ := RdcssHelp.step_ok hi hh (by rw [hs])
    have hm : m₁ = m := by rw [← hsame, hs]
    rw [hm]
    exact Help.Correct.of_read hi
      (Help.After.goto ⟨op, hop, hfirst, hsnap.goto, hheld, hfilled, hh'⟩)
  · rename_i m₁ hs
    obtain ⟨rfl, rfl⟩ := Prod.mk.inj (Option.some.inj hstep)
    obtain rfl : m₁ = (h.step m).1 := by rw [hs]
    have hl : Later m (h.step m).1 := ((RdcssHelp.step_keeps hi hh).1 p).later
    obtain ⟨word, heq⟩ := RdcssHelp.step_eq (m := m) (h := h)
    refine Help.Correct.of_rdcss hi hh (Help.After.goto ⟨op, by rw [heq]; exact hop, ?_, hsnap.goto,
      Held.later hl hop hheld, Filled.congr (by rw [heq]) (fun n => by rw [heq]) hfilled⟩)
    exact fun ho => hl.holds f.tag 0 (by rw [hop]; simp) (hfirst ho)

theorem Help.step_rdcssOwn (hi : Inv K m) {i : ℕ} {h : RdcssHelp} (hpc : f.pc = .rdcssOwn i h)
    (hok : f.Ok m p) (hstep : f.step K p m = some (m', o)) : f.Correct K p m m' o := by
  obtain ⟨op, hop, hfirst, hknows⟩ := hok
  unfold Help.Knows at hknows
  rw [hpc] at hknows
  obtain ⟨hsnap, hheld, hfin, hh⟩ := hknows
  unfold Help.step at hstep
  rw [hpc] at hstep
  dsimp only at hstep
  split at hstep
  · rename_i m₁ h' hs
    obtain ⟨rfl, rfl⟩ := Prod.mk.inj (Option.some.inj hstep)
    obtain ⟨hsame, hh', htag, hcopy⟩ := RdcssHelp.step_ok hi hh (by rw [hs])
    have hm : m₁ = m := by rw [← hsame, hs]
    rw [hm]
    obtain ⟨hpcs, r, hr, hrest⟩ := hfin
    refine Help.Correct.of_read hi (Help.After.goto ⟨op, hop, hfirst, hsnap.goto, hheld, ?_, hh'⟩)
    refine ⟨hcopy hpcs, r, ?_, ?_⟩
    · rw [htag]
      exact hr
    · rw [htag]
      exact hrest
  · rename_i m₁ hs
    obtain ⟨rfl, rfl⟩ := Prod.mk.inj (Option.some.inj hstep)
    obtain rfl : m₁ = (h.step m).1 := by rw [hs]
    have hl : Later m (h.step m).1 := ((RdcssHelp.step_keeps hi hh).1 p).later
    obtain ⟨word, heq⟩ := RdcssHelp.step_eq (m := m) (h := h)
    refine Help.Correct.of_rdcss hi hh
      (Help.After.goto ⟨op, by rw [heq]; exact hop, ?_, hsnap.goto, ?_⟩)
    · exact fun ho => hl.holds f.tag 0 (by rw [hop]; simp) (hfirst ho)
    · intro k hk
      rcases Nat.lt_succ_iff_lt_or_eq.mp hk with hlt | rfl
      · exact Held.later hl hop hheld k hlt
      · -- the RDCSS is finished, and its tag is gone
        obtain ⟨r, hr, -⟩ := id hh
        have hgone := RdcssHelp.step_done hi hh hfin.1 (by rw [hs]) hr
        obtain ⟨-, r', hr', -, -, hdone⟩ := Finishing.later hl hop hfin
        rw [heq] at hr'
        obtain rfl := Option.some.inj (hr.symm.trans hr')
        rcases hdone with hw | hholds
        · exact absurd hw hgone
        · exact hholds

end Locking

/-! ## §6. The decision and the release. -/

section Deciding

variable {K : ℕ} {p : Tid} {m m' : Shared} {f : Help} {o : Outcome}

theorem Help.step_stateRead (hi : Inv K m) {newstate : KState} (hpc : f.pc = .stateRead newstate)
    (hok : f.Ok m p) (hstep : f.step K p m = some (m', o)) : f.Correct K p m m' o := by
  obtain ⟨op, hop, hfirst, hknows⟩ := hok
  unfold Help.Knows at hknows
  rw [hpc] at hknows
  obtain ⟨hsnap, hverdict⟩ := hknows
  unfold Help.step at hstep
  rw [hpc] at hstep
  dsimp only at hstep
  split at hstep
  · rename_i hseq
    obtain ⟨rfl, rfl⟩ := Prod.mk.inj (Option.some.inj hstep)
    exact Help.Correct.of_read hi
      (Help.After.goto ⟨op, hop, hfirst, hsnap.goto, hverdict, hseq.trans hsnap.seq⟩)
  · rename_i hseq
    obtain ⟨rfl, rfl⟩ := Prod.mk.inj (Option.some.inj hstep)
    have hdec := hi.decided_of_read hop fun hlive => absurd (hlive.trans hsnap.seq.symm) hseq
    exact Help.Correct.of_read hi (Help.After.goto ⟨op, hop, hfirst, hsnap.goto, hdec⟩)

theorem Help.step_stateCas (hi : Inv K m) {newstate : KState} {v : SeqBits}
    (hpc : f.pc = .stateCas newstate v) (hok : f.Ok m p)
    (hstep : f.step K p m = some (m', o)) : f.Correct K p m m' o := by
  obtain ⟨op, hop, hfirst, hknows⟩ := hok
  unfold Help.Knows at hknows
  rw [hpc] at hknows
  obtain ⟨hsnap, hverdict, hv⟩ := hknows
  unfold Help.step at hstep
  rw [hpc] at hstep
  dsimp only at hstep
  split at hstep
  · rename_i hbits
    obtain ⟨rfl, rfl⟩ := Prod.mk.inj (Option.some.inj hstep)
    rw [hv] at hbits ⊢
    change Help.Correct K p m f (m.settle f.tag newstate) _
    have hund : op.state = .undecided := by
      rw [← (hi.op_live f.tag op hop (by rw [hbits])).1, hbits]
    have hkeeps : ∀ q, Keeps K q m (m.settle f.tag newstate) := fun q =>
      settle_keeps hi hop hbits hverdict.decided hverdict.succeeded hverdict.failed
    have hnow : (m.settle f.tag newstate).ops f.tag = some { op with state := newstate } := by
      rw [settle_ops hop, if_pos rfl]
    refine
      { keeps := hkeeps p
        effect := Effect.settle hi hop hund hverdict.decided hverdict.succeeded
        quiet := Quiet.of_keeps hkeeps
        after := Help.After.goto ⟨_, hnow, ?_, ⟨hsnap.seq, hsnap.list⟩, hverdict.decided⟩ }
    exact fun ho => settle_holds hop hverdict.decided (hfirst ho)
  · obtain ⟨rfl, rfl⟩ := Prod.mk.inj (Option.some.inj hstep)
    exact Help.Correct.of_read hi (Help.After.goto ⟨op, hop, hfirst, hsnap.goto, hverdict⟩)

theorem Help.step_stateReread (hi : Inv K m) {newstate : KState}
    (hpc : f.pc = .stateReread newstate) (hok : f.Ok m p)
    (hstep : f.step K p m = some (m', o)) : f.Correct K p m m' o := by
  obtain ⟨op, hop, hfirst, hknows⟩ := hok
  unfold Help.Knows at hknows
  rw [hpc] at hknows
  obtain ⟨hsnap, hverdict⟩ := hknows
  unfold Help.step at hstep
  rw [hpc] at hstep
  dsimp only at hstep
  split at hstep
  · rename_i hv
    obtain ⟨rfl, rfl⟩ := Prod.mk.inj (Option.some.inj hstep)
    exact Help.Correct.of_read hi
      (Help.After.goto ⟨op, hop, hfirst, hsnap.goto, hverdict, hv.2.trans hsnap.seq⟩)
  · rename_i hv
    obtain ⟨rfl, rfl⟩ := Prod.mk.inj (Option.some.inj hstep)
    have hdec := hi.decided_of_read hop fun hlive hund => hv ⟨hund, hlive.trans hsnap.seq.symm⟩
    exact Help.Correct.of_read hi (Help.After.goto ⟨op, hop, hfirst, hsnap.goto, hdec⟩)

theorem Help.step_finalRead (hi : Inv K m) (hpc : f.pc = .finalRead) (hok : f.Ok m p)
    (hstep : f.step K p m = some (m', o)) : f.Correct K p m m' o := by
  obtain ⟨op, hop, hfirst, hknows⟩ := hok
  unfold Help.Knows at hknows
  rw [hpc] at hknows
  obtain ⟨hsnap, hdec⟩ := hknows
  unfold Help.step at hstep
  rw [hpc] at hstep
  dsimp only at hstep
  split at hstep
  · rename_i hseq
    obtain ⟨rfl, rfl⟩ := Prod.mk.inj (Option.some.inj hstep)
    refine Help.Correct.of_read hi (Help.After.goto ⟨op, hop, hfirst, hsnap.goto, hdec, ?_⟩)
    rw [(hi.op_live f.tag op hop hseq).1]
    exact decide_eq_true_iff
  · rename_i hseq
    obtain ⟨rfl, rfl⟩ := Prod.mk.inj (Option.some.inj hstep)
    exact Help.Correct.of_read hi fun hlive => absurd hlive hseq

theorem Help.step_unlock (hi : Inv K m) {i : ℕ} {succeeded : Bool}
    (hpc : f.pc = .unlock i succeeded) (hok : f.Ok m p)
    (hstep : f.step K p m = some (m', o)) : f.Correct K p m m' o := by
  obtain ⟨op, hop, hfirst, hknows⟩ := hok
  unfold Help.Knows at hknows
  rw [hpc] at hknows
  obtain ⟨hsnap, hdec, hsucc⟩ := hknows
  unfold Help.step at hstep
  rw [hpc] at hstep
  dsimp only at hstep
  split at hstep
  · rename_i hlt
    obtain ⟨rfl, rfl⟩ := Prod.mk.inj (Option.some.inj hstep)
    have hmem : f.snap.entries i ∈ op.entries := List.mem_of_getElem? (hsnap.entry hlt)
    have hrelease := fun q => cas_release (p := q) hi hop hmem hdec
    simp only [← hsucc] at hrelease
    obtain ⟨word, heq⟩ := cas_eq (m := m) (f.snap.entries i).addr (.kcas f.tag)
      (if succeeded = true then (f.snap.entries i).newval else (f.snap.entries i).oldval)
    have hops := congrArg Shared.ops heq
    have hl := (hrelease p).1.later
    refine
      { keeps := (hrelease p).1, effect := Effect.of_ops hops (hrelease p).2
        quiet := Quiet.of_keeps fun q => (hrelease q).1
        after := Help.After.goto ⟨op, by rw [hops]; exact hop, ?_, hsnap.goto, hdec, hsucc⟩ }
    exact fun ho => hl.holds f.tag 0 (by rw [hop]; simp) (hfirst ho)
  · obtain ⟨rfl, rfl⟩ := Prod.mk.inj (Option.some.inj hstep)
    exact Help.Correct.of_read hi fun _ => ⟨op, hop, hdec, hsucc⟩

/-- **A step of `help`**, wherever it is. -/
theorem Help.step_correct (hi : Inv K m) (hok : f.Ok m p)
    (hstep : f.step K p m = some (m', o)) : f.Correct K p m m' o := by
  cases hpc : f.pc with
  | copy j => exact Help.step_copy hi hpc hok hstep
  | readState => exact Help.step_readState hi hpc hok hstep
  | entry i => exact Help.step_entry hi hpc hok hstep
  | fill i j => exact Help.step_fill hi hpc hok hstep
  | initialized i => exact Help.step_initialized hi hpc hok hstep
  | rdcss i => exact Help.step_rdcss hi hpc hok hstep
  | rdcssOther i h => exact Help.step_rdcssOther hi hpc hok hstep
  | rdcssOwn i h => exact Help.step_rdcssOwn hi hpc hok hstep
  | stateRead newstate => exact Help.step_stateRead hi hpc hok hstep
  | stateCas newstate v => exact Help.step_stateCas hi hpc hok hstep
  | stateReread newstate => exact Help.step_stateReread hi hpc hok hstep
  | finalRead => exact Help.step_finalRead hi hpc hok hstep
  | unlock i succeeded => exact Help.step_unlock hi hpc hok hstep

end Deciding

end MultiCore.KCASLockFree
