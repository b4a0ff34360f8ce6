/-
  MultiCore.KCASLockFree.Tags — which call will take a tag out of a word.

  A call of `help` passes over all words of its operation before it returns,
  unless it finds the descriptor reused (`Help.Covers`).  The thread that has
  installed an RDCSS tag does not leave `rdcss` before the tag is gone
  (`Help.Installs`).

  Main results:
    * `Help.step_tags` — what a step of `help` does to the tags;
    * `step_tags` — so does a step of a thread.
-/
import MultiCore.KCASLockFree.Atomic

namespace MultiCore.KCASLockFree

open MultiCore.Lib

/-! ## §1. Who is in charge of a tag. -/

/-- A call of `help` that is still to pass over the word `a`, if its operation
has that word. -/
def Help.Covers (f : Help) (a : Loc) : Prop :=
  match f.pc with
  | .copy _ => False
  | .readState => f.helpingOther = false
  | .unlock i _ => ∃ j, i ≤ j ∧ j < f.snap.numEntries ∧ (f.snap.entries j).addr = a
  | _ => True

/-- From the first entry up to the last sequence check. -/
def HelpPc.Locking : HelpPc → Prop
  | copy _ | readState | unlock _ _ => False
  | _ => True

/-- A call of `help` that finishes the RDCSS with the tag `u`. -/
def Help.Installs (f : Help) (u : Tag) : Prop :=
  ∃ i h, f.pc = .rdcssOwn i h ∧ h.tag = u

/-- The call writes the tag of the operation `t` over its RDCSS tag in the word `a`. -/
structure RdcssHelp.Swings (m : Shared) (h : RdcssHelp) (a : Loc) (t : Tag) : Prop where
  pc : h.pc = .cas true
  word : m.word a = .rdcss h.tag
  target : ∃ r, m.rops h.tag = some r ∧ r.target = t

/-- The open call of `rdcssHelpOther` or `rdcssHelp`. -/
def Help.rdcssHelp (f : Help) : Option RdcssHelp :=
  match f.pc with
  | .rdcssOther _ h | .rdcssOwn _ h => some h
  | _ => none

def Thread.rdcssHelp (th : Thread) : Option RdcssHelp :=
  match th.frames with
  | [] =>
      match th.call with
      | .readingOther _ h => some h
      | _ => none
  | f :: _ => f.rdcssHelp

/-- The call behind the step. -/
def Outcome.after : Outcome → Option Help
  | .stay f => some f
  | .call f _ => some f
  | .ret _ => none

/-- What a step of thread `p` does to the tags in the words, and where it leaves
the calls that are in charge of them. -/
structure Help.Tags (p : Tid) (m : Shared) (f : Help) (m' : Shared) (o : Outcome) : Prop where
  /-- The tag of an operation follows the tag of one of its RDCSSs. -/
  kcas : ∀ a t, m'.word a = .kcas t →
    m.word a = .kcas t ∨ ∃ h, f.rdcssHelp = some h ∧ h.Swings m a t
  rdcss : ∀ a u, m'.word a = .rdcss u →
    m.word a = .rdcss u ∨ u.tid = p ∧ ∃ f', o.after = some f' ∧ f'.Installs u
  installs : ∀ u, f.Installs u → ∀ a, m'.word a = .rdcss u → ∃ f', o.after = some f' ∧ f'.Installs u
  stays : ∀ a t, m.word a = .kcas t → m'.word a = .kcas t ∨ t = f.tag ∧ f.Covers a
  covers : ∀ a, f.Covers a → m'.word a = .kcas f.tag → (∃ f', o.after = some f' ∧ f'.Covers a)
    ∨ f.pc = .finalRead ∧ (m.kcas f.tag.tid).seqBits.seq ≠ f.tag.seq ∧ m' = m ∧ o.after = none
  /-- Once the descriptor is reused, nobody starts on the operation again. -/
  uncovers : (m.kcas f.tag.tid).seqBits.seq ≠ f.tag.seq → ∀ a, ¬ f.Covers a →
    ∀ f', o.after = some f' → ¬ f'.Covers a

section Local

variable {K : ℕ} {p : Tid} {m m' : Shared} {f : Help} {o : Outcome}

/-- A step that writes to no word, and goes on in the locking phase. -/
theorem Help.Tags.of_goto {f' : Help} (hword : m'.word = m.word) (ho : o.after = some f')
    (hcovers : ∀ a, f.Covers a → f'.Covers a)
    (huncovers : (m.kcas f.tag.tid).seqBits.seq ≠ f.tag.seq → ∀ a, ¬ f.Covers a → ¬ f'.Covers a)
    (hinstalls : ∀ u, f.Installs u → f'.Installs u) : f.Tags p m m' o where
  kcas a t h := Or.inl (by rw [← hword]; exact h)
  rdcss a u h := Or.inl (by rw [← hword]; exact h)
  installs u hu _ _ := ⟨f', ho, hinstalls u hu⟩
  stays a t h := Or.inl (by rw [hword]; exact h)
  covers a ha _ := Or.inl ⟨f', ho, hcovers a ha⟩
  uncovers hseq a ha f'' hf'' := by
    obtain rfl := Option.some.inj (ho.symm.trans hf'')
    exact huncovers hseq a ha

/-- In its first phase a call is still to pass over every word. -/
theorem Help.covers_locking {pc : HelpPc} (hpc : f.pc = pc) (hlock : pc.Locking) (a : Loc) :
    f.Covers a := by
  unfold Covers
  rw [hpc]
  cases pc with
  | copy j => exact absurd hlock id
  | readState => exact absurd hlock id
  | unlock i b => exact absurd hlock id
  | _ => trivial

/-- A call outside of `rdcss` installs nothing. -/
theorem Help.not_installs {u : Tag} {pc : HelpPc} (hpc : f.pc = pc)
    (hown : ∀ i h, pc ≠ .rdcssOwn i h) : ¬ f.Installs u := by
  rintro ⟨i, h, hpc', -⟩
  exact hown i h (hpc.symm.trans hpc')

/-- A step inside the first phase that writes to no word. -/
theorem Help.Tags.of_locking {f' : Help} {pc : HelpPc} (hword : m'.word = m.word)
    (ho : o.after = some f') (hpc : f.pc = pc) (hown : ∀ i h, pc ≠ .rdcssOwn i h)
    (hcovers : ∀ a, f.Covers a) (hcovers' : ∀ a, f'.Covers a) : f.Tags p m m' o :=
  Help.Tags.of_goto hword ho (fun a _ => hcovers' a) (fun _ a ha => absurd (hcovers a) ha)
    fun _ hu => absurd hu (Help.not_installs hpc hown)

/-- A call that returns without having been in charge of anything. -/
theorem Help.Tags.of_return {pc : HelpPc} (hword : m'.word = m.word) (ho : o.after = none)
    (hpc : f.pc = pc) (hown : ∀ i h, pc ≠ .rdcssOwn i h) (hcovers : ∀ a, ¬ f.Covers a) :
    f.Tags p m m' o where
  kcas a t h := Or.inl (by rw [← hword]; exact h)
  rdcss a u h := Or.inl (by rw [← hword]; exact h)
  installs u hu _ _ := absurd hu (Help.not_installs hpc hown)
  stays a t h := Or.inl (by rw [hword]; exact h)
  covers a ha _ := absurd ha (hcovers a)
  uncovers _ a _ f' hf' := absurd (ho.symm.trans hf') (by simp)

theorem cas_word (a : Loc) (old new : Word) (b : Loc) :
    (m.cas a old new).word b = if m.word a = old ∧ b = a then new else m.word b := by
  unfold Shared.cas
  split
  · rename_i heq
    show Function.update m.word a new b = _
    rw [Function.update_apply]
    simp [heq]
  · rename_i hne
    rw [if_neg fun h => hne h.1]

end Local

/-! ## §2. The steps of `help`, place by place. -/

section Places

variable {K : ℕ} {p : Tid} {m m' : Shared} {f : Help} {o : Outcome}

theorem Help.copy_tags {j : ℕ} (hpc : f.pc = .copy j) (hstep : f.step K p m = some (m', o)) :
    f.Tags p m m' o := by
  have hnot : ∀ a, ¬ f.Covers a := by
    intro a ha
    unfold Covers at ha
    rw [hpc] at ha
    exact ha
  have hown : ∀ i h, HelpPc.copy j ≠ .rdcssOwn i h := by simp
  unfold Help.step at hstep
  rw [hpc] at hstep
  dsimp only at hstep
  split at hstep
  · obtain ⟨rfl, rfl⟩ := Prod.mk.inj (Option.some.inj hstep)
    exact Help.Tags.of_goto rfl rfl (fun a ha => absurd ha (hnot a)) (fun _ a _ => id)
      fun u hu => absurd hu (Help.not_installs hpc hown)
  · split at hstep
    · rename_i hseq
      obtain ⟨rfl, rfl⟩ := Prod.mk.inj (Option.some.inj hstep)
      exact Help.Tags.of_goto rfl rfl (fun a ha => absurd ha (hnot a))
        (fun hne => absurd hseq hne) fun u hu => absurd hu (Help.not_installs hpc hown)
    · obtain ⟨rfl, rfl⟩ := Prod.mk.inj (Option.some.inj hstep)
      exact Help.Tags.of_return rfl rfl hpc hown hnot

theorem Help.readState_tags (hpc : f.pc = .readState) (hstep : f.step K p m = some (m', o)) :
    f.Tags p m m' o := by
  have hown : ∀ i h, HelpPc.readState ≠ .rdcssOwn i h := by simp
  unfold Help.step at hstep
  rw [hpc] at hstep
  dsimp only at hstep
  split at hstep
  · rename_i hseq
    split at hstep <;>
      · obtain ⟨rfl, rfl⟩ := Prod.mk.inj (Option.some.inj hstep)
        exact Help.Tags.of_goto rfl rfl (fun _ _ => trivial) (fun hne => absurd hseq hne)
          fun u hu => absurd hu (Help.not_installs hpc hown)
  · split at hstep
    · rename_i hother
      obtain ⟨rfl, rfl⟩ := Prod.mk.inj (Option.some.inj hstep)
      refine Help.Tags.of_return rfl rfl hpc hown fun a ha => ?_
      unfold Covers at ha
      rw [hpc] at ha
      exact absurd (hother.symm.trans ha) (by simp)
    · exact absurd hstep (by simp)

/-- What a step of RDCSS helping does to the tags. -/
theorem RdcssHelp.step_tags {h : RdcssHelp} (hi : Inv K m) (hok : h.Ok m) :
    (∀ a t, (h.step m).1.word a = .kcas t → m.word a = .kcas t ∨ h.Swings m a t)
    ∧ (∀ a u, (h.step m).1.word a = .rdcss u → m.word a = .rdcss u)
    ∧ ∀ a t, m.word a = .kcas t → (h.step m).1.word a = .kcas t := by
  cases hnext : (h.step m).2 with
  | some h' =>
      have hsame := (RdcssHelp.step_ok hi hok hnext).1
      rw [hsame]
      exact ⟨fun a t ht => Or.inl ht, fun a u hu => hu, fun a t ht => ht⟩
  | none =>
      obtain ⟨r, hr, -, hknows⟩ := hok
      obtain ⟨op, e, hop, he, hdesc⟩ := hi.rop_op h.tag r hr
      obtain ⟨⟨v, hv⟩, -⟩ := (hi.op_wf r.target op hop).plain e (List.mem_of_getElem? he)
      unfold RdcssHelp.Knows at hknows
      unfold RdcssHelp.step at hnext ⊢
      cases hpc : h.pc with
      | copy j =>
          dsimp only
          split
          · exact ⟨fun a t ht => Or.inl ht, fun a u hu => hu, fun a t ht => ht⟩
          · split <;> exact ⟨fun a t ht => Or.inl ht, fun a u hu => hu, fun a t ht => ht⟩
      | readState => exact ⟨fun a t ht => Or.inl ht, fun a u hu => hu, fun a t ht => ht⟩
      | cas undecided =>
          rw [hpc] at hknows
          dsimp only
          have hsnap : h.snap = r.desc := by
            cases undecided with
            | true => exact hknows.1
            | false => exact hknows.1
          rw [hsnap]
          have haddr : r.desc.addr2 = e.addr := congrArg RdcssDesc.addr2 hdesc
          have hold : r.desc.old2 = .plain v := (congrArg RdcssDesc.old2 hdesc).trans hv
          have hnew : r.desc.new2 = .kcas r.target := congrArg RdcssDesc.new2 hdesc
          rw [hold, hnew]
          refine ⟨fun a t ht => ?_, fun a u hu => ?_, fun a t ht => ?_⟩
          · rw [cas_word] at ht
            split at ht
            · rename_i hw
              right
              cases undecided with
              | true => exact ⟨hpc, by rw [hw.2]; exact hw.1, r, hr, Word.kcas.inj ht⟩
              | false => exact absurd ht (by simp)
            · exact Or.inl ht
          · rw [cas_word] at hu
            split at hu
            · exact absurd hu (by cases undecided <;> simp)
            · exact hu
          · rw [cas_word, if_neg]
            · exact ht
            · rintro ⟨hw, rfl⟩
              rw [ht] at hw
              exact absurd hw (by simp)

theorem Help.entry_tags {i : ℕ} (hpc : f.pc = .entry i) (hstep : f.step K p m = some (m', o)) :
    f.Tags p m m' o := by
  have hcovers : ∀ a, f.Covers a := Help.covers_locking hpc trivial
  unfold Help.step at hstep
  rw [hpc] at hstep
  dsimp only at hstep
  split at hstep <;>
    · obtain ⟨rfl, rfl⟩ := Prod.mk.inj (Option.some.inj hstep)
      exact Help.Tags.of_locking rfl rfl hpc (by simp) hcovers fun _ => trivial

theorem Help.fill_tags {i j : ℕ} (hpc : f.pc = .fill i j) (hstep : f.step K p m = some (m', o)) :
    f.Tags p m m' o := by
  unfold Help.step at hstep
  rw [hpc] at hstep
  dsimp only at hstep
  obtain ⟨rfl, rfl⟩ := Prod.mk.inj (Option.some.inj hstep)
  refine Help.Tags.of_locking rfl rfl hpc (by simp) (Help.covers_locking hpc trivial) fun a => ?_
  by_cases hj : j < 4
  · exact Help.covers_locking (show _ = HelpPc.fill i (j + 1) from if_pos hj) trivial a
  · exact Help.covers_locking (show _ = HelpPc.initialized i from if_neg hj) trivial a

theorem Help.initialized_tags {i : ℕ} (hpc : f.pc = .initialized i)
    (hstep : f.step K p m = some (m', o)) : f.Tags p m m' o := by
  unfold Help.step at hstep
  rw [hpc] at hstep
  dsimp only at hstep
  obtain ⟨rfl, rfl⟩ := Prod.mk.inj (Option.some.inj hstep)
  exact Help.Tags.of_locking rfl rfl hpc (by simp) (Help.covers_locking hpc trivial) fun _ => trivial

theorem Help.rdcss_tags (hi : Inv K m) {i : ℕ} (hpc : f.pc = .rdcss i) (hok : f.Ok m p)
    (hstep : f.step K p m = some (m', o)) : f.Tags p m m' o := by
  obtain ⟨op, hop, -, hknows⟩ := hok
  unfold Help.Knows at hknows
  rw [hpc] at hknows
  obtain ⟨-, -, hfilled⟩ := hknows
  obtain ⟨e, he, haddr, hold, v, hv⟩ := hi.filled hop hfilled
  have hcovers : ∀ a, f.Covers a := Help.covers_locking hpc trivial
  have hown : ∀ j h, HelpPc.rdcss i ≠ .rdcssOwn j h := by simp
  unfold Help.step at hstep
  rw [hpc] at hstep
  dsimp only at hstep
  cases hword : m.word (m.rdcss p).addr2 with
  | rdcss t =>
      rw [hword] at hstep
      dsimp only at hstep
      have hne : m.word (m.rdcss p).addr2 ≠ (m.rdcss p).old2 := by
        rw [hword, hold, hv]
        simp
      rw [cas_of_ne hne] at hstep
      obtain ⟨rfl, rfl⟩ := Prod.mk.inj (Option.some.inj hstep)
      exact Help.Tags.of_locking rfl rfl hpc hown hcovers fun _ => trivial
  | kcas t =>
      rw [hword] at hstep
      dsimp only at hstep
      have hne : Word.kcas t ≠ (m.rdcss p).old2 := by
        rw [hold, hv]
        simp
      rw [if_neg hne] at hstep
      split at hstep <;>
        · obtain ⟨rfl, rfl⟩ := Prod.mk.inj (Option.some.inj hstep)
          exact Help.Tags.of_locking rfl rfl hpc hown hcovers fun _ => trivial
  | plain w =>
      rw [hword] at hstep
      dsimp only at hstep
      split at hstep
      · -- the thread installs its tag
        rename_i heq
        obtain ⟨rfl, rfl⟩ := Prod.mk.inj (Option.some.inj hstep)
        have hequal : m.word (m.rdcss p).addr2 = (m.rdcss p).old2 := hword.trans heq
        set tag : Tag := ⟨p, (m.rdcss p).seq⟩ with htag
        have hnow : ∀ a, ((m.cas (m.rdcss p).addr2 (m.rdcss p).old2 (.rdcss tag)).setROp tag
            fun r => { r with installed := true }).word a
            = if a = (m.rdcss p).addr2 then .rdcss tag else m.word a := by
          intro a
          show (m.cas _ _ _).word a = _
          rw [cas_word]
          simp [hequal]
        refine
          { kcas := ?_, rdcss := ?_, installs := fun u hu => absurd hu (Help.not_installs hpc hown)
            stays := ?_, covers := fun _ _ _ => Or.inl ⟨_, rfl, trivial⟩
            uncovers := fun _ a ha => absurd (hcovers a) ha }
        · intro a t ht
          rw [hnow] at ht
          split at ht
          · exact absurd ht (by simp)
          · exact Or.inl ht
        · intro a u hu
          rw [hnow] at hu
          split at hu
          · obtain rfl := Word.rdcss.inj hu
            exact Or.inr ⟨rfl, _, rfl, i, _, rfl, rfl⟩
          · exact Or.inl hu
        · intro a t ht
          left
          rw [hnow, if_neg]
          · exact ht
          · rintro rfl
            rw [hword] at ht
            exact absurd ht (by simp)
      · obtain ⟨rfl, rfl⟩ := Prod.mk.inj (Option.some.inj hstep)
        exact Help.Tags.of_locking rfl rfl hpc hown hcovers fun _ => trivial

/-- A step of RDCSS helping inside `help`. -/
theorem Help.Tags.of_rdcss (hi : Inv K m) {h : RdcssHelp} (hh : h.Ok m)
    (hopen : f.rdcssHelp = some h) {f' : Help} (ho : o.after = some f')
    (hcovers : ∀ a, f.Covers a) (hcovers' : ∀ a, f'.Covers a)
    (hinstalls : ∀ u, f.Installs u → ∀ a, (h.step m).1.word a = .rdcss u → f'.Installs u) :
    f.Tags p m (h.step m).1 o where
  kcas a t ht := ((RdcssHelp.step_tags hi hh).1 a t ht).imp_right fun hs => ⟨h, hopen, hs⟩
  rdcss a u hu := Or.inl ((RdcssHelp.step_tags hi hh).2.1 a u hu)
  installs u hu a ha := ⟨f', ho, hinstalls u hu a ha⟩
  stays a t ht := Or.inl ((RdcssHelp.step_tags hi hh).2.2 a t ht)
  covers a _ _ := Or.inl ⟨f', ho, hcovers' a⟩
  uncovers _ a ha := absurd (hcovers a) ha

theorem Help.rdcssOther_tags (hi : Inv K m) {i : ℕ} {h : RdcssHelp} (hpc : f.pc = .rdcssOther i h)
    (hok : f.Ok m p) (hstep : f.step K p m = some (m', o)) : f.Tags p m m' o := by
  obtain ⟨op, hop, -, hknows⟩ := hok
  unfold Help.Knows at hknows
  rw [hpc] at hknows
  obtain ⟨-, -, -, hh⟩ := hknows
  have hcovers : ∀ a, f.Covers a := Help.covers_locking hpc trivial
  have hown : ∀ u, ¬ f.Installs u := fun u => Help.not_installs hpc (by simp)
  have hopen : f.rdcssHelp = some h := by
    unfold Help.rdcssHelp
    rw [hpc]
  unfold Help.step at hstep
  rw [hpc] at hstep
  dsimp only at hstep
  split at hstep <;>
    · rename_i hs
      obtain ⟨rfl, rfl⟩ := Prod.mk.inj (Option.some.inj hstep)
      have hm := congrArg Prod.fst hs
      dsimp only at hm
      rw [← hm]
      exact Help.Tags.of_rdcss hi hh hopen rfl hcovers (fun _ => trivial)
        fun u hu => absurd hu (hown u)

theorem Help.rdcssOwn_tags (hi : Inv K m) {i : ℕ} {h : RdcssHelp} (hpc : f.pc = .rdcssOwn i h)
    (hok : f.Ok m p) (hstep : f.step K p m = some (m', o)) : f.Tags p m m' o := by
  obtain ⟨op, hop, -, hknows⟩ := hok
  unfold Help.Knows at hknows
  rw [hpc] at hknows
  obtain ⟨-, -, ⟨hnocopy, -⟩, hh⟩ := hknows
  have hcovers : ∀ a, f.Covers a := Help.covers_locking hpc trivial
  have htag : ∀ u, f.Installs u → h.tag = u := by
    rintro u ⟨j, h', hpc', rfl⟩
    obtain ⟨-, rfl⟩ := HelpPc.rdcssOwn.inj (hpc.symm.trans hpc')
    rfl
  have hopen : f.rdcssHelp = some h := by
    unfold Help.rdcssHelp
    rw [hpc]
  unfold Help.step at hstep
  rw [hpc] at hstep
  dsimp only at hstep
  split at hstep
  · rename_i m₁ h' hs
    obtain ⟨rfl, rfl⟩ := Prod.mk.inj (Option.some.inj hstep)
    have hm := congrArg Prod.fst hs
    dsimp only at hm
    rw [← hm]
    refine Help.Tags.of_rdcss hi hh hopen rfl hcovers (fun _ => trivial) fun u hu _ _ => ?_
    have hsame := (RdcssHelp.step_ok hi hh (by rw [hs])).2.2.1
    exact ⟨i, h', rfl, hsame.trans (htag u hu)⟩
  · rename_i m₁ hs
    obtain ⟨rfl, rfl⟩ := Prod.mk.inj (Option.some.inj hstep)
    have hm := congrArg Prod.fst hs
    dsimp only at hm
    rw [← hm]
    refine Help.Tags.of_rdcss hi hh hopen rfl hcovers (fun _ => trivial) fun u hu a ha => ?_
    -- the call returns behind its own tag
    obtain rfl := htag u hu
    obtain ⟨r, hr, -, rfl⟩ := hi.tag_rop a h.tag ((RdcssHelp.step_tags hi hh).2.1 a h.tag ha)
    exact absurd ha (RdcssHelp.step_done hi hh hnocopy (by rw [hs]) hr)

theorem Help.stateRead_tags {newstate : KState} (hpc : f.pc = .stateRead newstate)
    (hstep : f.step K p m = some (m', o)) : f.Tags p m m' o := by
  unfold Help.step at hstep
  rw [hpc] at hstep
  dsimp only at hstep
  split at hstep <;>
    · obtain ⟨rfl, rfl⟩ := Prod.mk.inj (Option.some.inj hstep)
      exact Help.Tags.of_locking rfl rfl hpc (by simp) (Help.covers_locking hpc trivial)
        fun _ => trivial

theorem Help.stateCas_tags {newstate : KState} {v : SeqBits} (hpc : f.pc = .stateCas newstate v)
    (hstep : f.step K p m = some (m', o)) : f.Tags p m m' o := by
  unfold Help.step at hstep
  rw [hpc] at hstep
  dsimp only at hstep
  split at hstep <;>
    · obtain ⟨rfl, rfl⟩ := Prod.mk.inj (Option.some.inj hstep)
      exact Help.Tags.of_locking rfl rfl hpc (by simp) (Help.covers_locking hpc trivial)
        fun _ => trivial

theorem Help.stateReread_tags {newstate : KState} (hpc : f.pc = .stateReread newstate)
    (hstep : f.step K p m = some (m', o)) : f.Tags p m m' o := by
  unfold Help.step at hstep
  rw [hpc] at hstep
  dsimp only at hstep
  split at hstep <;>
    · obtain ⟨rfl, rfl⟩ := Prod.mk.inj (Option.some.inj hstep)
      exact Help.Tags.of_locking rfl rfl hpc (by simp) (Help.covers_locking hpc trivial)
        fun _ => trivial

/-- The words with the tag of an operation are words of the snapshot. -/
theorem Help.Snap.covered (hi : Inv K m) {op : Op} (hop : m.ops f.tag = some op)
    (hsnap : f.Snap op) {a : Loc} (hw : m.word a = .kcas f.tag) :
    ∃ j < f.snap.numEntries, (f.snap.entries j).addr = a := by
  obtain ⟨op', hop', e, he, rfl⟩ := hi.tag_op a f.tag hw
  obtain rfl := Option.some.inj (hop.symm.trans hop')
  obtain ⟨j, hj⟩ := List.mem_iff_getElem?.mp he
  rw [← hsnap.list, list_getElem?] at hj
  split at hj
  · rename_i hlt
    exact ⟨j, hlt, by rw [Option.some.inj hj]⟩
  · exact absurd hj (by simp)

theorem Help.finalRead_tags (hi : Inv K m) (hpc : f.pc = .finalRead) (hok : f.Ok m p)
    (hstep : f.step K p m = some (m', o)) : f.Tags p m m' o := by
  obtain ⟨op, hop, -, hknows⟩ := hok
  unfold Help.Knows at hknows
  rw [hpc] at hknows
  obtain ⟨hsnap, -⟩ := hknows
  have hcovers : ∀ a, f.Covers a := Help.covers_locking hpc trivial
  have hown : ∀ u, ¬ f.Installs u := fun u => Help.not_installs hpc (by simp)
  unfold Help.step at hstep
  rw [hpc] at hstep
  dsimp only at hstep
  split at hstep
  · obtain ⟨rfl, rfl⟩ := Prod.mk.inj (Option.some.inj hstep)
    refine
      { kcas := fun _ _ h => Or.inl h, rdcss := fun _ _ h => Or.inl h
        installs := fun u hu => absurd hu (hown u), stays := fun _ _ h => Or.inl h
        covers := fun a _ hw => ?_, uncovers := fun _ a ha => absurd (hcovers a) ha }
    obtain ⟨j, hj, haddr⟩ := Help.Snap.covered hi hop hsnap hw
    exact Or.inl ⟨_, rfl, j, Nat.zero_le j, hj, haddr⟩
  · rename_i hseq
    obtain ⟨rfl, rfl⟩ := Prod.mk.inj (Option.some.inj hstep)
    exact
      { kcas := fun _ _ h => Or.inl h, rdcss := fun _ _ h => Or.inl h
        installs := fun u hu => absurd hu (hown u), stays := fun _ _ h => Or.inl h
        covers := fun _ _ _ => Or.inr ⟨hpc, hseq, rfl, rfl⟩
        uncovers := fun _ a ha => absurd (hcovers a) ha }

theorem Help.unlock_tags (hi : Inv K m) {i : ℕ} {succeeded : Bool} (hpc : f.pc = .unlock i succeeded)
    (hok : f.Ok m p) (hstep : f.step K p m = some (m', o)) : f.Tags p m m' o := by
  obtain ⟨op, hop, -, hknows⟩ := hok
  unfold Help.Knows at hknows
  rw [hpc] at hknows
  obtain ⟨hsnap, -, -⟩ := hknows
  have hcovers : ∀ a, f.Covers a ↔
      ∃ j, i ≤ j ∧ j < f.snap.numEntries ∧ (f.snap.entries j).addr = a := by
    intro a
    unfold Covers
    rw [hpc]
  have hown : ∀ j h, HelpPc.unlock i succeeded ≠ .rdcssOwn j h := by simp
  unfold Help.step at hstep
  rw [hpc] at hstep
  dsimp only at hstep
  split at hstep
  · rename_i hlt
    obtain ⟨rfl, rfl⟩ := Prod.mk.inj (Option.some.inj hstep)
    have hmem : f.snap.entries i ∈ op.entries := List.mem_of_getElem? (hsnap.entry hlt)
    obtain ⟨⟨v, hv⟩, w, hw⟩ := (hi.op_wf f.tag op hop).plain _ hmem
    set new := if succeeded = true then (f.snap.entries i).newval else (f.snap.entries i).oldval
      with hnew
    have hplain : ∃ x, new = .plain x := by
      rw [hnew]
      split
      · exact ⟨w, hw⟩
      · exact ⟨v, hv⟩
    obtain ⟨x, hx⟩ := hplain
    rw [hx]
    refine
      { kcas := ?_, rdcss := ?_, installs := fun u hu => absurd hu (Help.not_installs hpc hown)
        stays := ?_, covers := ?_, uncovers := ?_ }
    · intro a t ht
      rw [cas_word] at ht
      split at ht
      · exact absurd ht (by simp)
      · exact Or.inl ht
    · intro a u hu
      rw [cas_word] at hu
      split at hu
      · exact absurd hu (by simp)
      · exact Or.inl hu
    · intro a t ht
      by_cases hhit : m.word (f.snap.entries i).addr = .kcas f.tag ∧ a = (f.snap.entries i).addr
      · obtain ⟨hold, rfl⟩ := hhit
        right
        exact ⟨Word.kcas.inj (ht.symm.trans hold), (hcovers _).mpr ⟨i, Nat.le_refl i, hlt, rfl⟩⟩
      · left
        rw [cas_word, if_neg hhit]
        exact ht
    · intro a ha hafter
      obtain ⟨j, hij, hj, rfl⟩ := (hcovers a).mp ha
      left
      refine ⟨_, rfl, j, Nat.lt_of_le_of_ne hij ?_, hj, rfl⟩
      -- the word just passed carries the tag no more
      rintro rfl
      rw [cas_word] at hafter
      split at hafter
      · exact absurd hafter (by simp)
      · rename_i hno
        exact hno ⟨hafter, rfl⟩
    · intro _ a ha f' hf' ha'
      obtain rfl := Option.some.inj hf'
      obtain ⟨j, hij, hj, haddr⟩ := ha'
      exact ha ((hcovers a).mpr ⟨j, Nat.le_of_succ_le hij, hj, haddr⟩)
  · rename_i hge
    obtain ⟨rfl, rfl⟩ := Prod.mk.inj (Option.some.inj hstep)
    refine Help.Tags.of_return rfl rfl hpc hown fun a ha => ?_
    obtain ⟨j, hij, hj, -⟩ := (hcovers a).mp ha
    omega

/-- **A step of `help` and the tags.** -/
theorem Help.step_tags (hi : Inv K m) (hok : f.Ok m p) (hstep : f.step K p m = some (m', o)) :
    f.Tags p m m' o := by
  cases hpc : f.pc with
  | copy j => exact Help.copy_tags hpc hstep
  | readState => exact Help.readState_tags hpc hstep
  | entry i => exact Help.entry_tags hpc hstep
  | fill i j => exact Help.fill_tags hpc hstep
  | initialized i => exact Help.initialized_tags hpc hstep
  | rdcss i => exact Help.rdcss_tags hi hpc hok hstep
  | rdcssOther i h => exact Help.rdcssOther_tags hi hpc hok hstep
  | rdcssOwn i h => exact Help.rdcssOwn_tags hi hpc hok hstep
  | stateRead newstate => exact Help.stateRead_tags hpc hstep
  | stateCas newstate v => exact Help.stateCas_tags hpc hstep
  | stateReread newstate => exact Help.stateReread_tags hpc hstep
  | finalRead => exact Help.finalRead_tags hi hpc hok hstep
  | unlock i succeeded => exact Help.unlock_tags hi hpc hok hstep

end Places

/-! ## §3. The steps of a thread. -/

/-- What a step of thread `p` does to the tags, with all calls of `help` that are
open. -/
structure Tags (p : Tid) (m : Shared) (th : Thread) (m' : Shared) (th' : Thread) : Prop where
  kcas : ∀ a t, m'.word a = .kcas t →
    m.word a = .kcas t ∨ ∃ h, th.rdcssHelp = some h ∧ h.Swings m a t
  rdcss : ∀ a u, m'.word a = .rdcss u →
    m.word a = .rdcss u ∨ u.tid = p ∧ ∃ f' ∈ th'.frames, f'.Installs u
  installs : ∀ u, ∀ f ∈ th.frames, f.Installs u → ∀ a, m'.word a = .rdcss u →
    ∃ f' ∈ th'.frames, f'.Installs u
  stays : ∀ a t, m.word a = .kcas t →
    m'.word a = .kcas t ∨ ∃ f ∈ th.frames, f.tag = t ∧ f.Covers a
  covers : ∀ a, ∀ f ∈ th.frames, f.Covers a → m'.word a = .kcas f.tag →
    (∃ f' ∈ th'.frames, f'.tag = f.tag ∧ f'.helpingOther = f.helpingOther ∧ f'.Covers a)
      ∨ (th.frames = f :: th'.frames ∧ f.pc = .finalRead
        ∧ (m.kcas f.tag.tid).seqBits.seq ≠ f.tag.seq ∧ m' = m)
  uncovers : ∀ a t, m.word a = .kcas t → (m.kcas t.tid).seqBits.seq ≠ t.seq →
    (∀ f ∈ th.frames, f.tag = t → ¬ f.Covers a) → ∀ f' ∈ th'.frames, f'.tag = t → ¬ f'.Covers a

section Threads

variable {K : ℕ} {p : Tid} {m m' : Shared} {th th' : Thread}

/-- A step outside of `help` that touches no word. -/
theorem Tags.of_word (hword : m'.word = m.word) (hnil : th.frames = [])
    (hframes : ∀ f' ∈ th'.frames, ∀ a, m.word a = .kcas f'.tag →
      (m.kcas f'.tag.tid).seqBits.seq ≠ f'.tag.seq → ¬ f'.Covers a) :
    Tags p m th m' th' where
  kcas a t h := Or.inl (by rw [← hword]; exact h)
  rdcss a u h := Or.inl (by rw [← hword]; exact h)
  installs u f hf := absurd hf (by rw [hnil]; simp)
  stays a t h := Or.inl (by rw [hword]; exact h)
  covers a f hf := absurd hf (by rw [hnil]; simp)
  uncovers a t hw hseq _ f' hf' htag := by
    subst htag
    exact hframes f' hf' a hw hseq

theorem Outcome.mem_frames {o : Outcome} {fs : List Help} {f' : Help} :
    f' ∈ o.frames fs ↔ f' ∈ fs ∨ o.after = some f' ∨ ∃ f t, o = .call f t ∧ f' = helpOther t := by
  cases o with
  | stay f =>
      simp only [frames, after, List.mem_cons, Option.some.injEq]
      constructor
      · rintro (rfl | h)
        · exact Or.inr (Or.inl rfl)
        · exact Or.inl h
      · rintro (h | rfl | ⟨f, t, h, -⟩)
        · exact Or.inr h
        · exact Or.inl rfl
        · exact absurd h (by simp)
  | call f t =>
      simp only [frames, after, List.mem_cons, Option.some.injEq]
      constructor
      · rintro (rfl | rfl | h)
        · exact Or.inr (Or.inr ⟨f, t, rfl, rfl⟩)
        · exact Or.inr (Or.inl rfl)
        · exact Or.inl h
      · rintro (h | rfl | ⟨f₁, t₁, h, rfl⟩)
        · exact Or.inr (Or.inr h)
        · exact Or.inr (Or.inl rfl)
        · obtain ⟨-, rfl⟩ := Outcome.call.inj h
          exact Or.inl rfl
  | ret result => simp [frames, after]

theorem helpOther_covers {t : Tag} {a : Loc} : ¬ (helpOther t).Covers a := id

/-- The call goes on with the same operation. -/
theorem Help.After.same {f f' : Help} {o : Outcome} (h : f.After m' p o) (ho : o.after = some f') :
    f'.tag = f.tag ∧ f'.helpingOther = f.helpingOther := by
  cases o with
  | stay f₁ =>
      obtain rfl := Option.some.inj ho
      exact h.2
  | call f₁ t =>
      obtain rfl := Option.some.inj ho
      exact ⟨h.2.1, h.2.2.1⟩
  | ret result => exact absurd ho (by simp [Outcome.after])

theorem help_tags (hi : Inv K m) (hok : ThreadOk m p th) {f : Help} {fs : List Help}
    (hf : th.frames = f :: fs) (hstep : KCASLockFree.step K m p th = some (m', th')) :
    Tags p m th m' th' := by
  obtain ⟨o, hs, hth⟩ := step_help hf hstep
  have hframes : th'.frames = o.frames fs := congrArg Thread.frames hth
  have hfok : f.Ok m p := hok.frames f (by rw [hf]; simp)
  have ht := Help.step_tags hi hfok hs
  have hsame : ∀ f', o.after = some f' → f'.tag = f.tag ∧ f'.helpingOther = f.helpingOther :=
    fun f' ho => (Help.step_correct hi hfok hs).after.same ho
  have hopen : th.rdcssHelp = f.rdcssHelp := by
    unfold Thread.rdcssHelp
    rw [hf]
  have hrest : ∀ f' ∈ fs, f' ∈ th'.frames := by
    intro f' hf'
    rw [hframes, Outcome.mem_frames]
    exact Or.inl hf'
  have hnext : ∀ f', o.after = some f' → f' ∈ th'.frames := by
    intro f' hf'
    rw [hframes, Outcome.mem_frames]
    exact Or.inr (Or.inl hf')
  refine
    { kcas := by rw [hopen]; exact ht.kcas, rdcss := ?_, installs := ?_, stays := ?_, covers := ?_
      uncovers := ?_ }
  · intro a u hu
    rcases ht.rdcss a u hu with hold | ⟨htid, f', hf', hinst⟩
    · exact Or.inl hold
    · exact Or.inr ⟨htid, f', hnext f' hf', hinst⟩
  · intro u f₀ hf₀ hinst a hu
    rw [hf] at hf₀
    rcases List.mem_cons.mp hf₀ with rfl | hf₀
    · obtain ⟨f', hf', hinst'⟩ := ht.installs u hinst a hu
      exact ⟨f', hnext f' hf', hinst'⟩
    · exact ⟨f₀, hrest f₀ hf₀, hinst⟩
  · intro a t hw
    rcases ht.stays a t hw with hstay | ⟨rfl, hcov⟩
    · exact Or.inl hstay
    · exact Or.inr ⟨f, by rw [hf]; simp, rfl, hcov⟩
  · intro a f₀ hf₀ hcov hw
    rw [hf] at hf₀
    rcases List.mem_cons.mp hf₀ with rfl | hf₀
    · rcases ht.covers a hcov hw with ⟨f', hf', hcov'⟩ | ⟨hpc, hseq, hm, ho⟩
      · exact Or.inl ⟨f', hnext f' hf', (hsame f' hf').1, (hsame f' hf').2, hcov'⟩
      · refine Or.inr ⟨?_, hpc, hseq, hm⟩
        cases o with
        | ret result =>
            rw [hf, hframes]
            rfl
        | _ => exact absurd ho (by simp [Outcome.after])
    · exact Or.inl ⟨f₀, hrest f₀ hf₀, rfl, rfl, hcov⟩
  · intro a t _ hseq hno f' hf' heq
    subst heq
    rw [hframes, Outcome.mem_frames] at hf'
    rcases hf' with hf' | hf' | ⟨-, t, -, rfl⟩
    · exact hno f' (by rw [hf]; exact List.mem_cons_of_mem f hf') rfl
    · have htag := (hsame f' hf').1
      rw [htag] at hseq
      exact ht.uncovers hseq a (hno f (by rw [hf]; simp) htag.symm) f' hf'
    · exact helpOther_covers

/-- No word carries the tag of an operation that is not yet published. -/
theorem Inv.seq_le (hi : Inv K m) {a : Loc} {t : Tag} (hw : m.word a = .kcas t) :
    t.seq ≤ (m.kcas t.tid).seqBits.seq := by
  obtain ⟨op, hop, -⟩ := hi.tag_op a t hw
  exact hi.op_seq t op hop

theorem callStep_tags (hi : Inv K m) (hok : ThreadOk m p th) (hnil : th.frames = [])
    (hstep : KCASLockFree.step K m p th = some (m', th')) : Tags p m th m' th' := by
  obtain ⟨call, ready, frames⟩ := th
  obtain rfl : frames = [] := hnil
  change callStep K m p ⟨call, ready, []⟩ = _ at hstep
  cases call with
  | starting =>
      obtain ⟨rfl, rfl⟩ := Prod.mk.inj (Option.some.inj hstep)
      exact Tags.of_word rfl rfl fun f' hf' => absurd hf' List.not_mem_nil
  | adding a oldval newval j =>
      unfold callStep at hstep
      dsimp only at hstep
      split at hstep
      · obtain ⟨rfl, rfl⟩ := Prod.mk.inj (Option.some.inj hstep)
        exact Tags.of_word rfl rfl fun f' hf' => absurd hf' List.not_mem_nil
      · obtain ⟨rfl, rfl⟩ := Prod.mk.inj (Option.some.inj hstep)
        exact Tags.of_word rfl rfl fun f' hf' => absurd hf' List.not_mem_nil
      · obtain ⟨rfl, rfl⟩ := Prod.mk.inj (Option.some.inj hstep)
        exact Tags.of_word rfl rfl fun f' hf' => absurd hf' List.not_mem_nil
      · split at hstep
        · obtain ⟨rfl, rfl⟩ := Prod.mk.inj (Option.some.inj hstep)
          exact Tags.of_word rfl rfl fun f' hf' => absurd hf' List.not_mem_nil
        · exact absurd hstep (by simp)
  | initRead =>
      obtain ⟨rfl, rfl⟩ := Prod.mk.inj (Option.some.inj hstep)
      exact Tags.of_word rfl rfl fun f' hf' => absurd hf' List.not_mem_nil
  | initWrite v =>
      obtain rfl := hok.initWrite v rfl
      obtain ⟨rfl, rfl⟩ := Prod.mk.inj (Option.some.inj hstep)
      refine Tags.of_word rfl rfl fun f' hf' a hw _ => ?_
      obtain rfl := List.mem_singleton.mp hf'
      have hle := hi.seq_le hw
      exact absurd hle (Nat.not_succ_le_self _)
  | reading a =>
      unfold callStep at hstep
      dsimp only at hstep
      split at hstep
      · obtain ⟨rfl, rfl⟩ := Prod.mk.inj (Option.some.inj hstep)
        exact Tags.of_word rfl rfl fun f' hf' => absurd hf' List.not_mem_nil
      · obtain ⟨rfl, rfl⟩ := Prod.mk.inj (Option.some.inj hstep)
        refine Tags.of_word rfl rfl fun f' hf' b _ _ => ?_
        obtain rfl := List.mem_singleton.mp hf'
        exact helpOther_covers
      · obtain ⟨rfl, rfl⟩ := Prod.mk.inj (Option.some.inj hstep)
        exact Tags.of_word rfl rfl fun f' hf' => absurd hf' List.not_mem_nil
  | readingOther a h =>
      have hh : h.Ok m := hok.reading a h rfl
      unfold callStep at hstep
      dsimp only at hstep
      split at hstep <;>
        · rename_i hs
          obtain ⟨rfl, rfl⟩ := Prod.mk.inj (Option.some.inj hstep)
          have hm := congrArg Prod.fst hs
          dsimp only at hm
          rw [← hm]
          obtain ⟨hkcas, hrdcss, hstays⟩ := RdcssHelp.step_tags hi hh
          exact
            { kcas := fun a t ht => (hkcas a t ht).imp_right fun hs => ⟨h, rfl, hs⟩
              rdcss := fun a u hu => Or.inl (hrdcss a u hu)
              installs := fun _ f hf => absurd hf List.not_mem_nil
              stays := fun a t ht => Or.inl (hstays a t ht)
              covers := fun _ f hf => absurd hf List.not_mem_nil
              uncovers := fun _ _ _ _ _ f' hf' => absurd hf' List.not_mem_nil }
  | _ => exact absurd hstep (by simp [callStep])

/-- **An action of a thread and the tags.** -/
theorem next_tags {s s' : State} {a : Action} (h : Sound K s) (hn : next K s a = some s') :
    Tags a.tid s.mem (s.thread a.tid) s'.mem (s'.thread a.tid) := by
  unfold next at hn
  rw [Option.map_eq_some_iff] at hn
  obtain ⟨⟨m', th'⟩, hmoved, rfl⟩ := hn
  have hthread : (s.set a.tid m' th').thread a.tid = th' := Function.update_self _ _ _
  rw [hthread]
  show Tags a.tid s.mem (s.thread a.tid) m' th'
  have hok := h.thread a.tid
  -- a thread that makes a call has none open
  have hcall : ∀ {x : Option (Shared × Thread)},
      (if (s.thread a.tid).call.Returned then x else none) = some (m', th') →
      (s.thread a.tid).frames = [] ∧ x = some (m', th') := by
    intro x hx
    split at hx
    · rename_i hret
      refine ⟨hok.frames_nil (fun hc => ?_) fun b hc => ?_, hx⟩
      · rw [hc] at hret
        exact absurd hret (by simp [Call.Returned])
      · rw [hc] at hret
        exact absurd hret (by simp [Call.Returned])
    · exact absurd hx (by simp)
  cases a with
  | start p =>
      obtain ⟨hnil, hx⟩ := hcall hmoved
      obtain ⟨rfl, rfl⟩ := Prod.mk.inj (Option.some.inj hx)
      exact Tags.of_word rfl hnil fun f' hf' => absurd hf' List.not_mem_nil
  | add p a oldval newval =>
      obtain ⟨hnil, hx⟩ := hcall hmoved
      unfold KCASLockFree.call at hx
      dsimp only at hx
      split at hx
      · obtain ⟨rfl, rfl⟩ := Prod.mk.inj (Option.some.inj hx)
        refine Tags.of_word rfl hnil fun f' hf' => ?_
        have hempty : f' ∈ ([] : List Help) := hnil ▸ hf'
        exact absurd hempty List.not_mem_nil
      · exact absurd hx (by simp)
  | execute p =>
      obtain ⟨hnil, hx⟩ := hcall hmoved
      unfold KCASLockFree.call at hx
      dsimp only at hx
      split at hx
      · obtain ⟨rfl, rfl⟩ := Prod.mk.inj (Option.some.inj hx)
        exact Tags.of_word rfl hnil fun f' hf' => absurd hf' List.not_mem_nil
      · exact absurd hx (by simp)
  | readPtr p a =>
      obtain ⟨hnil, hx⟩ := hcall hmoved
      obtain ⟨rfl, rfl⟩ := Prod.mk.inj (Option.some.inj hx)
      refine Tags.of_word rfl hnil fun f' hf' => ?_
      have hempty : f' ∈ ([] : List Help) := hnil ▸ hf'
      exact absurd hempty List.not_mem_nil
  | step p =>
      change KCASLockFree.step K s.mem p (s.thread p) = some (m', th') at hmoved
      cases hframes : (s.thread p).frames with
      | nil => exact callStep_tags h.inv hok hframes hmoved
      | cons f fs => exact help_tags h.inv hok hframes hmoved

end Threads

end MultiCore.KCASLockFree
