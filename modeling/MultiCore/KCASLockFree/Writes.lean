/-
  MultiCore.KCASLockFree.Writes — what every write keeps.

  One lemma for each kind of write: the owner's preparation of a descriptor,
  its publication, the installation of an RDCSS tag, its two ways out, the
  release of a word, and the decision.

  Only a decision for success changes the words that the memory stands for.
-/
import MultiCore.KCASLockFree.Invariant

namespace MultiCore.KCASLockFree

open MultiCore.Lib

/-! ## §1. Preparing and publishing. -/

section Preparing

variable {K : ℕ} {m : Shared} {p : Tid}

theorem setKcas_apply (d : KcasDesc) (q : Tid) :
    (m.setKcas p d).kcas q = if q = p then d else m.kcas q := by
  show Function.update m.kcas p d q = _
  rw [Function.update_apply]

theorem setRdcss_apply (d : RdcssDesc) (q : Tid) :
    (m.setRdcss p d).rdcss q = if q = p then d else m.rdcss q := by
  show Function.update m.rdcss p d q = _
  rw [Function.update_apply]

/-- The owner may write to a descriptor that is not published, or take it for a
new sequence number once its operation is decided. -/
theorem Inv.setKcas (h : Inv K m) {d : KcasDesc}
    (hle : (m.kcas p).seqBits.seq ≤ d.seqBits.seq) (hK : d.numEntries ≤ K)
    (hfree : ∀ op, m.ops ⟨p, (m.kcas p).seqBits.seq⟩ = some op →
      (m.kcas p).seqBits.seq < d.seqBits.seq ∧ op.state ≠ .undecided) :
    Inv K (m.setKcas p d) where
  numEntries_le q := by
    rw [setKcas_apply]
    split
    · exact hK
    · exact h.numEntries_le q
  op_seq t op hop := by
    have hold := h.op_seq t op hop
    rw [setKcas_apply]
    split
    · rename_i htp
      rw [htp] at hold
      omega
    · exact hold
  op_live t op hop hseq := by
    rw [setKcas_apply] at hseq ⊢
    split at hseq
    · rename_i htp
      have hold := h.op_seq t op hop
      rw [htp] at hold
      -- the descriptor is the one that was there before
      have heq : t = ⟨p, (m.kcas p).seqBits.seq⟩ := by
        rw [← htp] at hle hold ⊢
        cases t
        simp only [Tag.mk.injEq, true_and] at hseq hle hold ⊢
        omega
      have hlt := (hfree op (heq ▸ hop)).1
      rw [heq] at hseq
      simp only at hseq
      omega
    · rename_i htp
      rw [if_neg htp]
      exact h.op_live t op hop hseq
  op_old t op hop hseq := by
    by_cases hold : (m.kcas t.tid).seqBits.seq = t.seq
    · rw [setKcas_apply] at hseq
      split at hseq
      · rename_i htp
        have heq : t = ⟨p, (m.kcas p).seqBits.seq⟩ := by
          rw [← htp, hold]
        exact (hfree op (heq ▸ hop)).2
      · exact absurd hold hseq
    · exact h.op_old t op hop hold
  op_length := h.op_length
  op_wf := h.op_wf
  differed := h.differed
  tag_op := h.tag_op
  tag_first := h.tag_first
  rop_seq := h.rop_seq
  rop_live := h.rop_live
  rop_op := h.rop_op
  rop_first := h.rop_first
  tag_rop := h.tag_rop

theorem Later.setKcas {d : KcasDesc} (hle : (m.kcas p).seqBits.seq ≤ d.seqBits.seq) :
    Later m (m.setKcas p d) :=
  { Later.refl m with
    kcas_seq := by
      intro q
      rw [setKcas_apply]
      split
      · rename_i hqp
        rw [hqp]
        exact hle
      · exact Nat.le_refl _ }

theorem Steady.setKcas {d : KcasDesc} : Steady p m (m.setKcas p d) :=
  { Steady.refl p m with
    kcas_seq := fun q hq => by rw [setKcas_apply, if_neg hq]
    kcas := fun q hq _ => by rw [setKcas_apply, if_neg hq] }

/-- The state with a new operation `t`. -/
def Shared.publish (m : Shared) (t : Tag) : Shared :=
  { m with ops := Function.update m.ops t (some ⟨(m.kcas t.tid).list, .undecided, false⟩) }

theorem publish_ops {t : Tag} (u : Tag) : (m.publish t).ops u
    = if u = t then some ⟨(m.kcas t.tid).list, .undecided, false⟩ else m.ops u := by
  show Function.update m.ops t _ u = _
  rw [Function.update_apply]

/-- The operations that were there before hold what they held. -/
theorem publish_holds {t u : Tag} (hne : u ≠ t) (i : ℕ) :
    (m.publish t).Holds u i ↔ m.Holds u i := by
  unfold Shared.Holds
  simp only [publish_ops, if_neg hne]
  rfl

theorem Inv.publish (h : Inv K m) {t : Tag} (hnone : m.ops t = none)
    (hseq : (m.kcas t.tid).seqBits.seq = t.seq)
    (hstate : (m.kcas t.tid).seqBits.state = .undecided)
    (hwf : WellFormed (m.kcas t.tid).list) : Inv K (m.publish t) := by
  have hold : ∀ {u}, m.ops u ≠ none → u ≠ t := by
    rintro u hu rfl
    exact hu hnone
  have hcases : ∀ {u op}, (m.publish t).ops u = some op →
      u = t ∧ op = ⟨(m.kcas t.tid).list, .undecided, false⟩ ∨ m.ops u = some op := by
    intro u op hop
    rw [publish_ops] at hop
    split at hop
    · rename_i hut
      exact Or.inl ⟨hut, (Option.some.inj hop).symm⟩
    · exact Or.inr hop
  have hkeep : ∀ {u op}, m.ops u = some op → (m.publish t).ops u = some op := by
    intro u op hop
    rw [publish_ops, if_neg (hold (by rw [hop]; simp))]
    exact hop
  refine
    { numEntries_le := h.numEntries_le, op_seq := ?_, op_live := ?_, op_old := ?_, op_length := ?_,
      op_wf := ?_, differed := ?_, tag_op := ?_, tag_first := ?_, rop_seq := h.rop_seq,
      rop_live := h.rop_live, rop_op := ?_, rop_first := ?_, tag_rop := h.tag_rop }
  · intro u op hop
    rcases hcases hop with ⟨rfl, -⟩ | hop
    · exact hseq.ge
    · exact h.op_seq u op hop
  · intro u op hop hlive
    rcases hcases hop with ⟨rfl, rfl⟩ | hop
    · exact ⟨hstate, rfl⟩
    · exact h.op_live u op hop hlive
  · intro u op hop hlive
    rcases hcases hop with ⟨rfl, -⟩ | hop
    · exact absurd hseq hlive
    · exact h.op_old u op hop hlive
  · intro u op hop
    rcases hcases hop with ⟨rfl, rfl⟩ | hop
    · show (m.kcas u.tid).list.length ≤ K
      rw [list_length]
      exact h.numEntries_le u.tid
    · exact h.op_length u op hop
  · intro u op hop
    rcases hcases hop with ⟨rfl, rfl⟩ | hop
    · exact hwf
    · exact h.op_wf u op hop
  · intro u op hop hfailed
    rcases hcases hop with ⟨rfl, rfl⟩ | hop
    · exact absurd hfailed (by simp)
    · exact h.differed u op hop hfailed
  · intro a u hw
    obtain ⟨op, hop, he⟩ := h.tag_op a u hw
    exact ⟨op, hkeep hop, he⟩
  · intro a u hw
    obtain ⟨op, hop, -⟩ := h.tag_op a u hw
    rw [publish_holds (hold (by rw [hop]; simp))]
    exact h.tag_first a u hw
  · intro u r hr
    obtain ⟨op, e, hop, hrest⟩ := h.rop_op u r hr
    exact ⟨op, e, hkeep hop, hrest⟩
  · intro u r hr hi
    obtain ⟨op, e, hop, -⟩ := h.rop_op u r hr
    rw [publish_holds (hold (by rw [hop]; simp))]
    exact h.rop_first u r hr hi

theorem Later.publish (h : Inv K m) {t : Tag} (hnone : m.ops t = none) :
    Later m (m.publish t) := by
  have hold : ∀ {u}, m.ops u ≠ none → u ≠ t := by
    rintro u hu rfl
    exact hu hnone
  refine
    { Later.refl m with
      ops := ?_, holds := fun u i hu hh => (publish_holds (hold hu) i).mpr hh,
      swung := fun u r hr hw => Or.inl hw, late := ?_ }
  · intro u op hop
    refine ⟨op, ?_, rfl, fun _ => rfl, id⟩
    rw [publish_ops, if_neg (hold (by rw [hop]; simp))]
    exact hop
  · intro u r hr _ _ hsucc
    obtain ⟨op, e, hop, -⟩ := h.rop_op u r hr
    unfold Shared.state at hsucc ⊢
    rw [publish_ops, if_neg (hold (by rw [hop]; simp))] at hsucc
    exact hsucc

theorem Steady.publish {t : Tag} : Steady t.tid m (m.publish t) :=
  { Steady.refl t.tid m with
    ops := by
      intro q n hq hnone
      rw [publish_ops, if_neg]
      · exact hnone
      · rintro rfl
        exact hq rfl }

theorem publish_value (h : Inv K m) {t : Tag} (hnone : m.ops t = none) :
    (m.publish t).value = m.value := by
  funext a
  refine value_congr rfl (fun _ _ => rfl) ?_
  intro u hw
  obtain ⟨op, hop, -⟩ := h.tag_op a u hw
  rw [publish_ops, if_neg]
  rintro rfl
  rw [hnone] at hop
  exact absurd hop (by simp)

/-! ### The RDCSS descriptor. -/

theorem Inv.setRdcss (h : Inv K m) {d : RdcssDesc} (hle : (m.rdcss p).seq ≤ d.seq)
    (hfree : ∀ r, m.rops ⟨p, (m.rdcss p).seq⟩ = some r → (m.rdcss p).seq < d.seq) :
    Inv K (m.setRdcss p d) :=
  { h with
    rop_seq := by
      intro t r hr
      have hold := h.rop_seq t r hr
      rw [setRdcss_apply]
      split
      · rename_i htp
        rw [htp] at hold
        omega
      · exact hold
    rop_live := by
      intro t r hr hseq
      have hold := h.rop_seq t r hr
      rw [setRdcss_apply] at hseq ⊢
      split at hseq
      · rename_i htp
        rw [htp] at hold
        have heq : t = ⟨p, (m.rdcss p).seq⟩ := by
          rw [← htp] at hle hold ⊢
          cases t
          simp only [Tag.mk.injEq, true_and] at hseq hle hold ⊢
          omega
        have hlt := hfree r (heq ▸ hr)
        rw [heq] at hseq
        simp only at hseq
        omega
      · rename_i htp
        rw [if_neg htp]
        exact h.rop_live t r hr hseq }

theorem Later.setRdcss {d : RdcssDesc} (hle : (m.rdcss p).seq ≤ d.seq) :
    Later m (m.setRdcss p d) :=
  { Later.refl m with
    rdcss_seq := by
      intro q
      rw [setRdcss_apply]
      split
      · rename_i hqp
        rw [hqp]
        exact hle
      · exact Nat.le_refl _ }

theorem Steady.setRdcss {d : RdcssDesc} : Steady p m (m.setRdcss p d) :=
  { Steady.refl p m with
    rdcss := fun q hq => by rw [setRdcss_apply, if_neg hq] }

/-- The state with a new RDCSS. -/
def Shared.publishRdcss (m : Shared) (t target : Tag) (i : ℕ) : Shared :=
  { m with rops := Function.update m.rops t (some ⟨m.rdcss t.tid, target, i, false⟩) }

theorem publishRdcss_rops {t target : Tag} {i : ℕ} (u : Tag) : (m.publishRdcss t target i).rops u
    = if u = t then some ⟨m.rdcss t.tid, target, i, false⟩ else m.rops u := by
  show Function.update m.rops t _ u = _
  rw [Function.update_apply]

theorem Inv.publishRdcss (h : Inv K m) {t target : Tag} {i : ℕ} (hnone : m.rops t = none)
    (hseq : (m.rdcss t.tid).seq = t.seq) {op : Op} {e : Entry Loc Word}
    (hop : m.ops target = some op) (he : op.entries[i]? = some e)
    (hdesc : m.rdcss t.tid = ⟨t.seq, target.tid, .kcas target, e.addr, e.oldval, .kcas target⟩)
    (hfirst : i ≠ 0 → m.Holds target 0) : Inv K (m.publishRdcss t target i) := by
  have hcases : ∀ {u r}, (m.publishRdcss t target i).rops u = some r →
      u = t ∧ r = ⟨m.rdcss t.tid, target, i, false⟩ ∨ m.rops u = some r := by
    intro u r hr
    rw [publishRdcss_rops] at hr
    split at hr
    · rename_i hut
      exact Or.inl ⟨hut, (Option.some.inj hr).symm⟩
    · exact Or.inr hr
  refine { h with rop_seq := ?_, rop_live := ?_, rop_op := ?_, rop_first := ?_, tag_rop := ?_ }
  · intro u r hr
    rcases hcases hr with ⟨rfl, -⟩ | hr
    · exact hseq.ge
    · exact h.rop_seq u r hr
  · intro u r hr hlive
    rcases hcases hr with ⟨rfl, rfl⟩ | hr
    · rfl
    · exact h.rop_live u r hr hlive
  · intro u r hr
    rcases hcases hr with ⟨rfl, rfl⟩ | hr
    · exact ⟨op, e, hop, he, hdesc⟩
    · exact h.rop_op u r hr
  · intro u r hr hi
    rcases hcases hr with ⟨rfl, rfl⟩ | hr
    · exact hfirst hi
    · exact h.rop_first u r hr hi
  · intro a u hw
    obtain ⟨r, hr, hrest⟩ := h.tag_rop a u hw
    refine ⟨r, ?_, hrest⟩
    rw [publishRdcss_rops, if_neg]
    · exact hr
    · rintro rfl
      rw [hnone] at hr
      exact absurd hr (by simp)

theorem Later.publishRdcss {t target : Tag} {i : ℕ} (hnone : m.rops t = none) :
    Later m (m.publishRdcss t target i) :=
  { Later.refl m with
    rops := by
      intro u r hr
      refine ⟨r, ?_, rfl, rfl, rfl, id⟩
      rw [publishRdcss_rops, if_neg]
      · exact hr
      · rintro rfl
        rw [hnone] at hr
        exact absurd hr (by simp)
    swung := fun u r hr hw => Or.inl hw }

theorem Steady.publishRdcss {t target : Tag} {i : ℕ} :
    Steady t.tid m (m.publishRdcss t target i) :=
  { Steady.refl t.tid m with
    rops := by
      intro q n hq
      rw [publishRdcss_rops, if_neg]
      rintro rfl
      exact hq rfl }

theorem publishRdcss_value (h : Inv K m) {t target : Tag} {i : ℕ} (hnone : m.rops t = none) :
    (m.publishRdcss t target i).value = m.value := by
  funext a
  refine value_congr rfl ?_ (fun _ _ => rfl)
  intro u hw
  obtain ⟨r, hr, -⟩ := h.tag_rop a u hw
  rw [publishRdcss_rops, if_neg]
  rintro rfl
  rw [hnone] at hr
  exact absurd hr (by simp)

end Preparing

/-! ## §2. Writing a shared word. -/

section Words

variable {K : ℕ} {m m' : Shared} {a : Loc} {w : Word}

/-- `m'` is `m` with `w` in the word `a`; RDCSS tags may have been noted as
installed. -/
structure Written (m m' : Shared) (a : Loc) (w : Word) : Prop where
  word : ∀ b, m'.word b = if b = a then w else m.word b
  ops : m'.ops = m.ops
  kcas : m'.kcas = m.kcas
  rdcss : m'.rdcss = m.rdcss
  rops : ∀ t r, m.rops t = some r → ∃ r', m'.rops t = some r' ∧ r'.desc = r.desc
    ∧ r'.target = r.target ∧ r'.index = r.index ∧ (r.installed = true → r'.installed = true)
  rops_old : ∀ t r', m'.rops t = some r' → ∃ r, m.rops t = some r ∧ r'.desc = r.desc
    ∧ r'.target = r.target ∧ r'.index = r.index

theorem Written.later (hw : Written m m' a w) (h : Inv K m)
    (hkcas : ∀ t, m.word a = .kcas t → m.state t ≠ some .undecided)
    (hrdcss : ∀ t r, m.word a = .rdcss t → m.rops t = some r →
      w = .kcas r.target ∨ m.state r.target ≠ some .undecided)
    (hnew : ∀ t r, w = .rdcss t → m.rops t = some r → r.installed = false) : Later m m' where
  ops t op hop := ⟨op, by rw [hw.ops]; exact hop, rfl, fun _ => rfl, id⟩
  holds t i _ hh op e hop hund he := by
    rw [hw.ops] at hop
    have hold := hh op e hop hund he
    rw [hw.word]
    split
    · rename_i hea
      rw [hea] at hold
      exact absurd (by rw [state_eq hop, hund]) (hkcas t hold)
    · exact hold
  kcas_seq p := by rw [hw.kcas]
  rdcss_seq p := by rw [hw.rdcss]
  rops := hw.rops
  gone t r b hr hinst hne := by
    rw [hw.word]
    split
    · intro heq
      rw [hnew t r heq hr] at hinst
      exact absurd hinst (by simp)
    · exact hne
  swung t r hr hword := by
    rw [hw.word]
    split
    · rename_i hra
      right
      rw [hra] at hword
      rcases hrdcss t r hword hr with heq | hdec
      · intro op e hop _ he
        obtain ⟨op', e', hop', he', hdesc⟩ := h.rop_op t r hr
        rw [hw.ops] at hop
        obtain rfl := Option.some.inj (hop.symm.trans hop')
        obtain rfl := Option.some.inj (he.symm.trans he')
        have haddr : r.desc.addr2 = e.addr := by rw [hdesc]
        rw [hw.word, if_pos (haddr ▸ hra), heq]
      · refine Holds.of_decided ?_
        unfold Shared.state
        rw [hw.ops]
        exact hdec
    · exact Or.inl hword
  late t r _ _ _ hs := by
    unfold Shared.state at hs ⊢
    rw [hw.ops] at hs
    exact hs

theorem Written.inv (hw : Written m m' a w) (h : Inv K m) (hl : Later m m')
    (htag : ∀ t, w = .kcas t → (∃ op, m.ops t = some op ∧ ∃ e ∈ op.entries, e.addr = a)
      ∧ m'.Holds t 0)
    (hrop : ∀ t, w = .rdcss t →
      ∃ r, m'.rops t = some r ∧ r.installed = true ∧ r.desc.addr2 = a) : Inv K m' where
  numEntries_le p := by
    rw [hw.kcas]
    exact h.numEntries_le p
  op_seq t op hop := by
    rw [hw.ops] at hop
    rw [hw.kcas]
    exact h.op_seq t op hop
  op_live t op hop hseq := by
    rw [hw.ops] at hop
    rw [hw.kcas] at hseq ⊢
    exact h.op_live t op hop hseq
  op_old t op hop hseq := by
    rw [hw.ops] at hop
    rw [hw.kcas] at hseq
    exact h.op_old t op hop hseq
  op_length t op hop := h.op_length t op (hw.ops ▸ hop)
  op_wf t op hop := h.op_wf t op (hw.ops ▸ hop)
  differed t op hop := h.differed t op (hw.ops ▸ hop)
  tag_op b t hb := by
    rw [hw.ops]
    rw [hw.word] at hb
    split at hb
    · rename_i hba
      rw [hba]
      exact (htag t hb).1
    · exact h.tag_op b t hb
  tag_first b t hb := by
    rw [hw.word] at hb
    split at hb
    · exact (htag t hb).2
    · obtain ⟨op, hop, -⟩ := h.tag_op b t hb
      exact hl.holds t 0 (by rw [hop]; simp) (h.tag_first b t hb)
  rop_seq t r' hr' := by
    obtain ⟨r, hr, -⟩ := hw.rops_old t r' hr'
    rw [hw.rdcss]
    exact h.rop_seq t r hr
  rop_live t r' hr' hseq := by
    obtain ⟨r, hr, hdesc, -⟩ := hw.rops_old t r' hr'
    rw [hw.rdcss] at hseq ⊢
    rw [hdesc]
    exact h.rop_live t r hr hseq
  rop_op t r' hr' := by
    obtain ⟨r, hr, hdesc, htarget, hindex⟩ := hw.rops_old t r' hr'
    rw [hw.ops, hdesc, htarget, hindex]
    exact h.rop_op t r hr
  rop_first t r' hr' hi := by
    obtain ⟨r, hr, -, htarget, hindex⟩ := hw.rops_old t r' hr'
    rw [hindex] at hi
    obtain ⟨op, e, hop, -⟩ := h.rop_op t r hr
    rw [htarget]
    exact hl.holds _ 0 (by rw [hop]; simp) (h.rop_first t r hr hi)
  tag_rop b t hb := by
    rw [hw.word] at hb
    split at hb
    · rename_i hba
      rw [hba]
      exact hrop t hb
    · obtain ⟨r, hr, hinst, haddr⟩ := h.tag_rop b t hb
      obtain ⟨r', hr', hdesc, -, -, hinst'⟩ := hw.rops t r hr
      exact ⟨r', hr', hinst' hinst, by rw [hdesc]; exact haddr⟩

/-- Only the word that is written can stand for something else. -/
theorem Written.value (hw : Written m m' a w) (h : Inv K m) (ha : m'.value a = m.value a) :
    m'.value = m.value := by
  funext b
  by_cases hb : b = a
  · rw [hb]
    exact ha
  · refine value_congr (by rw [hw.word, if_neg hb]) ?_ (fun t _ => by rw [hw.ops])
    intro t hword
    obtain ⟨r, hr, -⟩ := h.tag_rop b t hword
    obtain ⟨r', hr', hdesc, -⟩ := hw.rops t r hr
    rw [hr, hr', Option.map_some, Option.map_some, hdesc]

theorem Written.steady {p : Tid} (hw : Written m m' a w)
    (hrops : ∀ q n, q ≠ p → m'.rops ⟨q, n⟩ = m.rops ⟨q, n⟩) : Steady p m m' where
  rdcss q _ := by rw [hw.rdcss]
  rops := hrops
  ops q n _ hnone := by rw [hw.ops]; exact hnone
  kcas_seq q _ := by rw [hw.kcas]
  kcas q _ _ := by rw [hw.kcas]

/-- A `BOOL_CAS` that fails changes nothing. -/
theorem cas_of_ne {old new : Word} (hne : m.word a ≠ old) : m.cas a old new = m := by
  unfold Shared.cas
  rw [if_neg hne]

theorem cas_written {old b : Word} (heq : m.word a = old) : Written m (m.cas a old b) a b := by
  unfold Shared.cas
  rw [if_pos heq]
  exact
    { word := fun c => by
        show Function.update m.word a b c = _
        rw [Function.update_apply]
      ops := rfl
      kcas := rfl
      rdcss := rfl
      rops := fun _ r hr => ⟨r, hr, rfl, rfl, rfl, id⟩
      rops_old := fun _ r hr => ⟨r, hr, rfl, rfl, rfl⟩ }

/-- What a write keeps. -/
structure Keeps (K : ℕ) (p : Tid) (m m' : Shared) : Prop where
  inv : Inv K m'
  later : Later m m'
  steady : Steady p m m'

theorem Keeps.refl {p : Tid} (h : Inv K m) : Keeps K p m m := ⟨h, Later.refl m, Steady.refl p m⟩

/-- **The release of a word**: the tag of a decided operation goes, and what the
operation leaves stays. -/
theorem cas_release {p : Tid} {t : Tag} {op : Op} {e : Entry Loc Word} (h : Inv K m)
    (hop : m.ops t = some op) (he : e ∈ op.entries) (hdec : op.state ≠ .undecided) :
    Keeps K p m (m.cas e.addr (.kcas t) (if op.state = .succeeded then e.newval else e.oldval))
      ∧ (m.cas e.addr (.kcas t) (if op.state = .succeeded then e.newval else e.oldval)).value
        = m.value := by
  by_cases hword : m.word e.addr = .kcas t
  · have hw := cas_written (b := if op.state = .succeeded then e.newval else e.oldval) hword
    obtain ⟨v, hv⟩ : ∃ v, (if op.state = .succeeded then e.newval else e.oldval) = .plain v := by
      obtain ⟨hold, hnew⟩ := (h.op_wf t op hop).plain e he
      split
      · exact hnew
      · exact hold
    have hstate : ∀ u, m.word e.addr = .kcas u → m.state u ≠ some .undecided := by
      intro u hu
      obtain rfl := Word.kcas.inj (hword.symm.trans hu)
      rw [state_eq hop]
      exact fun heq => hdec (Option.some.inj heq)
    have hl : Later m _ := hw.later h hstate (fun u r hu _ => absurd (hword.symm.trans hu) (by simp))
      (fun u r hu _ => absurd (hv.symm.trans hu) (by simp))
    refine ⟨⟨hw.inv h hl ?_ ?_, hl, hw.steady fun q n _ => ?_⟩, hw.value h ?_⟩
    · exact fun u hu => absurd (hv.symm.trans hu) (by simp)
    · exact fun u hu => absurd (hv.symm.trans hu) (by simp)
    · unfold Shared.cas
      rw [if_pos hword]
    · have hnow := hw.word e.addr
      rw [if_pos rfl, hv] at hnow
      rw [h.value_kcas hop he hword, hv, ← hv, hv]
      exact value_plain hnow
  · rw [cas_of_ne hword]
    exact ⟨Keeps.refl h, rfl⟩

/-- **The two ways out of an RDCSS**: to the tag of its operation, unless that
has succeeded, or back to the old value once the operation is decided. -/
theorem cas_rdcss {p : Tid} {t : Tag} {r : ROp} (undecided : Bool) (h : Inv K m)
    (hr : m.rops t = some r)
    (hgo : undecided = true → m.word r.desc.addr2 = .rdcss t →
      m.state r.target ≠ some .succeeded)
    (hback : undecided = false → m.state r.target ≠ some .undecided) :
    Keeps K p m
        (m.cas r.desc.addr2 (.rdcss t) (if undecided then r.desc.new2 else r.desc.old2))
      ∧ (m.cas r.desc.addr2 (.rdcss t) (if undecided then r.desc.new2 else r.desc.old2)).value
        = m.value := by
  obtain ⟨op, e, hop, he, hdesc⟩ := h.rop_op t r hr
  have hmem : e ∈ op.entries := List.mem_of_getElem? he
  by_cases hword : m.word r.desc.addr2 = .rdcss t
  · have hw := cas_written (b := if undecided then r.desc.new2 else r.desc.old2) hword
    have haddr : r.desc.addr2 = e.addr := by rw [hdesc]
    have hval : m.value r.desc.addr2 = e.oldval := by
      rw [value_rdcss hr hword, hdesc]
    obtain ⟨⟨v, hv⟩, -⟩ := (h.op_wf r.target op hop).plain e hmem
    cases undecided with
    | true =>
        have hnew : (if true then r.desc.new2 else r.desc.old2) = Word.kcas r.target := by
          rw [if_pos rfl, hdesc]
        have hsucc := hgo rfl hword
        have hnow := ((hw.word r.desc.addr2).trans (if_pos rfl)).trans hnew
        have hl : Later m _ := hw.later h
          (fun u hu => absurd (hword.symm.trans hu) (by simp))
          (fun u r' hu hr' => by
            obtain rfl := Word.rdcss.inj (hword.symm.trans hu)
            obtain rfl := Option.some.inj (hr.symm.trans hr')
            exact Or.inl hnew)
          (fun u r' hu _ => absurd (hnew.symm.trans hu) (by simp))
        refine ⟨⟨hw.inv h hl ?_ ?_, hl, hw.steady fun q n _ => ?_⟩, hw.value h ?_⟩
        · intro u hu
          obtain rfl := Word.kcas.inj (hnew.symm.trans hu)
          refine ⟨⟨op, hop, e, hmem, haddr.symm⟩, ?_⟩
          -- the first word is held by now, or it is this one
          by_cases hi : r.index = 0
          · intro op' e' hop' _ he'
            rw [hw.ops] at hop'
            obtain rfl := Option.some.inj (hop'.symm.trans hop)
            rw [hi] at he
            obtain rfl := Option.some.inj (he'.symm.trans he)
            rw [← haddr]
            exact hnow
          · exact hl.holds r.target 0 (by rw [hop]; simp) (h.rop_first t r hr hi)
        · exact fun u hu => absurd (hnew.symm.trans hu) (by simp)
        · unfold Shared.cas
          rw [if_pos hword]
        · have hop' := hop
          rw [← hw.ops] at hop'
          rw [hval, value_of_kcas hop' hnow, haddr, h.outcome_eq hop hmem, if_neg]
          intro heq
          exact hsucc (by rw [state_eq hop, heq])
    | false =>
        have hnew : (if false then r.desc.new2 else r.desc.old2) = Word.plain v := by
          rw [if_neg (by simp), hdesc]
          exact hv
        have hnow := ((hw.word r.desc.addr2).trans (if_pos rfl)).trans hnew
        have hl : Later m _ := hw.later h
          (fun u hu => absurd (hword.symm.trans hu) (by simp))
          (fun u r' hu hr' => by
            obtain rfl := Word.rdcss.inj (hword.symm.trans hu)
            obtain rfl := Option.some.inj (hr.symm.trans hr')
            exact Or.inr (hback rfl))
          (fun u r' hu _ => absurd (hnew.symm.trans hu) (by simp))
        refine ⟨⟨hw.inv h hl ?_ ?_, hl, hw.steady fun q n _ => ?_⟩, hw.value h ?_⟩
        · exact fun u hu => absurd (hnew.symm.trans hu) (by simp)
        · exact fun u hu => absurd (hnew.symm.trans hu) (by simp)
        · unfold Shared.cas
          rw [if_pos hword]
        · rw [hval, hv]
          exact value_plain hnow
  · rw [cas_of_ne hword]
    exact ⟨Keeps.refl h, rfl⟩

/-- The state with the tag of an RDCSS installed. -/
def Shared.install (m : Shared) (t : Tag) (d : RdcssDesc) : Shared :=
  (m.cas d.addr2 d.old2 (.rdcss t)).setROp t fun r => { r with installed := true }

theorem setROp_rops {t : Tag} {f : ROp → ROp} (u : Tag) :
    (m.setROp t f).rops u = if u = t then (m.rops t).map f else m.rops u := by
  show Function.update m.rops t ((m.rops t).map f) u = _
  rw [Function.update_apply]

/-- **The installation of an RDCSS tag.** -/
theorem Shared.install_keeps {t : Tag} {r : ROp} (h : Inv K m) (hr : m.rops t = some r)
    (hinst : r.installed = false) (hword : m.word r.desc.addr2 = r.desc.old2) :
    Keeps K t.tid m (m.install t r.desc) ∧ (m.install t r.desc).value = m.value := by
  obtain ⟨op, e, hop, he, hdesc⟩ := h.rop_op t r hr
  obtain ⟨⟨v, hv⟩, -⟩ := (h.op_wf r.target op hop).plain e (List.mem_of_getElem? he)
  have hplain : m.word r.desc.addr2 = .plain v := by
    rw [hword, hdesc]
    exact hv
  have hcas := cas_written (b := Word.rdcss t) hword
  have hrops : ∀ u, (m.install t r.desc).rops u
      = if u = t then some { r with installed := true } else m.rops u := by
    intro u
    unfold Shared.install Shared.cas
    rw [if_pos hword, setROp_rops]
    show (if u = t then (m.rops t).map _ else m.rops u) = _
    rw [hr]
    rfl
  have hw : Written m (m.install t r.desc) r.desc.addr2 (.rdcss t) :=
    { word := hcas.word, ops := hcas.ops, kcas := hcas.kcas, rdcss := hcas.rdcss
      rops := by
        intro u ru hru
        rw [hrops]
        split
        · rename_i hut
          obtain rfl := Option.some.inj (hru.symm.trans (hut ▸ hr))
          exact ⟨_, rfl, rfl, rfl, rfl, fun _ => rfl⟩
        · exact ⟨ru, hru, rfl, rfl, rfl, id⟩
      rops_old := by
        intro u ru hru
        rw [hrops] at hru
        split at hru
        · rename_i hut
          obtain rfl := Option.some.inj hru
          exact ⟨r, hut ▸ hr, rfl, rfl, rfl⟩
        · exact ⟨ru, hru, rfl, rfl, rfl⟩ }
  have hl : Later m (m.install t r.desc) := hw.later h
    (fun u hu => absurd (hplain.symm.trans hu) (by simp))
    (fun u ru hu _ => absurd (hplain.symm.trans hu) (by simp))
    (fun u ru hu hru => by
      obtain rfl := Word.rdcss.inj hu
      obtain rfl := Option.some.inj (hru.symm.trans hr)
      exact hinst)
  refine ⟨⟨hw.inv h hl ?_ ?_, hl, hw.steady ?_⟩, hw.value h ?_⟩
  · exact fun u hu => absurd hu (by simp)
  · intro u hu
    obtain rfl := Word.rdcss.inj hu
    exact ⟨{ r with installed := true }, by rw [hrops, if_pos rfl], rfl, rfl⟩
  · intro q n hq
    rw [hrops, if_neg]
    rintro rfl
    exact hq rfl
  · have hnow := hw.word r.desc.addr2
    rw [if_pos rfl] at hnow
    rw [value_plain hplain, value_rdcss (r := { r with installed := true })
      (by rw [hrops, if_pos rfl]) hnow, hdesc]
    exact hv

end Words

/-! ## §3. Deciding an operation. -/

section Deciding

variable {K : ℕ} {m : Shared} {t : Tag} {op : Op}

theorem setOp_ops {f : Op → Op} (u : Tag) :
    (m.setOp t f).ops u = if u = t then (m.ops t).map f else m.ops u := by
  show Function.update m.ops t ((m.ops t).map f) u = _
  rw [Function.update_apply]

/-- The state with a note that a word of the operation `t` has differed from its
`oldval`. -/
def Shared.differ (m : Shared) (t : Tag) : Shared := m.setOp t fun op => { op with differed := true }

/-- What the note leaves as it was. -/
theorem differ_ops {u : Tag} {op' : Op} (hop' : (m.differ t).ops u = some op') :
    ∃ op, m.ops u = some op ∧ op'.entries = op.entries ∧ op'.state = op.state
      ∧ (op.differed = true → op'.differed = true) := by
  unfold Shared.differ at hop'
  rw [setOp_ops] at hop'
  split at hop'
  · rename_i hut
    rw [Option.map_eq_some_iff] at hop'
    obtain ⟨op, hop, rfl⟩ := hop'
    exact ⟨op, by rw [hut]; exact hop, rfl, rfl, fun _ => rfl⟩
  · exact ⟨op', hop', rfl, rfl, id⟩

theorem differ_ops_some {u : Tag} (hop : m.ops u = some op) :
    ∃ op', (m.differ t).ops u = some op' ∧ op'.entries = op.entries ∧ op'.state = op.state
      ∧ (op.differed = true → op'.differed = true) := by
  unfold Shared.differ
  rw [setOp_ops]
  split
  · rename_i hut
    rw [hut] at hop
    rw [hop]
    exact ⟨_, rfl, rfl, rfl, fun _ => rfl⟩
  · exact ⟨op, hop, rfl, rfl, id⟩

theorem differ_holds {u : Tag} {i : ℕ} (h : m.Holds u i) : (m.differ t).Holds u i := by
  intro op' e hop' hund he
  obtain ⟨op, hop, hentries, hstate, -⟩ := differ_ops hop'
  rw [hentries] at he
  rw [hstate] at hund
  exact h op e hop hund he

theorem differ_state (u : Tag) : (m.differ t).state u = m.state u := by
  unfold Shared.state Shared.differ
  rw [setOp_ops]
  split
  · rename_i hut
    rw [hut, Option.map_map]
    rfl
  · rfl

theorem differ_keeps {p : Tid} (h : Inv K m) : Keeps K p m (m.differ t) where
  inv :=
    { numEntries_le := h.numEntries_le
      op_seq := by
        intro u op' hop'
        obtain ⟨op, hop, -⟩ := differ_ops hop'
        exact h.op_seq u op hop
      op_live := by
        intro u op' hop' hlive
        obtain ⟨op, hop, hentries, hstate, -⟩ := differ_ops hop'
        rw [hentries, hstate]
        exact h.op_live u op hop hlive
      op_old := by
        intro u op' hop' hold
        obtain ⟨op, hop, -, hstate, -⟩ := differ_ops hop'
        rw [hstate]
        exact h.op_old u op hop hold
      op_length := by
        intro u op' hop'
        obtain ⟨op, hop, hentries, -⟩ := differ_ops hop'
        rw [hentries]
        exact h.op_length u op hop
      op_wf := by
        intro u op' hop'
        obtain ⟨op, hop, hentries, -⟩ := differ_ops hop'
        rw [hentries]
        exact h.op_wf u op hop
      differed := by
        intro u op' hop' hfailed
        obtain ⟨op, hop, -, hstate, hdiffered⟩ := differ_ops hop'
        rw [hstate] at hfailed
        exact hdiffered (h.differed u op hop hfailed)
      tag_op := by
        intro a u hw
        obtain ⟨op, hop, he⟩ := h.tag_op a u hw
        obtain ⟨op', hop', hentries, -⟩ := differ_ops_some hop
        rw [← hentries] at he
        exact ⟨op', hop', he⟩
      tag_first := fun a u hw => differ_holds (h.tag_first a u hw)
      rop_seq := h.rop_seq
      rop_live := h.rop_live
      rop_op := by
        intro u r hr
        obtain ⟨op, e, hop, he, hdesc⟩ := h.rop_op u r hr
        obtain ⟨op', hop', hentries, -⟩ := differ_ops_some hop
        rw [← hentries] at he
        exact ⟨op', e, hop', he, hdesc⟩
      rop_first := fun u r hr hi => differ_holds (h.rop_first u r hr hi)
      tag_rop := h.tag_rop }
  later :=
    { Later.refl m with
      ops := by
        intro u op hop
        obtain ⟨op', hop', hentries, hstate, hdiffered⟩ := differ_ops_some hop
        exact ⟨op', hop', hentries, fun _ => hstate, hdiffered⟩
      holds := fun u i _ hh => differ_holds hh
      swung := fun u r _ hw => Or.inl hw
      late := by
        intro u r _ _ _ hs
        rw [differ_state] at hs
        exact hs }
  steady :=
    { Steady.refl p m with
      ops := by
        intro q n hq hnone
        cases hop' : (m.differ t).ops ⟨q, n⟩ with
        | none => rfl
        | some op' =>
            obtain ⟨op, hop, -⟩ := differ_ops hop'
            exact absurd (hnone.symm.trans hop) (by simp) }

theorem outcome_congr {op op' : Op} (hentries : op'.entries = op.entries)
    (hstate : op'.state = .succeeded ↔ op.state = .succeeded) (a : Loc) :
    Shared.outcome op' a = Shared.outcome op a := by
  unfold Shared.outcome
  rw [hentries]
  simp only [hstate]

theorem differ_value (h : Inv K m) : (m.differ t).value = m.value := by
  funext a
  refine value_congr rfl (fun _ _ => rfl) ?_
  intro u hw
  obtain ⟨op, hop, -⟩ := h.tag_op a u hw
  obtain ⟨op', hop', hentries, hstate, -⟩ := differ_ops_some hop
  rw [hop, hop', Option.map_some, Option.map_some, outcome_congr hentries (by rw [hstate])]

/-- The state with the decision `st` about the operation `t`. -/
def Shared.settle (m : Shared) (t : Tag) (st : KState) : Shared :=
  (m.setKcas t.tid { m.kcas t.tid with seqBits := ⟨t.seq, st⟩ }).setOp t
    fun op => { op with state := st }

theorem settle_kcas {st : KState} (q : Tid) : (m.settle t st).kcas q
    = if q = t.tid then { m.kcas t.tid with seqBits := ⟨t.seq, st⟩ } else m.kcas q :=
  setKcas_apply _ q

theorem settle_ops {st : KState} (hop : m.ops t = some op) (u : Tag) :
    (m.settle t st).ops u = if u = t then some { op with state := st } else m.ops u := by
  unfold Shared.settle
  rw [setOp_ops]
  show (if u = t then (m.ops t).map _ else m.ops u) = _
  rw [hop]
  rfl

theorem settle_holds {st : KState} (hop : m.ops t = some op) (hst : st ≠ .undecided) {u : Tag}
    {i : ℕ} (h : m.Holds u i) : (m.settle t st).Holds u i := by
  intro op' e hop' hund he
  rw [settle_ops hop] at hop'
  split at hop'
  · obtain rfl := Option.some.inj hop'
    exact absurd hund hst
  · exact h op' e hop' hund he

theorem settle_cases {st : KState} (hop : m.ops t = some op) {u : Tag} {op' : Op}
    (hop' : (m.settle t st).ops u = some op') :
    u = t ∧ op' = { op with state := st } ∨ u ≠ t ∧ m.ops u = some op' := by
  rw [settle_ops hop] at hop'
  split at hop'
  · rename_i hut
    exact Or.inl ⟨hut, (Option.some.inj hop').symm⟩
  · rename_i hut
    exact Or.inr ⟨hut, hop'⟩

theorem settle_entries (st : KState) (hop : m.ops t = some op) {u : Tag} {op' : Op}
    (hop' : m.ops u = some op') :
    ∃ op'', (m.settle t st).ops u = some op'' ∧ op''.entries = op'.entries := by
  rw [settle_ops hop]
  split
  · rename_i hut
    rw [hut] at hop'
    obtain rfl := Option.some.inj (hop.symm.trans hop')
    exact ⟨_, rfl, rfl⟩
  · exact ⟨op', hop', rfl⟩

theorem settle_seq {st : KState} (hseq : (m.kcas t.tid).seqBits.seq = t.seq) (q : Tid) :
    ((m.settle t st).kcas q).seqBits.seq = (m.kcas q).seqBits.seq := by
  rw [settle_kcas]
  split
  · rename_i hq
    rw [hq, hseq]
  · rfl

theorem settle_inv {st : KState} (h : Inv K m) (hop : m.ops t = some op)
    (hseq : (m.kcas t.tid).seqBits.seq = t.seq) (hst : st ≠ .undecided)
    (hfail : st = .failed → op.differed = true) : Inv K (m.settle t st) := by
  refine
    { numEntries_le := ?_, op_seq := ?_, op_live := ?_, op_old := ?_, op_length := ?_, op_wf := ?_,
      differed := ?_, tag_op := ?_, tag_first := ?_, rop_seq := h.rop_seq, rop_live := h.rop_live,
      rop_op := ?_, rop_first := ?_, tag_rop := h.tag_rop }
  · intro q
    rw [settle_kcas]
    split
    · exact h.numEntries_le t.tid
    · exact h.numEntries_le q
  · intro u op' hop'
    rw [settle_seq hseq]
    rcases settle_cases hop hop' with ⟨rfl, -⟩ | ⟨-, hop'⟩
    · exact h.op_seq u op hop
    · exact h.op_seq u op' hop'
  · intro u op' hop' hlive
    rw [settle_seq hseq] at hlive
    rw [settle_kcas]
    rcases settle_cases hop hop' with ⟨rfl, rfl⟩ | ⟨hut, hop'⟩
    · rw [if_pos rfl]
      exact ⟨rfl, (h.op_live u op hop hlive).2⟩
    · rw [if_neg]
      · exact h.op_live u op' hop' hlive
      · intro htid
        rw [htid, hseq] at hlive
        exact hut (by cases u; cases t; simp_all)
  · intro u op' hop' hlive
    rw [settle_seq hseq] at hlive
    rcases settle_cases hop hop' with ⟨rfl, rfl⟩ | ⟨-, hop'⟩
    · exact hst
    · exact h.op_old u op' hop' hlive
  · intro u op' hop'
    rcases settle_cases hop hop' with ⟨rfl, rfl⟩ | ⟨-, hop'⟩
    · exact h.op_length u op hop
    · exact h.op_length u op' hop'
  · intro u op' hop'
    rcases settle_cases hop hop' with ⟨rfl, rfl⟩ | ⟨-, hop'⟩
    · exact h.op_wf u op hop
    · exact h.op_wf u op' hop'
  · intro u op' hop' hfailed
    rcases settle_cases hop hop' with ⟨rfl, rfl⟩ | ⟨-, hop'⟩
    · exact hfail hfailed
    · exact h.differed u op' hop' hfailed
  · intro a u hw
    obtain ⟨op', hop', he⟩ := h.tag_op a u hw
    obtain ⟨op'', hop'', hentries⟩ := settle_entries st hop hop'
    rw [← hentries] at he
    exact ⟨op'', hop'', he⟩
  · exact fun a u hw => settle_holds hop hst (h.tag_first a u hw)
  · intro u r hr
    obtain ⟨op', e, hop', he, hdesc⟩ := h.rop_op u r hr
    obtain ⟨op'', hop'', hentries⟩ := settle_entries st hop hop'
    rw [← hentries] at he
    exact ⟨op'', e, hop'', he, hdesc⟩
  · exact fun u r hr hi => settle_holds hop hst (h.rop_first u r hr hi)

/-- A decision for success is made when every word is held, so that no RDCSS of
the operation can be late. -/
theorem settle_later {st : KState} (h : Inv K m) (hop : m.ops t = some op)
    (hseq : (m.kcas t.tid).seqBits.seq = t.seq) (hund : op.state = .undecided) (hst : st ≠ .undecided)
    (hsucc : st = .succeeded → ∀ i, m.Holds t i) : Later m (m.settle t st) := by
  refine
    { Later.refl m with
      ops := ?_, holds := fun u i _ hh => settle_holds hop hst hh, kcas_seq := ?_,
      swung := fun u r _ hw => Or.inl hw, late := ?_ }
  · intro u op' hop'
    rw [settle_ops hop]
    split
    · rename_i hut
      rw [hut] at hop'
      obtain rfl := Option.some.inj (hop.symm.trans hop')
      exact ⟨_, rfl, rfl, fun hne => absurd hund hne, id⟩
    · exact ⟨op', hop', rfl, fun _ => rfl, id⟩
  · intro q
    rw [settle_seq hseq]
  · intro u r hr _ hw hs
    by_cases htarget : r.target = t
    · -- a word that waits for the tag is not held
      obtain ⟨op', hop', hdone⟩ := exists_of_state hs
      rw [htarget, settle_ops hop, if_pos rfl] at hop'
      obtain rfl := Option.some.inj hop'
      obtain ⟨op', e, hop', he, hdesc⟩ := h.rop_op u r hr
      rw [htarget] at hop'
      obtain rfl := Option.some.inj (hop.symm.trans hop')
      have hheld := hsucc hdone r.index op e hop hund he
      have haddr : r.desc.addr2 = e.addr := by rw [hdesc]
      rw [haddr] at hw
      exact absurd (hw.symm.trans hheld) (by simp)
    · unfold Shared.state at hs ⊢
      rw [settle_ops hop, if_neg htarget] at hs
      exact hs

theorem settle_steady {p : Tid} {st : KState} (hop : m.ops t = some op)
    (hseq : (m.kcas t.tid).seqBits.seq = t.seq) : Steady p m (m.settle t st) := by
  refine
    { Steady.refl p m with
      ops := ?_, kcas_seq := fun q _ => settle_seq hseq q, kcas := ?_ }
  · intro q n _ hnone
    rw [settle_ops hop, if_neg]
    · exact hnone
    · rintro rfl
      exact absurd (hnone.symm.trans hop) (by simp)
  · intro q _ hnone
    rw [settle_kcas, if_neg]
    intro hq
    rw [hq, hseq] at hnone
    exact absurd (hnone.symm.trans hop) (by simp)

/-- **The decision**: for success when every word of the operation is held, for
failure when one was seen to differ. -/
theorem settle_keeps {p : Tid} {st : KState} (h : Inv K m) (hop : m.ops t = some op)
    (hbits : (m.kcas t.tid).seqBits = ⟨t.seq, .undecided⟩) (hst : st ≠ .undecided)
    (hsucc : st = .succeeded → ∀ i, m.Holds t i) (hfail : st = .failed → op.differed = true) :
    Keeps K p m (m.settle t st) := by
  have hseq : (m.kcas t.tid).seqBits.seq = t.seq := by rw [hbits]
  have hund : op.state = .undecided := by
    rw [← (h.op_live t op hop hseq).1, hbits]
  exact ⟨settle_inv h hop hseq hst hfail, settle_later h hop hseq hund hst hsucc,
    settle_steady hop hseq⟩

/-- A failed operation leaves every word as it was. -/
theorem settle_failed_value (hop : m.ops t = some op)
    (hund : op.state = .undecided) : (m.settle t .failed).value = m.value := by
  funext a
  refine value_congr rfl (fun _ _ => rfl) ?_
  intro u hw
  rw [settle_ops hop]
  split
  · rename_i hut
    have hsame : Shared.outcome { op with state := .failed } a = Shared.outcome op a := by
      refine outcome_congr ?_ ?_ a
      · rfl
      · simp [hund]
    rw [hut, hop, Option.map_some, Option.map_some, hsame]
  · rfl

/-- **The decision for success is the k-CAS**: every word has its `oldval`, and
from then on its `newval`. -/
theorem settle_succeeded_value (h : Inv K m) (hop : m.ops t = some op)
    (hund : op.state = .undecided) (hheld : ∀ i, m.Holds t i) :
    Matches m.value op.entries ∧ (m.settle t .succeeded).value = commit m.value op.entries := by
  have hword : ∀ e ∈ op.entries, m.word e.addr = .kcas t := by
    intro e he
    obtain ⟨i, hi⟩ := List.getElem?_of_mem he
    exact hheld i op e hop hund hi
  have hnow : (m.settle t .succeeded).ops t = some { op with state := .succeeded } := by
    rw [settle_ops hop, if_pos rfl]
  refine ⟨?_, ?_⟩
  · intro e he
    rw [h.value_kcas hop he (hword e he), hund, if_neg (by simp)]
  · funext a
    by_cases ha : ∃ e ∈ op.entries, e.addr = a
    · obtain ⟨e, he, rfl⟩ := ha
      rw [commit_of_mem m.value op.entries (h.op_wf t op hop).nodup e he]
      rw [value_of_kcas hnow (hword e he)]
      unfold Shared.outcome
      rw [(h.op_wf t op hop).find he]
      exact if_pos rfl
    · rw [commit_of_not_mem m.value op.entries a fun e he hea => ha ⟨e, he, hea⟩]
      refine value_congr rfl (fun _ _ => rfl) ?_
      intro u hw
      rw [settle_ops hop, if_neg]
      rintro rfl
      obtain ⟨op', hop', he⟩ := h.tag_op a u hw
      obtain rfl := Option.some.inj (hop.symm.trans hop')
      exact ha he

end Deciding

end MultiCore.KCASLockFree
