/-
  MultiCore.KCASLockFree.Invariant — what the shared state shows, and its
  invariant.

    * `Shared.value` — the plain word that a shared word stands for: a word with
      a tag stands for the old value of its operation, or the new one once the
      operation has succeeded;
    * `Inv` — the invariant of the shared state;
    * `Later` and `Steady` — what any step leaves true for the threads that are
      elsewhere.
-/
import MultiCore.KCASLockFree.Model

namespace MultiCore.KCASLockFree

open MultiCore.Lib

/-! ## §1. What a shared state shows. -/

/-- Pairwise distinct addresses, and values without tag bits. -/
structure WellFormed (es : List (Entry Loc Word)) : Prop where
  nodup : (es.map Entry.addr).Nodup
  plain : ∀ e ∈ es, (∃ v, e.oldval = .plain v) ∧ ∃ v, e.newval = .plain v

namespace Shared

variable (m : Shared)

def state (t : Tag) : Option KState := (m.ops t).map Op.state

/-- What the operation leaves in the words it holds. -/
def outcome (op : Op) (a : Loc) : Word :=
  match op.entries.find? (fun e => e.addr = a) with
  | some e => if op.state = .succeeded then e.newval else e.oldval
  | none => .plain 0

/-- The plain word that a shared word stands for. -/
def value (a : Loc) : Word :=
  match m.word a with
  | .plain v => .plain v
  | .rdcss t => ((m.rops t).map fun r => r.desc.old2).getD (.plain 0)
  | .kcas t => ((m.ops t).map fun op => outcome op a).getD (.plain 0)

/-- The word of its entry `i` holds the tag of the operation, as long as the
operation is undecided. -/
def Holds (t : Tag) (i : ℕ) : Prop :=
  ∀ op e, m.ops t = some op → op.state = .undecided → op.entries[i]? = some e →
    m.word e.addr = .kcas t

end Shared

/-- The invariant of the shared state. -/
structure Inv (K : ℕ) (m : Shared) : Prop where
  numEntries_le : ∀ p, (m.kcas p).numEntries ≤ K
  op_seq : ∀ t op, m.ops t = some op → t.seq ≤ (m.kcas t.tid).seqBits.seq
  op_live : ∀ t op, m.ops t = some op → (m.kcas t.tid).seqBits.seq = t.seq →
    (m.kcas t.tid).seqBits.state = op.state ∧ (m.kcas t.tid).list = op.entries
  op_old : ∀ t op, m.ops t = some op → (m.kcas t.tid).seqBits.seq ≠ t.seq →
    op.state ≠ .undecided
  op_length : ∀ t op, m.ops t = some op → op.entries.length ≤ K
  op_wf : ∀ t op, m.ops t = some op → WellFormed op.entries
  differed : ∀ t op, m.ops t = some op → op.state = .failed → op.differed = true
  tag_op : ∀ a t, m.word a = .kcas t → ∃ op, m.ops t = some op ∧ ∃ e ∈ op.entries, e.addr = a
  /-- The owner locks the first word before a tag is seen anywhere else. -/
  tag_first : ∀ a t, m.word a = .kcas t → m.Holds t 0
  rop_seq : ∀ t r, m.rops t = some r → t.seq ≤ (m.rdcss t.tid).seq
  rop_live : ∀ t r, m.rops t = some r → (m.rdcss t.tid).seq = t.seq → m.rdcss t.tid = r.desc
  rop_op : ∀ t r, m.rops t = some r → ∃ op e, m.ops r.target = some op
    ∧ op.entries[r.index]? = some e
    ∧ r.desc = ⟨t.seq, r.target.tid, .kcas r.target, e.addr, e.oldval, .kcas r.target⟩
  rop_first : ∀ t r, m.rops t = some r → r.index ≠ 0 → m.Holds r.target 0
  tag_rop : ∀ a t, m.word a = .rdcss t →
    ∃ r, m.rops t = some r ∧ r.installed = true ∧ r.desc.addr2 = a

/-- What a step leaves true for the threads that do not take it. -/
structure Later (m m' : Shared) : Prop where
  ops : ∀ t op, m.ops t = some op → ∃ op', m'.ops t = some op' ∧ op'.entries = op.entries
    ∧ (op.state ≠ .undecided → op'.state = op.state)
    ∧ (op.differed = true → op'.differed = true)
  holds : ∀ t i, m.ops t ≠ none → m.Holds t i → m'.Holds t i
  kcas_seq : ∀ p, (m.kcas p).seqBits.seq ≤ (m'.kcas p).seqBits.seq
  rdcss_seq : ∀ p, (m.rdcss p).seq ≤ (m'.rdcss p).seq
  rops : ∀ t r, m.rops t = some r → ∃ r', m'.rops t = some r' ∧ r'.desc = r.desc
    ∧ r'.target = r.target ∧ r'.index = r.index ∧ (r.installed = true → r'.installed = true)
  /-- A tag of an RDCSS is installed once. -/
  gone : ∀ t r a, m.rops t = some r → r.installed = true → m.word a ≠ .rdcss t →
    m'.word a ≠ .rdcss t
  /-- While the operation is undecided, its RDCSS ends with the tag of the
  operation in the word. -/
  swung : ∀ t r, m.rops t = some r → m.word r.desc.addr2 = .rdcss t →
    m'.word r.desc.addr2 = .rdcss t ∨ m'.Holds r.target r.index
  /-- An operation does not succeed while one of its words waits for its tag. -/
  late : ∀ t r, m.rops t = some r → r.installed = true → m'.word r.desc.addr2 = .rdcss t →
    m'.state r.target = some .succeeded → m.state r.target = some .succeeded

/-- What only thread `p` can change. -/
structure Steady (p : Tid) (m m' : Shared) : Prop where
  rdcss : ∀ q, q ≠ p → m'.rdcss q = m.rdcss q
  rops : ∀ q n, q ≠ p → m'.rops ⟨q, n⟩ = m.rops ⟨q, n⟩
  ops : ∀ q n, q ≠ p → m.ops ⟨q, n⟩ = none → m'.ops ⟨q, n⟩ = none
  kcas_seq : ∀ q, q ≠ p → (m'.kcas q).seqBits.seq = (m.kcas q).seqBits.seq
  kcas : ∀ q, q ≠ p → m.ops ⟨q, (m.kcas q).seqBits.seq⟩ = none → m'.kcas q = m.kcas q

theorem Later.refl (m : Shared) : Later m m where
  ops _ op h := ⟨op, h, rfl, fun _ => rfl, id⟩
  holds _ _ _ h := h
  kcas_seq _ := Nat.le_refl _
  rdcss_seq _ := Nat.le_refl _
  rops _ r h := ⟨r, h, rfl, rfl, rfl, id⟩
  gone _ _ _ _ _ h := h
  swung _ _ _ h := Or.inl h
  late _ _ _ _ _ h := h

theorem Steady.refl (p : Tid) (m : Shared) : Steady p m m :=
  ⟨fun _ _ => rfl, fun _ _ _ => rfl, fun _ _ _ h => h, fun _ _ => rfl, fun _ _ _ => rfl⟩

/-! ## §2. Consequences of the invariant. -/

section Consequences

variable {K : ℕ} {m m' : Shared} {t : Tag} {op : Op}

theorem state_eq (h : m.ops t = some op) : m.state t = some op.state := by
  unfold Shared.state
  rw [h]
  rfl

theorem exists_of_state {st : KState} (h : m.state t = some st) :
    ∃ op, m.ops t = some op ∧ op.state = st := by
  unfold Shared.state at h
  rw [Option.map_eq_some_iff] at h
  exact h

theorem Holds.of_decided {i : ℕ} (h : m.state t ≠ some .undecided) : m.Holds t i := by
  intro op e hop hund _
  exact absurd (by rw [state_eq hop, hund]) h

theorem list_getElem? {d : KcasDesc} {i : ℕ} :
    d.list[i]? = if i < d.numEntries then some (d.entries i) else none := by
  unfold KcasDesc.list
  rw [List.getElem?_map]
  split
  · rename_i hi
    rw [List.getElem?_range hi]
    rfl
  · rename_i hi
    rw [List.getElem?_eq_none (by rw [List.length_range]; omega)]
    rfl

theorem list_length (d : KcasDesc) : d.list.length = d.numEntries := by
  unfold KcasDesc.list
  rw [List.length_map, List.length_range]

theorem WellFormed.find {es : List (Entry Loc Word)} (h : WellFormed es) {e : Entry Loc Word}
    (he : e ∈ es) : es.find? (fun e' => e'.addr = e.addr) = some e := by
  have hnodup := h.nodup
  clear h
  induction es with
  | nil => exact absurd he List.not_mem_nil
  | cons e₁ es ih =>
      rw [List.map_cons, List.nodup_cons] at hnodup
      rw [List.find?_cons]
      rcases List.mem_cons.mp he with rfl | he
      · simp
      · have hne : e₁.addr ≠ e.addr := fun heq => hnodup.1 (heq ▸ List.mem_map_of_mem he)
        simp only [hne, decide_false]
        exact ih he hnodup.2

theorem Inv.outcome_eq (h : Inv K m) (hop : m.ops t = some op) {e : Entry Loc Word}
    (he : e ∈ op.entries) :
    Shared.outcome op e.addr = if op.state = .succeeded then e.newval else e.oldval := by
  unfold Shared.outcome
  rw [(h.op_wf t op hop).find he]

theorem value_of_kcas {a : Loc} (hop : m.ops t = some op) (hw : m.word a = .kcas t) :
    m.value a = Shared.outcome op a := by
  unfold Shared.value
  rw [hw]
  simp only [hop, Option.map_some, Option.getD_some]

/-- A word with the tag of an operation stands for the value of its entry. -/
theorem Inv.value_kcas (h : Inv K m) (hop : m.ops t = some op) {e : Entry Loc Word}
    (he : e ∈ op.entries) (hw : m.word e.addr = .kcas t) :
    m.value e.addr = if op.state = .succeeded then e.newval else e.oldval := by
  rw [value_of_kcas hop hw]
  exact h.outcome_eq hop he

theorem value_rdcss {r : ROp} (hr : m.rops t = some r) {a : Loc} (hw : m.word a = .rdcss t) :
    m.value a = r.desc.old2 := by
  unfold Shared.value
  rw [hw]
  simp only [hr, Option.map_some, Option.getD_some]

theorem value_plain {a : Loc} {v : ℕ} (hw : m.word a = .plain v) : m.value a = .plain v := by
  unfold Shared.value
  rw [hw]

/-- The value of a word depends on what its tag names. -/
theorem value_congr {a : Loc} (hw : m'.word a = m.word a)
    (hr : ∀ t, m.word a = .rdcss t →
      (m'.rops t).map (fun r => r.desc.old2) = (m.rops t).map fun r => r.desc.old2)
    (hk : ∀ t, m.word a = .kcas t →
      (m'.ops t).map (fun op => Shared.outcome op a) = (m.ops t).map fun op => Shared.outcome op a) :
    m'.value a = m.value a := by
  unfold Shared.value
  rw [hw]
  cases hword : m.word a with
  | plain v => rfl
  | rdcss t =>
      show ((m'.rops t).map fun r => r.desc.old2).getD (.plain 0) = _
      rw [hr t hword]
  | kcas t =>
      show ((m'.ops t).map fun op => Shared.outcome op a).getD (.plain 0) = _
      rw [hk t hword]

theorem Later.state (h : Later m m') {st : KState} (hst : st ≠ .undecided)
    (hs : m.state t = some st) : m'.state t = some st := by
  obtain ⟨op, hop, rfl⟩ := exists_of_state hs
  obtain ⟨op', hop', -, hstate, -⟩ := h.ops t op hop
  rw [state_eq hop', hstate hst]

theorem Later.decided (h : Later m m') (hsome : m.ops t ≠ none)
    (hs : m.state t ≠ some .undecided) : m'.state t ≠ some .undecided := by
  obtain ⟨op, hop⟩ := Option.ne_none_iff_exists'.mp hsome
  rw [state_eq hop] at hs
  have hst : op.state ≠ .undecided := fun heq => hs (by rw [heq])
  rw [h.state hst (state_eq hop)]
  exact fun heq => hst (Option.some.inj heq)

end Consequences

end MultiCore.KCASLockFree
