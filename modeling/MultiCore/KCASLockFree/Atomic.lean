/-
  MultiCore.KCASLockFree.Atomic — `execute` is an atomic multi-word
  compare-and-swap.

  The plain word that each shared word stands for (`Shared.value`) makes up a
  memory.  A step of the implementation changes that memory only when it
  decides that an operation succeeds, and then it does all that the operation
  asks for.  What remains is bookkeeping: which call of `execute` the operation
  belongs to (`Exec`), and that a call that fails has seen a word that differs.

  Main results:
    * `Atomic` — the specification, along a run;
    * `execute_atomic` — every run meets it.
-/
import MultiCore.KCASLockFree.Sound

namespace MultiCore.KCASLockFree

open MultiCore.Lib

/-! ## §1. The specification. -/

section Specification

variable {K : ℕ} {word : Loc → ℕ} (r : Run (system K word))

/-- The memory of plain words. -/
def memory (i : ℕ) : Loc → Word := (r.state i).mem.value

/-- What thread `p` is doing. -/
def callAt (p : Tid) (i : ℕ) : Call := ((r.state i).thread p).call

/-- The entries of the descriptor of thread `p`. -/
def entriesAt (p : Tid) (i : ℕ) : List (Entry Loc Word) := ((r.state i).mem.kcas p).list

/-- The call that action `b` has made is not over at time `i`. -/
def Inside (p : Tid) (b i : ℕ) : Prop :=
  b < i ∧ ∀ j, b < j → j ≤ i → (callAt r p j).Returned = false

/-- The run is one of an atomic multi-word compare-and-swap on plain words.
`commits i` is the call of `execute` that takes effect by step `i`, given by its
thread and the action that has made it. -/
structure Atomic (commits : ℕ → Option (Tid × ℕ)) : Prop where
  start : ∀ a, memory r 0 a = .plain (word a)
  plain : ∀ i ≤ r.len, ∀ a, ∃ v, memory r i a = .plain v
  /-- Other steps change nothing. -/
  quiet : ∀ i < r.len, commits i = none → memory r (i + 1) = memory r i
  /-- The step writes all new values over the old ones, between the call and its
  return. -/
  commit : ∀ i < r.len, ∀ p b, commits i = some (p, b) → r.act b = .execute p ∧ Inside r p b i
    ∧ Matches (memory r i) (entriesAt r p b)
    ∧ memory r (i + 1) = Lib.commit (memory r i) (entriesAt r p b)
  once : ∀ i < r.len, ∀ j < r.len, ∀ x, commits i = some x → commits j = some x → i = j
  /-- A call that returns true has taken effect. -/
  succeeded : ∀ n < r.len, ∀ p b, r.act b = .execute p → Inside r p b n →
    callAt r p (n + 1) = .executed true → ∃ i ≤ n, commits i = some (p, b)
  /-- A call that returns false never does, and some word has differed. -/
  failed : ∀ n < r.len, ∀ p b, r.act b = .execute p → Inside r p b n →
    callAt r p (n + 1) = .executed false → (∀ i < r.len, commits i ≠ some (p, b))
      ∧ ∃ i, b < i ∧ i ≤ n ∧ ∃ e ∈ entriesAt r p b, memory r i e.addr ≠ e.oldval
  /-- A call of `readPtr` returns what its word held at some instant. -/
  read : ∀ n < r.len, ∀ p a b, r.act b = .readPtr p a → Inside r p b n →
    ∀ a' result, callAt r p (n + 1) = .read a' result →
      a' = a ∧ ∃ i, b < i ∧ i ≤ n ∧ result = memory r i a

end Specification

/-! ## §2. Steps, call by call. -/

section Steps

variable {K : ℕ} {s s' : State} {p : Tid} {m m' : Shared} {th th' : Thread}

/-- Other threads stay where they are. -/
theorem next_other {a : Action} (hn : next K s a = some s') (hne : a.tid ≠ p) :
    s'.thread p = s.thread p := by
  unfold next at hn
  rw [Option.map_eq_some_iff] at hn
  obtain ⟨⟨m', th'⟩, -, rfl⟩ := hn
  show Function.update s.thread a.tid th' p = s.thread p
  rw [Function.update_of_ne hne.symm]

/-- Inside a call a thread only takes steps. -/
theorem next_inside {a : Action} (hn : next K s a = some s') (htid : a.tid = p)
    (hret : (s.thread p).call.Returned = false) : a = .step p := by
  subst htid
  cases a with
  | step q => rfl
  | _ =>
      unfold next at hn
      dsimp only at hn
      rw [if_neg (by rw [hret]; simp)] at hn
      exact absurd hn (by simp)

theorem next_step (hn : next K s (.step p) = some s') :
    ∃ m' th', KCASLockFree.step K s.mem p (s.thread p) = some (m', th') ∧ s'.mem = m'
      ∧ s'.thread p = th' := by
  unfold next at hn
  rw [Option.map_eq_some_iff] at hn
  obtain ⟨⟨m', th'⟩, hstep, rfl⟩ := hn
  exact ⟨m', th', hstep, rfl, Function.update_self _ _ _⟩

theorem next_execute (hn : next K s (.execute p) = some s') :
    s'.mem = s.mem.setKcas p (s.mem.kcas p).sort ∧ (s'.thread p).call = .initRead := by
  unfold next at hn
  rw [Option.map_eq_some_iff] at hn
  obtain ⟨⟨m', th'⟩, hmoved, rfl⟩ := hn
  dsimp only at hmoved
  split at hmoved
  · unfold KCASLockFree.call at hmoved
    dsimp only at hmoved
    split at hmoved
    · obtain ⟨rfl, rfl⟩ := Prod.mk.inj (Option.some.inj hmoved)
      refine ⟨rfl, ?_⟩
      show (Function.update s.thread p _ p).call = _
      rw [Function.update_self]
    · exact absurd hmoved (by simp)
  · exact absurd hmoved (by simp)

theorem next_readPtr {a : Loc} (hn : next K s (.readPtr p a) = some s') :
    (s'.thread p).call = .reading a := by
  unfold next at hn
  rw [Option.map_eq_some_iff] at hn
  obtain ⟨⟨m', th'⟩, hmoved, rfl⟩ := hn
  dsimp only at hmoved
  split at hmoved
  · obtain ⟨rfl, rfl⟩ := Prod.mk.inj (Option.some.inj hmoved)
    show (Function.update s.thread p _ p).call = _
    rw [Function.update_self]
  · exact absurd hmoved (by simp)

/-- **A step of `execute`**: it goes on, or returns what has been decided. -/
theorem step_executing (hi : Inv K m) (hok : ThreadOk m p th) (hcall : th.call = .executing)
    (hstep : KCASLockFree.step K m p th = some (m', th')) :
    Quiet m m' ∧ (th'.call = .executing ∨ ∃ result op, th'.call = .executed result
      ∧ m'.ops ⟨p, (m'.kcas p).seqBits.seq⟩ = some op ∧ op.state ≠ .undecided
      ∧ (result = true ↔ op.state = .succeeded)) := by
  cases hframes : th.frames with
  | nil =>
      have hstack := hok.stack
      rw [hframes] at hstack
      exact absurd hcall hstack
  | cons f fs =>
      obtain ⟨o, hs, rfl⟩ := step_help hframes hstep
      have hc := Help.step_correct hi (hok.frames f (by rw [hframes]; simp)) hs
      refine ⟨hc.quiet, ?_⟩
      rcases o.resumed_cases th.call fs with hsame | ⟨rfl, result, rfl, hres⟩
      · exact Or.inl (hsame.trans hcall)
      · -- the outermost call of `help` returns
        have hstack := hok.stack
        rw [hframes] at hstack
        rcases hstack with ⟨-, -, htag⟩ | ⟨⟨a, hread⟩, -⟩
        · obtain ⟨op, hop, hdec, hiff⟩ := hc.after (by rw [htag]; exact hc.quiet.kcas_seq p)
          right
          refine ⟨result, op, by rw [hres, hcall]; rfl, ?_, hdec, hiff⟩
          rw [hc.quiet.kcas_seq p, ← htag]
          exact hop
        · rw [hcall] at hread
          exact absurd hread (by simp)

/-- The steps of `execute` before its operation is published. -/
theorem step_initializing (hok : ThreadOk m p th) (hcall : th.call.Initializing = true)
    (hstep : KCASLockFree.step K m p th = some (m', th')) :
    (m' = m ∧ th'.call.Initializing = true)
      ∨ (th'.call = .executing ∧ m'.ops ⟨p, (m'.kcas p).seqBits.seq⟩
          = some ⟨(m.kcas p).list, .undecided, false⟩) := by
  have hnil := hok.frames_nil (fun hc => absurd (hc ▸ hcall) (by simp [Call.Initializing]))
    fun a hc => absurd (hc ▸ hcall) (by simp [Call.Initializing])
  obtain ⟨call, ready, frames⟩ := th
  obtain rfl : frames = [] := hnil
  have hund := (hok.fresh (Or.inr (by cases call <;> simp_all [Call.Initializing, Call.Preparing]))).2
  change callStep K m p ⟨call, ready, []⟩ = _ at hstep
  cases call with
  | initRead =>
      obtain ⟨rfl, rfl⟩ := Prod.mk.inj (Option.some.inj hstep)
      exact Or.inl ⟨rfl, rfl⟩
  | initWrite v =>
      obtain rfl := hok.initWrite v rfl
      obtain ⟨rfl, rfl⟩ := Prod.mk.inj (Option.some.inj hstep)
      refine Or.inr ⟨rfl, ?_⟩
      show Function.update m.ops _ _ ⟨p, ((m.setKcas p _).kcas p).seqBits.seq⟩ = _
      rw [setKcas_apply, if_pos rfl, Function.update_self, hund]
      rfl
  | _ => exact absurd hcall (by simp [Call.Initializing])

/-- The call of `execute` is not over. -/
def Call.Executing : Call → Bool
  | initRead | initWrite _ | executing => true
  | _ => false

/-- Only a call of `execute` leads to `help` for an operation of one's own. -/
theorem step_executing_of (hstep : KCASLockFree.step K m p th = some (m', th'))
    (hexec : th'.call.Executing = true) : th.call.Executing = true := by
  cases hframes : th.frames with
  | cons f fs =>
      obtain ⟨o, -, rfl⟩ := step_help hframes hstep
      dsimp only at hexec
      rcases o.resumed_cases th.call fs with hsame | ⟨-, result, -, hres⟩
      · rw [← hsame]
        exact hexec
      · rw [hres] at hexec
        cases hcall : th.call <;> simp_all [Call.resume, Call.Executing]
  | nil =>
      obtain ⟨call, ready, frames⟩ := th
      obtain rfl : frames = [] := hframes
      change callStep K m p ⟨call, ready, []⟩ = _ at hstep
      cases call with
      | initRead => rfl
      | initWrite v => rfl
      | starting =>
          obtain ⟨rfl, rfl⟩ := Prod.mk.inj (Option.some.inj hstep)
          exact hexec
      | adding a oldval newval j =>
          unfold callStep at hstep
          dsimp only at hstep
          split at hstep
          · obtain ⟨rfl, rfl⟩ := Prod.mk.inj (Option.some.inj hstep)
            exact hexec
          · obtain ⟨rfl, rfl⟩ := Prod.mk.inj (Option.some.inj hstep)
            exact hexec
          · obtain ⟨rfl, rfl⟩ := Prod.mk.inj (Option.some.inj hstep)
            exact hexec
          · split at hstep
            · obtain ⟨rfl, rfl⟩ := Prod.mk.inj (Option.some.inj hstep)
              exact hexec
            · exact absurd hstep (by simp)
      | reading a =>
          unfold callStep at hstep
          dsimp only at hstep
          split at hstep <;>
            · obtain ⟨rfl, rfl⟩ := Prod.mk.inj (Option.some.inj hstep)
              exact hexec
      | readingOther a h =>
          unfold callStep at hstep
          dsimp only at hstep
          split at hstep <;>
            · obtain ⟨rfl, rfl⟩ := Prod.mk.inj (Option.some.inj hstep)
              exact hexec
      | _ => exact absurd hstep (by simp [callStep])

/-- An action that is not a call of `execute` does not start one. -/
theorem next_executing_of {a : Action} (hn : next K s a = some s') (htid : a.tid = p)
    (hact : a ≠ .execute p) (hexec : (s'.thread p).call.Executing = true) :
    (s.thread p).call.Executing = true := by
  subst htid
  unfold next at hn
  rw [Option.map_eq_some_iff] at hn
  obtain ⟨⟨m', th'⟩, hmoved, rfl⟩ := hn
  have hth : (s.set a.tid m' th').thread a.tid = th' := Function.update_self _ _ _
  rw [hth] at hexec
  cases a with
  | execute q => exact absurd rfl hact
  | step q => exact step_executing_of hmoved hexec
  | start q =>
      dsimp only at hmoved
      split at hmoved
      · obtain ⟨rfl, rfl⟩ := Prod.mk.inj (Option.some.inj hmoved)
        exact absurd hexec (by simp [Call.Executing])
      · exact absurd hmoved (by simp)
  | add q b oldval newval =>
      unfold KCASLockFree.call at hmoved
      dsimp only at hmoved
      split at hmoved
      · split at hmoved
        · obtain ⟨rfl, rfl⟩ := Prod.mk.inj (Option.some.inj hmoved)
          exact absurd hexec (by simp [Call.Executing])
        · exact absurd hmoved (by simp)
      · exact absurd hmoved (by simp)
  | readPtr q b =>
      dsimp only at hmoved
      split at hmoved
      · obtain ⟨rfl, rfl⟩ := Prod.mk.inj (Option.some.inj hmoved)
        exact absurd hexec (by simp [Call.Executing])
      · exact absurd hmoved (by simp)

/-- A call of `readPtr(a)` that is not over. -/
def Call.Reads (a : Loc) : Call → Prop
  | reading a' => a' = a
  | readingOther a' _ => a' = a
  | _ => False

/-- **A step of `readPtr`**: it goes on, or returns what its word holds now. -/
theorem step_reading {a : Loc} (hcall : th.call.Reads a)
    (hstep : KCASLockFree.step K m p th = some (m', th')) :
    th'.call.Reads a ∨ ∃ v, th'.call = .read a (.plain v) ∧ m.word a = .plain v := by
  cases hframes : th.frames with
  | cons f fs =>
      obtain ⟨o, -, rfl⟩ := step_help hframes hstep
      dsimp only
      rcases o.resumed_cases th.call fs with hsame | ⟨-, result, -, hres⟩
      · rw [hsame]
        exact Or.inl hcall
      · left
        rw [hres]
        cases hc : th.call <;> simp_all [Call.Reads, Call.resume]
  | nil =>
      obtain ⟨call, ready, frames⟩ := th
      obtain rfl : frames = [] := hframes
      change callStep K m p ⟨call, ready, []⟩ = _ at hstep
      cases call with
      | reading a' =>
          obtain rfl : a' = a := hcall
          unfold callStep at hstep
          dsimp only at hstep
          cases hword : m.word a' with
          | plain v =>
              rw [hword] at hstep
              obtain ⟨rfl, rfl⟩ := Prod.mk.inj (Option.some.inj hstep)
              exact Or.inr ⟨v, rfl, rfl⟩
          | rdcss t =>
              rw [hword] at hstep
              obtain ⟨rfl, rfl⟩ := Prod.mk.inj (Option.some.inj hstep)
              exact Or.inl rfl
          | kcas t =>
              rw [hword] at hstep
              obtain ⟨rfl, rfl⟩ := Prod.mk.inj (Option.some.inj hstep)
              exact Or.inl rfl
      | readingOther a' h =>
          obtain rfl : a' = a := hcall
          unfold callStep at hstep
          dsimp only at hstep
          split at hstep <;>
            · obtain ⟨rfl, rfl⟩ := Prod.mk.inj (Option.some.inj hstep)
              exact Or.inl rfl
      | _ => exact absurd hcall id

end Steps

/-! ## §3. Calls of `execute`. -/

section Executes

variable {K : ℕ} {word : Loc → ℕ} {r : Run (system K word)}

/-- The operation that the descriptor of thread `p` is for. -/
def tagAt (r : Run (system K word)) (p : Tid) (i : ℕ) : Tag :=
  ⟨p, ((r.state i).mem.kcas p).seqBits.seq⟩

/-- Step `i` decides that the operation of thread `p` succeeds. -/
def SucceedsAt (r : Run (system K word)) (p : Tid) (i : ℕ) : Prop :=
  Succeeds (r.state i).mem (r.state (i + 1)).mem (tagAt r p i)

/-- The operation `op` of thread `p` is the one that it has been called with by
action `b`. -/
structure Published (r : Run (system K word)) (p : Tid) (b i : ℕ) (op : Op) : Prop where
  published : (r.state i).mem.ops (tagAt r p i) = some op
  entries : op.entries.Perm (entriesAt r p b)
  differed : op.differed = true →
    ∃ j, b < j ∧ j ≤ i ∧ ∃ e ∈ entriesAt r p b, memory r j e.addr ≠ e.oldval
  succeeded : op.state = .succeeded → ∃ j, b < j ∧ j < i ∧ SucceedsAt r p j
  /-- The descriptor has been for it since it was published. -/
  tag : ∀ j, b < j → j ≤ i → callAt r p j = .executing → tagAt r p j = tagAt r p i

/-- How far a call of `execute` has got. -/
def Exec (r : Run (system K word)) (p : Tid) (b i : ℕ) : Prop :=
  ((callAt r p i).Initializing = true ∧ (entriesAt r p i).Perm (entriesAt r p b)
    ∧ ∀ j, b < j → j ≤ i → callAt r p j ≠ .executing)
  ∨ (callAt r p i = .executing ∧ ∃ op, Published r p b i op)

/-- What a step adds to what has differed. -/
theorem Published.differed_next {p : Tid} {b i : ℕ} {op op' : Op} (h : Published r p b i op)
    (hb : b < i) (he : Effect (r.state i).mem (r.state (i + 1)).mem)
    (hop' : (r.state (i + 1)).mem.ops (tagAt r p i) = some op') (hd : op'.differed = true) :
    ∃ j, b < j ∧ j ≤ i ∧ ∃ e ∈ entriesAt r p b, memory r j e.addr ≠ e.oldval := by
  rcases he.differed _ op op' h.published hop' hd with hold | ⟨e, hmem, hne⟩
  · exact h.differed hold
  · exact ⟨i, hb, Nat.le_refl i, e, h.entries.mem_iff.mp hmem, hne⟩

/-- What a step leaves of an operation that is published. -/
theorem Published.next {p : Tid} {b i : ℕ} {op : Op} (h : Published r p b i op) (hb : b < i)
    (he : Effect (r.state i).mem (r.state (i + 1)).mem)
    (hl : Later (r.state i).mem (r.state (i + 1)).mem)
    (hseq : ((r.state (i + 1)).mem.kcas p).seqBits.seq = ((r.state i).mem.kcas p).seqBits.seq) :
    ∃ op', Published r p b (i + 1) op' := by
  have htag : tagAt r p (i + 1) = tagAt r p i := by
    unfold tagAt
    rw [hseq]
  obtain ⟨op', hop', hentries, hstate, -⟩ := hl.ops _ op h.published
  refine ⟨op', by rw [htag]; exact hop', by rw [hentries]; exact h.entries, ?_, ?_, ?_⟩
  · intro hd
    obtain ⟨j, hbj, hji, hdiff⟩ := h.differed_next hb he hop' hd
    exact ⟨j, hbj, Nat.le_succ_of_le hji, hdiff⟩
  · intro hsucc
    by_cases hund : op.state = .undecided
    · refine ⟨i, hb, Nat.lt_succ_self i, ?_, ?_⟩
      · rw [state_eq h.published, hund]
      · rw [state_eq hop', hsucc]
    · obtain ⟨j, hbj, hji, hs⟩ := h.succeeded ((hstate hund).symm.trans hsucc)
      exact ⟨j, hbj, Nat.lt_succ_of_lt hji, hs⟩
  · intro j hbj hji hcall
    rw [htag]
    rcases Nat.lt_or_eq_of_le hji with hlt | rfl
    · exact h.tag j hbj (Nat.le_of_lt_succ hlt) hcall
    · exact htag

/-- A newly published operation. -/
theorem Published.start {p : Tid} {b i : ℕ} (hperm : (entriesAt r p i).Perm (entriesAt r p b))
    (hnever : ∀ j, b < j → j ≤ i → callAt r p j ≠ .executing)
    (hop : (r.state (i + 1)).mem.ops (tagAt r p (i + 1))
      = some ⟨entriesAt r p i, .undecided, false⟩) :
    Published r p b (i + 1) ⟨entriesAt r p i, .undecided, false⟩ := by
  refine ⟨hop, hperm, fun hd => absurd hd (by simp), fun hs => absurd hs (by simp), ?_⟩
  intro j hbj hji hcall
  rcases Nat.lt_or_eq_of_le hji with hlt | rfl
  · exact absurd hcall (hnever j hbj (Nat.le_of_lt_succ hlt))
  · rfl

/-- **A step of the run**, as the invariant sees it. -/
theorem run_moves (hc : ∀ i < r.len, Promised (r.state i) (r.act i)) {i : ℕ} (hi : i < r.len) :
    Keeps K (r.act i).tid (r.state i).mem (r.state (i + 1)).mem
      ∧ Effect (r.state i).mem (r.state (i + 1)).mem := by
  have hs := run_sound hc (Nat.le_of_lt hi)
  obtain ⟨m', th', heq, hm⟩ := next_moves hs (hc i hi) (r.step i hi)
  rw [heq]
  exact ⟨hm.keeps, hm.effect⟩

theorem inside_step {p : Tid} {b i : ℕ} (h : Inside r p b (i + 1)) (hb : b < i) :
    Inside r p b i :=
  ⟨hb, fun j hbj hji => h.2 j hbj (Nat.le_succ_of_le hji)⟩

/-- A thread in a call takes the steps of that call. -/
theorem inside_own {p : Tid} {b i : ℕ} (hi : i < r.len) (h : Inside r p b i)
    (htid : (r.act i).tid = p) :
    KCASLockFree.step K (r.state i).mem p ((r.state i).thread p)
      = some ((r.state (i + 1)).mem, (r.state (i + 1)).thread p) := by
  have hn : next K (r.state i) (r.act i) = some (r.state (i + 1)) := r.step i hi
  rw [next_inside hn htid (h.2 i h.1 (Nat.le_refl i))] at hn
  obtain ⟨m', th', hstep, rfl, rfl⟩ := next_step hn
  exact hstep

/-- Only the thread itself returns from its call. -/
theorem inside_return {p : Tid} {b i : ℕ} (hi : i < r.len) (h : Inside r p b i)
    (hret : (callAt r p (i + 1)).Returned = true) : (r.act i).tid = p := by
  by_contra hne
  have hsame : callAt r p (i + 1) = callAt r p i :=
    congrArg Thread.call (next_other (r.step i hi) hne)
  rw [hsame, h.2 i h.1 (Nat.le_refl i)] at hret
  exact absurd hret (by simp)

/-- A step of the thread that executes. -/
theorem Exec.own {p : Tid} {b i : ℕ} (h : Exec r p b i) (hs : Sound K (r.state i))
    (hin : Inside r p b (i + 1)) (hb : b < i)
    (hstep : KCASLockFree.step K (r.state i).mem p ((r.state i).thread p)
      = some ((r.state (i + 1)).mem, (r.state (i + 1)).thread p))
    (he : Effect (r.state i).mem (r.state (i + 1)).mem)
    (hl : Later (r.state i).mem (r.state (i + 1)).mem) : Exec r p b (i + 1) := by
  rcases h with ⟨hinit, hperm, hnever⟩ | ⟨hcall, op, hpub⟩
  · rcases step_initializing (hs.thread p) hinit hstep with ⟨hmem, hinit'⟩ | ⟨hexec, hop⟩
    · refine Or.inl ⟨hinit', ?_, ?_⟩
      · unfold entriesAt at hperm ⊢
        rw [hmem]
        exact hperm
      · intro j hbj hji hcall
        rcases Nat.lt_or_eq_of_le hji with hlt | rfl
        · exact hnever j hbj (Nat.le_of_lt_succ hlt) hcall
        · change ((r.state (i + 1)).thread p).call = .executing at hcall
          rw [hcall] at hinit'
          exact absurd hinit' (by simp [Call.Initializing])
    · exact Or.inr ⟨hexec, _, Published.start hperm hnever hop⟩
  · obtain ⟨hquiet, hor⟩ := step_executing hs.inv (hs.thread p) hcall hstep
    rcases hor with hexec | ⟨result, op', hexec, -⟩
    · exact Or.inr ⟨hexec, hpub.next hb he hl (hquiet.kcas_seq p)⟩
    · have hopen := hin.2 (i + 1) hin.1 (Nat.le_refl _)
      unfold callAt at hopen
      rw [hexec] at hopen
      exact absurd hopen (by simp [Call.Returned])

/-- A step of another thread. -/
theorem Exec.other {p : Tid} {b i : ℕ} (h : Exec r p b i) (hs : Sound K (r.state i))
    (hb : b < i) (hi : i < r.len) (hne : (r.act i).tid ≠ p)
    (hk : Keeps K (r.act i).tid (r.state i).mem (r.state (i + 1)).mem)
    (he : Effect (r.state i).mem (r.state (i + 1)).mem) : Exec r p b (i + 1) := by
  have hcall' : callAt r p (i + 1) = callAt r p i :=
    congrArg Thread.call (next_other (r.step i hi) hne)
  rcases h with ⟨hinit, hperm, hnever⟩ | ⟨hcall, op, hpub⟩
  · have hprep : (callAt r p i).Preparing = true := by
      cases hcase : callAt r p i <;> simp_all [Call.Initializing, Call.Preparing]
    have hkcas := hk.steady.kcas p hne.symm ((hs.thread p).fresh (Or.inr hprep)).1
    refine Or.inl ⟨by rw [hcall']; exact hinit, ?_, ?_⟩
    · unfold entriesAt at hperm ⊢
      rw [hkcas]
      exact hperm
    · intro j hbj hji hcall
      rcases Nat.lt_or_eq_of_le hji with hlt | rfl
      · exact hnever j hbj (Nat.le_of_lt_succ hlt) hcall
      · rw [hcall'] at hcall
        exact hnever i hb (Nat.le_refl i) hcall
  · refine Or.inr ⟨hcall'.trans hcall, ?_⟩
    exact hpub.next hb he hk.later (hk.steady.kcas_seq p hne.symm)

/-- **Where a call of `execute` is.** -/
theorem exec_inside (hc : ∀ i < r.len, Promised (r.state i) (r.act i)) {p : Tid} {b i : ℕ}
    (hb : r.act b = .execute p) (hi : i ≤ r.len) (h : Inside r p b i) : Exec r p b i := by
  induction i with
  | zero => exact absurd h.1 (Nat.not_lt_zero b)
  | succ i ih =>
      have hs := run_sound hc (Nat.le_of_succ_le hi)
      rcases Nat.lt_or_eq_of_le (Nat.le_of_lt_succ h.1) with hlt | rfl
      · have hin := inside_step h hlt
        obtain ⟨hkeeps, heffect⟩ := run_moves hc hi
        have hexec := ih (Nat.le_of_succ_le hi) hin
        by_cases htid : (r.act i).tid = p
        · exact hexec.own hs h hlt (inside_own hi hin htid) heffect hkeeps.later
        · exact hexec.other hs hlt hi htid hkeeps heffect
      · -- the call itself
        have hn : next K (r.state b) (r.act b) = some (r.state (b + 1)) := r.step b hi
        rw [hb] at hn
        obtain ⟨hmem, hcall⟩ := next_execute hn
        refine Or.inl ⟨by unfold callAt; rw [hcall]; rfl, ?_, ?_⟩
        · unfold entriesAt
          rw [hmem, setKcas_apply, if_pos rfl, sort_list]
          exact Kcas.kcasdesc_sort_perm _
        · intro j hbj hji hexec
          obtain rfl : j = b + 1 := by omega
          unfold callAt at hexec
          rw [hcall] at hexec
          exact absurd hexec (by simp)

/-- A thread that executes has been called. -/
theorem exists_call {p : Tid} {i : ℕ} (hi : i ≤ r.len) (hexec : (callAt r p i).Executing = true) :
    ∃ b, r.act b = .execute p ∧ Inside r p b i := by
  induction i with
  | zero =>
      unfold callAt at hexec
      rw [r.start] at hexec
      exact absurd hexec (by simp [system, init, Call.Executing])
  | succ i ih =>
      have hn : next K (r.state i) (r.act i) = some (r.state (i + 1)) := r.step i hi
      have hret : (callAt r p (i + 1)).Returned = false := by
        cases hcase : callAt r p (i + 1) <;> simp_all [Call.Executing, Call.Returned]
      have hextend : (∃ b, r.act b = .execute p ∧ Inside r p b i) →
          ∃ b, r.act b = .execute p ∧ Inside r p b (i + 1) := by
        intro h
        obtain ⟨b, hb, hlt, hin⟩ := h
        refine ⟨b, hb, Nat.lt_succ_of_lt hlt, ?_⟩
        intro j hbj hji
        rcases Nat.lt_or_eq_of_le hji with hlt' | rfl
        · exact hin j hbj (Nat.le_of_lt_succ hlt')
        · exact hret
      by_cases htid : (r.act i).tid = p
      · by_cases hact : r.act i = .execute p
        · refine ⟨i, hact, Nat.lt_succ_self i, ?_⟩
          intro j hij hji
          obtain rfl : j = i + 1 := by omega
          exact hret
        · exact hextend (ih (Nat.le_of_succ_le hi) (next_executing_of hn htid hact hexec))
      · have hcall' : callAt r p (i + 1) = callAt r p i :=
          congrArg Thread.call (next_other hn htid)
        rw [hcall'] at hexec
        exact hextend (ih (Nat.le_of_succ_le hi) hexec)

end Executes

/-! ## §4. The atomic step. -/

section Commits

variable {K : ℕ} {word : Loc → ℕ} {r : Run (system K word)}

/-- An operation that succeeds is that of a thread in `execute`. -/
theorem succeeds_call {s : State} {m' : Shared} (hs : Sound K s) {t : Tag}
    (h : Succeeds s.mem m' t) :
    (s.thread t.tid).call = .executing ∧ t = ⟨t.tid, (s.mem.kcas t.tid).seqBits.seq⟩ := by
  obtain ⟨op, hop, hund⟩ := exists_of_state h.1
  have hseq : (s.mem.kcas t.tid).seqBits.seq = t.seq := by
    by_contra hne
    exact hs.inv.op_old t op hop hne hund
  have htag : t = ⟨t.tid, (s.mem.kcas t.tid).seqBits.seq⟩ := by rw [hseq]
  refine ⟨?_, htag⟩
  by_contra hcall
  apply (hs.thread t.tid).decided hcall
  rw [← htag]
  exact h.1

/-- What has succeeded stays so. -/
theorem succeeded_run (hc : ∀ i < r.len, Promised (r.state i) (r.act i)) {i j : ℕ} (hij : i ≤ j)
    (hj : j ≤ r.len) {t : Tag} (h : (r.state i).mem.state t = some .succeeded) :
    (r.state j).mem.state t = some .succeeded := by
  refine r.persists (P := fun s => s.mem.state t = some .succeeded) hij hj h ?_
  intro k _ _ hk hbefore
  exact (run_moves hc hk).1.later.state (by simp) hbefore

/-- The plain word of every shared word is plain. -/
theorem Inv.value_plain {m : Shared} (hi : Inv K m) (a : Loc) : ∃ v, m.value a = .plain v := by
  cases hw : m.word a with
  | plain v => exact ⟨v, KCASLockFree.value_plain hw⟩
  | rdcss t =>
      obtain ⟨rop, hr, -, -⟩ := hi.tag_rop a t hw
      obtain ⟨op, e, hop, he, hdesc⟩ := hi.rop_op t rop hr
      obtain ⟨⟨v, hv⟩, -⟩ := (hi.op_wf _ op hop).plain e (List.mem_of_getElem? he)
      exact ⟨v, by rw [value_rdcss hr hw, hdesc]; exact hv⟩
  | kcas t =>
      obtain ⟨op, hop, e, he, rfl⟩ := hi.tag_op a t hw
      obtain ⟨⟨v, hv⟩, w, hw'⟩ := (hi.op_wf t op hop).plain e he
      rw [hi.value_kcas hop he hw]
      split
      · exact ⟨w, hw'⟩
      · exact ⟨v, hv⟩

/-- A thread is in one call at a time. -/
theorem inside_unique {p : Tid} {b b' i : ℕ} (hi : i ≤ r.len) (hb' : ∀ q, r.act b' ≠ .step q)
    (htid : (r.act b').tid = p) (h : Inside r p b i) (h' : Inside r p b' i) : b' ≤ b := by
  by_contra hlt
  have hn : next K (r.state b') (r.act b') = some (r.state (b' + 1)) :=
    r.step b' (Nat.lt_of_lt_of_le h'.1 hi)
  have hret : ((r.state b').thread p).call.Returned = false :=
    h.2 b' (by omega) (Nat.le_of_lt h'.1)
  exact hb' p (next_inside hn htid hret)

open Classical in
/-- The call of `execute` whose operation succeeds by step `i`. -/
noncomputable def commits (r : Run (system K word)) (i : ℕ) : Option (Tid × ℕ) :=
  if h : ∃ x : Tid × ℕ, r.act x.2 = .execute x.1 ∧ Inside r x.1 x.2 i ∧ SucceedsAt r x.1 i then
    some h.choose
  else none

theorem commits_iff (hc : ∀ i < r.len, Promised (r.state i) (r.act i)) {i : ℕ} (hi : i < r.len)
    {p : Tid} {b : ℕ} : commits r i = some (p, b)
      ↔ r.act b = .execute p ∧ Inside r p b i ∧ SucceedsAt r p i := by
  unfold commits
  constructor
  · intro h
    split at h
    · rename_i hex
      have hspec := hex.choose_spec
      rw [Option.some.inj h] at hspec
      exact hspec
    · exact absurd h (by simp)
  · intro h
    have hex : ∃ x : Tid × ℕ, r.act x.2 = .execute x.1 ∧ Inside r x.1 x.2 i ∧ SucceedsAt r x.1 i :=
      ⟨(p, b), h⟩
    rw [dif_pos hex]
    obtain ⟨hb, hin, hs⟩ := h
    obtain ⟨hb', hin', hs'⟩ := hex.choose_spec
    -- one operation at a step, and one call of its thread
    have htag := (run_moves hc hi).2.one _ _ hs' hs
    have hp : hex.choose.1 = p := congrArg Tag.tid htag
    rw [hp] at hb' hin'
    have hle := inside_unique (Nat.le_of_lt hi) (by rw [hb']; simp) (by rw [hb']; rfl) hin hin'
    have hge := inside_unique (Nat.le_of_lt hi) (by rw [hb]; simp) (by rw [hb]; rfl) hin' hin
    have hb₂ : hex.choose.2 = b := Nat.le_antisymm hle hge
    exact congrArg some (Prod.ext hp hb₂)

/-- The operation that an open call of `execute` succeeds with. -/
theorem published_of_succeeds (hc : ∀ i < r.len, Promised (r.state i) (r.act i)) {i : ℕ}
    (hi : i ≤ r.len) {p : Tid} {b : ℕ} (hb : r.act b = .execute p) (hin : Inside r p b i)
    (hs : SucceedsAt r p i) : callAt r p i = .executing ∧ ∃ op, Published r p b i op := by
  have hcall : callAt r p i = .executing := (succeeds_call (run_sound hc hi) hs).1
  refine ⟨hcall, ?_⟩
  rcases exec_inside hc hb hi hin with ⟨hinit, -⟩ | ⟨-, hpub⟩
  · rw [hcall] at hinit
    exact absurd hinit (by simp [Call.Initializing])
  · exact hpub

/-- The last step of a call of `execute`. -/
theorem execute_returns (hc : ∀ i < r.len, Promised (r.state i) (r.act i)) {n : ℕ}
    (hn : n < r.len) {p : Tid} {b : ℕ} (hb : r.act b = .execute p) (hin : Inside r p b n)
    {result : Bool} (hret : callAt r p (n + 1) = .executed result) :
    ∃ op op', Published r p b n op ∧ (r.state (n + 1)).mem.ops (tagAt r p n) = some op'
      ∧ op'.state ≠ .undecided ∧ (result = true ↔ op'.state = .succeeded) := by
  have hs := run_sound hc (Nat.le_of_lt hn)
  have hstep := inside_own hn hin (inside_return hn hin (by rw [hret]; rfl))
  rcases exec_inside hc hb (Nat.le_of_lt hn) hin with ⟨hinit, -⟩ | ⟨hcall, op, hpub⟩
  · rcases step_initializing (hs.thread p) hinit hstep with ⟨-, hinit'⟩ | ⟨hexec, -⟩
    · change ((r.state (n + 1)).thread p).call = _ at hret
      rw [hret] at hinit'
      exact absurd hinit' (by simp [Call.Initializing])
    · exact absurd (hret.symm.trans hexec) (by simp)
  · obtain ⟨hquiet, hor⟩ := step_executing hs.inv (hs.thread p) hcall hstep
    rcases hor with hexec | ⟨result', op', hexec, hop', hdec, hiff⟩
    · exact absurd (hret.symm.trans hexec) (by simp)
    · obtain rfl := Call.executed.inj (hret.symm.trans hexec)
      refine ⟨op, op', hpub, ?_, hdec, hiff⟩
      unfold tagAt
      rw [← hquiet.kcas_seq p]
      exact hop'

/-- Where a call of `readPtr` is. -/
theorem reads_inside {p : Tid} {a : Loc} {b i : ℕ} (hb : r.act b = .readPtr p a) (hi : i ≤ r.len)
    (h : Inside r p b i) : (callAt r p i).Reads a := by
  induction i with
  | zero => exact absurd h.1 (Nat.not_lt_zero b)
  | succ i ih =>
      have hn : next K (r.state i) (r.act i) = some (r.state (i + 1)) := r.step i hi
      rcases Nat.lt_or_eq_of_le (Nat.le_of_lt_succ h.1) with hlt | rfl
      · have hin := inside_step h hlt
        have hreads := ih (Nat.le_of_succ_le hi) hin
        by_cases htid : (r.act i).tid = p
        · rcases step_reading hreads (inside_own hi hin htid) with hgo | ⟨v, hv, -⟩
          · exact hgo
          · have hopen := h.2 (i + 1) h.1 (Nat.le_refl _)
            unfold callAt at hopen
            rw [hv] at hopen
            exact absurd hopen (by simp [Call.Returned])
        · have hsame : callAt r p (i + 1) = callAt r p i :=
            congrArg Thread.call (next_other hn htid)
          rw [hsame]
          exact hreads
      · rw [hb] at hn
        unfold callAt
        rw [next_readPtr hn]
        exact rfl

/-- A step by which no call takes effect changes nothing. -/
theorem quiet_step (hc : ∀ i < r.len, Promised (r.state i) (r.act i)) {i : ℕ} (hi : i < r.len)
    (hnone : KCASLockFree.commits r i = none) : memory r (i + 1) = memory r i := by
  apply (run_moves hc hi).2.quiet
  intro t ht
  -- the thread of an operation that succeeds is in a call
  obtain ⟨hcall, htag⟩ := succeeds_call (run_sound hc (Nat.le_of_lt hi)) ht
  have hexec : (callAt r t.tid i).Executing = true := by
    unfold callAt
    rw [hcall]
    rfl
  obtain ⟨b, hb, hin⟩ := exists_call (Nat.le_of_lt hi) hexec
  have hs : SucceedsAt r t.tid i := by
    unfold SucceedsAt tagAt
    rw [← htag]
    exact ht
  rw [(commits_iff hc hi).mpr ⟨hb, hin, hs⟩] at hnone
  exact absurd hnone (by simp)

/-- The step by which a call takes effect. -/
theorem commit_step (hc : ∀ i < r.len, Promised (r.state i) (r.act i)) {i : ℕ} (hi : i < r.len)
    {p : Tid} {b : ℕ} (h : KCASLockFree.commits r i = some (p, b)) :
    r.act b = .execute p ∧ Inside r p b i ∧ Matches (memory r i) (entriesAt r p b)
      ∧ memory r (i + 1) = Lib.commit (memory r i) (entriesAt r p b) := by
  obtain ⟨hb, hin, hs⟩ := (commits_iff hc hi).mp h
  obtain ⟨-, op, hpub⟩ := published_of_succeeds hc (Nat.le_of_lt hi) hb hin hs
  obtain ⟨hmatch, hcommit⟩ := (run_moves hc hi).2.commits _ op hs hpub.published
  have hwf := (run_sound hc (Nat.le_of_lt hi)).inv.op_wf _ op hpub.published
  refine ⟨hb, hin, (Matches.perm hpub.entries).mp hmatch, ?_⟩
  rw [← commit_perm hpub.entries hwf.nodup]
  exact hcommit

/-- A call takes effect once: its operation has been decided since. -/
theorem commits_once (hc : ∀ i < r.len, Promised (r.state i) (r.act i)) {i j : ℕ} (hij : i < j)
    (hj : j < r.len) {x : Tid × ℕ} (hi' : KCASLockFree.commits r i = some x) :
    KCASLockFree.commits r j ≠ some x := by
  intro hj'
  obtain ⟨p, b⟩ := x
  obtain ⟨hb, hin, hs⟩ := (commits_iff hc (by omega)).mp hi'
  obtain ⟨-, hin', hs'⟩ := (commits_iff hc hj).mp hj'
  have hcall := (published_of_succeeds hc (by omega) hb hin hs).1
  obtain ⟨-, op, hpub⟩ := published_of_succeeds hc (Nat.le_of_lt hj) hb hin' hs'
  have hlater := succeeded_run hc hij (Nat.le_of_lt hj) hs.2
  rw [hpub.tag i hin.1 (Nat.le_of_lt hij) hcall, hs'.1] at hlater
  exact absurd hlater (by simp)

/-- A call that returns true has taken effect. -/
theorem returns_true (hc : ∀ i < r.len, Promised (r.state i) (r.act i)) {n : ℕ} (hn : n < r.len)
    {p : Tid} {b : ℕ} (hb : r.act b = .execute p) (hin : Inside r p b n)
    (hret : callAt r p (n + 1) = .executed true) :
    ∃ i ≤ n, KCASLockFree.commits r i = some (p, b) := by
  obtain ⟨op, op', hpub, hop', hdec, hiff⟩ := execute_returns hc hn hb hin hret
  by_cases hs : SucceedsAt r p n
  · exact ⟨n, Nat.le_refl n, (commits_iff hc hn).mpr ⟨hb, hin, hs⟩⟩
  · have hold : op.state = .succeeded := by
      by_contra hne
      obtain ⟨op₁, hop₁, -, hstate, -⟩ := (run_moves hc hn).1.later.ops _ op hpub.published
      obtain rfl := Option.some.inj (hop'.symm.trans hop₁)
      have hund : op.state = .undecided := by
        by_contra hund
        exact hne ((hstate hund).symm.trans (hiff.mp rfl))
      apply hs
      exact ⟨by rw [state_eq hpub.published, hund], by rw [state_eq hop', hiff.mp rfl]⟩
    obtain ⟨j, hbj, hjn, hsj⟩ := hpub.succeeded hold
    have hinj : Inside r p b j := ⟨hbj, fun i hbi hij => hin.2 i hbi (by omega)⟩
    exact ⟨j, Nat.le_of_lt hjn, (commits_iff hc (by omega)).mpr ⟨hb, hinj, hsj⟩⟩

/-- A call that returns false never takes effect, and has seen a word that differs. -/
theorem returns_false (hc : ∀ i < r.len, Promised (r.state i) (r.act i)) {n : ℕ} (hn : n < r.len)
    {p : Tid} {b : ℕ} (hb : r.act b = .execute p) (hin : Inside r p b n)
    (hret : callAt r p (n + 1) = .executed false) :
    (∀ i < r.len, KCASLockFree.commits r i ≠ some (p, b))
      ∧ ∃ i, b < i ∧ i ≤ n ∧ ∃ e ∈ entriesAt r p b, memory r i e.addr ≠ e.oldval := by
  obtain ⟨op, op', hpub, hop', hdec, hiff⟩ := execute_returns hc hn hb hin hret
  have hnot : op'.state ≠ .succeeded := fun h => absurd (hiff.mpr h) (by simp)
  constructor
  · intro i hi h
    obtain ⟨-, hin', hs⟩ := (commits_iff hc hi).mp h
    have hle : i ≤ n := by
      by_contra hgt
      have hopen := hin'.2 (n + 1) (Nat.lt_succ_of_lt hin.1) (by omega)
      rw [hret] at hopen
      exact absurd hopen (by simp [Call.Returned])
    have hcall := (published_of_succeeds hc (Nat.le_of_lt hi) hb hin' hs).1
    have hlater := succeeded_run hc (Nat.succ_le_succ hle) hn hs.2
    rw [hpub.tag i hin'.1 hle hcall, state_eq hop'] at hlater
    exact hnot (Option.some.inj hlater)
  · have hfailed : op'.state = .failed := by
      cases hstate : op'.state with
      | undecided => exact absurd hstate hdec
      | succeeded => exact absurd hstate hnot
      | failed => rfl
    have hdiff := (run_sound hc hn).inv.differed _ op' hop' hfailed
    exact hpub.differed_next hin.1 (run_moves hc hn).2 hop' hdiff

/-- A call of `readPtr` returns what its word holds at its last step. -/
theorem returns_read {n : ℕ} (hn : n < r.len) {p : Tid} {a : Loc} {b : ℕ}
    (hb : r.act b = .readPtr p a) (hin : Inside r p b n) {a' : Loc} {result : Word}
    (hret : callAt r p (n + 1) = .read a' result) : a' = a ∧ result = memory r n a := by
  have hreads := reads_inside hb (Nat.le_of_lt hn) hin
  have hstep := inside_own hn hin (inside_return hn hin (by rw [hret]; rfl))
  change ((r.state (n + 1)).thread p).call = _ at hret
  rcases step_reading hreads hstep with hgo | ⟨v, hv, hvalue⟩
  · rw [hret] at hgo
    exact absurd hgo id
  · obtain ⟨rfl, rfl⟩ := Call.read.inj (hret.symm.trans hv)
    exact ⟨rfl, (value_plain hvalue).symm⟩

/-- **`execute` is an atomic multi-word compare-and-swap**, and `readPtr` an
atomic read, in every run whose clients keep their promise. -/
theorem execute_atomic (K : ℕ) (word : Loc → ℕ) (r : Run (system K word))
    (hc : ∀ i < r.len, Promised (r.state i) (r.act i)) : ∃ commits, Atomic r commits := by
  refine ⟨KCASLockFree.commits r, ?_⟩
  refine
    { start := ?_, plain := ?_, quiet := ?_, commit := ?_, once := ?_, succeeded := ?_
      failed := ?_, read := ?_ }
  · intro a
    unfold memory
    rw [r.start]
    rfl
  · exact fun i hi a => (run_sound hc hi).inv.value_plain a
  · exact fun i hi hnone => quiet_step hc hi hnone
  · exact fun i hi p b h => commit_step hc hi h
  · intro i hi j hj x hix hjx
    rcases Nat.lt_trichotomy i j with h | h | h
    · exact absurd hjx (commits_once hc h hj hix)
    · exact h
    · exact absurd hix (commits_once hc h hi hjx)
  · exact fun n hn p b hb hin hret => returns_true hc hn hb hin hret
  · exact fun n hn p b hb hin hret => returns_false hc hn hb hin hret
  · intro n hn p a b hb hin a' result hret
    obtain ⟨haddr, hvalue⟩ := returns_read hn hb hin hret
    exact ⟨haddr, n, hin.1, Nat.le_refl n, hvalue⟩

/-- Thread 1 reads a word that thread 0 has locked, and helps; thread 2 is late. -/
def helpedActions : List Action :=
  prepares 0 [⟨0, .plain 0, .plain 1⟩, ⟨1, .plain 0, .plain 1⟩]
    ++ prepares 2 [⟨1, .plain 0, .plain 5⟩]
    ++ .execute 0 :: steps 0 14 ++ .readPtr 1 0 :: steps 1 29 ++ .execute 2 :: steps 2 16 ++ steps 0 14

set_option maxRecDepth 4000 in
theorem execute_atomic_helped : ∃ r : Run (system 2 fun _ => 0),
    callAt r 0 r.len = .executed true ∧ callAt r 1 r.len = .read 0 (.plain 1)
      ∧ callAt r 2 r.len = .executed false ∧ ∃ commits, Atomic r commits := by
  obtain ⟨r, hc, -, hend⟩ := Run.exists_of_check (M := system 2 fun _ => 0) (c := promisedTest)
    (f := fun s => decide ((s.thread 0).call = .executed true
      ∧ (s.thread 1).call = .read 0 (.plain 1) ∧ (s.thread 2).call = .executed false))
    promised_of_test helpedActions (.step 0) (by decide +kernel)
  obtain ⟨h₀, h₁, h₂⟩ := of_decide_eq_true hend
  exact ⟨r, h₀, h₁, h₂, execute_atomic 2 (fun _ => 0) r hc⟩

end Commits

end MultiCore.KCASLockFree
