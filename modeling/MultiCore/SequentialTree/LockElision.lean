/-
  MultiCore.SequentialTree.LockElision — `ExternalBST` under transactional lock
  elision (`tree.h`, with `TryLock` of `util.h`).

  A call tries its sequential code as a hardware transaction, up to
  `MAX_RETRIES` times, and then executes it under `gLock`, command by command.
  Of the hardware the model takes: a transaction has its effect in one step, at
  `_xend`; it may abort at any time and then has none; and it aborts if `gLock`
  is held when it is read, or written afterwards (`writes` counts the writes of
  `gLock`, so a value that comes back counts as written).

  `log`, `base` and `holder` record what has happened; no step reads them.
-/
import MultiCore.SequentialTree.Model
import MultiCore.Lib.Calls

namespace MultiCore.SequentialTree.ExternalBST

open MultiCore.Lib

/-! ## §1. Steps. -/

def MAX_RETRIES : Nat := 40

/-- A call that has taken effect. -/
structure Entry where
  tid : Nat
  request : Request
  result : Bool
  deriving Repr, DecidableEq

structure Mem where
  heap : Heap
  /-- `gLock->state`, an `int` of 32 bits. -/
  state : Nat
  /-- The writes of `gLock->state` so far. -/
  writes : Nat
  /-- The calls that have taken effect, in the order of their commits and lock
  releases. -/
  log : List Entry
  /-- The heap at the last commit or release. -/
  base : Heap
  holder : Option Nat

/-- Where a thread is in a call, with the locals it holds there. -/
inductive Pc where
  /-- At `_xbegin()`, with `retriesLeft`. -/
  | retry (retriesLeft : Nat)
  /-- In a transaction, about to evaluate `gLock->isHeld()`. -/
  | begun (retriesLeft : Nat)
  /-- In a transaction that has read `gLock` free; `writes` is the hardware's
  mark on `gLock`. -/
  | transaction (retriesLeft writes : Nat)
  /-- At `while (gLock->isHeld())`. -/
  | spin (retriesLeft : Nat)
  /-- `tryAcquire`, about to read `state`. -/
  | tryRead
  /-- `tryAcquire`, about to CAS `state` from `read` to `read | 1`. -/
  | tryCas (read : Nat)
  /-- Holding `gLock`, with this code still to execute. -/
  | fallback (code : Code Bool)
  /-- `release`, about to read `state`. -/
  | releaseRead (result : Bool)
  /-- `release`, about to write `state`. -/
  | releaseWrite (read : Nat) (result : Bool)
  | ret (result : Bool)

/-- What the hardware and the length of the loops of a call leave open. -/
inductive Choice where
  | abort
  /-- Go on; `fuel` bounds the search loop of the code that starts here. -/
  | go (fuel : Nat)
  deriving Repr, DecidableEq

/-- `isHeld`. -/
def isHeld (state : Nat) : Bool := state % 2 == 1

/-- A call takes effect, and leaves the heap `heap`. -/
def Mem.finish (s : Mem) (tid : Nat) (q : Request) (result : Bool) (heap : Heap) : Mem :=
  { s with heap := heap, base := heap, log := s.log ++ [⟨tid, q, result⟩] }

/-- A write of `gLock->state`. -/
def Mem.setLock (s : Mem) (state : Nat) (holder : Option Nat) : Mem :=
  { s with state := state, writes := s.writes + 1, holder := holder }

/-- `_xend`: the whole sequential code in one step, unless `gLock` has been
written since it was read. -/
def commit (P : Params) (s : Mem) (tid : Nat) (q : Request) (retriesLeft writes fuel : Nat) :
    Option (Mem × Pc) :=
  if s.writes = writes then
    ((perform P fuel q).run s.heap).map fun r => (s.finish tid q r.1 r.2, .ret r.1)
  else some (s, .spin retriesLeft)

/-- One command of the code executed under the lock. -/
def execute (s : Mem) (code : Code Bool) : Option (Mem × Pc) :=
  match code.value with
  | some result => some (s, .releaseRead result)
  | none => (code.step s.heap).map fun r => ({ s with heap := r.2 }, .fallback r.1)

def step (P : Params) (s : Mem) (tid : Nat) (q : Request) : Pc → Choice → Option (Mem × Pc)
  | .retry left, .abort => some (s, .spin left)
  | .retry left, .go _ => some (s, .begun left)
  | .begun left, .abort => some (s, .spin left)
  | .begun left, .go _ =>
      if isHeld s.state then some (s, .spin left) else some (s, .transaction left s.writes)
  | .transaction left _, .abort => some (s, .spin left)
  | .transaction left writes, .go fuel => commit P s tid q left writes fuel
  | .spin left, _ =>
      if isHeld s.state then some (s, .spin left)
      else if left - 1 > 0 then some (s, .retry (left - 1))
      else some (s, .tryRead)
  | .tryRead, _ =>
      if isHeld s.state then some (s, .tryRead) else some (s, .tryCas s.state)
  | .tryCas _, .abort => none
  | .tryCas read, .go fuel =>
      if s.state = read then
        some (s.setLock (read ||| 1) (some tid), .fallback (perform P fuel q))
      else some (s, .tryRead)
  | .fallback code, _ => execute s code
  | .releaseRead result, _ => some (s, .releaseWrite s.state result)
  | .releaseWrite read result, _ =>
      some ((s.setLock ((read + 1) % 2 ^ 32) none).finish tid q result s.heap, .ret result)
  | .ret _, _ => none

/-- The threads of an `ExternalBST`. -/
def machine (P : Params) : Machine Mem Request Pc Bool Choice where
  init :=
    { heap := SequentialTree.init P, state := 0, writes := 0, log := []
      base := SequentialTree.init P, holder := none }
  start := fun _ => .retry MAX_RETRIES
  step := step P
  result := fun pc =>
    match pc with
    | .ret result => some result
    | _ => none

/-- The thread is between acquiring `gLock` and releasing it. -/
def Pc.inFallback : Pc → Bool
  | .fallback _ => true
  | .releaseRead _ => true
  | .releaseWrite _ _ => true
  | _ => false

/-! ## §2. The serial order. -/

/-- Executing the calls of `log` one at a time gives their results, and `h`. -/
inductive Serial (P : Params) : List Entry → Heap → Prop where
  | nil : Serial P [] (SequentialTree.init P)
  | snoc {log : List Entry} {h h' : Heap} {tid fuel : Nat} {q : Request} {result : Bool}
      (before : Serial P log h) (call : (perform P fuel q).run h = some (result, h')) :
      Serial P (log ++ [⟨tid, q, result⟩]) h'

/-- The memory: the serial order explains the last committed heap, and nobody
changes the heap without the lock. -/
structure LockInv (P : Params) (s : Mem) : Prop where
  serial : Serial P s.log s.base
  free : s.holder = none → s.heap = s.base ∧ isHeld s.state = false
  held : ∀ tid, s.holder = some tid → isHeld s.state = true

/-- The assertion of a thread.  Under the lock, what is left of the code gives,
from the heap as it is, what the whole code gives from the last committed
heap. -/
def Asserts (P : Params) (s : Mem) (tid : Nat) (q : Request) : Pc → Prop
  | .transaction _ writes => writes ≤ s.writes ∧ (s.writes = writes → s.holder = none)
  | .tryCas read => isHeld read = false
  | .fallback code =>
      s.holder = some tid ∧ ∃ fuel, (perform P fuel q).run s.base = code.run s.heap
  | .releaseRead result =>
      s.holder = some tid ∧ ∃ fuel, (perform P fuel q).run s.base = some (result, s.heap)
  | .releaseWrite read result =>
      s.holder = some tid ∧ read = s.state
        ∧ ∃ fuel, (perform P fuel q).run s.base = some (result, s.heap)
  | _ => True

/-- What a step leaves alone, for a thread `tid` that does not take it. -/
structure Frame (v : Nat) (s s' : Mem) : Prop where
  writes : s.writes ≤ s'.writes
  same : s'.writes = s.writes → s'.holder = s.holder
  held : ∀ tid, tid ≠ v → s.holder = some tid →
    s'.holder = some tid ∧ s'.heap = s.heap ∧ s'.base = s.base ∧ s'.state = s.state

theorem Frame.refl (v : Nat) (s : Mem) : Frame v s s :=
  ⟨Nat.le_refl _, fun _ => rfl, fun _ _ h => ⟨h, rfl, rfl, rfl⟩⟩

theorem isHeld_or (n : Nat) : isHeld (n ||| 1) = true := by
  unfold isHeld
  rw [beq_iff_eq]
  simp [Nat.or_mod_two_eq_one]

theorem isHeld_succ {n : Nat} (h : isHeld n = true) : isHeld ((n + 1) % 2 ^ 32) = false := by
  unfold isHeld at h ⊢
  rw [beq_iff_eq] at h
  rw [beq_eq_false_iff_ne]
  omega

/-- Only a free lock is acquired. -/
theorem LockInv.not_held {P : Params} {s : Mem} (h : LockInv P s) (hfree : isHeld s.state = false) :
    s.holder = none := by
  cases hh : s.holder with
  | none => rfl
  | some tid =>
      have := h.held tid hh
      rw [hfree] at this
      exact absurd this (by simp)

/-- A transaction that commits leaves a longer serial order. -/
theorem commit_step {P : Params} {s s' : Mem} {tid left writes fuel : Nat} {q : Request} {pc' : Pc}
    (hinv : LockInv P s) (ha : Asserts P s tid q (.transaction left writes))
    (hstep : commit P s tid q left writes fuel = some (s', pc')) :
    LockInv P s' ∧ Asserts P s' tid q pc' ∧ Frame tid s s' := by
  unfold commit at hstep
  split at hstep
  · rename_i hsame
    obtain ⟨⟨result, h'⟩, hrun, heq⟩ := Option.map_eq_some_iff.mp hstep
    obtain ⟨rfl, rfl⟩ : _ = s' ∧ _ = pc' := by simpa using heq
    have hnone := ha.2 hsame
    obtain ⟨hheap, hfree⟩ := hinv.free hnone
    rw [hheap] at hrun
    refine ⟨⟨.snoc hinv.serial hrun, fun _ => ⟨rfl, hfree⟩, hinv.held⟩, trivial, ?_⟩
    refine ⟨Nat.le_refl _, fun _ => rfl, ?_⟩
    intro v _ hv
    rw [hnone] at hv
    exact absurd hv (by simp)
  · obtain ⟨rfl, rfl⟩ : s = s' ∧ _ = pc' := by simpa using hstep
    exact ⟨hinv, trivial, Frame.refl tid s⟩

/-- A command under the lock leaves the outcome of the code as it is. -/
theorem execute_step {P : Params} {s s' : Mem} {tid : Nat} {q : Request} {code : Code Bool} {pc' : Pc}
    (hinv : LockInv P s) (ha : Asserts P s tid q (.fallback code))
    (hstep : execute s code = some (s', pc')) :
    LockInv P s' ∧ Asserts P s' tid q pc' ∧ Frame tid s s' := by
  obtain ⟨hholder, fuel, hrun⟩ := ha
  unfold execute at hstep
  split at hstep
  · rename_i result hvalue
    obtain ⟨rfl, rfl⟩ : s = s' ∧ _ = pc' := by simpa using hstep
    rw [Prog.run_of_value hvalue] at hrun
    exact ⟨hinv, ⟨hholder, fuel, hrun⟩, Frame.refl tid s⟩
  · obtain ⟨⟨code', h'⟩, hcode, heq⟩ := Option.map_eq_some_iff.mp hstep
    obtain ⟨rfl, rfl⟩ : _ = s' ∧ _ = pc' := by simpa using heq
    rw [Prog.run_step hcode] at hrun
    refine ⟨⟨hinv.serial, ?_, hinv.held⟩, ⟨hholder, fuel, hrun⟩, ?_⟩
    · intro hnone
      change s.holder = none at hnone
      rw [hholder] at hnone
      exact absurd hnone (by simp)
    · refine ⟨Nat.le_refl _, fun _ => rfl, ?_⟩
      intro v hv hheld
      rw [hholder] at hheld
      exact absurd (Option.some.inj hheld).symm hv

/-- **A step of the thread itself.** -/
theorem own_step {P : Params} {s s' : Mem} {tid : Nat} {q : Request} {pc pc' : Pc} {choice : Choice}
    (hinv : LockInv P s) (ha : Asserts P s tid q pc)
    (hstep : step P s tid q pc choice = some (s', pc')) :
    LockInv P s' ∧ Asserts P s' tid q pc' ∧ Frame tid s s' := by
  cases pc with
  | retry left =>
      cases choice <;>
      · obtain ⟨rfl, rfl⟩ : s = s' ∧ _ = pc' := by simpa [step] using hstep
        exact ⟨hinv, trivial, Frame.refl tid s⟩
  | begun left =>
      cases choice with
      | abort =>
          obtain ⟨rfl, rfl⟩ : s = s' ∧ _ = pc' := by simpa [step] using hstep
          exact ⟨hinv, trivial, Frame.refl tid s⟩
      | go fuel =>
          simp only [step] at hstep
          split at hstep
          · obtain ⟨rfl, rfl⟩ : s = s' ∧ _ = pc' := by simpa using hstep
            exact ⟨hinv, trivial, Frame.refl tid s⟩
          · rename_i hfree
            obtain ⟨rfl, rfl⟩ : s = s' ∧ _ = pc' := by simpa using hstep
            refine ⟨hinv, ⟨Nat.le_refl _, fun _ => ?_⟩, Frame.refl tid s⟩
            exact hinv.not_held (by simpa using hfree)
  | transaction left writes =>
      cases choice with
      | abort =>
          obtain ⟨rfl, rfl⟩ : s = s' ∧ _ = pc' := by simpa [step] using hstep
          exact ⟨hinv, trivial, Frame.refl tid s⟩
      | go fuel => exact commit_step hinv ha hstep
  | spin left =>
      simp only [step] at hstep
      split at hstep
      · obtain ⟨rfl, rfl⟩ : s = s' ∧ _ = pc' := by simpa using hstep
        exact ⟨hinv, trivial, Frame.refl tid s⟩
      · split at hstep
        · obtain ⟨rfl, rfl⟩ : s = s' ∧ _ = pc' := by simpa using hstep
          exact ⟨hinv, trivial, Frame.refl tid s⟩
        · obtain ⟨rfl, rfl⟩ : s = s' ∧ _ = pc' := by simpa using hstep
          exact ⟨hinv, trivial, Frame.refl tid s⟩
  | tryRead =>
      simp only [step] at hstep
      split at hstep
      · obtain ⟨rfl, rfl⟩ : s = s' ∧ _ = pc' := by simpa using hstep
        exact ⟨hinv, trivial, Frame.refl tid s⟩
      · rename_i hfree
        obtain ⟨rfl, rfl⟩ : s = s' ∧ _ = pc' := by simpa using hstep
        have hread : isHeld s.state = false := by simpa using hfree
        exact ⟨hinv, hread, Frame.refl tid s⟩
  | tryCas read =>
      cases choice with
      | abort => exact absurd hstep (by simp [step])
      | go fuel =>
          simp only [step] at hstep
          split at hstep
          · -- ===== the lock is acquired: it was free =====
            rename_i hread
            obtain ⟨rfl, rfl⟩ : _ = s' ∧ _ = pc' := by simpa using hstep
            have hfree : isHeld s.state = false := hread ▸ ha
            have hnone := hinv.not_held hfree
            have hheap := (hinv.free hnone).1
            refine ⟨⟨hinv.serial, ?_, fun _ _ => isHeld_or read⟩, ⟨rfl, fuel, ?_⟩, ?_⟩
            · intro h
              exact absurd h (by simp [Mem.setLock])
            · show (perform P fuel q).run s.base = (perform P fuel q).run s.heap
              rw [hheap]
            · refine ⟨Nat.le_succ _, ?_, ?_⟩
              · intro h
                exact absurd h (Nat.succ_ne_self _)
              · intro v _ hv
                rw [hnone] at hv
                exact absurd hv (by simp)
          · obtain ⟨rfl, rfl⟩ : s = s' ∧ _ = pc' := by simpa using hstep
            exact ⟨hinv, trivial, Frame.refl tid s⟩
  | fallback code => exact execute_step hinv ha hstep
  | releaseRead result =>
      simp only [step] at hstep
      obtain ⟨rfl, rfl⟩ : s = s' ∧ _ = pc' := by simpa using hstep
      exact ⟨hinv, ⟨ha.1, rfl, ha.2⟩, Frame.refl tid s⟩
  | releaseWrite read result =>
      -- ===== the code has run from the last committed heap to this one =====
      simp only [step] at hstep
      obtain ⟨rfl, rfl⟩ : _ = s' ∧ _ = pc' := by simpa using hstep
      obtain ⟨hholder, rfl, fuel, hrun⟩ := ha
      refine ⟨⟨.snoc hinv.serial hrun, ?_, ?_⟩, trivial, ?_⟩
      · intro _
        exact ⟨rfl, isHeld_succ (hinv.held tid hholder)⟩
      · intro v hv
        exact absurd hv (by simp [Mem.finish, Mem.setLock])
      · refine ⟨Nat.le_succ _, ?_, ?_⟩
        · intro h
          exact absurd h (Nat.succ_ne_self _)
        · intro v hv hheld
          rw [hholder] at hheld
          exact absurd (Option.some.inj hheld).symm hv
  | ret result => exact absurd hstep (by cases choice <;> simp [step])

/-- A step of another thread. -/
theorem other_step {P : Params} {s s' : Mem} {tid v : Nat} {q : Request} {pc : Pc}
    (hframe : Frame v s s') (hne : tid ≠ v) (ha : Asserts P s tid q pc) : Asserts P s' tid q pc := by
  cases pc with
  | transaction left writes =>
      obtain ⟨hle, hnone⟩ := ha
      refine ⟨Nat.le_trans hle hframe.writes, ?_⟩
      intro heq
      have hsame : s'.writes = s.writes := by
        have := hframe.writes
        omega
      rw [hframe.same hsame]
      exact hnone (by omega)
  | fallback code =>
      obtain ⟨hholder, fuel, hrun⟩ := ha
      obtain ⟨h₁, h₂, h₃, -⟩ := hframe.held tid hne hholder
      exact ⟨h₁, fuel, by rw [h₂, h₃]; exact hrun⟩
  | releaseRead result =>
      obtain ⟨hholder, fuel, hrun⟩ := ha
      obtain ⟨h₁, h₂, h₃, -⟩ := hframe.held tid hne hholder
      exact ⟨h₁, fuel, by rw [h₂, h₃]; exact hrun⟩
  | releaseWrite read result =>
      obtain ⟨hholder, hread, fuel, hrun⟩ := ha
      obtain ⟨h₁, h₂, h₃, h₄⟩ := hframe.held tid hne hholder
      exact ⟨h₁, by rw [h₄]; exact hread, fuel, by rw [h₂, h₃]; exact hrun⟩
  | tryCas read => exact ha
  | _ => trivial

theorem rely (P : Params) :
    (machine P).Rely (LockInv P) (fun s _ tid q pc => Asserts P s tid q pc) where
  init := ⟨.nil, fun _ => ⟨rfl, rfl⟩, fun _ h => absurd h (by simp [machine])⟩
  start := fun _ _ _ _ _ => trivial
  mono := fun _ _ _ _ _ _ _ ha _ => ha
  own := by
    intro s _ s' _ tid q pc choice pc' hinv ha hstep _
    obtain ⟨hinv', ha', -⟩ := own_step hinv ha hstep
    exact ⟨hinv', ha'⟩
  other := by
    intro s _ s' _ tid q pc v _ qv pcv choice pcv' hinv ha hv hav hstep _
    obtain ⟨-, -, hframe⟩ := own_step hinv hav hstep
    exact other_step hframe (Ne.symm hv) ha

/-! ## §3. Serializability. -/

/-- The calls of a thread that have taken effect. -/
def entriesOf (tid : Nat) (log : List Entry) : List Entry :=
  log.filter fun e => e.tid = tid

/-- What a step does to the log and to the holder of the lock. -/
inductive Kind (s s' : Mem) (tid : Nat) (q : Request) (pc pc' : Pc) : Prop where
  | quiet (hlog : s'.log = s.log) (hpc : ∀ result, pc' ≠ .ret result)
      (hholder : s'.holder = s.holder) (hfallback : pc'.inFallback = pc.inFallback)
  | acquire (hlog : s'.log = s.log) (hpc : ∀ result, pc' ≠ .ret result)
      (hholder : s'.holder = some tid) (hfallback : pc'.inFallback = true)
  | effect {result : Bool} (hlog : s'.log = s.log ++ [⟨tid, q, result⟩]) (hpc : pc' = .ret result)
      (hholder : s'.holder = none ∨ s'.holder = s.holder ∧ pc.inFallback = false)

theorem Kind.still {s : Mem} {tid : Nat} {q : Request} {pc pc' : Pc}
    (hpc : ∀ result, pc' ≠ .ret result) (hfallback : pc'.inFallback = pc.inFallback) :
    Kind s s tid q pc pc' := .quiet rfl hpc rfl hfallback

theorem step_kind {P : Params} {s s' : Mem} {tid : Nat} {q : Request} {pc pc' : Pc}
    {choice : Choice} (hstep : step P s tid q pc choice = some (s', pc')) :
    Kind s s' tid q pc pc' := by
  cases pc with
  | retry left =>
      cases choice <;>
      · obtain ⟨rfl, rfl⟩ : s = s' ∧ _ = pc' := by simpa [step] using hstep
        exact .still (by simp) rfl
  | begun left =>
      cases choice with
      | abort =>
          obtain ⟨rfl, rfl⟩ : s = s' ∧ _ = pc' := by simpa [step] using hstep
          exact .still (by simp) rfl
      | go fuel =>
          simp only [step] at hstep
          split at hstep <;>
          · obtain ⟨rfl, rfl⟩ : s = s' ∧ _ = pc' := by simpa using hstep
            exact .still (by simp) rfl
  | transaction left writes =>
      cases choice with
      | abort =>
          obtain ⟨rfl, rfl⟩ : s = s' ∧ _ = pc' := by simpa [step] using hstep
          exact .still (by simp) rfl
      | go fuel =>
          simp only [step, commit] at hstep
          split at hstep
          · obtain ⟨⟨result, h'⟩, -, heq⟩ := Option.map_eq_some_iff.mp hstep
            obtain ⟨rfl, rfl⟩ : _ = s' ∧ _ = pc' := by simpa using heq
            exact .effect rfl rfl (Or.inr ⟨rfl, rfl⟩)
          · obtain ⟨rfl, rfl⟩ : s = s' ∧ _ = pc' := by simpa using hstep
            exact .still (by simp) rfl
  | spin left =>
      simp only [step] at hstep
      split at hstep
      · obtain ⟨rfl, rfl⟩ : s = s' ∧ _ = pc' := by simpa using hstep
        exact .still (by simp) rfl
      · split at hstep <;>
        · obtain ⟨rfl, rfl⟩ : s = s' ∧ _ = pc' := by simpa using hstep
          exact .still (by simp) rfl
  | tryRead =>
      simp only [step] at hstep
      split at hstep <;>
      · obtain ⟨rfl, rfl⟩ : s = s' ∧ _ = pc' := by simpa using hstep
        exact .still (by simp) rfl
  | tryCas read =>
      cases choice with
      | abort => exact absurd hstep (by simp [step])
      | go fuel =>
          simp only [step] at hstep
          split at hstep
          · obtain ⟨rfl, rfl⟩ : _ = s' ∧ _ = pc' := by simpa using hstep
            exact .acquire rfl (by simp) rfl rfl
          · obtain ⟨rfl, rfl⟩ : s = s' ∧ _ = pc' := by simpa using hstep
            exact .still (by simp) rfl
  | fallback code =>
      simp only [step, execute] at hstep
      split at hstep
      · obtain ⟨rfl, rfl⟩ : s = s' ∧ _ = pc' := by simpa using hstep
        exact .still (by simp) rfl
      · obtain ⟨⟨code', h'⟩, -, heq⟩ := Option.map_eq_some_iff.mp hstep
        obtain ⟨rfl, rfl⟩ : _ = s' ∧ _ = pc' := by simpa using heq
        exact .quiet rfl (by simp) rfl rfl
  | releaseRead result =>
      simp only [step] at hstep
      obtain ⟨rfl, rfl⟩ : s = s' ∧ _ = pc' := by simpa using hstep
      exact .still (by simp) rfl
  | releaseWrite read result =>
      simp only [step] at hstep
      obtain ⟨rfl, rfl⟩ : _ = s' ∧ _ = pc' := by simpa using hstep
      exact .effect rfl rfl (Or.inl rfl)
  | ret result => exact absurd hstep (by cases choice <;> simp [step])

/-- The lock is held from inside the fallback section only. -/
theorem holder_inFallback {P : Params} {s : Machine.State Mem Request Pc}
    (hr : Reachable (machine P).sys s) {tid : Nat} (hh : s.mem.holder = some tid) :
    ∃ q pc, s.thread tid = some (q, pc) ∧ pc.inFallback = true := by
  revert tid
  refine Reach.induct (P := fun s => ∀ {tid : Nat}, s.mem.holder = some tid →
    ∃ q pc, s.thread tid = some (q, pc) ∧ pc.inFallback = true) ?_ ?_ hr
  · intro tid hh
    exact absurd hh (by simp [machine, Machine.sys])
  · intro s a s' _ ih _ hn tid hh
    cases Machine.next_transition hn with
    | @invoke v q hidle =>
        obtain ⟨q', pc, hth, hpc⟩ := ih hh
        have hne : tid ≠ v := by
          intro heq
          rw [heq, hidle] at hth
          exact absurd hth (by simp)
        exact ⟨q', pc, (Machine.State.goto_other _ _ hne).trans hth, hpc⟩
    | @step v choice q pc pc' mem' hv hstep =>
        have hkind := step_kind hstep
        have hself : (s.goto v (some (q, pc'))).thread v = some (q, pc') :=
          Machine.State.goto_self _ _ _
        have hother : tid ≠ v → s.mem.holder = some tid →
            ∃ q' pc'', (s.goto v (some (q, pc'))).thread tid = some (q', pc'')
              ∧ pc''.inFallback = true := by
          intro hne hold
          obtain ⟨q', pc'', hth, hpc⟩ := ih hold
          exact ⟨q', pc'', (Machine.State.goto_other _ _ hne).trans hth, hpc⟩
        change mem'.holder = some tid at hh
        cases hkind with
        | quiet _ _ hholder hfallback =>
            rw [hholder] at hh
            by_cases hne : tid = v
            · subst hne
              obtain ⟨q', pc'', hth, hpc⟩ := ih hh
              rw [hv, Option.some.injEq, Prod.mk.injEq] at hth
              obtain ⟨rfl, rfl⟩ := hth
              exact ⟨q, pc', hself, hfallback.trans hpc⟩
            · exact hother hne hh
        | acquire _ _ hholder hfallback =>
            rw [hholder, Option.some.injEq] at hh
            subst hh
            exact ⟨q, pc', hself, hfallback⟩
        | effect _ _ hholder =>
            rcases hholder with hnone | ⟨hsame, hout⟩
            · rw [hnone] at hh
              exact absurd hh (by simp)
            · rw [hsame] at hh
              refine hother ?_ hh
              -- a thread that commits does not hold the lock
              intro heq
              subst heq
              obtain ⟨q', pc'', hth, hpc⟩ := ih hh
              rw [hv, Option.some.injEq, Prod.mk.injEq] at hth
              obtain ⟨-, rfl⟩ := hth
              rw [hout] at hpc
              exact absurd hpc (by simp)
    | @ret v q pc result hv hres =>
        obtain ⟨q', pc', hth, hpc⟩ := ih hh
        have hne : tid ≠ v := by
          intro heq
          rw [heq, hv, Option.some.injEq, Prod.mk.injEq] at hth
          obtain ⟨-, rfl⟩ := hth
          cases pc <;> simp_all [machine, Pc.inFallback]
        exact ⟨q', pc', (Machine.State.goto_other _ _ hne).trans hth, hpc⟩

theorem holder_of_inFallback {P : Params} {s : Mem} {tid : Nat} {q : Request} {pc : Pc}
    (ha : Asserts P s tid q pc) (hpc : pc.inFallback = true) : s.holder = some tid := by
  cases pc with
  | fallback code => exact ha.1
  | releaseRead result => exact ha.1
  | releaseWrite read result => exact ha.1
  | _ => exact absurd hpc (by simp [Pc.inFallback])

/-- What the entries of a thread say while one of its calls runs. -/
def Recorded (tid : Nat) (q : Request) (before : List Entry) (s : Mem) (pc : Pc) : Prop :=
  match pc with
  | .ret result => entriesOf tid s.log = before ++ [⟨tid, q, result⟩]
  | _ => entriesOf tid s.log = before

theorem Recorded.of_ne {tid : Nat} {q : Request} {before : List Entry} {s : Mem} {pc : Pc}
    (hpc : ∀ result, pc ≠ .ret result) :
    Recorded tid q before s pc ↔ entriesOf tid s.log = before := by
  cases pc with
  | ret result => exact absurd rfl (hpc result)
  | _ => exact Iff.rfl

theorem entriesOf_snoc (tid : Nat) (log : List Entry) (e : Entry) :
    entriesOf tid (log ++ [e])
      = if e.tid = tid then entriesOf tid log ++ [e] else entriesOf tid log := by
  unfold entriesOf
  rw [List.filter_append]
  split
  · rename_i heq
    simp [heq]
  · rename_i hne
    simp [hne]

/-- **A call is logged exactly once**, between its call and its return, with the
result it returns. -/
theorem returned_entry {P : Params} {r : Run (machine P).sys} {tid : Nat} {q : Request}
    {result : Bool} {a b : ℕ} (hret : Machine.Returns r tid q result a b) :
    entriesOf tid (r.state b).mem.log
      = entriesOf tid (r.state a).mem.log ++ [⟨tid, q, result⟩] := by
  obtain ⟨pc, hres, hrec⟩ := hret.induct
    (Recorded tid q (entriesOf tid (r.state a).mem.log)) rfl
    (by
      intro s pc choice s' pc' hrec hstep
      have hstep' : step P s tid q pc choice = some (s', pc') := hstep
      have hnot : ∀ result, pc ≠ .ret result := by
        intro result heq
        rw [heq] at hstep'
        exact absurd hstep' (by cases choice <;> simp [step])
      rw [Recorded.of_ne hnot] at hrec
      cases step_kind hstep' with
      | quiet hlog hpc _ _ => rw [Recorded.of_ne hpc, hlog, hrec]
      | acquire hlog hpc _ _ => rw [Recorded.of_ne hpc, hlog, hrec]
      | effect hlog hpc _ =>
          subst hpc
          show entriesOf tid s'.log = _
          rw [hlog, entriesOf_snoc, if_pos rfl, hrec])
    (by
      intro s pc w qw pcw choice s' pcw' hw hrec hstep
      have hsame : entriesOf tid s'.log = entriesOf tid s.log := by
        cases step_kind hstep with
        | quiet hlog _ _ _ => rw [hlog]
        | acquire hlog _ _ _ => rw [hlog]
        | effect hlog _ _ => rw [hlog, entriesOf_snoc, if_neg hw]
      unfold Recorded at hrec ⊢
      rw [hsame]
      exact hrec)
  cases pc with
  | ret result' =>
      obtain rfl : result' = result := Option.some.inj hres
      exact hrec
  | _ => exact absurd hres (by simp [machine])

/-- **Lock elision is serializable.**  In every reachable state the results in the
log are those of the sequential code executed one call at a time in its order,
and the heap is what that leaves, unless a thread is in the fallback section; at
most one is, and then no transaction commits.  A call that returns has been
logged exactly once since it was called, with its result. -/
theorem serializable (P : Params) :
    (∀ s, Reachable (machine P).sys s →
      Serial P s.mem.log s.mem.base
        ∧ ((∀ tid q pc, s.thread tid = some (q, pc) → pc.inFallback = false) →
            s.mem.heap = s.mem.base)
        ∧ (∀ v w qv qw pcv pcw, s.thread v = some (qv, pcv) → s.thread w = some (qw, pcw) →
            pcv.inFallback = true → pcw.inFallback = true → v = w)
        ∧ (∀ v w qv qw pcv left writes fuel, s.thread v = some (qv, pcv) → pcv.inFallback = true →
            s.thread w = some (qw, .transaction left writes) →
            commit P s.mem w qw left writes fuel = some (s.mem, .spin left)))
      ∧ ∀ (r : Run (machine P).sys) (tid : Nat) (q : Request) (result : Bool) (a b : ℕ),
          Machine.Returns r tid q result a b →
          entriesOf tid (r.state b).mem.log
            = entriesOf tid (r.state a).mem.log ++ [⟨tid, q, result⟩] := by
  refine ⟨?_, fun r tid q result a b hret => returned_entry hret⟩
  intro s hs
  obtain ⟨hinv, hall⟩ := (rely P).reachable hs
  have hholds : ∀ {v qv pcv}, s.thread v = some (qv, pcv) → pcv.inFallback = true →
      s.mem.holder = some v := fun hv hpc => holder_of_inFallback (hall _ _ _ hv) hpc
  refine ⟨hinv.serial, ?_, ?_, ?_⟩
  · intro hnone
    apply (hinv.free ?_).1
    cases hh : s.mem.holder with
    | none => rfl
    | some tid =>
        obtain ⟨q, pc, hth, hpc⟩ := holder_inFallback hs hh
        rw [hnone tid q pc hth] at hpc
        exact absurd hpc (by simp)
  · intro v w qv qw pcv pcw hv hw hpv hpw
    have hsame := (hholds hv hpv).symm.trans (hholds hw hpw)
    exact Option.some.inj hsame
  · intro v w qv qw pcv left writes fuel hv hpv hw
    have ha := hall _ _ _ hw
    unfold commit
    rw [if_neg]
    intro heq
    have hnone := ha.2 heq
    rw [hholds hv hpv] at hnone
    exact absurd hnone (by simp)

/-- Thread 1 inserts 5 by a transaction.  Thread 0 aborts until it has no retries
left and erases 5 under the lock, which it acquires while thread 1 is in another
transaction. -/
def elidedActions : List (Machine.Act Request Choice) :=
  .invoke 1 ⟨.insertIfAbsent, 5⟩ :: List.replicate 3 (.step 1 (.go 9))
    ++ [.ret 1, .invoke 0 ⟨.erase, 5⟩] ++ List.replicate 80 (.step 0 .abort)
    ++ [.invoke 1 ⟨.contains, 5⟩, .step 1 (.go 9), .step 1 (.go 9)]
    ++ List.replicate 2 (.step 0 (.go 9)) ++ .step 1 (.go 9) :: List.replicate 18 (.step 0 (.go 9))

theorem elided_le : (1 : Int) ≤ 10 := by decide

def elidedParams : Params := ⟨1, 10, elided_le⟩

def elidedRun : Run (machine elidedParams).sys :=
  Run.ofActions (machine elidedParams).sys elidedActions (.step 0 .abort) (by decide +kernel)

theorem serializable_elided :
    (elidedRun.state 110).mem.log
        = [⟨1, ⟨.insertIfAbsent, 5⟩, true⟩, ⟨0, ⟨.erase, 5⟩, true⟩]
      ∧ Serial elidedParams (elidedRun.state 110).mem.log (elidedRun.state 110).mem.base
      ∧ entriesOf 0 (elidedRun.state 110).mem.log
        = entriesOf 0 (elidedRun.state 5).mem.log ++ [⟨0, ⟨.erase, 5⟩, true⟩] := by
  have hcall : ∀ j < 110, 5 < j → ¬ Machine.Act.Calls 0 (elidedRun.act j) := by decide +kernel
  have hreturns : ((elidedRun.state 110).thread 0).map
      (fun th => (th.1, (machine elidedParams).result th.2)) = some (⟨.erase, 5⟩, some true) := by
    decide +kernel
  have hret : Machine.Returns elidedRun 0 ⟨.erase, 5⟩ true 5 110 :=
    { before := by decide
      within := by decide +kernel
      called := by decide +kernel
      same_call := fun j h₁ h₂ => hcall j h₂ h₁
      returns := by
        obtain ⟨⟨q, pc⟩, hth, heq⟩ := Option.map_eq_some_iff.mp hreturns
        obtain ⟨hq, hres⟩ := Prod.mk.inj heq
        subst hq
        exact ⟨pc, hth, hres⟩ }
  have hserial := serializable elidedParams
  refine ⟨by decide +kernel, ?_, hserial.2 elidedRun 0 _ true 5 110 hret⟩
  exact (hserial.1 _ (elidedRun.reachable 110 hret.within)).1

end MultiCore.SequentialTree.ExternalBST
