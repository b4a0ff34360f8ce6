/-
  MultiCore.TwoThreadLock.Mutex — the lock for two threads of assignment 3
  (`q3_2.cpp`; inlined in `q3_1.cpp`, with fences in `q3_3.cpp`).

  Two threads increment a counter `N 0` and `N 1` times under the lock.  Every
  read and write of `wants_to_enter`, `turn` and the counter is one step, and
  `v++` is a read and a write.

  A thread that waits lowers its flag, waits for its turn, and raises the flag
  again without another look at `turn`.  `unlock` passes the turn on before it
  lowers the flag.
-/
import MultiCore.Lib.Run
import Mathlib.Algebra.Group.Nat.Defs
import Mathlib.Logic.Function.Basic
import Mathlib.Data.Fintype.Basic

namespace MultiCore.TwoThreadLock

open MultiCore.Lib

/-! ## §1. Steps. -/

/-- The value of an `int` expression. -/
def toInt (x : Int) : Int := Int.bmod x (2 ^ 32)

/-- What a thread does next. -/
inductive Pc where
  /-- `lock`: `wants_to_enter[tid] = true` -/
  | raise
  /-- `while (wants_to_enter[1 - tid])` -/
  | readWants
  /-- `if (turn != tid)` -/
  | readTurn
  /-- `wants_to_enter[tid] = false` -/
  | lower
  /-- `while (turn != tid) {}` -/
  | await
  /-- `wants_to_enter[tid] = true`, at the end of the loop -/
  | raiseAgain
  /-- `v++` -/
  | readV
  | writeV (x : Int)
  /-- `unlock`: `turn = 1 - tid` -/
  | passTurn
  /-- `wants_to_enter[tid] = false` -/
  | lowerFlag
  /-- Behind the loop of `threadFunc`. -/
  | finished
  deriving Repr, DecidableEq

structure State where
  wants_to_enter : Fin 2 → Bool
  turn : Fin 2
  v : Int
  pc : Fin 2 → Pc
  /-- The number of increments behind the thread: `i` of `threadFunc`. -/
  i : Fin 2 → ℕ

/-- The test of the loop of `threadFunc`. -/
def iterate (n i : ℕ) : Pc := if i < n then .raise else .finished

namespace State

variable (s : State) (p : Fin 2)

def goto (pc : Pc) : State := { s with pc := Function.update s.pc p pc }

def flag (b : Bool) : State := { s with wants_to_enter := Function.update s.wants_to_enter p b }

end State

/-- The next step of thread `p`. -/
def next (N : Fin 2 → ℕ) (s : State) (p : Fin 2) : Option State :=
  match s.pc p with
  | .raise => some ((s.flag p true).goto p .readWants)
  | .readWants => some (s.goto p (if s.wants_to_enter (1 - p) then .readTurn else .readV))
  | .readTurn => some (s.goto p (if s.turn ≠ p then .lower else .raiseAgain))
  | .lower => some ((s.flag p false).goto p .await)
  | .await => some (if s.turn ≠ p then s else s.goto p .raiseAgain)
  | .raiseAgain => some ((s.flag p true).goto p .readWants)
  | .readV => some (s.goto p (.writeV s.v))
  | .writeV x => some ({ s with v := toInt (x + 1) }.goto p .passTurn)
  | .passTurn => some ({ s with turn := 1 - p }.goto p .lowerFlag)
  | .lowerFlag =>
      some (({ s.flag p false with i := Function.update s.i p (s.i p + 1) }).goto p
        (iterate (N p) (s.i p + 1)))
  | .finished => none

/-- Both threads, from the start. -/
def system (N : Fin 2 → ℕ) : Sys State (Fin 2) where
  init :=
    { wants_to_enter := fun _ => false, turn := 0, v := 0, pc := fun p => iterate (N p) 0
      i := fun _ => 0 }
  next := next N

/-! ## §2. The invariant. -/

namespace Pc

/-- Between `lock` and `unlock`, or in `unlock`. -/
def Inside : Pc → Bool
  | readV | writeV _ | passTurn | lowerFlag => true
  | _ => false

/-- The flag of the thread is raised. -/
def Raised : Pc → Bool
  | readWants | readTurn | lower | readV | writeV _ | passTurn | lowerFlag => true
  | _ => false

/-- The flag of the thread is lowered. -/
def Lowered : Pc → Bool
  | raise | await | finished => true
  | _ => false

/-- In the body of the waiting loop. -/
def Waiting : Pc → Bool
  | readTurn | lower | await | raiseAgain => true
  | _ => false

/-- The counter has been incremented and the iteration is not over. -/
def counted : Pc → ℕ
  | passTurn | lowerFlag => 1
  | _ => 0

end Pc

/-- What holds of a thread in view of the other one. -/
structure Local (N : ℕ) (s : State) (p : Fin 2) : Prop where
  raised : (s.pc p).Raised = true → s.wants_to_enter p = true
  lowered : (s.pc p).Lowered = true → s.wants_to_enter p = false
  alone : (s.pc p).Inside = true → (s.pc (1 - p)).Inside = false
  passed : s.pc p = .lowerFlag → s.turn = 1 - p
  /-- Nobody waits for a turn that nobody is left to pass on. -/
  waits : s.pc (1 - p) = .finished → (s.pc p).Waiting = true → s.turn = p
  read : ∀ x, s.pc p = .writeV x → x = s.v
  more : s.pc p ≠ .finished → s.i p < N
  all : s.pc p = .finished → s.i p = N

structure Inv (N : Fin 2 → ℕ) (s : State) : Prop where
  thread : ∀ p, Local (N p) s p
  count : s.v = (s.i 0 + (s.pc 0).counted + (s.i 1 + (s.pc 1).counted) : ℕ)

section Pairs

variable {p q : Fin 2}

@[simp] theorem other_other (p : Fin 2) : 1 - (1 - p) = p := by
  revert p
  decide

@[simp] theorem other_ne (p : Fin 2) : 1 - p ≠ p := by
  revert p
  decide

@[simp] theorem ne_other (p : Fin 2) : p ≠ 1 - p := (other_ne p).symm

theorem eq_or_other (p q : Fin 2) : q = p ∨ q = 1 - p := by
  revert p q
  decide

/-- What is said of both threads is said of one and the other. -/
theorem add_pair (f : Fin 2 → ℕ) (p : Fin 2) : f 0 + f 1 = f p + f (1 - p) := by
  rcases eq_or_other 0 p with rfl | rfl
  · rfl
  · exact Nat.add_comm _ _

end Pairs

section Goto

variable {s : State} {p : Fin 2} {pc : Pc} {b : Bool}

@[simp] theorem goto_pc_self : (s.goto p pc).pc p = pc := Function.update_self ..

@[simp] theorem goto_pc_other : (s.goto p pc).pc (1 - p) = s.pc (1 - p) :=
  Function.update_of_ne (other_ne p) ..

@[simp] theorem goto_wants : (s.goto p pc).wants_to_enter = s.wants_to_enter := rfl

@[simp] theorem goto_turn : (s.goto p pc).turn = s.turn := rfl

@[simp] theorem goto_v : (s.goto p pc).v = s.v := rfl

@[simp] theorem goto_i : (s.goto p pc).i = s.i := rfl

@[simp] theorem flag_wants_self : (s.flag p b).wants_to_enter p = b := Function.update_self ..

@[simp] theorem flag_wants_other :
    (s.flag p b).wants_to_enter (1 - p) = s.wants_to_enter (1 - p) :=
  Function.update_of_ne (other_ne p) ..

@[simp] theorem flag_pc : (s.flag p b).pc = s.pc := rfl

@[simp] theorem flag_turn : (s.flag p b).turn = s.turn := rfl

@[simp] theorem flag_v : (s.flag p b).v = s.v := rfl

@[simp] theorem flag_i : (s.flag p b).i = s.i := rfl

end Goto

/-! ## §3. Every step keeps the invariant. -/

section Steps

variable {N : Fin 2 → ℕ} {s s' : State} {p : Fin 2}

theorem Pc.raised_of_inside {pc : Pc} (h : pc.Inside = true) : pc.Raised = true := by
  cases pc <;> first | rfl | exact absurd h (by simp [Pc.Inside])

/-- A thread that sees the other flag down is alone. -/
theorem Inv.alone_of_lowered (h : Inv N s) (hw : s.wants_to_enter (1 - p) = false) :
    (s.pc (1 - p)).Inside = false := by
  cases hin : (s.pc (1 - p)).Inside with
  | false => rfl
  | true =>
      have hup := (h.thread (1 - p)).raised (Pc.raised_of_inside hin)
      rw [hw] at hup
      exact absurd hup (by simp)

/-- What a step of thread `p` must leave to the other thread. -/
structure Leaves (s s' : State) (p : Fin 2) : Prop where
  pc : s'.pc (1 - p) = s.pc (1 - p)
  wants : s'.wants_to_enter (1 - p) = s.wants_to_enter (1 - p)
  i : s'.i (1 - p) = s.i (1 - p)
  alone : (s.pc (1 - p)).Inside = true → (s'.pc p).Inside = false
  turn : s'.turn = s.turn ∨ s'.turn = 1 - p ∧ (s.pc (1 - p)).Inside = false
  finished : s'.pc p = .finished → s'.turn = 1 - p ∨ s.pc p = .finished
  v : s'.v = s.v ∨ (s.pc (1 - p)).Inside = false

theorem Local.other {n : ℕ} (h : Local n s (1 - p)) (hl : Leaves s s' p) :
    Local n s' (1 - p) where
  raised hr := by
    rw [hl.pc] at hr
    rw [hl.wants]
    exact h.raised hr
  lowered hr := by
    rw [hl.pc] at hr
    rw [hl.wants]
    exact h.lowered hr
  alone hin := by
    rw [hl.pc] at hin
    rw [other_other]
    exact hl.alone hin
  passed hpc := by
    rw [hl.pc] at hpc
    have hturn := h.passed hpc
    rcases hl.turn with heq | ⟨-, hout⟩
    · rw [heq]
      exact hturn
    · rw [hpc] at hout
      exact absurd hout (by simp [Pc.Inside])
  waits hfin hwait := by
    rw [other_other] at hfin
    rw [hl.pc] at hwait
    rcases hl.finished hfin with heq | hwas
    · exact heq
    · have hturn := h.waits (by rw [other_other]; exact hwas) hwait
      rcases hl.turn with heq | heq
      · rw [heq]
        exact hturn
      · exact heq.1
  read x hpc := by
    rw [hl.pc] at hpc
    rcases hl.v with heq | hout
    · rw [heq]
      exact h.read x hpc
    · rw [hpc] at hout
      exact absurd hout (by simp [Pc.Inside])
  more hpc := by
    rw [hl.pc] at hpc
    rw [hl.i]
    exact h.more hpc
  all hpc := by
    rw [hl.pc] at hpc
    rw [hl.i]
    exact h.all hpc

/-- The increments that the counter shows, of one thread and the other. -/
def shown (s : State) (p : Fin 2) : ℕ := s.i p + (s.pc p).counted

theorem Inv.of_pair (hp : Local (N p) s' p) (ho : Local (N (1 - p)) s' (1 - p))
    (hcount : s'.v = (shown s' p + shown s' (1 - p) : ℕ)) : Inv N s' where
  thread q := by
    rcases eq_or_other p q with rfl | rfl
    · exact hp
    · exact ho
  count := by
    rw [hcount, ← add_pair (shown s') p]
    rfl

theorem Inv.count_pair (h : Inv N s) (p : Fin 2) :
    s.v = (shown s p + shown s (1 - p) : ℕ) := by
  rw [h.count, ← add_pair (shown s) p]
  rfl

/-- The counter stays in the range of an `int`. -/
theorem Inv.count_lt (h : Inv N s) (hN : N 0 + N 1 < 2 ^ 31) {x : Int} (hpc : s.pc p = .writeV x) :
    toInt (x + 1) = s.v + 1 := by
  have hlt := (h.thread p).more (by rw [hpc]; simp)
  have hout := (h.thread p).alone (by rw [hpc]; rfl)
  have hother : shown s (1 - p) ≤ N (1 - p) := by
    unfold shown
    have hcounted : (s.pc (1 - p)).counted = 0 := by
      cases ho : s.pc (1 - p) <;> rw [ho] at hout <;>
        first | rfl | exact absurd hout (by simp [Pc.Inside])
    by_cases hfin : s.pc (1 - p) = .finished
    · rw [hcounted, (h.thread (1 - p)).all hfin]
      omega
    · have hmore := (h.thread (1 - p)).more hfin
      omega
  have hself : shown s p = s.i p := by
    unfold shown
    rw [hpc]
    rfl
  have hcount := h.count_pair p
  have hsum := add_pair N p
  rw [(h.thread p).read x hpc]
  unfold toInt
  apply Int.bmod_eq_of_le <;> omega

/-- A step that moves thread `p` on, and neither touches the turn nor the
counter. -/
theorem Inv.goto (h : Inv N s) {pc : Pc} {wants : Fin 2 → Bool}
    (hw : wants (1 - p) = s.wants_to_enter (1 - p))
    (hfrom : s.pc p ≠ .finished) (hto : pc ≠ .finished)
    (hcounted : pc.counted = (s.pc p).counted)
    (raised : pc.Raised = true → wants p = true) (lowered : pc.Lowered = true → wants p = false)
    (alone : pc.Inside = true → (s.pc (1 - p)).Inside = false) (passed : pc ≠ .lowerFlag)
    (waits : s.pc (1 - p) = .finished → pc.Waiting = true → s.turn = p)
    (read : ∀ x, pc = .writeV x → x = s.v) :
    Inv N ({ s with wants_to_enter := wants }.goto p pc) := by
  have hp := h.thread p
  have ho := h.thread (1 - p)
  refine Inv.of_pair (p := p) ?_ (ho.other ?_) ?_
  · exact
      { raised := by simpa using raised, lowered := by simpa using lowered
        alone := by simpa using alone
        passed := fun hpc => absurd (by simpa using hpc) passed
        waits := by simpa using waits, read := by simpa using read
        more := fun _ => by simpa using hp.more hfrom
        all := fun hpc => absurd (by simpa using hpc) hto }
  · exact
      { pc := goto_pc_other, wants := hw, i := rfl
        alone := fun hin => by
          cases hpc : pc.Inside with
          | false => simpa using hpc
          | true => exact absurd (hin.symm.trans (alone hpc)) (by simp)
        turn := Or.inl rfl, finished := fun hpc => absurd (by simpa using hpc) hto, v := Or.inl rfl }
  · have hcount := h.count_pair p
    unfold shown at hcount ⊢
    simp only [goto_pc_self, goto_pc_other, goto_v, goto_i, hcounted]
    exact hcount

/-- A step that only moves thread `p` on. -/
theorem Inv.move (h : Inv N s) {pc : Pc} (hfrom : s.pc p ≠ .finished) (hto : pc ≠ .finished)
    (hcounted : pc.counted = (s.pc p).counted)
    (raised : pc.Raised = true → s.wants_to_enter p = true)
    (lowered : pc.Lowered = true → s.wants_to_enter p = false)
    (alone : pc.Inside = true → (s.pc (1 - p)).Inside = false) (passed : pc ≠ .lowerFlag)
    (waits : s.pc (1 - p) = .finished → pc.Waiting = true → s.turn = p)
    (read : ∀ x, pc = .writeV x → x = s.v) : Inv N (s.goto p pc) :=
  Inv.goto (s := s) h rfl hfrom hto hcounted raised lowered alone passed waits read

/-- The increment of the counter. -/
theorem Inv.write (h : Inv N s) (hN : N 0 + N 1 < 2 ^ 31) {x : Int} (hpc : s.pc p = .writeV x) :
    Inv N ({ s with v := toInt (x + 1) }.goto p .passTurn) := by
  have hp := h.thread p
  have ho := h.thread (1 - p)
  have hup := hp.raised (by rw [hpc]; rfl)
  have halone := hp.alone (by rw [hpc]; rfl)
  have hmore := hp.more (by rw [hpc]; simp)
  refine Inv.of_pair (p := p) ?_ (ho.other ?_) ?_
  · exact
      { raised := fun _ => hup, lowered := by simp [Pc.Lowered]
        alone := fun _ => by rw [goto_pc_other]; exact halone
        passed := by simp, waits := by simp [Pc.Waiting], read := by simp
        more := fun _ => hmore, all := by simp }
  · exact
      { pc := goto_pc_other, wants := rfl, i := rfl
        alone := fun hin => absurd (hin.symm.trans halone) (by simp)
        turn := Or.inl rfl, finished := by simp, v := Or.inr halone }
  · have hcount := h.count_pair p
    rw [goto_v, h.count_lt hN hpc, hcount]
    unfold shown
    simp only [goto_pc_self, goto_pc_other, goto_i, hpc, Pc.counted]
    omega

/-- `unlock` passes the turn on. -/
theorem Inv.pass (h : Inv N s) (hpc : s.pc p = .passTurn) :
    Inv N ({ s with turn := 1 - p }.goto p .lowerFlag) := by
  have hp := h.thread p
  have ho := h.thread (1 - p)
  have hup := hp.raised (by rw [hpc]; rfl)
  have halone := hp.alone (by rw [hpc]; rfl)
  have hmore := hp.more (by rw [hpc]; simp)
  refine Inv.of_pair (p := p) ?_ (ho.other ?_) ?_
  · exact
      { raised := fun _ => hup, lowered := by simp [Pc.Lowered]
        alone := fun _ => by rw [goto_pc_other]; exact halone
        passed := fun _ => rfl, waits := by simp [Pc.Waiting], read := by simp
        more := fun _ => hmore, all := by simp }
  · exact
      { pc := goto_pc_other, wants := rfl, i := rfl
        alone := fun hin => absurd (hin.symm.trans halone) (by simp)
        turn := Or.inr ⟨rfl, halone⟩, finished := by simp, v := Or.inl rfl }
  · have hcount := h.count_pair p
    rw [goto_v, hcount]
    unfold shown
    simp only [goto_pc_self, goto_pc_other, goto_i, hpc, Pc.counted]

/-- `unlock` lowers the flag, and the iteration is over. -/
theorem Inv.leave (h : Inv N s) (hpc : s.pc p = .lowerFlag) :
    Inv N (({ s.flag p false with i := Function.update s.i p (s.i p + 1) }).goto p
      (iterate (N p) (s.i p + 1))) := by
  have hp := h.thread p
  have ho := h.thread (1 - p)
  have halone := hp.alone (by rw [hpc]; rfl)
  have hturn := hp.passed hpc
  have hmore := hp.more (by rw [hpc]; simp)
  unfold iterate
  refine Inv.of_pair (p := p) ?_ (ho.other ?_) ?_
  · split
    · refine
        { raised := by simp [Pc.Raised], lowered := fun _ => flag_wants_self
          alone := by simp [Pc.Inside], passed := by simp, waits := by simp [Pc.Waiting]
          read := by simp, more := fun _ => ?_, all := by simp }
      simpa using ‹s.i p + 1 < N p›
    · refine
        { raised := by simp [Pc.Raised], lowered := fun _ => flag_wants_self
          alone := by simp [Pc.Inside], passed := by simp, waits := by simp [Pc.Waiting]
          read := by simp, more := by simp, all := fun _ => ?_ }
      show Function.update s.i p (s.i p + 1) p = N p
      rw [Function.update_self]
      omega
  · refine
      { pc := goto_pc_other, wants := flag_wants_other, i := Function.update_of_ne (other_ne p) ..
        alone := fun hin => absurd (hin.symm.trans halone) (by simp)
        turn := Or.inl rfl, finished := fun _ => Or.inl hturn, v := Or.inl rfl }
  · have hcount := h.count_pair p
    unfold shown at hcount ⊢
    rw [hpc] at hcount
    rw [goto_v, goto_pc_self, goto_pc_other, goto_i]
    show s.v = _
    have hzero : (if s.i p + 1 < N p then Pc.raise else Pc.finished).counted = 0 := by
      split <;> rfl
    have hi : Function.update s.i p (s.i p + 1) (1 - p) = s.i (1 - p) :=
      Function.update_of_ne (other_ne p) ..
    show s.v = ((Function.update s.i p (s.i p + 1) p + _
      + (Function.update s.i p (s.i p + 1) (1 - p) + (s.pc (1 - p)).counted) : ℕ) : Int)
    rw [hzero, hi, Function.update_self, hcount]
    show ((s.i p + 1 + (s.i (1 - p) + (s.pc (1 - p)).counted) : ℕ) : Int) = _
    omega

theorem Inv.step (h : Inv N s) (hN : N 0 + N 1 < 2 ^ 31) (hn : next N s p = some s') :
    Inv N s' := by
  have hp := h.thread p
  have ho := h.thread (1 - p)
  unfold next at hn
  cases hpc : s.pc p with
  | raise =>
      rw [hpc] at hn
      obtain rfl := Option.some.inj hn
      refine Inv.goto (s := s) h flag_wants_other ?_ ?_ ?_ ?_ ?_ ?_ ?_ ?_ ?_ <;>
        simp [hpc, Pc.Lowered, Pc.Inside, Pc.Waiting, Pc.counted]
  | readWants =>
      rw [hpc] at hn
      obtain rfl := Option.some.inj hn
      have hup := hp.raised (by rw [hpc]; rfl)
      cases hw : s.wants_to_enter (1 - p) with
      | false =>
          have halone := h.alone_of_lowered hw
          refine h.move ?_ ?_ ?_ ?_ ?_ ?_ ?_ ?_ ?_ <;>
            simp [hpc, hup, halone, Pc.Lowered, Pc.Waiting, Pc.counted]
      | true =>
          -- the other thread is not behind its loop
          have hgo : s.pc (1 - p) ≠ .finished := by
            intro hfin
            have hdown := ho.lowered (by rw [hfin]; rfl)
            rw [hw] at hdown
            exact absurd hdown (by simp)
          refine h.move ?_ ?_ ?_ ?_ ?_ ?_ ?_ ?_ ?_ <;>
            simp [hpc, hup, hgo, Pc.Lowered, Pc.Inside, Pc.counted]
  | readTurn =>
      rw [hpc] at hn
      obtain rfl := Option.some.inj hn
      have hup := hp.raised (by rw [hpc]; rfl)
      have hwait := fun hfin => hp.waits hfin (by rw [hpc]; rfl)
      by_cases hturn : s.turn = p
      · rw [if_neg (fun hne => hne hturn)]
        refine h.move ?_ ?_ ?_ ?_ ?_ ?_ ?_ ?_ ?_ <;>
          simp [hpc, hturn, Pc.Raised, Pc.Lowered, Pc.Inside, Pc.counted]
      · rw [if_pos hturn]
        refine h.move ?_ ?_ ?_ ?_ ?_ ?_ ?_ (fun hfin _ => hwait hfin) ?_ <;>
          simp [hpc, hup, Pc.Lowered, Pc.Inside, Pc.counted]
  | lower =>
      rw [hpc] at hn
      obtain rfl := Option.some.inj hn
      have hwait := fun hfin => hp.waits hfin (by rw [hpc]; rfl)
      refine Inv.goto (s := s) h flag_wants_other ?_ ?_ ?_ ?_ ?_ ?_ ?_
        (fun hfin _ => hwait hfin) ?_ <;>
        simp [hpc, Pc.Raised, Pc.Inside, Pc.counted]
  | await =>
      rw [hpc] at hn
      obtain rfl := Option.some.inj hn
      by_cases hturn : s.turn = p
      · rw [if_neg (fun hne => hne hturn)]
        refine h.move ?_ ?_ ?_ ?_ ?_ ?_ ?_ ?_ ?_ <;>
          simp [hpc, hturn, Pc.Raised, Pc.Lowered, Pc.Inside, Pc.counted]
      · rw [if_pos hturn]
        exact h
  | raiseAgain =>
      rw [hpc] at hn
      obtain rfl := Option.some.inj hn
      refine Inv.goto (s := s) h flag_wants_other ?_ ?_ ?_ ?_ ?_ ?_ ?_ ?_ ?_ <;>
        simp [hpc, Pc.Lowered, Pc.Inside, Pc.Waiting, Pc.counted]
  | readV =>
      rw [hpc] at hn
      obtain rfl := Option.some.inj hn
      have hup := hp.raised (by rw [hpc]; rfl)
      have halone := hp.alone (by rw [hpc]; rfl)
      refine h.move ?_ ?_ ?_ ?_ ?_ ?_ ?_ ?_ ?_ <;>
        simp [hpc, hup, halone, Pc.Lowered, Pc.Waiting, Pc.counted]
  | writeV x =>
      rw [hpc] at hn
      obtain rfl := Option.some.inj hn
      exact h.write hN hpc
  | passTurn =>
      rw [hpc] at hn
      obtain rfl := Option.some.inj hn
      exact h.pass hpc
  | lowerFlag =>
      rw [hpc] at hn
      obtain rfl := Option.some.inj hn
      exact h.leave hpc
  | finished =>
      rw [hpc] at hn
      exact absurd hn (by simp)

end Steps

/-! ## §4. Every interleaving. -/

section Runs

variable {N : Fin 2 → ℕ} {s : State} {p : Fin 2}

theorem Inv.init (N : Fin 2 → ℕ) : Inv N (system N).init where
  thread p := by
    have hpc : (system N).init.pc p = iterate (N p) 0 := rfl
    have hcases : iterate (N p) 0 = .raise ∧ 0 < N p ∨ iterate (N p) 0 = .finished ∧ N p = 0 := by
      unfold iterate
      split
      · exact Or.inl ⟨rfl, ‹_›⟩
      · exact Or.inr ⟨rfl, by omega⟩
    rcases hcases with ⟨heq, hpos⟩ | ⟨heq, hzero⟩
    · rw [heq] at hpc
      constructor <;> simp [hpc, Pc.Raised, Pc.Inside, Pc.Waiting]
      · exact fun _ => rfl
      · exact hpos
    · rw [heq] at hpc
      constructor <;> simp [hpc, Pc.Raised, Pc.Inside, Pc.Waiting]
      · exact fun _ => rfl
      · exact hzero.symm
  count := by
    have hzero : ∀ p, ((system N).init.pc p).counted = 0 := by
      intro p
      show (iterate (N p) 0).counted = 0
      unfold iterate
      split <;> rfl
    rw [hzero, hzero]
    rfl

theorem Inv.reachable (hN : N 0 + N 1 < 2 ^ 31) (h : Reachable (system N) s) : Inv N s :=
  Reach.induct (P := Inv N) (Inv.init N) (fun _ _ _ _ hs _ hn => hs.step hN hn) h

/-- Only a thread that waits for its turn, or has finished, does not move. -/
theorem moves (hgo : s.pc p ≠ .finished) (hturn : s.pc p = .await → s.turn = p) :
    ∃ s', next N s p = some s' ∧ s' ≠ s := by
  have hne : ∀ {s' : State}, s'.pc p ≠ s.pc p → s' ≠ s := by
    rintro s' hpc rfl
    exact hpc rfl
  unfold next
  cases hpc : s.pc p with
  | raise => exact ⟨_, rfl, hne (by simp [hpc])⟩
  | readWants =>
      refine ⟨_, rfl, hne ?_⟩
      rw [goto_pc_self, hpc]
      split <;> simp
  | readTurn =>
      refine ⟨_, rfl, hne ?_⟩
      rw [goto_pc_self, hpc]
      split <;> simp
  | lower => exact ⟨_, rfl, hne (by simp [hpc])⟩
  | await =>
      refine ⟨_, rfl, hne ?_⟩
      rw [if_neg (fun h => h (hturn hpc)), goto_pc_self, hpc]
      simp
  | raiseAgain => exact ⟨_, rfl, hne (by simp [hpc])⟩
  | readV => exact ⟨_, rfl, hne (by simp [hpc])⟩
  | writeV x => exact ⟨_, rfl, hne (by simp [hpc])⟩
  | passTurn => exact ⟨_, rfl, hne (by simp [hpc])⟩
  | lowerFlag =>
      refine ⟨_, rfl, hne ?_⟩
      rw [goto_pc_self, hpc]
      unfold iterate
      split <;> simp
  | finished => exact absurd hpc hgo

/-- One of the threads can move, unless both have finished. -/
theorem Inv.live (h : Inv N s) (hgo : s.pc p ≠ .finished) :
    ∃ q s', next N s q = some s' ∧ s' ≠ s := by
  by_cases hturn : s.pc p = .await → s.turn = p
  · exact ⟨p, moves hgo hturn⟩
  · push Not at hturn
    obtain ⟨hpc, hne⟩ := hturn
    -- it is the other thread's turn, and that thread is still there
    have hother : s.turn = 1 - p := (eq_or_other p s.turn).resolve_left hne
    have hfin : s.pc (1 - p) ≠ .finished := fun hfin =>
      hne ((h.thread p).waits hfin (by rw [hpc]; rfl))
    exact ⟨1 - p, moves hfin fun _ => hother⟩

/-- Some continuation completes another critical section. -/
def Grows (N : Fin 2 → ℕ) (s : State) : Prop :=
  ∃ as s', (system N).exec s as = some s' ∧ s.i 0 + s.i 1 < s'.i 0 + s'.i 1

theorem Grows.of_next {s' : State} (h : Grows N s') (hn : next N s p = some s') (hi : s'.i = s.i) :
    Grows N s := by
  obtain ⟨as, t, hexec, hlt⟩ := h
  refine ⟨p :: as, t, ?_, ?_⟩
  · show (next N s p).bind _ = some t
    rw [hn]
    exact hexec
  · rw [← hi]
    exact hlt

/-- A thread that is inside gets out by itself. -/
theorem grows_of_inside (hin : (s.pc p).Inside = true) : Grows N s := by
  have hlowerFlag : ∀ {s : State}, s.pc p = .lowerFlag → Grows N s := by
    intro s hpc
    refine ⟨[p], (({ s.flag p false with i := Function.update s.i p (s.i p + 1) }).goto p
      (iterate (N p) (s.i p + 1))), ?_, ?_⟩
    · show (next N s p).bind _ = _
      unfold next
      rw [hpc]
      rfl
    · show _ < Function.update s.i p (s.i p + 1) 0 + Function.update s.i p (s.i p + 1) 1
      rw [add_pair s.i p, add_pair (Function.update s.i p (s.i p + 1)) p, Function.update_self,
        Function.update_of_ne (other_ne p)]
      omega
  have hpassTurn : ∀ {s : State}, s.pc p = .passTurn → Grows N s := by
    intro s hpc
    have hn : next N s p = some ({ s with turn := 1 - p }.goto p .lowerFlag) := by
      unfold next
      rw [hpc]
    exact (hlowerFlag goto_pc_self).of_next hn rfl
  have hwriteV : ∀ {s : State} {x : Int}, s.pc p = .writeV x → Grows N s := by
    intro s x hpc
    have hn : next N s p = some ({ s with v := toInt (x + 1) }.goto p .passTurn) := by
      unfold next
      rw [hpc]
    exact (hpassTurn goto_pc_self).of_next hn rfl
  cases hpc : s.pc p with
  | readV =>
      have hn : next N s p = some (s.goto p (.writeV s.v)) := by
        unfold next
        rw [hpc]
      exact (hwriteV goto_pc_self).of_next hn rfl
  | writeV x => exact hwriteV hpc
  | passTurn => exact hpassTurn hpc
  | lowerFlag => exact hlowerFlag hpc
  | _ =>
      rw [hpc] at hin
      exact absurd hin (by simp [Pc.Inside])

/-- A thread that does not wait for its turn, and finds the other flag down,
gets inside and out again. -/
theorem grows_of_lowered (hdown : s.wants_to_enter (1 - p) = false) (hgo : s.pc p ≠ .finished)
    (hturn : (s.pc p).Waiting = true → s.turn = p) : Grows N s := by
  have hreadWants : ∀ s : State, s.wants_to_enter (1 - p) = false → s.pc p = .readWants →
      Grows N s := by
    intro s hdown hpc
    have hn : next N s p = some (s.goto p .readV) := by
      unfold next
      rw [hpc]
      simp only [hdown, Bool.false_eq_true, if_false]
    exact (grows_of_inside (p := p) (by rw [goto_pc_self]; rfl)).of_next hn rfl
  have hraises : ∀ {s : State}, s.wants_to_enter (1 - p) = false →
      next N s p = some ((s.flag p true).goto p .readWants) → Grows N s := by
    intro s hdown hn
    refine (hreadWants _ ?_ goto_pc_self).of_next hn rfl
    rw [goto_wants, flag_wants_other]
    exact hdown
  have hraiseAgain : ∀ s : State, s.wants_to_enter (1 - p) = false → s.pc p = .raiseAgain →
      Grows N s := by
    intro s hdown hpc
    refine hraises hdown ?_
    unfold next
    rw [hpc]
  have hawait : ∀ s : State, s.wants_to_enter (1 - p) = false → s.turn = p → s.pc p = .await →
      Grows N s := by
    intro s hdown hturn hpc
    have hn : next N s p = some (s.goto p .raiseAgain) := by
      unfold next
      rw [hpc]
      simp only [hturn, ne_eq, not_true_eq_false, if_false]
    exact (hraiseAgain (s.goto p .raiseAgain) hdown goto_pc_self).of_next hn rfl
  cases hpc : s.pc p with
  | raise =>
      refine hraises hdown ?_
      unfold next
      rw [hpc]
  | readWants => exact hreadWants s hdown hpc
  | readTurn =>
      have hself := hturn (by rw [hpc]; rfl)
      have hn : next N s p = some (s.goto p .raiseAgain) := by
        unfold next
        rw [hpc]
        simp only [hself, ne_eq, not_true_eq_false, if_false]
      exact (hraiseAgain (s.goto p .raiseAgain) hdown goto_pc_self).of_next hn rfl
  | lower =>
      have hn : next N s p = some ((s.flag p false).goto p .await) := by
        unfold next
        rw [hpc]
      refine (hawait ((s.flag p false).goto p .await) ?_ (hturn (by rw [hpc]; rfl))
        goto_pc_self).of_next hn rfl
      rw [goto_wants, flag_wants_other]
      exact hdown
  | await => exact hawait s hdown (hturn (by rw [hpc]; rfl)) hpc
  | raiseAgain => exact hraiseAgain s hdown hpc
  | finished => exact absurd hpc hgo
  | _ => exact grows_of_inside (p := p) (by rw [hpc]; rfl)

/-- It is the turn of thread `p`: the other thread gets inside, or lowers its
flag. -/
theorem Inv.grows_of_turn (h : Inv N s) (hturn : s.turn = p) (hgo : s.pc p ≠ .finished) :
    Grows N s := by
  have hother : p ≠ 1 - p := ne_other p
  have hlower : ∀ s : State, s.turn = p → s.pc p ≠ .finished → s.pc (1 - p) = .lower →
      Grows N s := by
    intro s hturn hgo hpc
    have hn : next N s (1 - p) = some ((s.flag (1 - p) false).goto (1 - p) .await) := by
      unfold next
      rw [hpc]
    have hpc' : ((s.flag (1 - p) false).goto (1 - p) .await).pc p = s.pc p :=
      Function.update_of_ne hother ..
    have hdown : ((s.flag (1 - p) false).goto (1 - p) .await).wants_to_enter (1 - p) = false :=
      flag_wants_self
    exact (grows_of_lowered hdown (by rw [hpc']; exact hgo) fun _ => hturn).of_next hn rfl
  have hreadTurn : ∀ s : State, s.turn = p → s.pc p ≠ .finished → s.pc (1 - p) = .readTurn →
      Grows N s := by
    intro s hturn hgo hpc
    have hn : next N s (1 - p) = some (s.goto (1 - p) .lower) := by
      unfold next
      rw [hpc]
      simp only [hturn, ne_eq, hother, not_false_eq_true, if_true]
    have hpc' : (s.goto (1 - p) .lower).pc p = s.pc p := Function.update_of_ne hother ..
    exact (hlower (s.goto (1 - p) .lower) hturn (by rw [hpc']; exact hgo) goto_pc_self).of_next hn rfl
  have hreadWants : ∀ s : State, s.turn = p → s.pc p ≠ .finished → s.pc (1 - p) = .readWants →
      Grows N s := by
    intro s hturn hgo hpc
    cases hw : s.wants_to_enter p with
    | false =>
        have hgo' : s.pc (1 - p) ≠ .finished := by
          rw [hpc]
          simp
        refine grows_of_lowered (p := 1 - p) (by rw [other_other]; exact hw) hgo' ?_
        rw [hpc]
        exact fun hwait => absurd hwait (by simp [Pc.Waiting])
    | true =>
        have hn : next N s (1 - p) = some (s.goto (1 - p) .readTurn) := by
          unfold next
          rw [hpc]
          simp only [other_other, hw, if_true]
        have hpc' : (s.goto (1 - p) .readTurn).pc p = s.pc p := Function.update_of_ne hother ..
        exact (hreadTurn (s.goto (1 - p) .readTurn) hturn (by rw [hpc']; exact hgo)
          goto_pc_self).of_next hn rfl
  have hdown : (s.pc (1 - p)).Lowered = true → Grows N s := fun hlow =>
    grows_of_lowered ((h.thread (1 - p)).lowered hlow) hgo fun _ => hturn
  cases hpc : s.pc (1 - p) with
  | raise => exact hdown (by rw [hpc]; rfl)
  | readWants => exact hreadWants s hturn hgo hpc
  | readTurn => exact hreadTurn s hturn hgo hpc
  | lower => exact hlower s hturn hgo hpc
  | await => exact hdown (by rw [hpc]; rfl)
  | raiseAgain =>
      have hn : next N s (1 - p) = some ((s.flag (1 - p) true).goto (1 - p) .readWants) := by
        unfold next
        rw [hpc]
      have hpc' : ((s.flag (1 - p) true).goto (1 - p) .readWants).pc p = s.pc p :=
        Function.update_of_ne hother ..
      exact (hreadWants ((s.flag (1 - p) true).goto (1 - p) .readWants) hturn
        (by rw [hpc']; exact hgo) goto_pc_self).of_next hn rfl
  | finished => exact hdown (by rw [hpc]; rfl)
  | _ => exact grows_of_inside (p := 1 - p) (by rw [hpc]; rfl)

/-- Unless both threads have finished, some continuation completes another
critical section. -/
theorem Inv.grows (h : Inv N s) (hgo : s.pc p ≠ .finished) : Grows N s := by
  by_cases hfin : s.pc (1 - p) = .finished
  · exact grows_of_lowered ((h.thread (1 - p)).lowered (by rw [hfin]; rfl)) hgo
      ((h.thread p).waits hfin)
  · rcases eq_or_other p s.turn with hturn | hturn
    · exact h.grows_of_turn hturn hgo
    · exact h.grows_of_turn hturn hfin

/-- What the lock is for. -/
structure LockCorrect (N : Fin 2 → ℕ) (s : State) : Prop where
  exclusive : ¬ ((s.pc 0).Inside = true ∧ (s.pc 1).Inside = true)
  /-- Outside a critical section the counter shows the critical sections that
  have been completed. -/
  counts : (s.pc 0).Inside = false → (s.pc 1).Inside = false → s.v = (s.i 0 + s.i 1 : ℕ)
  total : s.pc 0 = .finished → s.pc 1 = .finished → s.v = (N 0 + N 1 : ℕ)
  no_deadlock : ¬ (s.pc 0 = .finished ∧ s.pc 1 = .finished) →
    ∃ p s', next N s p = some s' ∧ s' ≠ s
  /-- From every state the threads can go on until another of them has been
  inside. -/
  progress : ¬ (s.pc 0 = .finished ∧ s.pc 1 = .finished) →
    ∃ as s', (system N).exec s as = some s' ∧ s.i 0 + s.i 1 < s'.i 0 + s'.i 1

theorem counted_outside {pc : Pc} (h : pc.Inside = false) : pc.counted = 0 := by
  cases pc <;> first | rfl | exact absurd h (by simp [Pc.Inside])

/-- **The lock for two threads is correct**, in every interleaving. -/
theorem lock_correct (N : Fin 2 → ℕ) (hN : N 0 + N 1 < 2 ^ 31) {s : State}
    (h : Reachable (system N) s) : LockCorrect N s := by
  have hi := Inv.reachable hN h
  have hcounts : (s.pc 0).Inside = false → (s.pc 1).Inside = false → s.v = (s.i 0 + s.i 1 : ℕ) := by
    intro h0 h1
    rw [hi.count, counted_outside h0, counted_outside h1]
    rfl
  refine ⟨?_, hcounts, ?_, ?_, ?_⟩
  · rintro ⟨h0, h1⟩
    have hout := (hi.thread 0).alone h0
    exact absurd (h1.symm.trans hout) (by simp)
  · intro h0 h1
    rw [← (hi.thread 0).all h0, ← (hi.thread 1).all h1]
    exact hcounts (by rw [h0]; rfl) (by rw [h1]; rfl)
  · intro hgo
    by_cases h0 : s.pc 0 = .finished
    · exact hi.live fun h1 => hgo ⟨h0, h1⟩
    · exact hi.live h0
  · intro hgo
    by_cases h0 : s.pc 0 = .finished
    · exact hi.grows fun h1 => hgo ⟨h0, h1⟩
    · exact hi.grows h0

/-- Thread 0 is inside, and thread 1 has lowered its flag and waits for its turn. -/
theorem lock_correct_waiting :
    ((system fun _ => 2).after [0, 0, 1, 1, 1, 1]).pc 0 = .readV
      ∧ ((system fun _ => 2).after [0, 0, 1, 1, 1, 1]).pc 1 = .await
      ∧ LockCorrect (fun _ => 2) ((system fun _ => 2).after [0, 0, 1, 1, 1, 1]) := by
  refine ⟨by decide, by decide, ?_⟩
  exact lock_correct (fun _ => 2) (by decide)
    ((system fun _ => 2).after_reachable [0, 0, 1, 1, 1, 1] (by decide))

end Runs

end MultiCore.TwoThreadLock
