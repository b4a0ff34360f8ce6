/-
  MultiCore.Lib.Program — sequential code as a tree of memory commands.

  A `Prog` is a computation that issues commands on a memory and goes on with
  their replies.  The same text has two meanings:

    * `run` — executed alone, from a memory to a result and a memory (`none`
      when a command faults);
    * `step` — one command at a time, for code whose steps are interleaved
      with those of others.

  `run_step` connects them: executing the first command by itself and then the
  rest alone is executing all of it alone.

  Nothing here mentions a concrete program.
-/
import Mathlib.Data.Option.Basic

namespace MultiCore.Lib

/-- The commands on a memory `σ`, their replies and what they do; a command that
faults has no outcome. -/
structure Effects (σ : Type) where
  Cmd : Type
  Reply : Cmd → Type
  exec : (c : Cmd) → σ → Option (Reply c × σ)

variable {σ : Type}

inductive Prog (E : Effects σ) (α : Type) : Type where
  | ret (a : α)
  | fail
  | cmd (c : E.Cmd) (k : E.Reply c → Prog E α)

namespace Prog

variable {E : Effects σ} {α β : Type}

protected def bind : Prog E α → (α → Prog E β) → Prog E β
  | ret a, f => f a
  | fail, _ => fail
  | cmd c k, f => cmd c fun r => (k r).bind f

instance : Monad (Prog E) where
  pure := ret
  bind := Prog.bind

/-- Issue one command. -/
def call (c : E.Cmd) : Prog E (E.Reply c) := cmd c ret

/-- `assert(b)`. -/
def assert (b : Bool) : Prog E Unit := if b then ret () else fail

/-! ## §1. Executed alone. -/

def run : Prog E α → σ → Option (α × σ)
  | ret a, s => some (a, s)
  | fail, _ => none
  | cmd c k, s => (E.exec c s).bind fun r => (k r.1).run r.2

@[simp] theorem run_ret (a : α) (s : σ) : (ret a : Prog E α).run s = some (a, s) := rfl

@[simp] theorem run_pure (a : α) (s : σ) : (pure a : Prog E α).run s = some (a, s) := rfl

@[simp] theorem run_fail (s : σ) : (fail : Prog E α).run s = none := rfl

@[simp] theorem run_call (c : E.Cmd) (s : σ) : (call c).run s = E.exec c s := by
  show (E.exec c s).bind (fun r => some (r.1, r.2)) = E.exec c s
  cases E.exec c s <;> rfl

@[simp] theorem run_assert (b : Bool) (s : σ) :
    (assert b : Prog E Unit).run s = if b then some ((), s) else none := by
  cases b <;> rfl

@[simp] theorem run_bind (p : Prog E α) (f : α → Prog E β) (s : σ) :
    (p >>= f).run s = (p.run s).bind fun r => (f r.1).run r.2 := by
  show (p.bind f).run s = _
  induction p generalizing s with
  | ret a => rfl
  | fail => rfl
  | cmd c k ih =>
      show (E.exec c s).bind (fun r => ((k r.1).bind f).run r.2)
        = ((E.exec c s).bind fun r => (k r.1).run r.2).bind fun r => (f r.1).run r.2
      rw [Option.bind_assoc]
      exact congrArg _ (funext fun r => ih r.1 r.2)

/-! ## §2. Executed step by step. -/

/-- The first command. -/
def step : Prog E α → σ → Option (Prog E α × σ)
  | cmd c k, s => (E.exec c s).map fun r => (k r.1, r.2)
  | _, _ => none

/-- The result of a computation that has come to its end. -/
def value : Prog E α → Option α
  | ret a => some a
  | _ => none

/-- **A step leaves the outcome of the whole as it is.** -/
theorem run_step {p p' : Prog E α} {s s' : σ} (h : p.step s = some (p', s')) :
    p.run s = p'.run s' := by
  cases p with
  | ret a => exact absurd h (by simp [step])
  | fail => exact absurd h (by simp [step])
  | cmd c k =>
      obtain ⟨r, hexec, heq⟩ := Option.map_eq_some_iff.mp h
      rw [Prod.mk.injEq] at heq
      obtain ⟨rfl, rfl⟩ := heq
      show (E.exec c s).bind (fun r => (k r.1).run r.2) = _
      rw [hexec]
      rfl

theorem run_of_value {p : Prog E α} {a : α} (h : p.value = some a) (s : σ) :
    p.run s = some (a, s) := by
  cases p with
  | ret b =>
      obtain rfl : b = a := by simpa [value] using h
      rfl
  | fail => exact absurd h (by simp [value])
  | cmd c k => exact absurd h (by simp [value])

end Prog

end MultiCore.Lib
