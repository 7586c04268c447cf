import Tripwire.Fault

/-!
# Programs

Line tables and workspaces are changed step by step. A step that fails ends the
program and does not undo the steps before it.

* `Program`: a program on a state, with the steps `Program.change` and `Program.require`;
* `Program.exec`, `Program.attempt`, `Program.result`: how a program ends and what it leaves.
-/

namespace Tripwire

/-- A program on a state. When a step of it fails, the state stays as the steps before have left
it. -/
abbrev Program (σ α : Type) := ExceptT Fault (StateM σ) α

namespace Program

variable {σ α β : Type}

/-- The outcome of a program and the state that it leaves. -/
def exec (p : Program σ α) (s : σ) : Except Fault α × σ := StateT.run (ExceptT.run p) s

/-- Changes the state. -/
def change (step : σ → σ) : Program σ Unit := modifyThe σ step

/-- Fails unless a condition holds. -/
def require (condition : Prop) [Decidable condition] (fault : Fault) : Program σ Unit :=
  if condition then pure () else throw fault

/-- The state after a program, and the fault if it failed. -/
def attempt (p : Program σ Unit) (s : σ) : σ × Option Fault :=
  match p.exec s with
  | (.ok _, s') => (s', none)
  | (.error fault, s') => (s', some fault)

/-- The state after a program that does not fail. -/
def result (p : Program σ Unit) (s : σ) : Except Fault σ :=
  match p.exec s with
  | (.ok _, s') => .ok s'
  | (.error fault, _) => .error fault

@[simp] theorem exec_get (s : σ) : exec (get : Program σ σ) s = (.ok s, s) := rfl

@[simp] theorem exec_pure (a : α) (s : σ) : exec (pure a : Program σ α) s = (.ok a, s) := rfl

@[simp] theorem exec_lift (x : Except Fault α) (s : σ) :
    exec (liftM x : Program σ α) s = (x, s) := rfl

@[simp] theorem exec_change (step : σ → σ) (s : σ) : (change step).exec s = (.ok (), step s) := rfl

theorem exec_require (condition : Prop) [Decidable condition] (fault : Fault) (s : σ) :
    (require condition fault).exec s = (if condition then .ok () else .error fault, s) := by
  unfold require
  split <;> rfl

/-- A failure ends the run, and the second program begins where the first has ended. -/
theorem exec_bind (p : Program σ α) (q : α → Program σ β) (s : σ) :
    exec (p >>= q) s =
      match exec p s with
      | (.ok a, s') => exec (q a) s'
      | (.error fault, s') => (.error fault, s') := by
  show StateT.run (ExceptT.run (p >>= q)) s = _
  unfold exec
  rw [ExceptT.run_bind, StateT.run_bind]
  show (match StateT.run (ExceptT.run p) s with | (x, s') => _) = _
  cases StateT.run (ExceptT.run p) s with
  | mk x s' =>
    cases x with
    | error fault => rfl
    | ok a => rfl

end Program

end Tripwire
