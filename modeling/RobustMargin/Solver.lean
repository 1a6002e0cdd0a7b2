import RobustMargin.Program

/-! # Solvers

What a solver of linear programs is asked and what it may answer. A solver is a function of the
program and of a state of its own, so that the calls made to it and their order can be observed. -/
namespace RobustMargin

/-- An assignment to all variables with the objective value there. -/
structure Solution (α : Type) where
  values : Array α
  objective : α
  deriving DecidableEq, Repr

inductive Outcome (α : Type) where
  | optimal (solution : Solution α)
  | infeasible
  | unbounded
  deriving DecidableEq, Repr

/-- An outcome, or the solver's own failure. -/
abbrev Answer (α : Type) := Except (Error α) (Outcome α)

structure Solver (α σ : Type) where
  name : String
  solve : Program α → σ → Answer α × σ

namespace Solver

variable {α σ : Type}

/-- A solver whose answer depends on the program alone. -/
def ofFunction (name : String) (answer : Program α → Answer α) : Solver α σ :=
  ⟨name, fun p state => (answer p, state)⟩

/-- The same solver, with every program it is given kept in order. -/
def recorded (solver : Solver α σ) : Solver α (σ × List (Program α)) where
  name := solver.name
  solve := fun p state =>
    let (answer, next) := solver.solve p state.1
    (answer, next, state.2 ++ [p])

theorem recorded_answer (solver : Solver α σ) (p : Program α) (state : σ)
    (log : List (Program α)) :
    (solver.recorded.solve p (state, log)).1 = (solver.solve p state).1 := rfl

/-- A solver that gives prepared answers in turn; the last one is repeated. -/
def replay (name : String) (fallback : Program α → Answer α) :
    Solver α (List (Program α → Answer α)) where
  name := name
  solve := fun p state => match state with
    | [] => (fallback p, [])
    | [last] => (last p, [last])
    | first :: rest => (first p, rest)

end Solver
end RobustMargin
