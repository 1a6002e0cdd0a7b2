import RobustMargin.Model
import RobustMargin.Solver

/-! # Solving a model

The order in which the programs of a model are given to a solver, and the optimum and the status
that its answers add up to. -/
namespace RobustMargin

/-- The point that a solved model is read from, and the margin that it reports. -/
structure Optimum (α : Type) where
  values : Array α
  objective : α
  competitor : Option Nat
  deriving DecidableEq, Repr

/-- What a run over the programs of a model leaves: the optimum that is kept, the terminal status,
and whether the point read misses the margin that was certified. -/
structure Conclusion (α : Type) where
  solution : Option (Optimum α)
  status : Status α
  fallsShort : Bool

namespace Solve

variable {α σ : Type} [Scalar α]

/-- What an answer without a solution means for the whole run. -/
def failureOf (solver : String) : Answer α → Failure
  | .ok .infeasible => .infeasible
  | .ok .unbounded => .solverError (solver ++ " reported an unbounded objective")
  | .ok (.optimal _) => .solverError "unexpected optimal outcome"
  | .error e => .solverError e.message

/-- The solution in an answer, or the failure that it means. -/
def solutionOf (solver : String) : Answer α → Except Failure (Solution α)
  | .ok (.optimal solution) => .ok solution
  | other => .error (failureOf solver other)

/-- The optimum with the lesser objective; the earlier one wins a tie. -/
def keepLesser (best : Option (Optimum α)) (new : Optimum α) : Optimum α :=
  match best with
  | none => new
  | some old => if new.objective < old.objective then new else old

def optimumOf (p : MarginProgram α) (solution : Solution α) : Optimum α :=
  ⟨solution.values, solution.objective, p.competitor⟩

/-- Solves every program in order; the first failure stops. -/
def eachCompetitor (solver : Solver α σ) :
    Option (Optimum α) → List (MarginProgram α) → σ → Except Failure (Option (Optimum α)) × σ
  | best, [], state => (.ok best, state)
  | best, p :: rest, state =>
      let (answer, next) := solver.solve p.program state
      match solutionOf solver.name answer with
      | .error cause => (.error cause, next)
      | .ok solution =>
          eachCompetitor solver (some (keepLesser best (optimumOf p solution))) rest next

/-- Solves witnesses in order up to the first one whose objective is not above a limit. -/
def untilAttained (solver : Solver α σ) (limit : α) :
    Option (Optimum α) → List (MarginProgram α) → σ → Except Failure (Option (Optimum α)) × σ
  | best, [], state => (.ok best, state)
  | best, p :: rest, state =>
      let (answer, next) := solver.solve p.program state
      match solutionOf solver.name answer with
      | .error cause => (.error cause, next)
      | .ok solution =>
          let kept := some (keepLesser best (optimumOf p solution))
          if solution.objective ≤ limit then (.ok kept, next)
          else untilAttained solver limit kept rest next

/-- A run that ends early keeps no optimum. -/
def failed (cause : Failure) : Conclusion α := ⟨none, .failed cause, false⟩

/-- A run that comes to its end tells the objective of the optimum that it keeps. -/
def finish : Option (Optimum α) → Conclusion α
  | some optimum => ⟨some optimum, .optimal optimum.objective, false⟩
  | none => failed (.solverError "model has no programs")

def conclude : Except Failure (Option (Optimum α)) → Conclusion α
  | .ok best => finish best
  | .error cause => failed cause

/-- The least of the competitors' margins. -/
def perCompetitor (m : Model α) (solver : Solver α σ) (state : σ) : Conclusion α × σ :=
  let (best, next) := eachCompetitor solver none m.programs state
  (conclude best, next)

/-- How far a witness may miss the margin: a millionth of it, or a millionth where it is small. -/
def tolerance (margin : α) : α :=
  (1 / Scalar.ofNat 1000000) * Scalar.greater (Scalar.abs margin) 1

/-- The indices of values in increasing order of the values. -/
def sortedIndices (values : List α) : List Nat :=
  (values.zipIdx.mergeSort fun x y => Scalar.totalLE x.1 y.1).map (·.2)

/-- The indices of the certificates in increasing order of their bounds at a point; nothing if the
point has no value for a variable of some bound. -/
def bindingOrder (certificates : List (Certificate α)) (values : Array α) : Option (List Nat) :=
  (certificates.mapM fun c : Certificate α => c.bound.eval? values).map sortedIndices

/-- The witness with its margin replaced by the certified one. -/
def certify (margin : α) : Except Failure (Option (Optimum α)) → Conclusion α
  | .ok (some witness) =>
      { finish (some { witness with objective := margin }) with
        fallsShort := decide (tolerance margin < Scalar.abs (witness.objective - margin)) }
  | other => conclude other

/-- The optimum of the auxiliary program, with a point read from the witness of a competitor whose
bound is binding there. A dual program without a finite optimum means that the relaxation admits no
point. There is no conclusion where the bounds cannot be evaluated, as the program ends there. -/
def auxiliary (m : Model α) (solver : Solver α σ) (state : σ) : Option (Conclusion α) × σ :=
  match m.programs with
  | [] => (some (finish none), state)
  | robust :: _ =>
      let (answer, next) := solver.solve robust.program state
      match answer with
      | .ok (.optimal margin) =>
          match bindingOrder m.certificates margin.values with
          | none => (none, next)
          | some order =>
              let witnesses := order.filterMap fun index => m.witnesses[index]?
              let limit := margin.objective + tolerance margin.objective
              let (best, last) := untilAttained solver limit none witnesses next
              (some (certify margin.objective best), last)
      | .ok .unbounded => (some (failed .infeasible), next)
      | .ok .infeasible => (some (failed .infeasible), next)
      | other => (some (failed (failureOf solver.name other)), next)

/-- A run over the programs of a model, which may end the whole program before its conclusion. -/
def run (m : Model α) (solver : Solver α σ) (state : σ) : Option (Conclusion α) × σ :=
  if m.formulation.perCompetitor then
    let (conclusion, next) := perCompetitor m solver state
    (some conclusion, next)
  else auxiliary m solver state

end Solve
end RobustMargin
