import RobustMargin.Scalar
import RobustMargin.Text.Quoted

/-! # Status and verdict

The terminal status of a solved model and what it says about robustness. -/
namespace RobustMargin

/-- Why a model has no optimum. -/
inductive Failure where
  | infeasible
  | solverError (message : String)
  deriving DecidableEq, Repr

namespace Failure

def text : Failure → String
  | infeasible => "infeasible"
  | solverError message => "solver error: " ++ message

/-- The failure as data, the solver's own message between quotation marks. -/
def details : Failure → String
  | infeasible => "Infeasible"
  | solverError message => "SolverError \x7b message: " ++ Text.quoted message ++ " \x7d"

end Failure

inductive Status (α : Type) where
  | optimal (value : α)
  | failed (cause : Failure)
  deriving DecidableEq, Repr

namespace Status

variable {α : Type}

def isOptimal : Status α → Bool
  | optimal _ => true
  | failed _ => false

theorem isOptimal_iff (s : Status α) : s.isOptimal = true ↔ ∃ value, s = optimal value := by
  cases s <;> simp [isOptimal]

/-- The status inside messages about missing optima. -/
def details [Scalar α] : Status α → String
  | optimal value => "Optimal \x7b value: " ++ Scalar.dataText value ++ " \x7d"
  | failed cause => cause.details

end Status

/-- A margin that is not negative certifies the label. A negative one decides nothing, because the
relaxation admits more than the network does. -/
inductive Verdict (α : Type) where
  | robust (margin : α)
  | inconclusive (margin : α)
  | failed (cause : Failure)
  deriving DecidableEq, Repr

namespace Verdict

variable {α : Type} [Scalar α]

def ofStatus : Status α → Verdict α
  | .optimal value => if 0 ≤ value then robust value else inconclusive value
  | .failed cause => failed cause

def isRobust : Verdict α → Bool
  | robust _ => true
  | _ => false

theorem isRobust_ofStatus_iff (s : Status α) :
    (ofStatus s).isRobust = true ↔ ∃ value, s = .optimal value ∧ 0 ≤ value := by
  cases s with
  | optimal value => by_cases h : (0 : α) ≤ value <;> simp [ofStatus, isRobust, h]
  | failed cause => simp [ofStatus, isRobust]

def text : Verdict α → String
  | robust margin => "robust (margin " ++ Scalar.text margin ++ ")"
  | inconclusive margin => "inconclusive (margin " ++ Scalar.text margin ++ ")"
  | failed cause => cause.text

end Verdict
end RobustMargin
