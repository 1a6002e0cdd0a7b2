import RobustMargin.Verification.Solve

/-! # Verifications

A robustness query over one inclusion: the model is built at the start and solved once, and after
an optimal solve its values can be read back. -/
namespace RobustMargin

/-- How far a model has come. -/
inductive ModelState (α : Type) where
  | built
  | solved (status : Status α)
  deriving DecidableEq, Repr

/-- A query in use. The optimum that is kept stands beside the state, and only the solves make the
two agree. -/
structure Verification (α : Type) [Scalar α] where
  inclusion : Inclusion α
  model : Model α
  state : ModelState α
  solution : Option (Optimum α)

/-- What one solve leaves: the verification in its solved state with the status, whether the point
read misses the certified margin, and the state of the solver. -/
structure Solved (α σ : Type) [Scalar α] where
  verification : Verification α
  status : Status α
  fallsShort : Bool
  state : σ

namespace Verification

variable {α σ : Type} [Scalar α]

def withLabel (inclusion : Inclusion α) (label : Nat) (formulation : Formulation) :
    Except (Error α) (Verification α) := do
  let model ← Model.build inclusion label formulation
  return ⟨inclusion, model, .built, none⟩

/-- The query for the label of the nominal input. -/
def build (inclusion : Inclusion α) (formulation : Formulation) :
    Except (Error α) (Verification α) := do
  let label ← inclusion.label
  withLabel inclusion label formulation

def label (v : Verification α) : Nat := v.model.label

def formulation (v : Verification α) : Formulation := v.model.formulation

def status? (v : Verification α) : Option (Status α) :=
  match v.state with
  | .built => none
  | .solved status => some status

/-- Solves the model. A failure of the solver is a status like any other; only a second solve is an
error, and it asks the solver nothing. Nothing is returned where the run has no conclusion. -/
def solve (v : Verification α) (solver : Solver α σ) (state : σ) :
    Option (Except (Error α) (Solved α σ)) :=
  match v.state with
  | .solved _ => some (.error (.invalidState .alreadySolved))
  | .built =>
      match Solve.run v.model solver state with
      | (none, _) => none
      | (some ⟨solution, status, fallsShort⟩, next) =>
          some (.ok ⟨{ v with state := .solved status, solution }, status, fallsShort, next⟩)

/-- The optimum that was kept, if the model was solved to one. -/
def optimum (v : Verification α) : Except (Error α) (Optimum α) :=
  match v.state, v.solution with
  | .solved (.optimal _), some optimum => .ok optimum
  | .built, _ => .error (.invalidState .notSolved)
  | .solved status, _ => .error (.invalidState (.notOptimal status))

def valueOf (v : Verification α) (slot : Option VarId) (name : String) :
    Except (Error α) α := do
  let optimum ← v.optimum
  match slot.bind (optimum.values[·]?) with
  | some value => return value
  | none => throw (.invalidInput (.noVariable name))

/-- The margin: the least one over the competitors, or the certified one. -/
def objective (v : Verification α) : Except (Error α) α := v.optimum.map (·.objective)

def xValue (v : Verification α) (layer k : Nat) : Except (Error α) α :=
  v.valueOf (v.model.layout.x? layer k) (indexedName "x" layer k)

def zValue (v : Verification α) (layer k : Nat) : Except (Error α) α :=
  v.valueOf (v.model.layout.z? layer k) (indexedName "z" layer k)

/-- The value of a residual, in the formulations where it is a variable. -/
def residualValue (v : Verification α) (layer k : Nat) : Except (Error α) α :=
  if v.formulation.exposesResiduals then
    v.valueOf (v.model.layout.r? layer k) (indexedName "r" layer k)
  else .error (.invalidState (.noResiduals v.formulation))

/-- The competitor that attains the margin. -/
def worstCompetitor (v : Verification α) : Except (Error α) (Option Nat) :=
  v.optimum.map (·.competitor)

def verdict (v : Verification α) : Except (Error α) (Verdict α) :=
  match v.status? with
  | some status => .ok (.ofStatus status)
  | none => .error (.invalidState .notSolved)

end Verification

/-- The competitor that a solve reports, where it is optimal. -/
def Solved.worstCompetitor {α σ : Type} [Scalar α] (solved : Solved α σ) :
    Except (Error α) (Option Nat) :=
  if solved.status.isOptimal then solved.verification.worstCompetitor else .ok none

end RobustMargin
