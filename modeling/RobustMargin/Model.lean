import RobustMargin.Model.Dual

/-! # Robustness models

The linear programs that together decide the margin of a label over its competitors. -/
namespace RobustMargin

/-- A program, and the competitor whose margin it minimizes if it belongs to one. -/
structure MarginProgram (α : Type) where
  competitor : Option Nat
  program : Program α

/-- A lower bound on one competitor's margin, over the dual variables. -/
structure Certificate (α : Type) where
  competitor : Nat
  bound : LinearExpr α

structure Model (α : Type) where
  formulation : Formulation
  label : Nat
  layout : Layout
  programs : List (MarginProgram α)
  /-- One program per competitor from which a point that attains the margin is read; none where the
  programs themselves are of that kind. -/
  witnesses : List (MarginProgram α)
  certificates : List (Certificate α)

namespace Model

variable {α : Type} [Scalar α]

omit [Scalar α] in
def variableCount (m : Model α) : Nat :=
  (m.programs.head?.map (·.program.vars.size)).getD 0

omit [Scalar α] in
def constraintCount (m : Model α) : Nat :=
  (m.programs.head?.map (·.program.constraints.size)).getD 0

def programName (formulation : Formulation) : String := s!"robustness_{formulation.name}"

/-- The classes other than the label, in increasing order. -/
def competitors (outputs label : Nat) : List Nat :=
  (List.range outputs).filter fun k => k ≠ label

/-- The output of the label less that of a competitor. -/
def marginExpr (l : Layout) (depth label competitor : Nat) : LinearExpr α :=
  (LinearExpr.var (l.post depth label)).addTerm (l.post depth competitor) (-1)

/-- The relaxation with the margin over a competitor to be minimized. -/
def marginProgram (base : Program α) (margin : Nat → LinearExpr α) (competitor : Nat) :
    MarginProgram α :=
  ⟨some competitor, base.setObjective .minimize (margin competitor)⟩

/-- The margin variable less a dual bound. -/
def belowBound (t : VarId) (bound : LinearExpr α) : LinearExpr α :=
  bound.terms.foldl (fun e term => e.addTerm term.1 (-term.2)) (LinearExpr.var t)

/-- Adds, for each competitor in turn, a dual block and the row that keeps the margin variable below
its bound. -/
def addCertificates (base : Program α) (margin : Nat → LinearExpr α) (t : VarId) :
    Program α → List Nat → Except (Error α) (Program α × List (Certificate α))
  | robust, [] => .ok (robust, [])
  | robust, k :: rest => do
      let (dual, bound) ← Dual.addBound robust base (margin k) k
      let bounded ← dual.addConstraint s!"margin_{k}" (belowBound t bound) .le bound.constant
      let (last, certificates) ← addCertificates base margin t bounded rest
      return (last, ⟨k, bound⟩ :: certificates)

def build (inclusion : Inclusion α) (label : Nat) (formulation : Formulation) :
    Except (Error α) (Model α) :=
  let outputs := inclusion.network.outputs
  if outputs ≤ label then .error (.invalidInput (.labelOutOfRange label outputs))
  else if outputs < 2 then .error (.invalidParams .singleOutput)
  else do
    let layout := Blueprint.layoutOf inclusion formulation.exposesResiduals
    let base ← (Program.empty (programName formulation)).addPieces
      (Blueprint.relaxation inclusion layout)
    let margin := marginExpr layout inclusion.depth label
    let rivals := competitors outputs label
    let primal := rivals.map (marginProgram base margin)
    if formulation.perCompetitor then
      return ⟨formulation, label, layout, primal, [], []⟩
    else
      let t : VarId := 0
      let begun := (Program.empty (programName formulation)).push (.free "t")
      let (robust, certificates) ← addCertificates base margin t begun rivals
      let program := robust.setObjective .maximize (.var t)
      return ⟨formulation, label, { layout with margin := some t }, [⟨none, program⟩], primal,
        certificates⟩

end Model
end RobustMargin
