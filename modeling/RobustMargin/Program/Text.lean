import RobustMargin.Decimal.Layout
import RobustMargin.Program
import RobustMargin.Scalar.Double

/-! # Program text

Linear programs in the LP format: the objective, the rows with their constants moved to the right
side, and the bounds of every variable. The text of a number is a parameter. -/
namespace RobustMargin.Program

variable {α : Type} [Scalar α]

def signText (x : α) : String := if x < 0 then "-" else "+"

/-- A term after the first one, or a first term with a minus sign. -/
def signedTerm (number : α → String) (names : VarId → String) (t : VarId × α) : String :=
  signText t.2 ++ " " ++ number (Scalar.abs t.2) ++ " " ++ names t.1

/-- A first term carries no plus sign. -/
def firstTerm (number : α → String) (names : VarId → String) (t : VarId × α) : String :=
  if t.2 < 0 then signedTerm number names t else number t.2 ++ " " ++ names t.1

def termTexts (number : α → String) (names : VarId → String) : List (VarId × α) → List String
  | [] => []
  | t :: rest => firstTerm number names t :: rest.map (signedTerm number names)

def exprText (number : α → String) (names : VarId → String) (terms : List (VarId × α)) : String :=
  " ".intercalate (termTexts number names terms)

/-- An expression without terms is written as zero. -/
def rowText (number : α → String) (names : VarId → String) (e : LinearExpr α) : String :=
  if e.terms.isEmpty then "0" else exprText number names e.terms

/-- The expression of the objective, followed by its constant unless that is zero. -/
def objectiveText (number : α → String) (names : VarId → String) (e : LinearExpr α) : String :=
  if Scalar.same e.constant 0 then rowText number names e
  else exprText number names e.terms ++ " " ++ signText e.constant ++ " " ++
    number (Scalar.abs e.constant)

def senseText : Sense → String
  | .le => "<="
  | .ge => ">="
  | .eq => "="

def directionText : Direction → String
  | .minimize => "Minimize"
  | .maximize => "Maximize"

def constraintText (number : α → String) (names : VarId → String) (c : Constraint α) : String :=
  " " ++ c.name ++ ": " ++ rowText number names c.expr ++ " " ++ senseText c.sense ++ " " ++
    number (c.rhs - c.expr.constant)

def boundsText (number : α → String) (v : Variable α) : String :=
  match v.lower.finite?, v.upper.finite? with
  | none, none => " " ++ v.name ++ " free"
  | some lower, some upper =>
      if Scalar.same lower upper then " " ++ v.name ++ " = " ++ number lower
      else " " ++ number lower ++ " <= " ++ v.name ++ " <= " ++ number upper
  | some lower, none => " " ++ v.name ++ " >= " ++ number lower
  | none, some upper => " -inf <= " ++ v.name ++ " <= " ++ number upper

omit [Scalar α] in
def nameOf (p : Program α) (v : VarId) : String := (p.vars[v]?.map (·.name)).getD ""

/-- The lines of a program; a program without a name has no title line. -/
def lines (number : α → String) (p : Program α) : List String :=
  (if p.name.isEmpty then [] else ["\\ " ++ p.name]) ++
    [directionText p.objective.direction,
      " obj: " ++ objectiveText number p.nameOf p.objective.expr, "Subject To"] ++
    p.constraints.toList.map (constraintText number p.nameOf) ++
    ["Bounds"] ++ p.vars.toList.map (boundsText number) ++ ["End"]

def render (number : α → String) (p : Program α) : String :=
  String.join ((lines number p).map (· ++ "\n"))

/-- The text of a program of doubles. -/
def text (p : Program Float) : String := p.render Decimal.Layout.numeric.text

/-- The text of a program that may refer to variables it does not have. -/
def text? (p : Program Float) : Option String := if p.isScoped then some p.text else none

end RobustMargin.Program
