import RobustMargin.Error

/-! # Linear programs

Named variables with bounds, linear constraints and one objective. Programs are built by adding
variables and constraints at the end, so that an index once given out keeps its meaning. -/
namespace RobustMargin

/-- The index of a variable in its program. -/
abbrev VarId := Nat

/-- A bound of a variable; an infinite one does not restrict it. -/
inductive Bound (α : Type) where
  | negInf
  | num (value : α)
  | posInf
  deriving DecidableEq, Repr

namespace Bound

variable {α : Type} [Scalar α]

/-- The bound with a given value, which may be infinite. -/
def ofScalar (x : α) : Bound α :=
  if Scalar.isBottom x then negInf else if Scalar.isTop x then posInf else num x

def toScalar : Bound α → α
  | negInf => Scalar.bottom
  | num x => x
  | posInf => Scalar.top

omit [Scalar α] in
def finite? : Bound α → Option α
  | num x => some x
  | _ => none

/-- Whether a value is not below the bound by more than a tolerance. -/
def admitsAbove (lower : Bound α) (x tolerance : α) : Bool :=
  match lower with
  | num bound => decide (bound - tolerance ≤ x)
  | negInf => Scalar.isNumber x && Scalar.isNumber tolerance && !Scalar.isBottom tolerance
  | posInf => Scalar.isTop x && Scalar.isNumber tolerance && !Scalar.isTop tolerance

/-- Whether a value is not above the bound by more than a tolerance. -/
def admitsBelow (upper : Bound α) (x tolerance : α) : Bool :=
  match upper with
  | num bound => decide (x ≤ bound + tolerance)
  | posInf => Scalar.isNumber x && Scalar.isNumber tolerance && !Scalar.isBottom tolerance
  | negInf => Scalar.isBottom x && Scalar.isNumber tolerance && !Scalar.isTop tolerance

end Bound

structure Variable (α : Type) where
  name : String
  lower : Bound α
  upper : Bound α
  deriving DecidableEq, Repr

namespace Variable

variable {α : Type}

def free (name : String) : Variable α := ⟨name, .negInf, .posInf⟩

def isFree (v : Variable α) : Bool :=
  match v.lower, v.upper with
  | .negInf, .posInf => true
  | _, _ => false

theorem free_isFree (name : String) : (free name : Variable α).isFree = true := rfl

def admits [Scalar α] (v : Variable α) (x tolerance : α) : Bool :=
  v.lower.admitsAbove x tolerance && v.upper.admitsBelow x tolerance

end Variable

/-- A sum of multiples of variables and a constant. -/
structure LinearExpr (α : Type) where
  terms : List (VarId × α)
  constant : α
  deriving DecidableEq, Repr

namespace LinearExpr

variable {α : Type} [Scalar α]

def const (c : α) : LinearExpr α := ⟨[], c⟩

def zero : LinearExpr α := const 0

/-- Adds a multiple of a variable at the end; the multiple by zero is left out. -/
def addTerm (e : LinearExpr α) (v : VarId) (coefficient : α) : LinearExpr α :=
  if Scalar.same coefficient 0 then e else { e with terms := e.terms ++ [(v, coefficient)] }

def addConstant (e : LinearExpr α) (c : α) : LinearExpr α := { e with constant := e.constant + c }

def var (v : VarId) : LinearExpr α := zero.addTerm v 1

/-- The value under an assignment: the products are summed in order, and the constant comes last. -/
def evalAt (e : LinearExpr α) (assignment : VarId → α) : α :=
  Scalar.sum (e.terms.map fun t => t.2 * assignment t.1) + e.constant

def eval (e : LinearExpr α) (values : Array α) : α := e.evalAt (values.getD · 0)

omit [Scalar α] in
/-- Every variable of the expression has an index below a count. -/
def within (e : LinearExpr α) (count : Nat) : Bool := e.terms.all fun t => decide (t.1 < count)

/-- The value under a list of values that may be too short for the expression. -/
def eval? (e : LinearExpr α) (values : Array α) : Option α :=
  if e.within values.size then some (e.eval values) else none

theorem eval?_eq_some (e : LinearExpr α) (values : Array α) (h : e.within values.size = true) :
    e.eval? values = some (e.eval values) := by
  simp [eval?, h]

end LinearExpr

inductive Sense where
  | le
  | ge
  | eq
  deriving DecidableEq, Repr

/-- An expression compared with a right-hand side. -/
structure Constraint (α : Type) where
  name : String
  expr : LinearExpr α
  sense : Sense
  rhs : α
  deriving DecidableEq, Repr

namespace Constraint

variable {α : Type} [Scalar α]

/-- Whether a value of the expression satisfies the comparison up to a tolerance. -/
def holdsFor (c : Constraint α) (tolerance value : α) : Bool :=
  match c.sense with
  | .le => decide (value ≤ c.rhs + tolerance)
  | .ge => decide (c.rhs - tolerance ≤ value)
  | .eq => decide (Scalar.abs (value - c.rhs) ≤ tolerance)

def isSatisfied (c : Constraint α) (values : Array α) (tolerance : α) : Bool :=
  c.holdsFor tolerance (c.expr.eval values)

def isSatisfied? (c : Constraint α) (values : Array α) (tolerance : α) : Option Bool :=
  (c.expr.eval? values).map (c.holdsFor tolerance)

end Constraint

inductive Direction where
  | minimize
  | maximize
  deriving DecidableEq, Repr

structure Objective (α : Type) where
  direction : Direction
  expr : LinearExpr α
  deriving DecidableEq, Repr

structure Program (α : Type) where
  name : String
  vars : Array (Variable α)
  constraints : Array (Constraint α)
  objective : Objective α
  deriving DecidableEq, Repr

namespace Program

variable {α : Type} [Scalar α]

def empty (name : String) : Program α := ⟨name, #[], #[], ⟨.minimize, .zero⟩⟩

omit [Scalar α] in
/-- Adds a variable at the end; its index is the number of variables before. -/
def push (p : Program α) (v : Variable α) : Program α :=
  { p with vars := p.vars.push v }

/-- Adds a variable with bounds that may be missing or reversed. -/
def addVar (p : Program α) (name : String) (lower upper : α) : Except (Error α) (Program α) :=
  if !Scalar.isNumber lower || !Scalar.isNumber upper || decide (upper < lower) then
    .error (.invalidInput (.badBounds name lower upper))
  else .ok (p.push ⟨name, .ofScalar lower, .ofScalar upper⟩)

/-- Adds a constraint at the end, if it refers to variables of the program only and its numbers
are finite. -/
def addConstraint (p : Program α) (name : String) (expr : LinearExpr α) (sense : Sense) (rhs : α) :
    Except (Error α) (Program α) :=
  match expr.terms.find? fun t => p.vars.size ≤ t.1 with
  | some t => .error (.invalidInput (.unknownVariable name t.1))
  | none =>
      if Scalar.isFinite rhs && Scalar.isFinite expr.constant then
        .ok { p with constraints := p.constraints.push ⟨name, expr, sense, rhs⟩ }
      else .error (.invalidInput (.rowNotFinite name))

omit [Scalar α] in
def setObjective (p : Program α) (direction : Direction) (expr : LinearExpr α) : Program α :=
  { p with objective := ⟨direction, expr⟩ }

omit [Scalar α] in
/-- The rows and the objective refer to variables of the program only. -/
def isScoped (p : Program α) : Bool :=
  p.constraints.all (·.expr.within p.vars.size) && p.objective.expr.within p.vars.size

def withinBounds (p : Program α) (values : Array α) (tolerance : α) : Bool :=
  (p.vars.toList.zip values.toList).all fun t => t.1.admits t.2 tolerance

/-- Whether an assignment to all variables keeps the bounds and satisfies the constraints, up to a
tolerance. -/
def isFeasible (p : Program α) (values : Array α) (tolerance : α) : Bool :=
  values.size == p.vars.size && p.withinBounds values tolerance &&
    p.constraints.all (·.isSatisfied values tolerance)

/-- Whether all constraints hold; nothing if one that has to be looked at cannot be evaluated. -/
def allSatisfied? (values : Array α) (tolerance : α) : List (Constraint α) → Option Bool
  | [] => some true
  | c :: rest =>
      match c.isSatisfied? values tolerance with
      | some true => allSatisfied? values tolerance rest
      | verdict => verdict

/-- Feasibility for a program that may refer to variables it does not have. -/
def isFeasible? (p : Program α) (values : Array α) (tolerance : α) : Option Bool :=
  if values.size == p.vars.size && p.withinBounds values tolerance then
    allSatisfied? values tolerance p.constraints.toList
  else some false

end Program
end RobustMargin
