import RobustMargin.Program
import RobustMargin.Scalar.Double

/-! # Tableaus

The state of the bounded simplex method on doubles. Every row of a program gets a variable of its
own for the value of its expression, and the tableau writes the basic variables as combinations of
the others. A variable outside the basis stands on one of its bounds, or on zero if it has none. -/
namespace RobustMargin.Simplex

/-- The entry at an index, and zero beyond the end. -/
def entry (xs : FloatArray) (index : Nat) : Float :=
  if h : index < xs.size then xs.get index h else 0.0

def setEntry (xs : FloatArray) (index : Nat) (x : Float) : FloatArray :=
  if h : index < xs.size then xs.set index x h else xs

def zeros (count : Nat) : FloatArray := Nat.repeat (·.push 0.0) count (FloatArray.emptyWithCapacity count)

def ofList (xs : List Float) : FloatArray := xs.foldl (·.push ·) FloatArray.empty

structure Tableau where
  /-- For each basic variable the coefficients of the variables outside the basis. -/
  rows : Array FloatArray
  /-- The coefficients of the objective to be minimized. -/
  costs : FloatArray
  basis : Array VarId
  nonbasis : Array VarId
  values : FloatArray
  lower : FloatArray
  upper : FloatArray

namespace Tableau

def basic (t : Tableau) (row : Nat) : VarId := t.basis.getD row 0

def nonbasic (t : Tableau) (column : Nat) : VarId := t.nonbasis.getD column 0

def coefficient (t : Tableau) (row column : Nat) : Float := entry (t.rows.getD row .empty) column

def value (t : Tableau) (v : VarId) : Float := entry t.values v

/-- How far violations may go, relative to the size of a bound. -/
def feasibilityTolerance : Float := 1e-9

/-- Coefficients and costs up to this size count as zero. -/
def zeroTolerance : Float := 1e-9

def slack (bound : Float) : Float :=
  if bound.isFinite then feasibilityTolerance * max 1.0 bound.abs else 0.0

def canRise (t : Tableau) (v : VarId) : Bool := t.value v < entry t.upper v

def canFall (t : Tableau) (v : VarId) : Bool := entry t.lower v < t.value v

/-- How far a variable is below its lower bound. -/
def shortfall (t : Tableau) (v : VarId) : Float :=
  let gap := entry t.lower v - t.value v
  if slack (entry t.lower v) < gap then gap else 0.0

/-- How far a variable is above its upper bound. -/
def excess (t : Tableau) (v : VarId) : Float :=
  let gap := t.value v - entry t.upper v
  if slack (entry t.upper v) < gap then gap else 0.0

def violation (t : Tableau) (v : VarId) : Float := t.shortfall v + t.excess v

/-- How far the basic variables are outside their bounds, added up. -/
def totalViolation (t : Tableau) : Float := t.basis.foldl (fun total v => total + t.violation v) 0.0

/-- Moves a variable outside the basis, and all basic variables with it. -/
def move (t : Tableau) (column : Nat) (distance : Float) : Tableau :=
  let v := t.nonbasic column
  let moved := setEntry t.values v (t.value v + distance)
  let values := t.basis.zipIdx.foldl (fun values p =>
    let c := t.coefficient p.2 column
    if c == 0.0 then values else setEntry values p.1 (entry values p.1 + c * distance)) moved
  { t with values }

/-- The columns in which a row is not zero. -/
def support (row : FloatArray) : Array Nat :=
  (Array.range row.size).filter fun k => entry row k != 0.0

/-- Adds a multiple of one row to another in some columns. -/
def addMultiple (row : FloatArray) (multiple : Float) (other : FloatArray) (columns : Array Nat) :
    FloatArray :=
  columns.foldl (fun row k => setEntry row k (entry row k + multiple * entry other k)) row

/-- Replaces a variable by its expression: the multiple of the new row is added, and the entry in
the column of the variable itself is the multiple alone. -/
def substitute (row solved : FloatArray) (columns : Array Nat) (column : Nat) : FloatArray :=
  let multiple := entry row column
  if multiple == 0.0 then row
  else addMultiple (setEntry row column 0.0) multiple solved columns

/-- The row of a basic variable solved for the variable of a column. -/
def solveRow (row : FloatArray) (column : Nat) : FloatArray :=
  let pivot := entry row column
  let scaled := (support row).foldl (fun row k => setEntry row k (-(entry row k) / pivot)) row
  setEntry scaled column (1.0 / pivot)

/-- Exchanges a basic variable and one outside the basis; all values stay. -/
def pivot (t : Tableau) (row column : Nat) : Tableau :=
  let solved := solveRow (t.rows.getD row .empty) column
  let columns := support solved
  { t with
    rows := t.rows.mapIdx fun r old =>
      if r = row then solved else substitute old solved columns column
    costs := substitute t.costs solved columns column
    basis := t.basis.setIfInBounds row (t.nonbasic column)
    nonbasis := t.nonbasis.setIfInBounds column (t.basic row) }

/-- Puts a value exactly, without touching the basic variables. -/
def settle (t : Tableau) (v : VarId) (x : Float) : Tableau :=
  { t with values := setEntry t.values v x }

/-- The value of a basic variable by its row. -/
def rowValue (t : Tableau) (row : Nat) : Float :=
  let entries := t.rows.getD row .empty
  (support entries).foldl (fun total k => total + entry entries k * t.value (t.nonbasic k)) 0.0

/-- Computes the values of all basic variables from the others. -/
def settleBasic (t : Tableau) : Tableau :=
  { t with values := t.basis.zipIdx.foldl (fun values p => setEntry values p.1 (t.rowValue p.2)) t.values }

end Tableau

/-- The value a variable starts from: a finite bound if there is one. -/
def startValue (lower upper : Float) : Float :=
  if lower.isFinite then lower else if upper.isFinite then upper else 0.0

/-- The coefficients of an expression, those of one variable added up. -/
def denseRow (count : Nat) (e : LinearExpr Float) : FloatArray :=
  e.terms.foldl (fun row t => setEntry row t.1 (entry row t.1 + t.2)) (zeros count)

/-- The bounds that a comparison puts on the value of its expression. -/
def rowBounds (c : Constraint Float) : Float × Float :=
  let rhs := c.rhs - c.expr.constant
  match c.sense with
  | .le => (Scalar.bottom, rhs)
  | .ge => (rhs, Scalar.top)
  | .eq => (rhs, rhs)

def lowerValue (bound : Bound Float) : Float := bound.finite?.getD Scalar.bottom

def upperValue (bound : Bound Float) : Float := bound.finite?.getD Scalar.top

/-- The tableau in which the rows are basic and the variables of the program are not. -/
def Tableau.start (p : Program Float) : Tableau :=
  let count := p.vars.size
  let bounds := p.constraints.toList.map rowBounds
  let lower := p.vars.toList.map (lowerValue ·.lower)
  let upper := p.vars.toList.map (upperValue ·.upper)
  let begun := lower.zipWith startValue upper
  let rows := p.constraints.map fun c => denseRow count c.expr
  let activity := rows.toList.map fun row =>
    begun.zipIdx.foldl (fun total p => total + entry row p.2 * p.1) 0.0
  let sign : Float := match p.objective.direction with
    | .minimize => 1.0
    | .maximize => -1.0
  let costs := denseRow count p.objective.expr
  { rows
    costs := (Array.range count).foldl (fun row k => setEntry row k (sign * entry row k)) costs
    basis := (Array.range p.constraints.size).map (count + ·)
    nonbasis := Array.range count
    values := ofList (begun ++ activity)
    lower := ofList (lower ++ bounds.map (·.1))
    upper := ofList (upper ++ bounds.map (·.2)) }

end RobustMargin.Simplex
