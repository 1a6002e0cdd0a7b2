import RobustMargin.Solver.Tableau

/-! # Ratio test

How far a variable outside the basis can be moved, and which basic variable stops it. A variable
that is outside its bounds stops at the bound that it misses, and is not stopped on its way further
out. -/
namespace RobustMargin.Simplex

/-- How the next exchange is chosen: by size, or by index. -/
inductive Rule where
  | largest
  | byIndex
  deriving DecidableEq, Repr

/-- What stops a variable on its way: a basic variable at a distance, with the size of its
coefficient and the bound that it meets. -/
structure Block where
  row : Nat
  distance : Float
  size : Float
  goal : Float
  label : VarId

namespace Tableau

/-- The bound at which a basic variable stops, if it is moved at a rate. -/
def goal? (t : Tableau) (v : VarId) (rate : Float) : Option Float :=
  let goal :=
    if 0.0 < rate then
      if 0.0 < t.excess v then Scalar.top
      else if 0.0 < t.shortfall v then entry t.lower v
      else entry t.upper v
    else
      if 0.0 < t.shortfall v then Scalar.bottom
      else if 0.0 < t.excess v then entry t.upper v
      else entry t.lower v
  if goal.isFinite then some goal else none

def block? (t : Tableau) (column : Nat) (sign : Float) (row : Nat) : Option Block :=
  let v := t.basic row
  let rate := sign * t.coefficient row column
  if rate.abs ≤ zeroTolerance then none
  else (t.goal? v rate).map fun goal =>
    ⟨row, max 0.0 ((goal - t.value v) / rate), rate.abs, goal, v⟩

def blocks (t : Tableau) (column : Nat) (sign : Float) : Array Block :=
  (Array.range t.basis.size).filterMap (t.block? column sign)

end Tableau

/-- The distance at which a variable would be outside its bound by the tolerance. -/
def Block.reach (b : Block) : Float := b.distance + Tableau.slack b.goal / b.size

/-- The blocks that are met before any variable is outside its bound by more than the tolerance. -/
def withinReach (blocks : Array Block) : Array Block :=
  let limit := blocks.foldl (fun limit b => min limit b.reach) Scalar.top
  blocks.filter fun b => b.distance ≤ limit

/-- The blocks at the least distance. -/
def nearest (blocks : Array Block) : Array Block :=
  let limit := blocks.foldl (fun limit b => min limit b.distance) Scalar.top
  blocks.filter fun b => b.distance ≤ limit

def better (precedes : Block → Block → Bool) (best : Option Block) (new : Block) : Option Block :=
  match best with
  | none => some new
  | some old => if precedes old new then some new else some old

/-- The block that is taken: of those within reach the one with the largest coefficient, or of the
nearest the one with the largest index. -/
def Rule.firstBlock? (rule : Rule) (blocks : Array Block) : Option Block :=
  match rule with
  | .largest => (withinReach blocks).foldl (better fun old new => old.size < new.size) none
  | .byIndex => (nearest blocks).foldl (better fun old new => old.label < new.label) none

end RobustMargin.Simplex
