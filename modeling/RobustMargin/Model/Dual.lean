import RobustMargin.Model.Blueprint

/-! # Dual bounds

For a program that minimizes an objective, the dual program has a multiplier for each row and one
for each finite bound, tied by one row for each variable. Every feasible choice of multipliers
bounds the objective from below. -/
namespace RobustMargin.Dual

variable {α : Type} [Scalar α]

/-- The multiplier of a row is free for an equation and signed for an inequality. -/
def multiplierBounds : Sense → Bound α × Bound α
  | .eq => (.negInf, .posInf)
  | .ge => (.num 0, .posInf)
  | .le => (.negInf, .num 0)

def blockName (kind : String) (competitor : Nat) (name : String) : String :=
  s!"{kind}_{competitor}_{name}"

def multiplier (competitor : Nat) (c : Constraint α) : Variable α :=
  let (lower, upper) := multiplierBounds c.sense
  ⟨blockName "y" competitor c.name, lower, upper⟩

/-- The multipliers of the rows with the terms that they contribute to the bound. -/
def addRowTerm (start : VarId) (bound : LinearExpr α) (p : Constraint α × Nat) : LinearExpr α :=
  bound.addTerm (start + p.2) (p.1.rhs - p.1.expr.constant)

/-- The coefficients of a variable in the rows, each with the row's multiplier. -/
def column (start : VarId) (rows : List (Constraint α)) (v : VarId) : LinearExpr α :=
  rows.zipIdx.foldl
    (fun e p => p.1.expr.terms.foldl
      (fun e t => if t.1 = v then e.addTerm (start + p.2) t.2 else e) e)
    .zero

/-- The coefficient of a variable in the objective. -/
def cost (objective : LinearExpr α) (v : VarId) : α :=
  objective.terms.foldl (fun total t => if t.1 = v then total + t.2 else total) 0

/-- What a dual program has gained so far: pieces, the bound, and the next free index. -/
structure Progress (α : Type) where
  pieces : List (Piece α)
  bound : LinearExpr α
  next : VarId

/-- A multiplier of a finite bound of a variable, with its part of the column and of the bound. -/
def addBoundMultiplier (name : String) (value sign : α) (state : Progress α × LinearExpr α) :
    Progress α × LinearExpr α :=
  let (progress, column) := state
  ({ pieces := progress.pieces ++ [.declared ⟨name, .num 0, .posInf⟩]
     bound := progress.bound.addTerm progress.next value
     next := progress.next + 1 },
    column.addTerm progress.next sign)

/-- The multipliers of a variable's bounds and the row of the variable. -/
def addColumn (competitor : Nat) (start : VarId) (rows : List (Constraint α))
    (objective : LinearExpr α) (progress : Progress α) (p : Variable α × Nat) : Progress α :=
  let begun := (progress, column start rows p.2)
  let lowered := match p.1.lower.finite? with
    | some lower => addBoundMultiplier (blockName "lo" competitor p.1.name) lower 1 begun
    | none => begun
  let (progress, column) := match p.1.upper.finite? with
    | some upper => addBoundMultiplier (blockName "up" competitor p.1.name) (-upper) (-1) lowered
    | none => lowered
  { progress with
    pieces := progress.pieces ++
      [.row (blockName "dual" competitor p.1.name) column .eq (cost objective p.2)] }

/-- The block of dual variables and rows for one competitor, from a first free index. -/
def block (competitor : Nat) (start : VarId) (base : Program α) (objective : LinearExpr α) :
    Progress α :=
  let rows := base.constraints.toList
  let begun : Progress α :=
    { pieces := rows.map fun c => .declared (multiplier competitor c)
      bound := rows.zipIdx.foldl (addRowTerm start) (.const objective.constant)
      next := start + rows.length }
  base.vars.toList.zipIdx.foldl (addColumn competitor start rows objective) begun

/-- Adds the dual block of a program with an objective to minimize; returns the bound on that
objective over the new variables. -/
def addBound (robust base : Program α) (objective : LinearExpr α) (competitor : Nat) :
    Except (Error α) (Program α × LinearExpr α) := do
  let b := block competitor robust.vars.size base objective
  let extended ← robust.addPieces b.pieces
  return (extended, b.bound)

end RobustMargin.Dual
