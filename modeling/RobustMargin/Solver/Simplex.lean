import RobustMargin.Solver
import RobustMargin.Solver.Ratio

/-! # Simplex method

First the total violation of the bounds is lowered along edges until there is none, and then the
objective is lowered along edges that keep the bounds. Both loops run for a bounded number of steps
and at the end choose by index, so that they cannot go in circles. What they reach is confirmed on a
tableau that is computed anew. -/
namespace RobustMargin.Simplex

/-- A variable outside the basis, and the size of its cost. -/
structure Candidate where
  column : Nat
  score : Float
  label : VarId

/-- Whether a second candidate takes the place of a first one: it has the larger cost, or the larger
index. Of equal costs, too, the larger index is taken, for such variables stand in few rows. -/
def Rule.prefers (rule : Rule) (old new : Candidate) : Bool :=
  match rule with
  | .largest => old.score < new.score || old.score == new.score && decide (old.label < new.label)
  | .byIndex => decide (old.label < new.label)

namespace Tableau

/-- By how much the total violation grows along each variable outside the basis. -/
def violationCosts (t : Tableau) : FloatArray :=
  t.basis.zipIdx.foldl
    (fun costs p =>
      let multiple : Float :=
        if 0.0 < t.shortfall p.1 then -1.0 else if 0.0 < t.excess p.1 then 1.0 else 0.0
      if multiple == 0.0 then costs
      else
        let row := t.rows.getD p.2 .empty
        addMultiple costs multiple row (support row))
    (zeros t.nonbasis.size)

def candidate? (t : Tableau) (costs : FloatArray) (column : Nat) : Option Candidate :=
  let v := t.nonbasic column
  let c := entry costs column
  if c.abs ≤ zeroTolerance then none
  else if (if c < 0.0 then t.canRise v else t.canFall v) then some ⟨column, c.abs, v⟩
  else none

/-- The variable outside the basis that lowers the costs when it is moved. -/
def entering? (t : Tableau) (costs : FloatArray) (rule : Rule) : Option Candidate :=
  Nat.fold t.nonbasis.size (fun column _ best =>
    match best, t.candidate? costs column with
    | some old, some new => if rule.prefers old new then some new else some old
    | none, new => new
    | best, none => best) none

/-- Moves a variable as far as the bounds allow; nothing if there is no end. -/
def advance (t : Tableau) (costs : FloatArray) (rule : Rule) (c : Candidate) : Option Tableau :=
  let v := c.label
  let sign : Float := if entry costs c.column < 0.0 then 1.0 else -1.0
  let range := entry t.upper v - entry t.lower v
  match rule.firstBlock? (t.blocks c.column sign) with
  | some b =>
      if range ≤ b.distance then some (across t sign v c.column)
      else
        let moved := (t.move c.column (sign * b.distance)).settle b.label b.goal
        some (moved.pivot b.row c.column)
  | none => if range.isFinite then some (across t sign v c.column) else none
where
  /-- The move from one bound of the variable to the other. -/
  across (t : Tableau) (sign : Float) (v : VarId) (column : Nat) : Tableau :=
    let goal := if 0.0 < sign then entry t.upper v else entry t.lower v
    (t.move column (goal - t.value v)).settle v goal

end Tableau

/-- What a step may lead to. -/
inductive Step where
  | moved (t : Tableau)
  | finished
  | impossible

/-- A total violation up to this size is one of rounding. -/
def violationTolerance : Float := 1e-8

/-- A step towards the bounds; impossible if no move lowers the violation. -/
def repair (rule : Rule) (t : Tableau) : Step :=
  let total := t.totalViolation
  if total ≤ 0.0 then .finished
  else
    let costs := t.violationCosts
    match (t.entering? costs rule).bind (t.advance costs rule) with
    | some next => .moved next
    | none => if total ≤ violationTolerance then .finished else .impossible

/-- A step down the objective; impossible where there is no end. -/
def descend (rule : Rule) (t : Tableau) : Step :=
  match t.entering? t.costs rule with
  | none => .finished
  | some c =>
      match t.advance t.costs rule c with
      | some next => .moved next
      | none => .impossible

/-- How a search ends. -/
inductive Ending where
  | optimal
  | infeasible
  | unbounded
  | exhausted
  deriving DecidableEq, Repr

/-- Repeats a step, at most so many times and the last times by index; the step that ends the loop is
returned, or nothing if the steps are used up. -/
def iterate (step : Rule → Tableau → Step) (patience : Nat) : Nat → Tableau → Option Step × Tableau
  | 0, t => (none, t)
  | fuel + 1, t =>
      match step (if fuel < patience then .byIndex else .largest) t with
      | .moved next => iterate step patience fuel next
      | last => (some last, t)

def stepLimit : Nat := 100000

/-- After this many steps are left, exchanges are chosen by index. -/
def indexSteps : Nat := 90000

/-- Both loops from a tableau. -/
def search (t : Tableau) : Ending × Tableau :=
  match iterate repair indexSteps stepLimit t with
  | (some .finished, feasible) =>
      match iterate descend indexSteps stepLimit feasible with
      | (some .finished, best) => (.optimal, best)
      | (some _, last) => (.unbounded, last)
      | (none, last) => (.exhausted, last)
  | (some _, last) => (.infeasible, last)
  | (none, last) => (.exhausted, last)

/-- The row outside a basis with the largest coefficient in a column. -/
def pivotRow? (t : Tableau) (kept : Array Bool) (column : Nat) : Option Nat :=
  let found := Nat.fold t.basis.size (fun row _ (best : Option (Nat × Float)) =>
    let size := (t.coefficient row column).abs
    if kept.getD (t.basic row) false || size ≤ Tableau.zeroTolerance then best
    else
      match best with
      | some old => if old.2 < size then some (row, size) else best
      | none => some (row, size)) none
  found.map (·.1)

/-- Brings the variables of a basis into the basis of a first tableau one by one, starting with the
last; nothing if they do not form a basis. -/
def exchangeAll (kept : Array Bool) : Nat → Tableau → Option Tableau
  | 0, t => some t
  | column + 1, t =>
      if kept.getD (t.nonbasic column) false then
        match pivotRow? t kept column with
        | some row => exchangeAll kept column (t.pivot row column)
        | none => none
      else exchangeAll kept column t

/-- The tableau with the basis of another one, computed from the first tableau of the program. -/
def rebuild (start t : Tableau) : Option Tableau :=
  let labels := t.values.size
  let kept := t.basis.foldl (fun kept v => kept.setIfInBounds v true) (Array.replicate labels false)
  let values := t.nonbasis.foldl (fun values v => setEntry values v (t.value v)) start.values
  (exchangeAll kept start.nonbasis.size start).map fun fresh =>
    Tableau.settleBasic { fresh with values }

/-- Repeats the search from the rebuilt tableau, so many times or until nothing changes. -/
def confirm (start : Tableau) : Nat → Ending × Tableau → Ending × Tableau
  | 0, found => found
  | rounds + 1, found =>
      match rebuild start found.2 with
      | none => found
      | some fresh =>
          if found.1 = .optimal && fresh.totalViolation ≤ 0.0 &&
              (fresh.entering? fresh.costs .largest).isNone then (.optimal, fresh)
          else confirm start rounds (search fresh)

def confirmRounds : Nat := 3

def readValues (t : Tableau) (count : Nat) : Array Float := (Array.range count).map t.value

def crossed (p : Program Float) : Bool :=
  p.vars.any fun v => upperValue v.upper < lowerValue v.lower

/-- The outcome of a program whose rows refer to its own variables. -/
def solve (p : Program Float) : Answer Float :=
  if crossed p then .ok .infeasible
  else
    let start := Tableau.start p
    match confirm start confirmRounds (search start) with
    | (.infeasible, _) => .ok .infeasible
    | (.unbounded, _) => .ok .unbounded
    | (.exhausted, _) => .error (.solver "no optimal basis found within the step limit")
    | (.optimal, best) =>
        let values := readValues best p.vars.size
        .ok (.optimal ⟨values, p.objective.expr.eval values⟩)

/-- The solver that verification uses where no other is named. -/
def solver : Solver Float Unit := .ofFunction "microlp" solve

end RobustMargin.Simplex
