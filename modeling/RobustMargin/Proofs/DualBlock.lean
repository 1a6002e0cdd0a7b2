import RobustMargin.Proofs.Pieces
import RobustMargin.Model.Dual

/-! # Dual blocks

A dual block is a list of pieces: the multipliers of the rows, and for each variable the multipliers
of its finite bounds with the row of the variable. Every row refers to earlier multipliers. -/
namespace RobustMargin.Dual

variable {α : Type} [Scalar α]

/-- A finite bound as a lower bound on a multiple of the variable by one or minus one. -/
structure FiniteBound (α : Type) where
  kind : String
  value : α
  sign : α

/-- The finite bounds of a variable, the lower one first. -/
def finiteBounds (x : Variable α) : List (FiniteBound α) :=
  (x.lower.finite?.map fun lower => ⟨"lo", lower, 1⟩).toList ++
    (x.upper.finite?.map fun upper => ⟨"up", -upper, -1⟩).toList

/-- The bounds of a variable with their multipliers, from a first free index on. -/
def boundTerms (next : VarId) (x : Variable α) : List (FiniteBound α × VarId) :=
  (finiteBounds x).zipIdx next

/-- The column of a variable together with the multipliers of its bounds. -/
def fullColumn (start : VarId) (rows : List (Constraint α)) (next : VarId)
    (p : Variable α × Nat) : LinearExpr α :=
  (boundTerms next p.1).foldl (fun e b => e.addTerm b.2 b.1.sign) (column start rows p.2)

/-- The multipliers of a variable's bounds, and its row. -/
def columnPieces (competitor : Nat) (start : VarId) (rows : List (Constraint α))
    (objective : LinearExpr α) (next : VarId) (p : Variable α × Nat) : List (Piece α) :=
  (finiteBounds p.1).map
      (fun b => .declared ⟨blockName b.kind competitor p.1.name, .num 0, .posInf⟩) ++
    [.row (blockName "dual" competitor p.1.name) (fullColumn start rows next p) .eq
      (cost objective p.2)]

theorem addColumn_eq (competitor : Nat) (start : VarId) (rows : List (Constraint α))
    (objective : LinearExpr α) (progress : Progress α) (p : Variable α × Nat) :
    addColumn competitor start rows objective progress p =
      { pieces := progress.pieces ++
          columnPieces competitor start rows objective progress.next p
        bound := (boundTerms progress.next p.1).foldl (fun e b => e.addTerm b.2 b.1.value)
          progress.bound
        next := progress.next + (finiteBounds p.1).length } := by
  unfold addColumn columnPieces fullColumn boundTerms finiteBounds
  cases p.1.lower.finite? <;> cases p.1.upper.finite? <;>
    simp [addBoundMultiplier, Nat.add_assoc]

/-- The pieces of variables in turn, from a first free index on. -/
def columns (competitor : Nat) (start : VarId) (rows : List (Constraint α))
    (objective : LinearExpr α) : VarId → List (Variable α × Nat) → List (Piece α)
  | _, [] => []
  | next, p :: rest =>
      columnPieces competitor start rows objective next p ++
        columns competitor start rows objective (next + (finiteBounds p.1).length) rest

/-- An expression with the multiples of the bounds of variables in turn added. -/
def addBoundTerms : VarId → List (Variable α × Nat) → LinearExpr α → LinearExpr α
  | _, [], e => e
  | next, p :: rest, e =>
      addBoundTerms (next + (finiteBounds p.1).length) rest
        ((boundTerms next p.1).foldl (fun e b => e.addTerm b.2 b.1.value) e)

/-- The number of multipliers of the bounds of variables. -/
def boundCount (xs : List (Variable α × Nat)) : Nat :=
  (xs.map fun p => (finiteBounds p.1).length).sum

theorem foldl_addColumn (competitor : Nat) (start : VarId) (rows : List (Constraint α))
    (objective : LinearExpr α) (xs : List (Variable α × Nat)) (progress : Progress α) :
    xs.foldl (addColumn competitor start rows objective) progress =
      { pieces := progress.pieces ++ columns competitor start rows objective progress.next xs
        bound := addBoundTerms progress.next xs progress.bound
        next := progress.next + boundCount xs } := by
  induction xs generalizing progress with
  | nil => simp [columns, addBoundTerms, boundCount]
  | cons p rest ih =>
      rw [List.foldl_cons, ih, addColumn_eq, columns, addBoundTerms, boundCount, boundCount,
        List.map_cons, List.sum_cons, List.append_assoc, Nat.add_assoc]

/-- The variables of a program with their indices. -/
def indexedVars (base : Program α) : List (Variable α × Nat) := base.vars.toList.zipIdx

/-- The bound of a block before the bounds of the variables enter. -/
def rowBound (start : VarId) (base : Program α) (objective : LinearExpr α) : LinearExpr α :=
  base.constraints.toList.zipIdx.foldl (addRowTerm start) (.const objective.constant)

theorem block_eq (competitor : Nat) (start : VarId) (base : Program α)
    (objective : LinearExpr α) :
    block competitor start base objective =
      let next := start + base.constraints.toList.length
      { pieces := base.constraints.toList.map (fun c => .declared (multiplier competitor c)) ++
          columns competitor start base.constraints.toList objective next (indexedVars base)
        bound := addBoundTerms next (indexedVars base) (rowBound start base objective)
        next := next + boundCount (indexedVars base) } :=
  foldl_addColumn ..

theorem vars_columnPieces_length (competitor : Nat) (start : VarId) (rows : List (Constraint α))
    (objective : LinearExpr α) (next : VarId) (p : Variable α × Nat) :
    (Pieces.vars (columnPieces competitor start rows objective next p)).length =
      (finiteBounds p.1).length := by
  rw [columnPieces, Pieces.vars_append, Pieces.vars_map_declared, List.length_append,
    List.length_map]
  rfl

theorem vars_columns_length (competitor : Nat) (start : VarId) (rows : List (Constraint α))
    (objective : LinearExpr α) (next : VarId) (xs : List (Variable α × Nat)) :
    (Pieces.vars (columns competitor start rows objective next xs)).length = boundCount xs := by
  induction xs generalizing next with
  | nil => rfl
  | cons p rest ih =>
      rw [columns, Pieces.vars_append, List.length_append, vars_columnPieces_length, ih]
      rfl

/-- The next free index counts the variables of the block. -/
theorem block_next (competitor : Nat) (start : VarId) (base : Program α)
    (objective : LinearExpr α) :
    (block competitor start base objective).next =
      start + (Pieces.vars (block competitor start base objective).pieces).length := by
  rw [block_eq, Pieces.vars_append, Pieces.vars_map_declared, List.length_append, List.length_map,
    vars_columns_length]
  exact Nat.add_assoc _ _ _

/-- The terms of a column, each with the multiplier of its row. -/
def columnTerms (start : VarId) (rows : List (Constraint α)) (v : VarId) : List (VarId × α) :=
  rows.zipIdx.flatMap fun p =>
    (p.1.expr.terms.filter fun t => t.1 = v).map fun t => (start + p.2, t.2)

theorem column_eq (start : VarId) (rows : List (Constraint α)) (v : VarId) :
    column start rows v =
      (columnTerms start rows v).foldl (fun e t => e.addTerm t.1 t.2) .zero := by
  rw [column, columnTerms, List.foldl_flatMap]
  congr 1
  funext e p
  rw [List.foldl_map, List.foldl_filter]
  simp only [decide_eq_true_eq]

theorem within_column (start : VarId) (rows : List (Constraint α)) (v : VarId) {count : Nat}
    (earlier : start + rows.length ≤ count) : (column start rows v).within count = true := by
  rw [column_eq]
  refine LinearExpr.within_foldl_addTerm _ _ _ _ rfl fun t member => ?_
  obtain ⟨p, inRows, inTerms⟩ := List.mem_flatMap.mp member
  obtain ⟨s, -, rfl⟩ := List.mem_map.mp inTerms
  exact lt_of_lt_of_le (Nat.add_lt_add_left (List.mem_zipIdx' inRows).1 start) earlier

theorem mem_boundTerms_lt {next : VarId} {x : Variable α} {b : FiniteBound α × VarId}
    (member : b ∈ boundTerms next x) : b.2 < next + (finiteBounds x).length :=
  List.snd_lt_add_of_mem_zipIdx member

theorem within_fullColumn (start : VarId) (rows : List (Constraint α)) (next : VarId)
    (p : Variable α × Nat) (earlier : start + rows.length ≤ next) :
    (fullColumn start rows next p).within (next + (finiteBounds p.1).length) = true :=
  LinearExpr.within_foldl_addTerm _ _ _ _
    (within_column start rows p.2 (earlier.trans (Nat.le_add_right _ _)))
    fun _ member => mem_boundTerms_lt member

theorem constant_fullColumn (start : VarId) (rows : List (Constraint α)) (next : VarId)
    (p : Variable α × Nat) : (fullColumn start rows next p).constant = 0 := by
  rw [fullColumn, LinearExpr.constant_foldl_addTerm, column_eq, LinearExpr.constant_foldl_addTerm]
  rfl

theorem constant_addBoundTerms (next : VarId) (xs : List (Variable α × Nat)) (e : LinearExpr α) :
    (addBoundTerms next xs e).constant = e.constant := by
  induction xs generalizing next e with
  | nil => rfl
  | cons p rest ih => exact (ih _ _).trans (LinearExpr.constant_foldl_addTerm _ _ _ e)

/-- The bound of a block keeps the constant of the objective. -/
theorem constant_bound (competitor : Nat) (start : VarId) (base : Program α)
    (objective : LinearExpr α) :
    (block competitor start base objective).bound.constant = objective.constant := by
  rw [block_eq]
  exact (constant_addBoundTerms _ _ _).trans (LinearExpr.constant_foldl_addTerm _ _ _ _)

end RobustMargin.Dual
