import RobustMargin.Proofs.Duality

/-! # Multipliers of a box

Where the least value of an objective over the bounds of the variables is taken at an assignment,
the multipliers of the bounds alone reach it: those of the rows are zero. -/
namespace RobustMargin

/-- An assignment gives a list of values to the variables from an index on. -/
def Placed (w : VarId → ℝ) (index : Nat) (values : List ℝ) : Prop :=
  ∀ p ∈ values.zipIdx index, w p.2 = p.1

namespace Placed

variable {w : VarId → ℝ} {index : Nat}

theorem append_iff (first second : List ℝ) : Placed w index (first ++ second) ↔
    Placed w index first ∧ Placed w (index + first.length) second := by
  rw [Placed, List.zipIdx_append, List.forall_mem_append]
  rfl

theorem map_iff {β : Type} (f : β → ℝ) (xs : List β) :
    Placed w index (xs.map f) ↔ ∀ p ∈ xs.zipIdx index, w p.2 = f p.1 := by
  rw [Placed, List.zipIdx_map, List.forall_mem_map]
  rfl

theorem cons_iff (y : ℝ) (values : List ℝ) :
    Placed w index (y :: values) ↔ w index = y ∧ Placed w (index + 1) values := by
  rw [Placed, List.zipIdx_cons, List.forall_mem_cons]
  rfl

/-- Sums over places are sums over the values that stand there. -/
theorem sum_map {β : Type} {f : β → ℝ} {xs : List β} (placed : Placed w index (xs.map f))
    (g : β → ℝ) : ((xs.zipIdx index).map fun p => g p.1 * w p.2).sum =
      (xs.map fun x => g x * f x).sum := by
  have same : (xs.zipIdx index).map (fun p => g p.1 * w p.2) =
      (xs.zipIdx index).map ((fun x => g x * f x) ∘ Prod.fst) :=
    List.map_congr_left fun p member => congrArg (g p.1 * ·) ((map_iff f xs).mp placed p member)
  rw [same, ← List.map_map, List.zipIdx_map_fst]

end Placed

theorem Program.placed_reading (values : List ℝ) : Placed (reading values.toArray) 0 values := by
  intro p member
  have found := List.mem_zipIdx_iff_getElem?.mp member
  rw [reading, Array.getD_eq_getD_getElem?, List.getElem?_toArray, found, Option.getD_some]

namespace Dual

/-- The multiplier of a bound of a variable with a cost. -/
noncomputable def boundMultiplier (cost : ℝ) (b : FiniteBound ℝ) : ℝ := max 0 (b.sign * cost)

theorem boundMultiplier_sums (x : Variable ℝ) (cost y : ℝ)
    (atLower : 0 < cost → x.lower = .num y) (atUpper : cost < 0 → x.upper = .num y) :
    ((finiteBounds x).map fun b => b.sign * boundMultiplier cost b).sum = cost ∧
      ((finiteBounds x).map fun b => b.value * boundMultiplier cost b).sum = cost * y := by
  obtain ⟨name, lower, upper⟩ := x
  rcases lt_trichotomy cost 0 with negative | rfl | positive
  · obtain rfl := atUpper negative
    cases lower <;>
      simp [finiteBounds, Bound.finite?, boundMultiplier, negative.le, mul_comm]
  · cases lower <;> cases upper <;> simp [finiteBounds, Bound.finite?, boundMultiplier]
  · obtain rfl := atLower positive
    cases upper <;>
      simp [finiteBounds, Bound.finite?, boundMultiplier, positive.le, mul_comm]

/-- The multipliers of the bounds of variables. -/
noncomputable def columnMultipliers (objective : LinearExpr ℝ) (xs : List (Variable ℝ × Nat)) :
    List ℝ :=
  xs.flatMap fun p => (finiteBounds p.1).map (boundMultiplier (cost objective p.2))

/-- The multipliers of a block that leave all rows out. -/
noncomputable def boxMultipliers (base : Program ℝ) (objective : LinearExpr ℝ) : List ℝ :=
  base.constraints.toList.map (fun _ => 0) ++ columnMultipliers objective (indexedVars base)

theorem columnMultipliers_length (objective : LinearExpr ℝ) (xs : List (Variable ℝ × Nat)) :
    (columnMultipliers objective xs).length = boundCount xs := by
  rw [columnMultipliers, List.length_flatMap, boundCount]
  exact congrArg List.sum (List.map_congr_left fun p _ => List.length_map _)

theorem boxMultipliers_length (competitor : Nat) (start : VarId) (base : Program ℝ)
    (objective : LinearExpr ℝ) : (boxMultipliers base objective).length =
      (Pieces.vars (block competitor start base objective).pieces).length := by
  rw [block_eq, boxMultipliers, List.length_append, List.length_map, columnMultipliers_length,
    Pieces.vars_append, Pieces.vars_map_declared, List.length_append, List.length_map,
    vars_columns_length]

/-- The assignment lies at the end of each variable's range that makes the objective least. -/
def AtBest (base : Program ℝ) (objective : LinearExpr ℝ) (v : VarId → ℝ) : Prop :=
  ∀ (j : VarId) (x : Variable ℝ), base.vars[j]? = some x →
    (0 < cost objective j → x.lower = .num (v j)) ∧
      (cost objective j < 0 → x.upper = .num (v j))

theorem columnMultipliers_admitted (competitor : Nat) (start : VarId)
    (rows : List (Constraint ℝ)) (objective : LinearExpr ℝ) (xs : List (Variable ℝ × Nat))
    {w v : VarId → ℝ} {next : VarId}
    (placed : Placed w next (columnMultipliers objective xs))
    (noRows : ∀ j, (column start rows j).evalAt w = 0)
    (best : ∀ p ∈ xs, (0 < cost objective p.2 → p.1.lower = .num (v p.2)) ∧
      (cost objective p.2 < 0 → p.1.upper = .num (v p.2))) (e : LinearExpr ℝ) :
    Pieces.Admit w next (columns competitor start rows objective next xs) ∧
      (addBoundTerms next xs e).evalAt w =
        e.evalAt w + (xs.map fun p => cost objective p.2 * v p.2).sum := by
  induction xs generalizing next e with
  | nil => simp [addBoundTerms, columns, Pieces.Admit]
  | cons p rest ih =>
      rw [List.forall_mem_cons] at best
      rw [columnMultipliers, List.flatMap_cons, Placed.append_iff, List.length_map] at placed
      obtain ⟨own, later⟩ := placed
      obtain ⟨balance, value⟩ := boundMultiplier_sums p.1 (cost objective p.2) (v p.2)
        best.1.1 best.1.2
      have signs (b) (member : b ∈ boundTerms next p.1) : 0 ≤ w b.2 := by
        rw [(Placed.map_iff _ _).mp own b member]
        exact le_max_left _ _
      have gained : ((boundTerms next p.1).foldl (fun e b => e.addTerm b.2 b.1.value) e).evalAt w =
          e.evalAt w + cost objective p.2 * v p.2 := by
        rw [← value, ← own.sum_map]
        exact LinearExpr.evalAt_foldl_addTerm _ _ _ e w
      obtain ⟨others, total⟩ := ih later best.2
        ((boundTerms next p.1).foldl (fun e b => e.addTerm b.2 b.1.value) e)
      constructor
      · rw [columns, Pieces.admit_append, vars_columnPieces_length, columnPieces_admit_iff,
          noRows, sub_zero, ← balance]
        exact ⟨⟨signs, own.sum_map _⟩, others⟩
      · rw [addBoundTerms, total, gained, List.map_cons, List.sum_cons, add_assoc]

theorem multiplier_allows_zero (competitor : Nat) (c : Constraint ℝ) :
    (multiplier competitor c).Allows 0 := by
  obtain ⟨name, expr, sense, rhs⟩ := c
  cases sense with
  | le => exact ⟨trivial, le_rfl⟩
  | ge => exact ⟨le_rfl, trivial⟩
  | eq => exact ⟨trivial, trivial⟩

/-- The multipliers of the box are feasible and their bound is the objective at its best corner. -/
theorem boxMultipliers_admitted (competitor : Nat) (start : VarId) (base : Program ℝ)
    (objective : LinearExpr ℝ) (inside : objective.within base.vars.size = true)
    {w v : VarId → ℝ} (best : AtBest base objective v)
    (placed : Placed w start (boxMultipliers base objective)) :
    Pieces.Admit w start (block competitor start base objective).pieces ∧
      (block competitor start base objective).bound.evalAt w = objective.evalAt v := by
  rw [boxMultipliers, Placed.append_iff, List.length_map] at placed
  obtain ⟨zeros, ofColumns⟩ := placed
  have multipliersZero (p) (member : p ∈ base.constraints.toList.zipIdx) : w (start + p.2) = 0 := by
    refine (Placed.map_iff _ _).mp zeros (p.1, start + p.2) ?_
    rw [List.zipIdx_eq_map_add]
    exact List.mem_map.mpr ⟨p, member, rfl⟩
  have noRows (j : VarId) : (column start base.constraints.toList j).evalAt w = 0 := by
    rw [evalAt_column]
    refine List.sum_eq_zero fun y member => ?_
    obtain ⟨p, inRows, rfl⟩ := List.mem_map.mp member
    rw [multipliersZero p inRows, zero_mul]
  have noBound : (rowBound start base objective).evalAt w = objective.constant := by
    rw [evalAt_rowBound, add_eq_left]
    refine List.sum_eq_zero fun y member => ?_
    obtain ⟨p, inRows, rfl⟩ := List.mem_map.mp member
    rw [multipliersZero p inRows, mul_zero]
  have bestVars (p) (member : p ∈ indexedVars base) := best p.2 p.1
    (by rw [← Array.getElem?_toList]; exact List.mem_zipIdx_iff_getElem?.mp member)
  obtain ⟨admitted, value⟩ := columnMultipliers_admitted competitor start
    base.constraints.toList objective (indexedVars base) ofColumns noRows bestVars
    (rowBound start base objective)
  rw [block_eq]
  constructor
  · rw [Pieces.admit_append, Pieces.vars_map_declared, List.length_map, Pieces.admit_map_declared]
    refine ⟨fun p member => ?_, admitted⟩
    rw [(Placed.map_iff _ _).mp zeros p member]
    exact multiplier_allows_zero competitor p.1
  · change (addBoundTerms _ _ _).evalAt w = _
    rw [value, noBound, sum_indexedVars base fun j => cost objective j * v j,
      sum_cost_mul objective inside v, add_sub_cancel]

end Dual
end RobustMargin
