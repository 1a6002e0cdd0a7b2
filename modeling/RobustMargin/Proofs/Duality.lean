import RobustMargin.Proofs.Arrangement
import RobustMargin.Proofs.DualBlock
import RobustMargin.Proofs.Feasibility

/-! # Weak duality

Feasible multipliers of a dual block bound the objective from below at every feasible assignment of
the program. For an objective whose box bound is attained there are multipliers that meet it. -/
namespace RobustMargin

theorem Pieces.admit_map_declared {β : Type} (w : VarId → ℝ) (index : Nat) (f : β → Variable ℝ)
    (xs : List β) : Admit w index (xs.map fun x => .declared (f x)) ↔
      ∀ p ∈ xs.zipIdx index, (f p.1).Allows (w p.2) := by
  induction xs generalizing index with
  | nil => simp [Admit]
  | cons x xs ih =>
      rw [List.map_cons, Admit, List.zipIdx_cons, List.forall_mem_cons]
      refine and_congr ?_ (ih (index + 1))
      constructor
      · intro admitted
        exact admitted.1 _ rfl
      · intro allowed
        refine ⟨fun y same => Option.some.inj same ▸ allowed, fun c noRow => ?_⟩
        cases noRow

theorem Pieces.admit_row (w : VarId → ℝ) (index : Nat) (name : String) (expr : LinearExpr ℝ)
    (sense : Sense) (rhs : ℝ) :
    Admit w index [.row name expr sense rhs] ↔ sense.Holds (expr.evalAt w) rhs := by
  constructor
  · intro admitted
    exact admitted.1.2 _ rfl
  · intro holds
    refine ⟨⟨fun x noVar => ?_, fun c same => ?_⟩, trivial⟩
    · cases noVar
    · obtain rfl := Option.some.inj same
      exact holds

namespace Dual

/-- The cost of a variable sums its coefficients. -/
theorem cost_real (e : LinearExpr ℝ) (v : VarId) :
    cost e v = ((e.terms.filter fun t => t.1 = v).map Prod.snd).sum := by
  have sums (terms : List (VarId × ℝ)) (total : ℝ) :
      terms.foldl (fun total t => if t.1 = v then total + t.2 else total) total =
        total + ((terms.filter fun t => t.1 = v).map Prod.snd).sum := by
    induction terms generalizing total with
    | nil => simp
    | cons t rest ih =>
        rw [List.foldl_cons, ih]
        by_cases same : t.1 = v
        · simp [same, add_assoc]
        · simp [same]
  exact (sums e.terms 0).trans (zero_add _)

theorem cost_addTerm (e : LinearExpr ℝ) (v : VarId) (c : ℝ) (j : VarId) :
    cost (e.addTerm v c) j = cost e j + if v = j then c else 0 := by
  unfold LinearExpr.addTerm
  split
  · rename_i zero
    rw [(Scalar.same_real_iff c 0).mp zero, ite_self, add_zero]
  · rw [cost_real, cost_real, List.filter_append, List.map_append, List.sum_append]
    by_cases same : v = j <;> simp [same]

theorem cost_var (v j : VarId) :
    cost (LinearExpr.var v : LinearExpr ℝ) j = if v = j then 1 else 0 :=
  (cost_addTerm .zero v 1 j).trans (zero_add _)

/-- The costs of the variables below a count give the value of an expression over them. -/
theorem sum_cost_mul (e : LinearExpr ℝ) {count : Nat} (inside : e.within count = true)
    (v : VarId → ℝ) :
    ∑ j ∈ Finset.range count, cost e j * v j = e.evalAt v - e.constant := by
  obtain ⟨terms, constant⟩ := e
  rw [LinearExpr.evalAt_real, add_sub_cancel_right]
  induction terms with
  | nil => simp [cost]
  | cons t rest ih =>
      rw [LinearExpr.within, List.all_cons, Bool.and_eq_true] at inside
      have first (j : Nat) : cost ⟨t :: rest, constant⟩ j =
          (if t.1 = j then t.2 else 0) + cost ⟨rest, constant⟩ j := by
        rw [cost_real, cost_real]
        by_cases same : t.1 = j <;> simp [same]
      have bound : t.1 ∈ Finset.range count := Finset.mem_range.mpr (of_decide_eq_true inside.1)
      simp only [first, add_mul, Finset.sum_add_distrib, ite_mul, zero_mul]
      rw [Finset.sum_ite_eq, if_pos bound, List.map_cons, List.sum_cons]
      exact congrArg _ (ih inside.2)

theorem evalAt_column (start : VarId) (rows : List (Constraint ℝ)) (v : VarId) (w : VarId → ℝ) :
    (column start rows v).evalAt w =
      (rows.zipIdx.map fun p => w (start + p.2) * cost p.1.expr v).sum := by
  rw [column_eq, LinearExpr.evalAt_foldl_addTerm, LinearExpr.zero, LinearExpr.evalAt_const,
    zero_add, columnTerms, List.map_flatMap, List.flatMap_def,
    List.sum_flatten, List.map_map]
  refine congrArg List.sum (List.map_congr_left fun p _ => ?_)
  rw [Function.comp_apply, List.map_map, cost_real, mul_comm, ← List.sum_map_mul_right]
  rfl

/-- The columns with the values of the variables make up the rows. -/
theorem sum_column_mul (start : VarId) (rows : List (Constraint ℝ)) {count : Nat}
    (inside : ∀ c ∈ rows, c.expr.within count = true) (v w : VarId → ℝ) :
    ∑ j ∈ Finset.range count, (column start rows j).evalAt w * v j =
      (rows.zipIdx.map fun p => w (start + p.2) * (p.1.expr.evalAt v - p.1.expr.constant)).sum := by
  have inRows (p : Constraint ℝ × Nat) (member : p ∈ rows.zipIdx) :=
    sum_cost_mul p.1.expr (inside p.1 (List.fst_mem_of_mem_zipIdx member)) v
  simp only [evalAt_column]
  generalize rows.zipIdx = indexed at inRows
  induction indexed with
  | nil => simp
  | cons p rest ih =>
      rw [List.forall_mem_cons] at inRows
      simp only [List.map_cons, List.sum_cons, add_mul, Finset.sum_add_distrib]
      rw [ih inRows.2, ← inRows.1, Finset.mul_sum]
      exact congrArg (· + _) (Finset.sum_congr rfl fun j _ => mul_assoc _ _ _)

theorem evalAt_rowBound (start : VarId) (base : Program ℝ) (objective : LinearExpr ℝ)
    (w : VarId → ℝ) :
    (rowBound start base objective).evalAt w = objective.constant +
      (base.constraints.toList.zipIdx.map fun p =>
        (p.1.rhs - p.1.expr.constant) * w (start + p.2)).sum := by
  rw [← LinearExpr.evalAt_const objective.constant w]
  exact LinearExpr.evalAt_foldl_addTerm _ (fun p : Constraint ℝ × Nat => start + p.2)
    (fun p => p.1.rhs - p.1.expr.constant) _ w

/-- A multiplier of its sign does not make a row that holds worse. -/
theorem multiplier_mul_le (competitor : Nat) (c : Constraint ℝ) {y value : ℝ}
    (allowed : (multiplier competitor c).Allows y) (holds : c.sense.Holds value c.rhs) :
    c.rhs * y ≤ value * y := by
  obtain ⟨name, expr, sense, rhs⟩ := c
  cases sense with
  | le => exact mul_le_mul_of_nonpos_right holds allowed.2
  | ge => exact mul_le_mul_of_nonneg_right holds allowed.1
  | eq => exact le_of_eq (congrArg (· * y) holds.symm)

theorem rowBound_le (competitor : Nat) (start : VarId) (base : Program ℝ)
    (objective : LinearExpr ℝ) {w v : VarId → ℝ}
    (allowed : Pieces.Admit w start
      (base.constraints.toList.map fun c => .declared (multiplier competitor c)))
    (holds : ∀ c ∈ base.constraints, c.Holds v) :
    (rowBound start base objective).evalAt w ≤ objective.constant +
      (base.constraints.toList.zipIdx.map fun p =>
        w (start + p.2) * (p.1.expr.evalAt v - p.1.expr.constant)).sum := by
  rw [evalAt_rowBound]
  refine add_le_add_right (List.sum_le_sum fun p member => ?_) _
  have inBlock : (p.1, start + p.2) ∈ base.constraints.toList.zipIdx start := by
    rw [List.zipIdx_eq_map_add]
    exact List.mem_map.mpr ⟨p, member, rfl⟩
  have sign := (Pieces.admit_map_declared _ _ _ _).mp allowed _ inBlock
  have row := multiplier_mul_le competitor p.1 sign
    (holds p.1 (Array.mem_toList_iff.mp (List.fst_mem_of_mem_zipIdx member)))
  calc (p.1.rhs - p.1.expr.constant) * w (start + p.2)
      = p.1.rhs * w (start + p.2) - p.1.expr.constant * w (start + p.2) := sub_mul _ _ _
    _ ≤ p.1.expr.evalAt v * w (start + p.2) - p.1.expr.constant * w (start + p.2) :=
        sub_le_sub_right row _
    _ = w (start + p.2) * (p.1.expr.evalAt v - p.1.expr.constant) := by ring

theorem finiteBounds_le {x : Variable ℝ} {b : FiniteBound ℝ} (member : b ∈ finiteBounds x)
    {value : ℝ} (allowed : x.Allows value) : b.value ≤ b.sign * value := by
  obtain ⟨name, lower, upper⟩ := x
  rcases List.mem_append.mp member with isLower | isUpper
  · cases lower with
    | num bound =>
        obtain rfl := List.mem_singleton.mp isLower
        exact (one_mul value).symm ▸ allowed.1
    | negInf => cases isLower
    | posInf => cases isLower
  · cases upper with
    | num bound =>
        obtain rfl := List.mem_singleton.mp isUpper
        exact (neg_one_mul value).symm ▸ neg_le_neg allowed.2
    | negInf => cases isUpper
    | posInf => cases isUpper

theorem evalAt_fullColumn (start : VarId) (rows : List (Constraint ℝ)) (next : VarId)
    (p : Variable ℝ × Nat) (w : VarId → ℝ) :
    (fullColumn start rows next p).evalAt w = (column start rows p.2).evalAt w +
      ((boundTerms next p.1).map fun b => b.1.sign * w b.2).sum :=
  LinearExpr.evalAt_foldl_addTerm _ _ _ _ w

/-- The multipliers of the bounds of a variable are not negative, and they make up for the
difference between its cost and its column. -/
theorem columnPieces_admit_iff (competitor : Nat) (start : VarId) (rows : List (Constraint ℝ))
    (objective : LinearExpr ℝ) (next : VarId) (p : Variable ℝ × Nat) (w : VarId → ℝ) :
    Pieces.Admit w next (columnPieces competitor start rows objective next p) ↔
      (∀ b ∈ boundTerms next p.1, 0 ≤ w b.2) ∧
        ((boundTerms next p.1).map fun b => b.1.sign * w b.2).sum =
          cost objective p.2 - (column start rows p.2).evalAt w := by
  rw [columnPieces, Pieces.admit_append, Pieces.admit_map_declared, Pieces.admit_row, Sense.Holds,
    evalAt_fullColumn, eq_sub_iff_add_eq']
  exact and_congr_left' (forall₂_congr fun b _ => and_iff_left trivial)

theorem addBoundTerms_le (competitor : Nat) (start : VarId) (rows : List (Constraint ℝ))
    (objective : LinearExpr ℝ) (xs : List (Variable ℝ × Nat)) {w v : VarId → ℝ} {next : VarId}
    (allowed : Pieces.Admit w next (columns competitor start rows objective next xs))
    (inside : ∀ p ∈ xs, p.1.Allows (v p.2)) (e : LinearExpr ℝ) :
    (addBoundTerms next xs e).evalAt w ≤ e.evalAt w +
      (xs.map fun p => (cost objective p.2 - (column start rows p.2).evalAt w) * v p.2).sum := by
  induction xs generalizing next e with
  | nil => simp [addBoundTerms]
  | cons p rest ih =>
      rw [columns, Pieces.admit_append, vars_columnPieces_length] at allowed
      obtain ⟨first, later⟩ := allowed
      obtain ⟨signs, balance⟩ := (columnPieces_admit_iff ..).mp first
      rw [List.forall_mem_cons] at inside
      -- Each bound is a lower bound on a signed multiple of the variable, so it may be scaled.
      have values : ((boundTerms next p.1).map fun b => b.1.value * w b.2).sum ≤
          ((boundTerms next p.1).map fun b => b.1.sign * w b.2 * v p.2).sum := by
        refine List.sum_le_sum fun b member => ?_
        have bound := finiteBounds_le (List.fst_mem_of_mem_zipIdx member) inside.1
        calc b.1.value * w b.2 ≤ b.1.sign * v p.2 * w b.2 :=
              mul_le_mul_of_nonneg_right bound (signs b member)
          _ = b.1.sign * w b.2 * v p.2 := by ring
      rw [List.sum_map_mul_right, balance] at values
      have gained : ((boundTerms next p.1).foldl (fun e b => e.addTerm b.2 b.1.value) e).evalAt w =
          e.evalAt w + ((boundTerms next p.1).map fun b => b.1.value * w b.2).sum :=
        LinearExpr.evalAt_foldl_addTerm _ _ _ e w
      have others := ih later inside.2
        ((boundTerms next p.1).foldl (fun e b => e.addTerm b.2 b.1.value) e)
      rw [addBoundTerms, List.map_cons, List.sum_cons]
      linarith

theorem sum_indexedVars (base : Program ℝ) (g : Nat → ℝ) :
    ((indexedVars base).map fun p => g p.2).sum = ∑ j ∈ Finset.range base.vars.size, g j := by
  have indices : (indexedVars base).map Prod.snd = List.range base.vars.size := by
    rw [indexedVars, ← range_eq_map_snd, Array.length_toList]
  change ((indexedVars base).map (g ∘ Prod.snd)).sum = _
  rw [← List.map_map, indices]
  rfl

/-- Weak duality: feasible multipliers bound the objective at every assignment that the program
admits. -/
theorem bound_le (competitor : Nat) (start : VarId) (base : Program ℝ) (objective : LinearExpr ℝ)
    (rows : ∀ c ∈ base.constraints, c.expr.within base.vars.size = true)
    (inside : objective.within base.vars.size = true) {w v : VarId → ℝ}
    (dual : Pieces.Admit w start (block competitor start base objective).pieces)
    (primal : base.Admits v) :
    (block competitor start base objective).bound.evalAt w ≤ objective.evalAt v := by
  rw [block_eq] at dual ⊢
  rw [Pieces.admit_append, Pieces.vars_map_declared, List.length_map] at dual
  obtain ⟨multipliers, columns⟩ := dual
  have boundsHold (p : Variable ℝ × Nat) (member : p ∈ indexedVars base) : p.1.Allows (v p.2) := by
    refine primal.vars p.2 p.1 ?_
    rw [← Array.getElem?_toList]
    exact List.mem_zipIdx_iff_getElem?.mp member
  have ofRows := rowBound_le competitor start base objective multipliers primal.rows
  have ofColumns := addBoundTerms_le competitor start base.constraints.toList objective
    (indexedVars base) columns boundsHold (rowBound start base objective)
  have total := sum_cost_mul objective inside v
  have exchanged := sum_column_mul start base.constraints.toList
    (fun c member => rows c (Array.mem_toList_iff.mp member)) v w
  rw [sum_indexedVars base fun j =>
    (cost objective j - (column start base.constraints.toList j).evalAt w) * v j] at ofColumns
  simp only [sub_mul, Finset.sum_sub_distrib] at ofColumns
  rw [total, exchanged] at ofColumns
  linarith

end Dual
end RobustMargin
