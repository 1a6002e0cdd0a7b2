import RobustMargin.Proofs.Certificates

/-! # Dual bounds over a program

The dual block of a program may be added to any other program. It refers to the variables that it
brings along and to no others, and its bound lies below the objective at all feasible assignments of
the two programs. -/
namespace RobustMargin

namespace LinearExpr

variable {α : Type}

/-- Every variable of the expression lies in a segment of indices. -/
def Between (e : LinearExpr α) (first stop : VarId) : Prop :=
  ∀ t ∈ e.terms, first ≤ t.1 ∧ t.1 < stop

/-- Every variable of the expression has an index that is not below a first one. -/
def From (e : LinearExpr α) (first : VarId) : Prop := ∀ t ∈ e.terms, first ≤ t.1

theorem From.between {e : LinearExpr α} {first stop : VarId} (starts : e.From first)
    (inside : e.within stop = true) : e.Between first stop := fun t member =>
  ⟨starts t member, of_decide_eq_true (List.all_eq_true.mp inside t member)⟩

theorem Between.within {e : LinearExpr α} {first stop : VarId} (between : e.Between first stop) :
    e.within stop = true :=
  List.all_eq_true.mpr fun t member => decide_eq_true (between t member).2

variable [Scalar α]

theorem From.addTerm {e : LinearExpr α} {first : VarId} (starts : e.From first) {v : VarId}
    (later : first ≤ v) (c : α) : (e.addTerm v c).From first := by
  unfold LinearExpr.addTerm
  split
  · exact starts
  · intro t member
    rcases List.mem_append.mp member with old | new
    · exact starts t old
    · exact List.mem_singleton.mp new ▸ later

theorem From.foldl_addTerm {β : Type} (xs : List β) (v : β → VarId) (c : β → α)
    {e : LinearExpr α} {first : VarId} (starts : e.From first) (later : ∀ x ∈ xs, first ≤ v x) :
    (xs.foldl (fun e x => e.addTerm (v x) (c x)) e).From first := by
  induction xs generalizing e with
  | nil => exact starts
  | cons x xs ih =>
      rw [List.forall_mem_cons] at later
      exact ih (starts.addTerm later.1 (c x)) later.2

end LinearExpr

namespace Dual

variable {α : Type} [Scalar α]

theorem from_column (start : VarId) (rows : List (Constraint α)) (v : VarId) :
    (column start rows v).From start := by
  rw [column_eq]
  refine LinearExpr.From.foldl_addTerm _ _ _ (List.forall_mem_nil _) fun t member => ?_
  obtain ⟨p, -, inTerms⟩ := List.mem_flatMap.mp member
  obtain ⟨s, -, rfl⟩ := List.mem_map.mp inTerms
  exact Nat.le_add_right start p.2

theorem le_of_mem_boundTerms {next : VarId} {x : Variable α} {b : FiniteBound α × VarId}
    (member : b ∈ boundTerms next x) : next ≤ b.2 :=
  List.le_snd_of_mem_zipIdx member

theorem from_fullColumn (start : VarId) (rows : List (Constraint α)) {next : VarId}
    (earlier : start ≤ next) (p : Variable α × Nat) :
    (fullColumn start rows next p).From start :=
  LinearExpr.From.foldl_addTerm _ _ _ (from_column start rows p.2) fun _ member =>
    earlier.trans (le_of_mem_boundTerms member)

theorem from_columns (competitor : Nat) (start : VarId) (rows : List (Constraint α))
    (objective : LinearExpr α) (xs : List (Variable α × Nat)) {next : VarId}
    (earlier : start ≤ next) :
    ∀ c ∈ Pieces.rows (columns competitor start rows objective next xs), c.expr.From start := by
  induction xs generalizing next with
  | nil => exact List.forall_mem_nil _
  | cons p rest ih =>
      intro c member
      rw [columns, Pieces.rows_append, List.mem_append] at member
      rcases member with here | later
      · obtain ⟨piece, inPieces, row⟩ := List.mem_filterMap.mp here
        rcases List.mem_append.mp inPieces with multiplier | last
        · obtain ⟨b, -, rfl⟩ := List.mem_map.mp multiplier
          cases row
        · obtain rfl := List.mem_singleton.mp last
          obtain rfl := Option.some.inj row
          exact from_fullColumn start rows earlier p
      · exact ih (earlier.trans (Nat.le_add_right _ _)) c later

theorem from_addBoundTerms (start : VarId) (xs : List (Variable α × Nat)) {next : VarId}
    (earlier : start ≤ next) {e : LinearExpr α} (starts : e.From start) :
    (addBoundTerms next xs e).From start := by
  induction xs generalizing next e with
  | nil => exact starts
  | cons p rest ih =>
      exact ih (earlier.trans (Nat.le_add_right _ _))
        (starts.foldl_addTerm _ _ _ fun _ member => earlier.trans (le_of_mem_boundTerms member))

/-- The rows of a block refer to variables of the block only. -/
theorem between_rows (competitor : Nat) (start : VarId) (base : Program ℝ)
    (objective : LinearExpr ℝ) :
    ∀ c ∈ Pieces.rows (block competitor start base objective).pieces,
      c.expr.Between start (block competitor start base objective).next := by
  intro c member
  have inside := Pieces.rows_within (fit_block competitor start base objective) member
  rw [← block_next] at inside
  refine LinearExpr.From.between ?_ inside
  rw [block_eq, Pieces.rows_append, List.mem_append] at member
  rcases member with multiplier | column
  · obtain ⟨piece, inPieces, row⟩ := List.mem_filterMap.mp multiplier
    obtain ⟨d, -, rfl⟩ := List.mem_map.mp inPieces
    cases row
  · exact from_columns competitor start _ objective _ (Nat.le_add_right _ _) c column

/-- The bound of a block refers to variables of the block only. -/
theorem between_bound (competitor : Nat) (start : VarId) (base : Program ℝ)
    (objective : LinearExpr ℝ) :
    (block competitor start base objective).bound.Between start
      (block competitor start base objective).next := by
  refine LinearExpr.From.between ?_ (within_bound competitor start base objective)
  rw [block_eq]
  refine from_addBoundTerms start _ (Nat.le_add_right _ _) ?_
  exact LinearExpr.From.foldl_addTerm _ _ _ (List.forall_mem_nil _) fun p _ =>
    Nat.le_add_right start p.2

theorem addBound_eq (robust base : Program ℝ) (objective : LinearExpr ℝ) (competitor : Nat) :
    addBound robust base objective competitor =
      .ok (robust.extend (block competitor robust.vars.size base objective).pieces,
        (block competitor robust.vars.size base objective).bound) := by
  rw [addBound, robust.addPieces_eq _ (fit_block competitor robust.vars.size base objective)]
  rfl

/-- Weak duality for any program and any objective over it: the dual block is accepted by every
program, which it leaves as it is but for variables and rows at the end, and its bound is not above
the objective wherever both can be evaluated. -/
theorem addBound_le_objective (robust base : Program ℝ) (objective : LinearExpr ℝ)
    (competitor : Nat) (rows : ∀ c ∈ base.constraints, c.expr.within base.vars.size = true)
    (inside : objective.within base.vars.size = true) :
    ∃ extended bound newVars newRows,
      addBound robust base objective competitor = .ok (extended, bound) ∧
      extended = { robust with
        vars := robust.vars ++ newVars
        constraints := robust.constraints ++ newRows } ∧
      (∀ c ∈ newRows, c.expr.Between robust.vars.size extended.vars.size) ∧
      bound.Between robust.vars.size extended.vars.size ∧
      ∀ w v, extended.isFeasible w 0 = true → base.isFeasible v 0 = true →
        ∃ low value, bound.eval? w = some low ∧ objective.eval? v = some value ∧ low ≤ value := by
  let b := block competitor robust.vars.size base objective
  have size : (robust.extend b.pieces).vars.size = b.next := by
    rw [Program.size_extend, block_next]
  refine ⟨robust.extend b.pieces, b.bound, (Pieces.vars b.pieces).toArray,
    (Pieces.rows b.pieces).toArray, addBound_eq robust base objective competitor, rfl, ?_, ?_, ?_⟩
  · intro c member
    rw [size]
    exact between_rows competitor _ base objective c (List.mem_toArray.mp member)
  · rw [size]
    exact between_bound competitor _ base objective
  · intro w v dual primal
    obtain ⟨dualSize, dualAdmits⟩ := (Program.isFeasible_zero _ w).mp dual
    obtain ⟨primalSize, primalAdmits⟩ := (base.isFeasible_zero v).mp primal
    have multipliers := ((robust.extend_admits_iff b.pieces _).mp dualAdmits).2
    refine ⟨b.bound.eval w, objective.eval v, ?_, ?_, ?_⟩
    · apply LinearExpr.eval?_eq_some
      rw [dualSize, size]
      exact (between_bound competitor _ base objective).within
    · exact objective.eval?_eq_some v (primalSize ▸ inside)
    · exact bound_le competitor _ base objective rows inside multipliers primalAdmits

/-- A free, a one-sided and a two-sided variable, a row of each sense, a constant inside a row and a
variable twice in one. -/
def mixedProgram : Program ℝ where
  name := "mixed"
  vars := #[.free "x", ⟨"y", .num 0, .posInf⟩, ⟨"z", .num (-1), .num 1⟩]
  constraints := #[⟨"low", ⟨[(0, 1), (0, 1), (1, -1)], 1⟩, .ge, 1⟩,
    ⟨"high", ⟨[(1, 1)], 0⟩, .le, 1⟩, ⟨"tie", ⟨[(2, -1), (0, 1)], 0⟩, .eq, 0⟩]
  objective := ⟨.minimize, ⟨[(0, 1), (0, 1), (1, -1)], 1⟩⟩

/-- A program that has a variable already. -/
def marginOnly : Program ℝ := ⟨"robust", #[.free "t"], #[], ⟨.minimize, ⟨[], 0⟩⟩⟩

/-- The variable of `marginOnly`, the multipliers of the rows of `mixedProgram` and those of its
bounds. -/
noncomputable def mixedMultipliers : Array ℝ := #[0, 1, 0, 0, 0, 0, 0]

theorem mixed_primal : mixedProgram.isFeasible #[1, 0, 1] 0 = true := by
  rw [Program.isFeasible_zero]
  refine ⟨rfl, fun v x found => ?_, ?_⟩
  · match v with
    | 0 => exact Option.some.inj found ▸ ⟨trivial, trivial⟩
    | 1 => exact Option.some.inj found ▸ ⟨le_rfl, trivial⟩
    | 2 => exact Option.some.inj found ▸ ⟨neg_le_self zero_le_one, le_rfl⟩
    | _ + 3 => cases found
  · simp [mixedProgram, Constraint.Holds, Sense.Holds, LinearExpr.evalAt_real, Program.reading]

theorem mixed_dual :
    Pieces.Admit (Program.reading mixedMultipliers) 1
      (block 1 1 mixedProgram mixedProgram.objective.expr).pieces := by
  rw [block_eq, Pieces.admit_append, Pieces.vars_map_declared, List.length_map,
    Pieces.admit_map_declared]
  constructor
  · simp [mixedProgram, multiplier, multiplierBounds, Variable.Allows, Bound.Below, Bound.Above,
      Program.reading, mixedMultipliers]
  · simp [mixedProgram, columns, indexedVars, Pieces.admit_append, columnPieces_admit_iff,
      boundTerms, finiteBounds, Variable.free, Bound.finite?, evalAt_column, cost_real,
      Program.reading, mixedMultipliers, vars_columnPieces_length]

theorem addBound_le_objective_mixed :
    (∀ c ∈ mixedProgram.constraints, c.expr.within mixedProgram.vars.size = true) ∧
      mixedProgram.objective.expr.within mixedProgram.vars.size = true ∧
      ∃ extended bound w v low value,
        addBound marginOnly mixedProgram mixedProgram.objective.expr 1 = .ok (extended, bound) ∧
        extended.isFeasible w 0 = true ∧ mixedProgram.isFeasible v 0 = true ∧
        bound.eval? w = some low ∧ mixedProgram.objective.expr.eval? v = some value ∧
        low ≤ value := by
  have rows : ∀ c ∈ mixedProgram.constraints,
      c.expr.within mixedProgram.vars.size = true := by
    intro c member
    rw [← Array.mem_toList_iff] at member
    fin_cases member <;> rfl
  obtain ⟨extended, bound, -, -, added, -, -, -, weak⟩ :=
    addBound_le_objective marginOnly mixedProgram mixedProgram.objective.expr 1 rows rfl
  have dual : extended.isFeasible mixedMultipliers 0 = true := by
    obtain ⟨rfl, rfl⟩ := Prod.mk.inj (Except.ok.inj ((addBound_eq ..).symm.trans added))
    rw [Program.isFeasible_zero, Program.extend_admits_iff]
    refine ⟨?_, ⟨fun v x found => ?_, fun c none => ?_⟩, mixed_dual⟩
    · rw [Program.size_extend, ← block_next, block_eq]
      rfl
    · match v with
      | 0 => exact Option.some.inj found ▸ ⟨trivial, trivial⟩
      | _ + 1 => cases found
    · exact absurd none (Array.not_mem_empty c)
  obtain ⟨low, value, ofBound, ofObjective, below⟩ := weak _ _ dual mixed_primal
  exact ⟨rows, rfl, extended, bound, _, _, low, value, added, dual, mixed_primal, ofBound,
    ofObjective, below⟩

end Dual
end RobustMargin
