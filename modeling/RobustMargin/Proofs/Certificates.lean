import RobustMargin.Proofs.Multipliers
import RobustMargin.Model

/-! # Certificates

The program of the common margin consists of one dual block for each competitor. What it admits
keeps the margin below the objective of every competitor, and the least of these can be reached. -/
namespace RobustMargin

theorem Pieces.rows_within {α : Type} [Scalar α] {count : Nat} {pieces : List (Piece α)}
    (fit : Fit count pieces) {c : Constraint α} (member : c ∈ rows pieces) :
    c.expr.within (count + (vars pieces).length) = true := by
  induction pieces generalizing count with
  | nil => cases member
  | cons piece rest ih =>
      obtain ⟨fits, later⟩ := fit
      rw [vars_cons, List.length_append, ← Nat.add_assoc]
      cases piece with
      | declared v => exact ih later member
      | bounded layer name range => exact ih later member
      | row name expr sense rhs =>
          rcases List.mem_cons.mp member with rfl | inRest
          · exact LinearExpr.within_mono _ fits.1 (Nat.le_add_right _ _)
          · exact ih later inRest

namespace Dual

section Fitting

variable {α : Type} [Scalar α] (zero : Scalar.isFinite (0 : α) = true) {objective : LinearExpr α}
  (finite : ∀ v, Scalar.isFinite (cost objective v) = true)
include zero finite

theorem fit_columnPieces (competitor : Nat) (start : VarId) (rows : List (Constraint α))
    (next : VarId) (p : Variable α × Nat) (earlier : start + rows.length ≤ next) :
    Pieces.Fit next (columnPieces competitor start rows objective next p) := by
  rw [columnPieces, Pieces.fit_append, Pieces.vars_map_declared, List.length_map]
  refine ⟨Pieces.fit_of_forall _ _ fun piece member _ _ => ?_, ?_, trivial⟩
  · obtain ⟨b, -, rfl⟩ := List.mem_map.mp member
    trivial
  · refine ⟨within_fullColumn start rows next p earlier, finite p.2, ?_⟩
    rw [constant_fullColumn]
    exact zero

theorem fit_columns (competitor : Nat) (start : VarId) (rows : List (Constraint α))
    (xs : List (Variable α × Nat)) {next : VarId} (earlier : start + rows.length ≤ next) :
    Pieces.Fit next (columns competitor start rows objective next xs) := by
  induction xs generalizing next with
  | nil => trivial
  | cons p rest ih =>
      rw [columns, Pieces.fit_append, vars_columnPieces_length]
      exact ⟨fit_columnPieces zero finite competitor start rows next p earlier,
        ih (earlier.trans (Nat.le_add_right _ _))⟩

/-- The pieces of a block fit where the costs of the objective are finite. -/
theorem fit_block_of_finite (competitor : Nat) (start : VarId) (base : Program α) :
    Pieces.Fit start (block competitor start base objective).pieces := by
  rw [block_eq, Pieces.fit_append, Pieces.vars_map_declared, List.length_map]
  refine ⟨Pieces.fit_of_forall _ _ fun piece member _ _ => ?_, ?_⟩
  · obtain ⟨c, -, rfl⟩ := List.mem_map.mp member
    trivial
  · exact fit_columns zero finite competitor start _ _ le_rfl

end Fitting

theorem fit_block (competitor : Nat) (start : VarId) (base : Program ℝ)
    (objective : LinearExpr ℝ) :
    Pieces.Fit start (block competitor start base objective).pieces :=
  fit_block_of_finite (Scalar.isFinite_real 0) (fun _ => Scalar.isFinite_real _) competitor start
    base

section Bounds

variable {α : Type} [Scalar α]

theorem within_addBoundTerms (xs : List (Variable α × Nat)) {next : VarId} {e : LinearExpr α}
    (inside : e.within next = true) :
    (addBoundTerms next xs e).within (next + boundCount xs) = true := by
  induction xs generalizing next e with
  | nil => exact inside
  | cons p rest ih =>
      rw [addBoundTerms, boundCount, List.map_cons, List.sum_cons, ← Nat.add_assoc]
      exact ih (LinearExpr.within_foldl_addTerm _ _ _ _
        (LinearExpr.within_mono e inside (Nat.le_add_right _ _)) fun b member =>
          mem_boundTerms_lt member)

theorem within_bound (competitor : Nat) (start : VarId) (base : Program α)
    (objective : LinearExpr α) : (block competitor start base objective).bound.within
      (block competitor start base objective).next = true := by
  have inside : (rowBound start base objective).within
      (start + base.constraints.toList.length) = true :=
    LinearExpr.within_foldl_addTerm _ _ _ _ rfl fun p member =>
      Nat.add_lt_add_left (List.mem_zipIdx' member).1 start
  rw [block_eq]
  exact within_addBoundTerms _ inside

end Bounds

end Dual

namespace Model

/-- The dual blocks of competitors in turn, each from the next free index on. -/
def blocks {α : Type} [Scalar α] (base : Program α) (margin : Nat → LinearExpr α) :
    VarId → List Nat → List (Nat × Dual.Progress α)
  | _, [] => []
  | start, k :: rest =>
      let b := Dual.block k start base (margin k)
      (k, b) :: blocks base margin b.next rest

/-- A dual block and the row that keeps the margin variable below its bound. -/
def blockPieces {α : Type} [Scalar α] (t : VarId) (b : Nat × Dual.Progress α) : List (Piece α) :=
  b.2.pieces ++ [.row s!"margin_{b.1}" (belowBound t b.2.bound) .le b.2.bound.constant]

def certificateOf {α : Type} (b : Nat × Dual.Progress α) : Certificate α := ⟨b.1, b.2.bound⟩

theorem vars_blockPieces {α : Type} [Scalar α] (t : VarId) (b : Nat × Dual.Progress α) :
    Pieces.vars (blockPieces t b) = Pieces.vars b.2.pieces := by
  rw [blockPieces, Pieces.vars_append]
  exact List.append_nil _

theorem constant_belowBound {α : Type} [Scalar α] (t : VarId) (bound : LinearExpr α) :
    (belowBound t bound).constant = 0 :=
  (LinearExpr.constant_foldl_addTerm _ _ _ _).trans (LinearExpr.constant_var t)

/-- The pieces of a block and the row below its bound fit where the costs and the constant of the
margin are finite. -/
theorem fit_blockPieces_of_finite {α : Type} [Scalar α] (zero : Scalar.isFinite (0 : α) = true)
    (base : Program α) {margin : Nat → LinearExpr α} (k : Nat) {t start : VarId}
    (costs : ∀ v, Scalar.isFinite (Dual.cost (margin k) v) = true)
    (constant : Scalar.isFinite (margin k).constant = true) (bound : t < start) :
    Pieces.Fit start (blockPieces t (k, Dual.block k start base (margin k))) := by
  have more : start ≤ (Dual.block k start base (margin k)).next := by
    rw [Dual.block_next]
    exact Nat.le_add_right _ _
  rw [blockPieces, Pieces.fit_append, ← Dual.block_next]
  refine ⟨Dual.fit_block_of_finite zero costs k start base, ⟨?_, ?_, ?_⟩, trivial⟩
  · refine LinearExpr.within_foldl_addTerm _ _ _ _
      (LinearExpr.within_var (bound.trans_le more)) fun term member => ?_
    exact of_decide_eq_true
      (List.all_eq_true.mp (Dual.within_bound k start base (margin k)) _ member)
  · rw [Dual.constant_bound]
    exact constant
  · rw [constant_belowBound]
    exact zero

section Building

variable {α : Type} [Scalar α]

/-- Dual blocks fit one after another where all costs and constants are finite. -/
theorem fit_blocks (zero : Scalar.isFinite (0 : α) = true) (base : Program α)
    {margin : Nat → LinearExpr α} (rivals : List Nat)
    (costs : ∀ k ∈ rivals, ∀ v, Scalar.isFinite (Dual.cost (margin k) v) = true)
    (constants : ∀ k ∈ rivals, Scalar.isFinite (margin k).constant = true) {t start : VarId}
    (bound : t < start) :
    Pieces.Fit start ((blocks base margin start rivals).flatMap (blockPieces t)) := by
  induction rivals generalizing start with
  | nil => trivial
  | cons k rest ih =>
      rw [List.forall_mem_cons] at costs constants
      rw [blocks, List.flatMap_cons, Pieces.fit_append, vars_blockPieces, ← Dual.block_next]
      refine ⟨fit_blockPieces_of_finite zero base k costs.1 constants.1 bound,
        ih costs.2 constants.2 (bound.trans_le ?_)⟩
      rw [Dual.block_next]
      exact Nat.le_add_right _ _

/-- A competitor adds the pieces of its dual block, and the others follow. -/
theorem addCertificates_cons (base : Program α) (margin : Nat → LinearExpr α) (t : VarId)
    (robust : Program α) (k : Nat) (rest : List Nat) :
    let b := Dual.block k robust.vars.size base (margin k)
    addCertificates base margin t robust (k :: rest) = do
      let bounded ← robust.addPieces (blockPieces t (k, b))
      let (last, certificates) ← addCertificates base margin t bounded rest
      return (last, ⟨k, b.bound⟩ :: certificates) := by
  intro b
  rw [addCertificates, Dual.addBound, blockPieces, Program.addPieces_append]
  cases robust.addPieces b.pieces with
  | error e => rfl
  | ok extended =>
      let row : Piece α := .row s!"margin_{k}" (belowBound t b.bound) .le b.bound.constant
      change (extended.addPiece row >>= _) = (extended.addPieces [row] >>= _)
      rw [Program.addPieces_single]

/-- Dual blocks that fit are appended in turn. -/
theorem addCertificates_eq (base : Program α) (margin : Nat → LinearExpr α) (t : VarId)
    (robust : Program α) (rivals : List Nat) (fit : Pieces.Fit robust.vars.size
      ((blocks base margin robust.vars.size rivals).flatMap (blockPieces t))) :
    addCertificates base margin t robust rivals =
      .ok (robust.extend ((blocks base margin robust.vars.size rivals).flatMap (blockPieces t)),
        (blocks base margin robust.vars.size rivals).map certificateOf) := by
  induction rivals generalizing robust with
  | nil => rw [addCertificates, blocks, List.flatMap_nil, List.map_nil, Program.extend_nil]
  | cons k rest ih =>
      let b := Dual.block k robust.vars.size base (margin k)
      let extended := robust.extend (blockPieces t (k, b))
      rw [blocks, List.flatMap_cons, Pieces.fit_append, vars_blockPieces, ← Dual.block_next] at fit
      obtain ⟨first, later⟩ := fit
      -- The next block starts at the size of the program that this one leaves.
      have size : extended.vars.size = b.next := by
        rw [Program.size_extend, vars_blockPieces, Dual.block_next]
      have others := ih extended (by rw [size]; exact later)
      rw [size] at others
      rw [addCertificates_cons, Program.addPieces_eq _ _ first]
      dsimp only
      change (addCertificates base margin t extended rest >>= _) = _
      rw [others, blocks, List.flatMap_cons, List.map_cons, Program.extend_append]
      rfl

end Building

theorem evalAt_belowBound (t : VarId) (bound : LinearExpr ℝ) (w : VarId → ℝ) :
    (belowBound t bound).evalAt w = w t - (bound.evalAt w - bound.constant) := by
  rw [belowBound, LinearExpr.evalAt_foldl_subTerm, LinearExpr.evalAt_var, bound.evalAt_real,
    add_sub_cancel_right]

theorem blockPieces_admit_iff (t start : VarId) (b : Nat × Dual.Progress ℝ) (w : VarId → ℝ) :
    Pieces.Admit w start (blockPieces t b) ↔
      Pieces.Admit w start b.2.pieces ∧ w t ≤ b.2.bound.evalAt w := by
  rw [blockPieces, Pieces.admit_append, Pieces.admit_row, Sense.Holds, evalAt_belowBound]
  refine and_congr_right fun _ => ?_
  constructor <;> intro below <;> linarith

section Blocks

variable (base : Program ℝ) (margin : Nat → LinearExpr ℝ) {t : VarId} {w : VarId → ℝ}
  (rivals : List Nat) (inside : ∀ k ∈ rivals, (margin k).within base.vars.size = true)
include inside

/-- The margin variable stays below the objective of every competitor. -/
theorem margin_le_of_admit (rows : ∀ c ∈ base.constraints, c.expr.within base.vars.size = true)
    {v : VarId → ℝ} (primal : base.Admits v) {start : VarId}
    (admitted : Pieces.Admit w start ((blocks base margin start rivals).flatMap (blockPieces t))) :
    ∀ k ∈ rivals, w t ≤ (margin k).evalAt v := by
  induction rivals generalizing start with
  | nil =>
      intro k none
      cases none
  | cons k rest ih =>
      rw [blocks, List.flatMap_cons, Pieces.admit_append, vars_blockPieces, ← Dual.block_next]
        at admitted
      obtain ⟨first, later⟩ := admitted
      obtain ⟨dual, below⟩ := (blockPieces_admit_iff ..).mp first
      rw [List.forall_mem_cons] at inside ⊢
      exact ⟨below.trans (Dual.bound_le k start base (margin k) rows inside.1 dual primal),
        ih inside.2 later⟩

/-- The multipliers of the box serve every competitor whose best corner lies above the margin. -/
theorem blocks_admit_of_corners (corner : Nat → VarId → ℝ)
    (best : ∀ k ∈ rivals, Dual.AtBest base (margin k) (corner k))
    (below : ∀ k ∈ rivals, w t ≤ (margin k).evalAt (corner k)) {start : VarId}
    (placed : Placed w start (rivals.flatMap fun k => Dual.boxMultipliers base (margin k))) :
    Pieces.Admit w start ((blocks base margin start rivals).flatMap (blockPieces t)) := by
  induction rivals generalizing start with
  | nil => trivial
  | cons k rest ih =>
      rw [List.forall_mem_cons] at inside best below
      rw [List.flatMap_cons, Placed.append_iff, Dual.boxMultipliers_length k start,
        ← Dual.block_next] at placed
      obtain ⟨dual, value⟩ := Dual.boxMultipliers_admitted k start base (margin k) inside.1
        best.1 placed.1
      rw [blocks, List.flatMap_cons, Pieces.admit_append, vars_blockPieces, ← Dual.block_next,
        blockPieces_admit_iff, value]
      exact ⟨⟨dual, below.1⟩, ih inside.2 best.2 below.2 placed.2⟩

end Blocks

theorem vars_blocks_length (base : Program ℝ) (margin : Nat → LinearExpr ℝ) (t : VarId)
    (rivals : List Nat) (start : VarId) :
    (Pieces.vars ((blocks base margin start rivals).flatMap (blockPieces t))).length =
      (rivals.flatMap fun k => Dual.boxMultipliers base (margin k)).length := by
  induction rivals generalizing start with
  | nil => rfl
  | cons k rest ih =>
      rw [blocks, List.flatMap_cons, Pieces.vars_append, List.length_append, vars_blockPieces, ih,
        List.flatMap_cons, List.length_append, Dual.boxMultipliers_length k start]

end Model
end RobustMargin
