import RobustMargin.Proofs.Interval
import RobustMargin.Proofs.Pieces

/-! # Feasible assignments

Feasibility with no tolerance over the reals, as a property of the values of the variables. An
assignment is feasible for an extended program if it is so for the program and for the pieces. -/
namespace RobustMargin

namespace LinearExpr

theorem evalAt_real (e : LinearExpr ℝ) (w : VarId → ℝ) :
    e.evalAt w = (e.terms.map fun t => t.2 * w t.1).sum + e.constant := by
  rw [evalAt, Scalar.sum_real]

@[simp]
theorem evalAt_const (c : ℝ) (w : VarId → ℝ) : (const c).evalAt w = c := by
  simp [evalAt_real, const]

@[simp]
theorem evalAt_addTerm (e : LinearExpr ℝ) (v : VarId) (c : ℝ) (w : VarId → ℝ) :
    (e.addTerm v c).evalAt w = e.evalAt w + c * w v := by
  unfold addTerm
  split
  · rename_i zero
    rw [(Scalar.same_real_iff c 0).mp zero, zero_mul, add_zero]
  · rw [evalAt_real, evalAt_real, List.map_append, List.sum_append]
    simp only [List.map_cons, List.map_nil, List.sum_cons, List.sum_nil]
    ring

@[simp]
theorem evalAt_var (v : VarId) (w : VarId → ℝ) : (var v : LinearExpr ℝ).evalAt w = w v := by
  rw [var, evalAt_addTerm, zero, evalAt_const, zero_add, one_mul]

theorem evalAt_foldl_addTerm {β : Type} (xs : List β) (v : β → VarId) (c : β → ℝ)
    (e : LinearExpr ℝ) (w : VarId → ℝ) :
    (xs.foldl (fun e x => e.addTerm (v x) (c x)) e).evalAt w =
      e.evalAt w + (xs.map fun x => c x * w (v x)).sum := by
  induction xs generalizing e with
  | nil => simp
  | cons x xs ih =>
      rw [List.foldl_cons, ih, evalAt_addTerm, List.map_cons, List.sum_cons, add_assoc]

theorem evalAt_foldl_subTerm {β : Type} (xs : List β) (v : β → VarId) (c : β → ℝ)
    (e : LinearExpr ℝ) (w : VarId → ℝ) :
    (xs.foldl (fun e x => e.addTerm (v x) (-c x)) e).evalAt w =
      e.evalAt w - (xs.map fun x => c x * w (v x)).sum := by
  rw [evalAt_foldl_addTerm, sub_eq_add_neg, List.sum_neg, List.map_map]
  exact congrArg (_ + List.sum ·) (List.map_congr_left fun x _ => neg_mul _ _)

end LinearExpr

/-- The comparison that a sense stands for. -/
def Sense.Holds : Sense → ℝ → ℝ → Prop
  | .le, value, rhs => value ≤ rhs
  | .ge, value, rhs => rhs ≤ value
  | .eq, value, rhs => value = rhs

theorem Constraint.holdsFor_zero (c : Constraint ℝ) (value : ℝ) :
    c.holdsFor 0 value = true ↔ c.sense.Holds value c.rhs := by
  unfold holdsFor
  cases c.sense with
  | le => rw [decide_eq_true_iff, add_zero]; rfl
  | ge => rw [decide_eq_true_iff, sub_zero]; rfl
  | eq =>
      rw [decide_eq_true_iff]
      exact abs_nonpos_iff.trans sub_eq_zero

def Constraint.Holds (c : Constraint ℝ) (w : VarId → ℝ) : Prop :=
  c.sense.Holds (c.expr.evalAt w) c.rhs

namespace Bound

/-- The bound does not lie above a value. -/
def Below : Bound ℝ → ℝ → Prop
  | negInf, _ => True
  | num bound, x => bound ≤ x
  | posInf, _ => False

/-- The bound does not lie below a value. -/
def Above : Bound ℝ → ℝ → Prop
  | negInf, _ => False
  | num bound, x => x ≤ bound
  | posInf, _ => True

theorem admitsAbove_zero (b : Bound ℝ) (x : ℝ) : b.admitsAbove x 0 = true ↔ b.Below x := by
  cases b with
  | negInf => simp [admitsAbove, Below, Scalar.isBottom]
  | num bound => simp [admitsAbove, Below]
  | posInf => simp [admitsAbove, Below, Scalar.isTop]

theorem admitsBelow_zero (b : Bound ℝ) (x : ℝ) : b.admitsBelow x 0 = true ↔ b.Above x := by
  cases b with
  | negInf => simp [admitsBelow, Above, Scalar.isBottom]
  | num bound => simp [admitsBelow, Above]
  | posInf => simp [admitsBelow, Above, Scalar.isBottom]

end Bound

/-- The value lies between the bounds of the variable. -/
def Variable.Allows (v : Variable ℝ) (x : ℝ) : Prop := v.lower.Below x ∧ v.upper.Above x

theorem Variable.admits_zero (v : Variable ℝ) (x : ℝ) : v.admits x 0 = true ↔ v.Allows x := by
  rw [admits, Bool.and_eq_true, Bound.admitsAbove_zero, Bound.admitsBelow_zero, Allows]

namespace Program

/-- All variables lie between their bounds and all constraints hold. -/
structure Admits (p : Program ℝ) (w : VarId → ℝ) : Prop where
  vars : ∀ (v : VarId) (x : Variable ℝ), p.vars[v]? = some x → x.Allows (w v)
  rows : ∀ c ∈ p.constraints, c.Holds w

/-- The value of each variable in an array that covers them. -/
noncomputable def reading (values : Array ℝ) (v : VarId) : ℝ := values.getD v 0

theorem withinBounds_zero (p : Program ℝ) (values : Array ℝ) (size : values.size = p.vars.size) :
    p.withinBounds values 0 = true ↔
      ∀ (v : VarId) (x : Variable ℝ), p.vars[v]? = some x → x.Allows (reading values v) := by
  rw [withinBounds, List.all_eq_true]
  constructor
  · intro all v x found
    have bound : v < values.size := by
      rw [size]
      exact (Array.getElem?_eq_some_iff.mp found).1
    have paired : (x, values[v]) ∈ p.vars.toList.zip values.toList := by
      refine List.mem_of_getElem? (i := v) ?_
      rw [List.getElem?_zip_eq_some]
      exact ⟨by simpa using found, by simp [bound]⟩
    have allowed := (x.admits_zero _).mp (all _ paired)
    rwa [reading, Array.getD_eq_getD_getElem?, Array.getElem?_eq_getElem bound]
  · intro all pair member
    obtain ⟨v, found⟩ := List.getElem?_of_mem member
    obtain ⟨first, second⟩ := List.getElem?_zip_eq_some.mp found
    have allowed := all v pair.1 (by simpa using first)
    rw [reading, Array.getD_eq_getD_getElem?, ← Array.getElem?_toList, second] at allowed
    exact (pair.1.admits_zero _).mpr allowed

theorem isFeasible_zero (p : Program ℝ) (values : Array ℝ) :
    p.isFeasible values 0 = true ↔ values.size = p.vars.size ∧ p.Admits (reading values) := by
  rw [isFeasible, Bool.and_eq_true, Bool.and_eq_true, beq_iff_eq, and_assoc]
  refine and_congr_right fun size => ?_
  rw [withinBounds_zero p values size, Array.all_eq_true_iff_forall_mem]
  have rows : (∀ c ∈ p.constraints, c.isSatisfied values 0 = true) ↔
      ∀ c ∈ p.constraints, c.Holds (reading values) :=
    forall₂_congr fun c _ => c.holdsFor_zero _
  rw [rows]
  exact ⟨fun both => ⟨both.1, both.2⟩, fun admitted => ⟨admitted.vars, admitted.rows⟩⟩

theorem push_admits_iff (p : Program ℝ) (x : Variable ℝ) (w : VarId → ℝ) :
    (p.push x).Admits w ↔ p.Admits w ∧ x.Allows (w p.vars.size) := by
  constructor
  · intro admitted
    refine ⟨⟨fun v y found => ?_, admitted.rows⟩, ?_⟩
    · have bound := (Array.getElem?_eq_some_iff.mp found).1
      exact admitted.vars v y (by rwa [push, Array.getElem?_push, if_neg bound.ne])
    · exact admitted.vars _ x (by simp [push])
  · rintro ⟨admitted, allowed⟩
    refine ⟨fun v y found => ?_, admitted.rows⟩
    rw [push, Array.getElem?_push] at found
    split at found
    · rename_i last
      obtain rfl := Option.some.inj found
      exact last ▸ allowed
    · exact admitted.vars v y found

theorem addRow_admits_iff (p : Program ℝ) (c : Constraint ℝ) (w : VarId → ℝ) :
    ({ p with constraints := p.constraints.push c } : Program ℝ).Admits w ↔
      p.Admits w ∧ c.Holds w := by
  constructor
  · intro admitted
    exact ⟨⟨admitted.vars, fun d member => admitted.rows d (Array.mem_push_of_mem c member)⟩,
      admitted.rows c Array.mem_push_self⟩
  · rintro ⟨admitted, holds⟩
    refine ⟨admitted.vars, fun d member => ?_⟩
    rcases Array.mem_push.mp member with earlier | last
    · exact admitted.rows d earlier
    · exact last ▸ holds

end Program

/-- The values of the variables from an index on satisfy a piece that is added there. -/
def Piece.Admits (w : VarId → ℝ) (index : Nat) (piece : Piece ℝ) : Prop :=
  (∀ x, piece.newVar? = some x → x.Allows (w index)) ∧ ∀ c, piece.newRow? = some c → c.Holds w

/-- The values of the variables from an index on satisfy pieces that are added there. -/
def Pieces.Admit (w : VarId → ℝ) : Nat → List (Piece ℝ) → Prop
  | _, [] => True
  | index, piece :: rest => piece.Admits w index ∧ Pieces.Admit w (index + piece.size) rest

theorem Pieces.admit_append (w : VarId → ℝ) (index : Nat) (first second : List (Piece ℝ)) :
    Admit w index (first ++ second) ↔
      Admit w index first ∧ Admit w (index + (vars first).length) second := by
  induction first generalizing index with
  | nil => simp [Admit, vars]
  | cons piece rest ih =>
      rw [List.cons_append, Admit, Admit, ih, vars_cons, List.length_append, and_assoc,
        ← Nat.add_assoc, Piece.size]

namespace Program

theorem extend_one_admits_iff (p : Program ℝ) (piece : Piece ℝ) (w : VarId → ℝ) :
    (p.extend [piece]).Admits w ↔ p.Admits w ∧ piece.Admits w p.vars.size := by
  cases piece with
  | declared v =>
      rw [p.extend_of_var _ v rfl rfl, push_admits_iff]
      simp [Piece.Admits, Piece.newVar?, Piece.newRow?]
  | bounded layer name range =>
      rw [p.extend_of_var _ _ rfl rfl, push_admits_iff]
      simp [Piece.Admits, Piece.newVar?, Piece.newRow?]
  | row name expr sense rhs =>
      rw [p.extend_of_row _ _ rfl rfl, addRow_admits_iff]
      simp [Piece.Admits, Piece.newVar?, Piece.newRow?]

theorem extend_admits_iff (p : Program ℝ) (pieces : List (Piece ℝ)) (w : VarId → ℝ) :
    (p.extend pieces).Admits w ↔ p.Admits w ∧ Pieces.Admit w p.vars.size pieces := by
  induction pieces generalizing p with
  | nil => simp [extend_nil, Pieces.Admit]
  | cons piece rest ih =>
      rw [p.extend_cons piece rest, ih, extend_one_admits_iff, Pieces.Admit, size_extend, and_assoc,
        Pieces.vars_cons, List.length_append]
      rfl

end Program
end RobustMargin
