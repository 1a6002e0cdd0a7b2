import Mathlib
import RobustMargin.Model.Blueprint

/-! # Programs from pieces

Adding pieces that fit appends their variables and their rows. Whether a piece fits depends on the
pieces before it only through the number of their variables. -/
namespace RobustMargin

variable {α : Type}

/-- The constraint that a piece adds. -/
def Piece.newRow? : Piece α → Option (Constraint α)
  | .row name expr sense rhs => some ⟨name, expr, sense, rhs⟩
  | _ => none

namespace Pieces

def rows (pieces : List (Piece α)) : List (Constraint α) := pieces.filterMap Piece.newRow?

theorem rows_append (first second : List (Piece α)) :
    rows (first ++ second) = rows first ++ rows second :=
  List.filterMap_append

theorem rows_flatMap {β : Type} (xs : List β) (f : β → List (Piece α)) :
    rows (xs.flatMap f) = xs.flatMap fun x => rows (f x) :=
  List.filterMap_flatMap

theorem rows_map_declared {β : Type} (f : β → Variable α) (xs : List β) :
    rows (xs.map fun x => .declared (f x)) = [] := by
  rw [rows, List.filterMap_map]
  exact List.filterMap_eq_nil_iff.mpr fun _ _ => rfl

end Pieces

namespace LinearExpr

theorem within_mono (e : LinearExpr α) {count more : Nat} (inside : e.within count = true)
    (le : count ≤ more) : e.within more = true := by
  rw [within, List.all_eq_true] at *
  exact fun t member => decide_eq_true (lt_of_lt_of_le (of_decide_eq_true (inside t member)) le)

theorem within_addTerm [Scalar α] (e : LinearExpr α) {count : Nat} (inside : e.within count = true)
    {v : VarId} (bound : v < count) (c : α) : (e.addTerm v c).within count = true := by
  unfold addTerm
  split
  · exact inside
  · rw [within, List.all_append, Bool.and_eq_true]
    exact ⟨inside, by simpa using bound⟩

theorem within_var [Scalar α] {count : Nat} {v : VarId} (bound : v < count) :
    (var v : LinearExpr α).within count = true :=
  within_addTerm zero rfl bound 1

theorem within_foldl_addTerm [Scalar α] {β : Type} (xs : List β) (v : β → VarId) (c : β → α)
    (e : LinearExpr α) {count : Nat} (inside : e.within count = true)
    (bounds : ∀ x ∈ xs, v x < count) :
    (xs.foldl (fun e x => e.addTerm (v x) (c x)) e).within count = true := by
  induction xs generalizing e with
  | nil => exact inside
  | cons x xs ih =>
      exact ih _ (within_addTerm e inside (bounds x List.mem_cons_self) (c x)) fun y member =>
        bounds y (List.mem_cons_of_mem x member)

theorem constant_addTerm [Scalar α] (e : LinearExpr α) (v : VarId) (c : α) :
    (e.addTerm v c).constant = e.constant := by
  unfold addTerm
  split <;> rfl

theorem constant_var [Scalar α] (v : VarId) : (var v : LinearExpr α).constant = 0 :=
  constant_addTerm zero v 1

theorem constant_foldl_addTerm [Scalar α] {β : Type} (xs : List β) (v : β → VarId) (c : β → α)
    (e : LinearExpr α) :
    (xs.foldl (fun e x => e.addTerm (v x) (c x)) e).constant = e.constant := by
  induction xs generalizing e with
  | nil => rfl
  | cons x xs ih => exact (ih _).trans (constant_addTerm e (v x) (c x))

end LinearExpr

variable [Scalar α]

namespace Piece

/-- The variable that a piece adds. -/
def newVar? : Piece α → Option (Variable α)
  | .declared v => some v
  | .bounded _ name range => some ⟨name, .ofScalar range.lo, .ofScalar range.hi⟩
  | .row .. => none

/-- The number of variables that a piece adds. -/
def size (piece : Piece α) : Nat := piece.newVar?.toList.length

/-- The piece is accepted by a program with a number of variables. -/
def Fits (count : Nat) : Piece α → Prop
  | .declared _ => True
  | .bounded _ _ range =>
      Scalar.isNumber range.lo = true ∧ Scalar.isNumber range.hi = true ∧ ¬ range.hi < range.lo
  | .row _ expr _ rhs =>
      expr.within count = true ∧ Scalar.isFinite rhs = true ∧ Scalar.isFinite expr.constant = true

end Piece

namespace Pieces

def vars (pieces : List (Piece α)) : List (Variable α) := pieces.filterMap Piece.newVar?

/-- Each piece is accepted where those before it have been added. -/
def Fit : Nat → List (Piece α) → Prop
  | _, [] => True
  | count, piece :: rest => piece.Fits count ∧ Fit (count + piece.size) rest

theorem vars_cons (piece : Piece α) (rest : List (Piece α)) :
    vars (piece :: rest) = piece.newVar?.toList ++ vars rest := by
  rw [vars, List.filterMap_cons]
  cases piece.newVar? <;> rfl

theorem vars_append (first second : List (Piece α)) :
    vars (first ++ second) = vars first ++ vars second :=
  List.filterMap_append

theorem vars_flatMap {β : Type} (xs : List β) (f : β → List (Piece α)) :
    vars (xs.flatMap f) = xs.flatMap fun x => vars (f x) :=
  List.filterMap_flatMap

theorem vars_map_declared {β : Type} (f : β → Variable α) (xs : List β) :
    vars (xs.map fun x => .declared (f x)) = xs.map f := by
  rw [vars, List.filterMap_map]
  exact congrFun List.filterMap_eq_map' xs

theorem fit_append (count : Nat) (first second : List (Piece α)) :
    Fit count (first ++ second) ↔ Fit count first ∧ Fit (count + (vars first).length) second := by
  induction first generalizing count with
  | nil => simp [Fit, vars]
  | cons piece rest ih =>
      rw [List.cons_append, Fit, Fit, ih, vars_cons, List.length_append, and_assoc,
        ← Nat.add_assoc, Piece.size]

theorem fit_of_forall (count : Nat) (pieces : List (Piece α))
    (fits : ∀ piece ∈ pieces, ∀ more, count ≤ more → piece.Fits more) : Fit count pieces := by
  induction pieces generalizing count with
  | nil => trivial
  | cons piece rest ih =>
      exact ⟨fits piece List.mem_cons_self count le_rfl, ih _ fun other member more le =>
        fits other (List.mem_cons_of_mem piece member) more (le_trans (Nat.le_add_right _ _) le)⟩

theorem fits_of_fit {count : Nat} {pieces : List (Piece α)} (fit : Fit count pieces)
    {piece : Piece α} (member : piece ∈ pieces) : ∃ more, piece.Fits more := by
  induction pieces generalizing count with
  | nil => cases member
  | cons first rest ih =>
      rcases List.mem_cons.mp member with rfl | later
      · exact ⟨count, fit.1⟩
      · exact ih fit.2 later

/-- Blocks whose numbers of variables do not depend on their indices. -/
theorem fit_flatMap_zipIdx {β : Type} (xs : List β) (f : β × Nat → List (Piece α))
    (size : β → Nat) (sizes : ∀ p, (vars (f p)).length = size p.1) (count start : Nat)
    (fits : ∀ j x, xs[j]? = some x →
      Fit (count + ((xs.take j).map size).sum) (f (x, start + j))) :
    Fit count ((xs.zipIdx start).flatMap f) := by
  induction xs generalizing count start with
  | nil => trivial
  | cons x xs ih =>
      rw [List.zipIdx_cons, List.flatMap_cons, fit_append, sizes]
      refine ⟨fits 0 x rfl, ih _ _ fun j y found => ?_⟩
      have later := fits (j + 1) y found
      rwa [List.take_succ_cons, List.map_cons, List.sum_cons, ← Nat.add_assoc, ← Nat.add_assoc,
        Nat.add_right_comm start] at later

end Pieces

namespace Program

/-- The program with the variables and the rows of some pieces appended. -/
def extend (p : Program α) (pieces : List (Piece α)) : Program α :=
  { p with
    vars := p.vars ++ (Pieces.vars pieces).toArray
    constraints := p.constraints ++ (Pieces.rows pieces).toArray }

theorem extend_nil (p : Program α) : p.extend [] = p := by
  simp [extend, Pieces.vars, Pieces.rows]

theorem extend_append (p : Program α) (first second : List (Piece α)) :
    p.extend (first ++ second) = (p.extend first).extend second := by
  simp [extend, Pieces.vars_append, Pieces.rows_append, ← List.append_toArray]

theorem extend_cons (p : Program α) (piece : Piece α) (rest : List (Piece α)) :
    p.extend (piece :: rest) = (p.extend [piece]).extend rest :=
  p.extend_append [piece] rest

theorem size_extend (p : Program α) (pieces : List (Piece α)) :
    (p.extend pieces).vars.size = p.vars.size + (Pieces.vars pieces).length := by
  simp [extend]

theorem extend_of_var (p : Program α) (piece : Piece α) (v : Variable α)
    (added : piece.newVar? = some v) (noRow : piece.newRow? = none) :
    p.extend [piece] = p.push v := by
  simp [extend, push, Pieces.vars, Pieces.rows, added, noRow]

theorem extend_of_row (p : Program α) (piece : Piece α) (c : Constraint α)
    (noVar : piece.newVar? = none) (added : piece.newRow? = some c) :
    p.extend [piece] = { p with constraints := p.constraints.push c } := by
  simp [extend, Pieces.vars, Pieces.rows, added, noVar]

theorem addPiece_eq (p : Program α) (piece : Piece α) (fits : piece.Fits p.vars.size) :
    p.addPiece piece = .ok (p.extend [piece]) := by
  cases piece with
  | declared v => rw [p.extend_of_var _ v rfl rfl, addPiece]
  | bounded layer name range =>
      obtain ⟨low, high, ordered⟩ := fits
      have added : p.addVar name range.lo range.hi =
          .ok (p.extend [.bounded layer name range]) := by
        rw [p.extend_of_var _ _ rfl rfl, addVar, low, high]
        exact if_neg (by simpa using ordered)
      cases layer with
      | none => exact added
      | some layer =>
          rw [addPiece, added]
          rfl
  | row name expr sense rhs =>
      obtain ⟨inside, finite, constant⟩ := fits
      have known : expr.terms.find? (fun t => p.vars.size ≤ t.1) = none := by
        rw [List.find?_eq_none]
        intro t member
        have below := List.all_eq_true.mp inside t member
        simpa using below
      rw [p.extend_of_row _ _ rfl rfl, addPiece, addConstraint, known, finite, constant]
      rfl

/-- Pieces that fit are all accepted. -/
theorem addPieces_eq (p : Program α) (pieces : List (Piece α))
    (fit : Pieces.Fit p.vars.size pieces) : p.addPieces pieces = .ok (p.extend pieces) := by
  induction pieces generalizing p with
  | nil =>
      rw [extend_nil]
      rfl
  | cons piece rest ih =>
      obtain ⟨fits, later⟩ := fit
      have size : (p.extend [piece]).vars.size = p.vars.size + piece.size := by
        rw [size_extend, Pieces.vars_cons]
        simp [Piece.size, Pieces.vars]
      have next := ih (p.extend [piece]) (by rwa [size])
      rw [p.extend_cons piece rest, addPieces, addPiece_eq p piece fits]
      exact next

theorem addPieces_append (p : Program α) (first second : List (Piece α)) :
    p.addPieces (first ++ second) = p.addPieces first >>= fun q => q.addPieces second := by
  induction first generalizing p with
  | nil => rfl
  | cons piece rest ih =>
      rw [List.cons_append, addPieces, addPieces]
      cases p.addPiece piece with
      | error e => rfl
      | ok next => exact ih next

theorem addPieces_single (p : Program α) (piece : Piece α) :
    p.addPieces [piece] = p.addPiece piece := by
  rw [addPieces]
  cases p.addPiece piece <;> rfl

end Program
end RobustMargin
