import RobustMargin.Proofs.Building

/-! # Accepted pieces

Pieces are accepted exactly if they fit, over any scalars. A model is built exactly if the pieces of
its relaxation fit and, where the margin is one variable, those of its dual blocks. -/
namespace RobustMargin

variable {α : Type} [Scalar α]

namespace Program

theorem fits_of_addVar {p q : Program α} {name : String} {lower upper : α}
    (added : p.addVar name lower upper = .ok q) :
    Scalar.isNumber lower = true ∧ Scalar.isNumber upper = true ∧ ¬ upper < lower := by
  unfold addVar at added
  split at added
  · cases added
  · rename_i accepted
    simp only [Bool.or_eq_true, Bool.not_eq_true', not_or, Bool.not_eq_false,
      decide_eq_true_eq] at accepted
    exact ⟨accepted.1.1, accepted.1.2, accepted.2⟩

theorem fits_of_addPiece {p q : Program α} {piece : Piece α} (added : p.addPiece piece = .ok q) :
    piece.Fits p.vars.size := by
  cases piece with
  | declared v => trivial
  | bounded layer name range =>
      cases layer with
      | none => exact fits_of_addVar added
      | some layer =>
          rw [addPiece] at added
          cases inner : p.addVar name range.lo range.hi with
          | error e =>
              rw [inner] at added
              cases added
          | ok r => exact fits_of_addVar inner
  | row name expr sense rhs =>
      rw [addPiece, addConstraint] at added
      split at added
      · cases added
      · rename_i known
        split at added
        · rename_i finite
          refine ⟨?_, Bool.and_eq_true_iff.mp finite⟩
          simpa [LinearExpr.within] using known
        · cases added

/-- Pieces are accepted if they fit, and only then. -/
theorem addPieces_eq_ok_iff (p q : Program α) (pieces : List (Piece α)) :
    p.addPieces pieces = .ok q ↔ Pieces.Fit p.vars.size pieces ∧ q = p.extend pieces := by
  constructor
  · intro added
    refine ⟨?_, addPieces_eq_ok added⟩
    induction pieces generalizing p with
    | nil => trivial
    | cons piece rest ih =>
        obtain ⟨next, first, later⟩ := exists_of_bind_eq_ok added
        obtain rfl := addPiece_eq_ok first
        have size : (p.extend [piece]).vars.size = p.vars.size + piece.size := by
          rw [size_extend, Pieces.vars_cons]
          simp [Piece.size, Pieces.vars]
        exact ⟨fits_of_addPiece first, size ▸ ih _ later⟩
  · rintro ⟨fit, rfl⟩
    exact p.addPieces_eq pieces fit

end Program

namespace Model

/-- Dual blocks are accepted if they fit, and only then. -/
theorem addCertificates_eq_ok_iff (base : Program α) (margin : Nat → LinearExpr α) (t : VarId)
    (robust last : Program α) (rivals : List Nat) (certificates : List (Certificate α)) :
    addCertificates base margin t robust rivals = .ok (last, certificates) ↔
      let pieces := (blocks base margin robust.vars.size rivals).flatMap (blockPieces t)
      Pieces.Fit robust.vars.size pieces ∧ last = robust.extend pieces ∧
        certificates = (blocks base margin robust.vars.size rivals).map certificateOf := by
  dsimp only
  constructor
  · intro added
    refine ⟨?_, addCertificates_eq_ok added⟩
    induction rivals generalizing robust last certificates with
    | nil => trivial
    | cons k rest ih =>
        rw [addCertificates_cons] at added
        obtain ⟨bounded, first, added⟩ := exists_of_bind_eq_ok added
        obtain ⟨⟨final, others⟩, later, -⟩ := exists_of_bind_eq_ok added
        obtain ⟨fit, rfl⟩ := (Program.addPieces_eq_ok_iff _ _ _).mp first
        have more := ih _ _ _ later
        rw [Program.size_extend] at more
        rw [blocks, List.flatMap_cons, Pieces.fit_append]
        refine ⟨fit, ?_⟩
        rw [vars_blockPieces, ← Dual.block_next] at more ⊢
        exact more
  · rintro ⟨fit, rfl, rfl⟩
    exact addCertificates_eq base margin t robust rivals fit

/-- A model is built if the label is one of several outputs, the pieces of the relaxation fit, and
so do those of the dual blocks of a common margin; only then. -/
theorem build_eq_ok_iff_fit (inclusion : Inclusion α) (label : Nat) (formulation : Formulation)
    (m : Model α) : build inclusion label formulation = .ok m ↔
      (label < inclusion.network.outputs ∧ 2 ≤ inclusion.network.outputs) ∧
        Pieces.Fit 0 (Blueprint.relaxation inclusion
          (Blueprint.layoutOf inclusion formulation.exposesResiduals)) ∧
        (formulation.perCompetitor = false →
          Pieces.Fit 1 ((dualBlocks inclusion label formulation).flatMap (blockPieces 0))) ∧
        m = ofRelaxation inclusion label formulation := by
  let begun : Program α := (Program.empty (programName formulation)).push (.free "t")
  constructor
  · intro built
    obtain ⟨inRange, rivals, same⟩ := eq_ofRelaxation_of_build built
    rw [build, if_neg (not_le.mpr inRange), if_neg (not_lt.mpr rivals)] at built
    obtain ⟨base, added, built⟩ := exists_of_bind_eq_ok built
    obtain ⟨fit, rfl⟩ := (Program.addPieces_eq_ok_iff _ _ _).mp added
    refine ⟨⟨inRange, rivals⟩, fit, fun common => ?_, same⟩
    rw [if_neg (Bool.eq_false_iff.mp common)] at built
    obtain ⟨⟨robust, certificates⟩, certified, -⟩ := exists_of_bind_eq_ok built
    exact ((addCertificates_eq_ok_iff _ _ _ begun _ _ _).mp certified).1
  · rintro ⟨⟨inRange, rivals⟩, fit, dual, rfl⟩
    exact build_eq_of_fit inRange rivals fit dual

end Model
end RobustMargin
