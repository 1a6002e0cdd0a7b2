import RobustMargin.Proofs.Construction

/-! # Building over any scalars

What holds of every model that was built, also over scalars whose bounds may be refused: its primal
programs minimize the margins over one relaxation, and the layout tells the variables of the
network in them. -/
namespace RobustMargin

variable {α : Type} [Scalar α]

namespace Program

theorem addVar_eq_ok {p q : Program α} {name : String} {lower upper : α}
    (added : p.addVar name lower upper = .ok q) :
    q = p.push ⟨name, .ofScalar lower, .ofScalar upper⟩ := by
  unfold addVar at added
  split at added
  · cases added
  · exact (Except.ok.inj added).symm

theorem addConstraint_eq_ok {p q : Program α} {name : String} {expr : LinearExpr α} {sense : Sense}
    {rhs : α} (added : p.addConstraint name expr sense rhs = .ok q) :
    q = { p with constraints := p.constraints.push ⟨name, expr, sense, rhs⟩ } := by
  unfold addConstraint at added
  split at added
  · cases added
  · split at added
    · exact (Except.ok.inj added).symm
    · cases added

theorem addPiece_eq_ok {p q : Program α} {piece : Piece α} (added : p.addPiece piece = .ok q) :
    q = p.extend [piece] := by
  cases piece with
  | declared v =>
      rw [p.extend_of_var _ v rfl rfl]
      exact (Except.ok.inj added).symm
  | bounded layer name range =>
      rw [p.extend_of_var _ _ rfl rfl]
      cases layer with
      | none => exact addVar_eq_ok added
      | some layer =>
          rw [addPiece] at added
          cases inner : p.addVar name range.lo range.hi with
          | error e =>
              rw [inner] at added
              cases added
          | ok r =>
              rw [inner] at added
              obtain rfl := Except.ok.inj added
              exact addVar_eq_ok inner
  | row name expr sense rhs =>
      rw [p.extend_of_row _ _ rfl rfl]
      exact addConstraint_eq_ok added

/-- Pieces that are all accepted have been appended. -/
theorem addPieces_eq_ok {p q : Program α} {pieces : List (Piece α)}
    (added : p.addPieces pieces = .ok q) : q = p.extend pieces := by
  induction pieces generalizing p with
  | nil =>
      rw [extend_nil]
      exact (Except.ok.inj added).symm
  | cons piece rest ih =>
      obtain ⟨next, first, later⟩ := exists_of_bind_eq_ok added
      rw [p.extend_cons piece rest, ← addPiece_eq_ok first]
      exact ih later

end Program

namespace Network

/-- The layer has a neuron of this index; layer zero is the input. -/
def HasNeuron (network : Network α) (layer k : Nat) : Prop :=
  ∃ width, network.widths[layer]? = some width ∧ k < width

theorem bounds_widths (f : Activation α) (point : Linearization) (layers : List (Layer α))
    (box : List (Interval α)) :
    (bounds f point layers box).map List.length = layers.map Layer.outputs := by
  induction layers generalizing box with
  | nil => rfl
  | cons layer rest ih =>
      rw [bounds, List.map_cons, List.map_cons, Layer.bounds_length, ih]

end Network

namespace Inclusion.Propagated

variable {inclusion : Inclusion α} (made : inclusion.Propagated) (residuals : Bool)
include made

/-- The layout of an inclusion has the widths of its network. -/
theorem layout_width? (layer : Nat) :
    (Blueprint.layoutOf inclusion residuals).width? layer = inclusion.network.widths[layer]? := by
  cases layer with
  | zero => exact congrArg some made.size_eq
  | succ layer =>
      change (inclusion.layers.map List.length)[layer]? = _
      rw [made.layers_eq, Network.bounds_widths]
      rfl

theorem exists_slot_post_iff (layer k : Nat) :
    (∃ v, (Blueprint.layoutOf inclusion residuals).slot? (.post layer k) = some v) ↔
      inclusion.network.HasNeuron layer k := by
  rw [Network.HasNeuron, ← made.layout_width? residuals]
  constructor
  · rintro ⟨v, place⟩
    obtain ⟨width, known, bound, -⟩ := (Layout.x?_eq_some_iff _ layer k v).mp place
    exact ⟨width, known, bound⟩
  · rintro ⟨width, known, bound⟩
    exact ⟨_, (Layout.x?_eq_some_iff _ layer k _).mpr ⟨width, known, bound, rfl⟩⟩

theorem exists_slot_pre_iff (layer k : Nat) :
    (∃ v, (Blueprint.layoutOf inclusion residuals).slot? (.pre layer k) = some v) ↔
      0 < layer ∧ inclusion.network.HasNeuron layer k := by
  rw [Network.HasNeuron, ← made.layout_width? residuals]
  cases layer with
  | zero =>
      constructor
      · rintro ⟨v, place⟩
        cases place
      · rintro ⟨positive, -⟩
        exact absurd positive (lt_irrefl 0)
  | succ layer =>
      constructor
      · rintro ⟨v, place⟩
        obtain ⟨width, known, bound, -⟩ := (Layout.z?_succ_iff _ layer k v).mp place
        exact ⟨layer.succ_pos, width, known, bound⟩
      · rintro ⟨-, width, known, bound⟩
        exact ⟨_, (Layout.z?_succ_iff _ layer k _).mpr ⟨width, known, bound, rfl⟩⟩

theorem exists_slot_residual_iff (layer k : Nat) :
    (∃ v, (Blueprint.layoutOf inclusion residuals).slot? (.residual layer k) = some v) ↔
      residuals = true ∧ 0 < layer ∧ inclusion.network.HasNeuron layer k := by
  rw [Network.HasNeuron, ← made.layout_width? residuals]
  cases layer with
  | zero =>
      constructor
      · rintro ⟨v, place⟩
        cases place
      · rintro ⟨-, positive, -⟩
        exact absurd positive (lt_irrefl 0)
  | succ layer =>
      constructor
      · rintro ⟨v, place⟩
        obtain ⟨present, width, known, bound, -⟩ := (Layout.r?_succ_iff _ layer k v).mp place
        exact ⟨present, layer.succ_pos, width, known, bound⟩
      · rintro ⟨present, -, width, known, bound⟩
        exact ⟨_, (Layout.r?_succ_iff _ layer k _).mpr ⟨present, width, known, bound, rfl⟩⟩

/-- The variables of a layout stand in the program of its relaxation. -/
theorem slot_lt_size (formulation : Formulation) {s : Slot} {v : VarId}
    (place : (Blueprint.layoutOf inclusion formulation.exposesResiduals).slot? s = some v) :
    v < (Blueprint.base inclusion formulation).vars.size := by
  rw [made.base_size, ← Layout.slots_length]
  exact (List.getElem?_eq_some_iff.mp ((Layout.slots_getElem?_iff _ v s).mpr place)).1

end Inclusion.Propagated

namespace Model

theorem blocks_competitors (base : Program α) (margin : Nat → LinearExpr α) (start : VarId)
    (rivals : List Nat) : (blocks base margin start rivals).map Prod.fst = rivals := by
  induction rivals generalizing start with
  | nil => rfl
  | cons k rest ih => exact congrArg (k :: ·) (ih _)

/-- Blocks that are all accepted have been appended, each from the next free index on. -/
theorem addCertificates_eq_ok {base : Program α} {margin : Nat → LinearExpr α} {t : VarId}
    {robust last : Program α} {rivals : List Nat} {certificates : List (Certificate α)}
    (added : addCertificates base margin t robust rivals = .ok (last, certificates)) :
    last = robust.extend ((blocks base margin robust.vars.size rivals).flatMap (blockPieces t)) ∧
      certificates = (blocks base margin robust.vars.size rivals).map certificateOf := by
  induction rivals generalizing robust last certificates with
  | nil =>
      cases added
      exact ⟨robust.extend_nil.symm, rfl⟩
  | cons k rest ih =>
      rw [addCertificates_cons] at added
      obtain ⟨bounded, first, added⟩ := exists_of_bind_eq_ok added
      obtain ⟨⟨final, others⟩, later, same⟩ := exists_of_bind_eq_ok added
      cases same
      have boundedEq := Program.addPieces_eq_ok first
      have size : bounded.vars.size = (Dual.block k robust.vars.size base (margin k)).next := by
        rw [boundedEq, Program.size_extend, vars_blockPieces, Dual.block_next]
      obtain ⟨rfl, rfl⟩ := ih later
      rw [blocks, List.flatMap_cons, List.map_cons, size, boundedEq, Program.extend_append]
      exact ⟨rfl, rfl⟩

/-- A model that was built is the model of its relaxation. -/
theorem eq_ofRelaxation_of_build {inclusion : Inclusion α} {label : Nat}
    {formulation : Formulation} {m : Model α} (built : build inclusion label formulation = .ok m) :
    label < inclusion.network.outputs ∧ 2 ≤ inclusion.network.outputs ∧
      m = ofRelaxation inclusion label formulation := by
  unfold build at built
  dsimp only at built
  split at built
  · cases built
  · rename_i inRange
    split at built
    · cases built
    · rename_i rivals
      refine ⟨not_le.mp inRange, not_lt.mp rivals, ?_⟩
      obtain ⟨base, added, built⟩ := exists_of_bind_eq_ok built
      have baseEq : base = Blueprint.base inclusion formulation := Program.addPieces_eq_ok added
      subst baseEq
      unfold ofRelaxation
      split at built
      · rename_i each
        cases built
        rw [if_pos each]
        rfl
      · rename_i common
        obtain ⟨⟨robust, certificates⟩, certified, built⟩ := exists_of_bind_eq_ok built
        cases built
        obtain ⟨rfl, rfl⟩ := addCertificates_eq_ok certified
        rw [if_neg common]
        rfl

/-- The parts of a model that was built for a label. -/
structure BuiltFor (m : Model α) (inclusion : Inclusion α) (label : Nat)
    (formulation : Formulation) : Prop where
  formulation_eq : m.formulation = formulation
  label_eq : m.label = label
  inRange : label < inclusion.network.outputs
  rivals : 2 ≤ inclusion.network.outputs
  primal_eq : m.primal = marginPrograms inclusion label formulation
  slot?_eq : ∀ s, m.layout.slot? s =
    (Blueprint.layoutOf inclusion formulation.exposesResiduals).slot? s
  auxiliary : formulation.perCompetitor = false →
    (∃ robust, m.programs = [⟨none, robust⟩]) ∧
      m.certificates.map (·.competitor) = competitors inclusion.network.outputs label

theorem builtFor_of_build {inclusion : Inclusion α} {label : Nat} {formulation : Formulation}
    {m : Model α} (built : build inclusion label formulation = .ok m) :
    m.BuiltFor inclusion label formulation := by
  obtain ⟨inRange, rivals, rfl⟩ := eq_ofRelaxation_of_build built
  refine ⟨?_, ?_, inRange, rivals, ofRelaxation_primal inclusion label formulation,
    ofRelaxation_slot? inclusion label formulation, fun common => ?_⟩
  · cases formulation <;> rfl
  · cases formulation <;> rfl
  · rw [ofRelaxation, if_neg (Bool.eq_false_iff.mp common)]
    refine ⟨⟨_, rfl⟩, ?_⟩
    rw [List.map_map]
    exact blocks_competitors _ _ _ _

end Model
end RobustMargin
