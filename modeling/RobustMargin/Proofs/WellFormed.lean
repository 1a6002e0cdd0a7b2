import RobustMargin.Proofs.Sizes

/-! # Well-formed models

Over exact scalars a label is refused where it is out of range or has no competitor, and a model is
built for every other one. Its programs refer to variables that they have, with names that differ,
and their sizes are known beforehand. -/
namespace RobustMargin

/-- Rows and objective refer to variables of the program, and names are not shared. -/
structure Program.WellFormed {α : Type} (p : Program α) : Prop where
  inScope : p.isScoped = true
  distinct : p.Distinct

theorem Program.isScoped_iff {α : Type} (p : Program α) : p.isScoped = true ↔
    (∀ c ∈ p.constraints, c.expr.within p.vars.size = true) ∧
      p.objective.expr.within p.vars.size = true := by
  rw [isScoped, Bool.and_eq_true, Array.all_eq_true_iff_forall_mem]

/-- A layout has a variable wherever the pieces of a relaxation or a margin look for one: at the
inputs and the values of each neuron, and at the outputs. The layers and their bounds agree. -/
structure Layout.Covers {α : Type} [Scalar α] (l : Layout) (inclusion : Inclusion α) : Prop where
  widths : inclusion.layers.map List.length = inclusion.network.layers.map Layer.outputs
  weights : ∀ (i k : Nat) layer neuron, inclusion.network.layers[i]? = some layer →
    layer.neurons[k]? = some neuron → l.z? (i + 1) k = some (l.pre i k) ∧
      ∀ j < neuron.1.length, l.x? i j = some (l.post i j)
  neurons : ∀ (i k : Nat) bounds n, inclusion.layers[i]? = some bounds → bounds[k]? = some n →
    l.x? (i + 1) k = some (l.post (i + 1) k) ∧ l.z? (i + 1) k = some (l.pre i k) ∧
      (l.residuals = true → l.r? (i + 1) k = some (l.residual i bounds.length k))
  outputs : ∀ k < inclusion.network.outputs,
    l.x? inclusion.depth k = some (l.post inclusion.depth k)

/-- The numbers of programs of a model and their sizes. -/
def Model.HasSizes {α : Type} (m : Model α) (inputs neurons competitors : Nat) :
    Formulation → Prop
  | .direct => m.programs.length = competitors ∧ m.witnesses = [] ∧
      ∀ p ∈ m.programs, p.program.HasSize (inputs + 3 * neurons) (2 * neurons)
  | .baked => m.programs.length = competitors ∧ m.witnesses = [] ∧
      ∀ p ∈ m.programs, p.program.HasSize (inputs + 2 * neurons) (3 * neurons)
  | .auxiliary => m.programs.length = 1 ∧ m.witnesses.length = competitors ∧
      (∀ p ∈ m.programs, p.program.HasSize (1 + competitors * (2 * inputs + 6 * neurons))
        (competitors * (inputs + 3 * neurons + 1))) ∧
      ∀ p ∈ m.witnesses, p.program.HasSize (inputs + 3 * neurons) (2 * neurons)

namespace Inclusion.Propagated

variable {inclusion : Inclusion ℝ} (made : inclusion.Propagated)
include made

theorem layout_covers (residuals : Bool) :
    (Blueprint.layoutOf inclusion residuals).Covers inclusion where
  widths := by rw [made.layers_eq, Network.bounds_widths]
  weights := by
    intro i k layer neuron layerFound neuronFound
    refine ⟨Blueprint.slot_pre_of_weights residuals made layerFound neuronFound, fun j bound => ?_⟩
    have member : (neuron.1[j], j) ∈ neuron.1.zipIdx :=
      List.mem_zipIdx_iff_getElem?.mpr (List.getElem?_eq_getElem bound)
    exact Blueprint.slot_post_of_weight residuals made layerFound neuronFound member
  neurons := by
    intro i k bounds n layerFound place
    refine ⟨Blueprint.slot_post residuals layerFound place,
      Blueprint.slot_pre residuals layerFound place, fun present => ?_⟩
    obtain rfl : residuals = true := present
    exact Blueprint.slot_residual layerFound place
  outputs := fun _ bound => made.slot_output residuals bound

end Inclusion.Propagated

namespace Model

variable {inclusion : Inclusion ℝ} (made : inclusion.Propagated) {label : Nat}
  (inRange : label < inclusion.network.outputs) (formulation : Formulation)
include made inRange

theorem marginPrograms_wellFormed :
    ∀ p ∈ marginPrograms inclusion label formulation, p.program.WellFormed := by
  intro p member
  obtain ⟨k, rival, rfl⟩ := List.mem_map.mp member
  obtain ⟨bound, -⟩ := (mem_competitors label _ k).mp rival
  have distinct := made.base_distinct formulation
  exact ⟨(Program.isScoped_iff _).mpr ⟨made.base_rows_within formulation,
    margin_within made inRange bound formulation⟩, distinct.vars, distinct.rows⟩

omit inRange in
theorem marginPrograms_hasSize :
    ∀ p ∈ marginPrograms inclusion label formulation, p.program.HasSize
      (inclusion.network.inputs + (if formulation.exposesResiduals then 3 else 2) *
        inclusion.network.neuronCount)
      ((if formulation.exposesResiduals then 2 else 3) * inclusion.network.neuronCount) := by
  intro p member
  obtain ⟨k, -, rfl⟩ := List.mem_map.mp member
  exact ⟨made.base_vars_size formulation, made.base_rows_size formulation⟩

omit made inRange in
theorem robustProgram_scoped : (robustProgram inclusion label formulation).isScoped = true := by
  let pieces := (dualBlocks inclusion label formulation).flatMap (blockPieces 0)
  have size : (robustProgram inclusion label formulation).vars.size =
      1 + (Pieces.vars pieces).length := Program.size_extend _ _
  have fit : Pieces.Fit 1 pieces := fit_blocks (Scalar.isFinite_real 0) _ _
    (fun _ _ _ => Scalar.isFinite_real _) (fun _ _ => Scalar.isFinite_real _) Nat.one_pos
  rw [Program.isScoped_iff, size]
  constructor
  · intro c member
    have inRows : c ∈ Pieces.rows pieces := by
      simpa [robustProgram, Program.setObjective, Program.extend, Program.push, Program.empty]
        using member
    exact Pieces.rows_within fit inRows
  · exact LinearExpr.within_var (Nat.lt_add_right _ Nat.one_pos)

omit made in
theorem length_marginPrograms : (marginPrograms inclusion label formulation).length =
    inclusion.network.outputs - 1 := by
  rw [marginPrograms, List.length_map, length_competitors inRange]

theorem ofRelaxation_hasSizes : (ofRelaxation inclusion label formulation).HasSizes
    inclusion.network.inputs inclusion.network.neuronCount (inclusion.network.outputs - 1)
    formulation := by
  have count := length_marginPrograms inRange formulation
  have sizes : ∀ p ∈ marginPrograms inclusion label formulation, _ :=
    marginPrograms_hasSize made formulation
  cases formulation with
  | direct => exact ⟨count, rfl, sizes⟩
  | baked => exact ⟨count, rfl, sizes⟩
  | auxiliary =>
      refine ⟨rfl, count, fun p member => ?_, sizes⟩
      obtain rfl := List.mem_singleton.mp member
      exact robustProgram_hasSize made inRange

theorem ofRelaxation_wellFormed : ∀ p ∈ (ofRelaxation inclusion label formulation).programs ++
    (ofRelaxation inclusion label formulation).witnesses, p.program.WellFormed := by
  have primal := marginPrograms_wellFormed made inRange formulation
  intro p member
  rw [List.mem_append] at member
  cases formulation with
  | direct => exact primal p (member.resolve_right nofun)
  | baked => exact primal p (member.resolve_right nofun)
  | auxiliary =>
      rcases member with common | witness
      · obtain rfl := List.mem_singleton.mp common
        exact ⟨robustProgram_scoped .auxiliary,
          robustProgram_distinct label (made.base_distinct .auxiliary)⟩
      · exact primal p witness

end Model

/-- Over exact scalars a label beyond the outputs and a network with one output are refused, and
every other label has a model in every formulation: no piece of it is refused on the way, and the
pieces find all variables that they look for in the layout. Its programs are well-formed, and their
sizes depend on the numbers of inputs, neurons and outputs alone. -/
theorem models_wellFormed (input : InputBox ℝ) (f : Activation ℝ) (network : Network ℝ)
    (point : Linearization) (inclusion : Inclusion ℝ)
    (propagated : Inclusion.build input f network point = .ok inclusion) (label : Nat)
    (formulation : Formulation) :
    (network.outputs ≤ label → Model.build inclusion label formulation =
      .error (.invalidInput (.labelOutOfRange label network.outputs))) ∧
    (label < network.outputs → network.outputs < 2 →
      Model.build inclusion label formulation = .error (.invalidParams .singleOutput)) ∧
    (label < network.outputs → 2 ≤ network.outputs →
      ∃ m, Model.build inclusion label formulation = .ok m ∧ m.layout.Covers inclusion ∧
        (∀ p ∈ m.programs ++ m.witnesses, p.program.WellFormed) ∧
        m.HasSizes network.inputs network.neuronCount (network.outputs - 1) formulation) := by
  obtain ⟨made, -, -, rfl, -⟩ := (Inclusion.build_eq_ok_iff _ _ _ _ _).mp propagated
  refine ⟨fun beyond => ?_, fun inRange single => ?_, fun inRange rivals => ?_⟩
  · rw [Model.build, if_pos beyond]
  · rw [Model.build, if_neg (not_le.mpr inRange), if_pos single]
  · have covers := made.layout_covers formulation.exposesResiduals
    refine ⟨_, Model.build_eq made inRange rivals formulation, ?_,
      Model.ofRelaxation_wellFormed made inRange formulation,
      Model.ofRelaxation_hasSizes made inRange formulation⟩
    cases formulation with
    | direct => exact covers
    | baked => exact covers
    | auxiliary => exact ⟨covers.widths, covers.weights, covers.neurons, covers.outputs⟩

/-- Two inputs and five neurons, three of them outputs: the label `3` is refused, the label `0` has
two competitors. -/
theorem models_wellFormed_crossing : ∃ inclusion m,
    Inclusion.build .segment .cube .crossing .preActivation = .ok inclusion ∧
      Model.build inclusion 3 .auxiliary = .error (.invalidInput (.labelOutOfRange 3 3)) ∧
      Model.build inclusion 0 .auxiliary = .ok m ∧
      (∀ p ∈ m.programs ++ m.witnesses, p.program.WellFormed) ∧ m.HasSizes 2 5 2 .auxiliary := by
  have propagated := Inclusion.build_eq .segment .cube .crossing .preActivation rfl
  obtain ⟨refused, -, -⟩ := models_wellFormed .segment .cube .crossing .preActivation _ propagated 3
    .auxiliary
  obtain ⟨-, -, accepted⟩ := models_wellFormed .segment .cube .crossing .preActivation _ propagated
    0 .auxiliary
  obtain ⟨m, built, -, wellFormed, sizes⟩ := accepted (Nat.zero_lt_succ 2) Network.crossing_rivals
  exact ⟨_, m, propagated, refused le_rfl, built, wellFormed, sizes⟩

end RobustMargin
