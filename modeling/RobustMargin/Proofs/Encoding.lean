import RobustMargin.Proofs.Construction

/-! # Encoding of the relaxation

Feasible assignments of the primal programs are the points of the relaxation, whatever the
formulation. The values of a network on a point of the input box are one of them. -/
namespace RobustMargin

/-- The assignment that gives each variable of a layout its value. -/
def Layout.assignment (l : Layout) (val : Slot → ℝ) : Array ℝ := (l.slots.map val).toArray

theorem Layout.assignment_size (l : Layout) (val : Slot → ℝ) :
    (l.assignment val).size = l.size := by
  rw [assignment, List.size_toArray, List.length_map, l.slots_length]

theorem Layout.reading_assignment (l : Layout) (val : Slot → ℝ) {s : Slot} {v : VarId}
    (place : l.slot? s = some v) : Program.reading (l.assignment val) v = val s := by
  rw [Program.reading, Array.getD_eq_getD_getElem?, assignment, List.getElem?_toArray,
    List.getElem?_map, (l.slots_getElem?_iff v s).mpr place]
  rfl

theorem Layout.read_assignment (l : Layout) (val : Slot → ℝ) {s : Slot} {v : VarId}
    (place : l.slot? s = some v) : l.read (Program.reading (l.assignment val)) s = val s := by
  rw [l.read_of_slot _ place, l.reading_assignment val place]

theorem sum_zipIdx_getD (weights values : List ℝ) :
    (weights.zipIdx.map fun p => p.1 * values[p.2]?.getD 0).sum =
      (weights.zipWith (· * ·) values).sum := by
  induction weights generalizing values with
  | nil => rfl
  | cons w weights ih =>
      rw [List.zipIdx_cons', List.map_cons, List.sum_cons, List.map_map]
      cases values with
      | nil => simp [Function.comp_def]
      | cons y values =>
          rw [List.zipWith_cons_cons, List.sum_cons, ← ih]
          rfl

namespace Inclusion

variable {inclusion : Inclusion ℝ}

/-- The same values with the linearization errors as residuals. -/
noncomputable def withErrors (inclusion : Inclusion ℝ) (val : Slot → ℝ) : Slot → ℝ
  | .residual i k => (inclusion.neuron? i k).elim 0 (inclusion.errorAt val i k)
  | s => val s

theorem withErrors_relaxes {val : Slot → ℝ} (relaxes : inclusion.Relaxes val) :
    inclusion.Relaxes (inclusion.withErrors val) :=
  ⟨relaxes.boxes, relaxes.affine, relaxes.errors⟩

theorem withErrors_fit (inclusion : Inclusion ℝ) (val : Slot → ℝ) :
    inclusion.ResidualsFit (inclusion.withErrors val) := by
  intro i k n found
  rw [withErrors, found, Option.elim_some]
  rfl

/-- The values of a network on an input, with the errors of their linearizations. -/
noncomputable def trajectory (inclusion : Inclusion ℝ) (x : List ℝ) : Slot → ℝ :=
  inclusion.withErrors fun
    | .post i k => (inclusion.network.valuesAfter inclusion.activation x i)[k]?.getD 0
    | .pre (i + 1) k => ((inclusion.network.layers[i]?.bind fun layer => layer.neurons[k]?).map
        (exactValue (inclusion.network.valuesAfter inclusion.activation x i))).getD 0
    | _ => 0

namespace Propagated

variable (made : inclusion.Propagated)
include made

/-- The values that the relaxation ties together all have variables. -/
theorem relaxes_congr (residuals : Bool) {val other : Slot → ℝ} (same : ∀ s v,
    (Blueprint.layoutOf inclusion residuals).slot? s = some v → other s = val s)
    (relaxes : inclusion.Relaxes val) : inclusion.Relaxes other := by
  have neuronSlots (i k n) (found : inclusion.neuron? i k = some n) :
      other (.pre i k) = val (.pre i k) ∧ other (.post i k) = val (.post i k) := by
    obtain ⟨i, bounds, rfl, layerFound, place⟩ := inclusion.neuron?_found found
    exact ⟨same _ _ (Blueprint.slot_pre residuals layerFound place),
      same _ _ (Blueprint.slot_post residuals layerFound place)⟩
  refine ⟨?_, ?_, ?_⟩
  · refine (inclusion.inBoxes_iff _).mpr ⟨?_, ?_⟩
    · intro k range found
      rw [same _ _ (Blueprint.slot_input residuals found)]
      exact relaxes.boxes 0 k _ range rfl found
    · intro i k n found
      rw [(neuronSlots _ k n found).2]
      exact ((inclusion.inBoxes_iff _).mp relaxes.boxes).2 i k n found
  · intro i k layer neuron layerFound neuronFound
    have inputs : (neuron.1.zipIdx.map fun p => p.1 * other (.post i p.2)) =
        neuron.1.zipIdx.map fun p => p.1 * val (.post i p.2) := by
      refine List.map_congr_left fun p member => ?_
      rw [same _ _ (Blueprint.slot_post_of_weight residuals made layerFound neuronFound member)]
    rw [inputs, same _ _ (Blueprint.slot_pre_of_weights residuals made layerFound neuronFound)]
    exact relaxes.affine i k layer neuron layerFound neuronFound
  · intro i k n found
    obtain ⟨pre, post⟩ := neuronSlots i k n found
    rw [errorAt, pre, post]
    exact relaxes.errors i k n found

/-- The assignment of a point of the relaxation is admitted in every formulation. -/
theorem assignment_admitted (formulation : Formulation) {val : Slot → ℝ}
    (relaxes : inclusion.Relaxes val) (fit : inclusion.ResidualsFit val) :
    (Blueprint.base inclusion formulation).Admits (Program.reading
      ((Blueprint.layoutOf inclusion formulation.exposesResiduals).assignment val)) := by
  let l := Blueprint.layoutOf inclusion formulation.exposesResiduals
  have same (s v) (place : l.slot? s = some v) :
      l.read (Program.reading (l.assignment val)) s = val s := l.read_assignment val place
  refine (made.base_admits_iff formulation _).mpr
    ⟨made.relaxes_congr formulation.exposesResiduals same relaxes, fun present i k n found => ?_⟩
  obtain ⟨i, bounds, rfl, layerFound, place⟩ := inclusion.neuron?_found found
  have residualPlace : l.slot? (.residual (i + 1) k) = some (l.residual i bounds.length k) := by
    have layouts : l = Blueprint.layoutOf inclusion true :=
      congrArg (Blueprint.layoutOf inclusion) present
    rw [layouts]
    exact Blueprint.slot_residual layerFound place
  rw [errorAt, same _ _ residualPlace, same _ _ (Blueprint.slot_pre _ layerFound place),
    same _ _ (Blueprint.slot_post _ layerFound place)]
  exact fit (i + 1) k n found

/-- The values of a network on a point of the box lie in the relaxation, if the activation is
monotone. -/
theorem trajectory_relaxes (monotone : inclusion.activation.Monotonic) {x : List ℝ}
    (inside : InBox x inclusion.input.box) : inclusion.Relaxes (inclusion.trajectory x) := by
  have encloses := made.encloses monotone inside
  have preValue {i k layer neuron} (layerFound : inclusion.network.layers[i]? = some layer)
      (neuronFound : layer.neurons[k]? = some neuron) : inclusion.trajectory x (.pre (i + 1) k) =
        exactValue (inclusion.network.valuesAfter inclusion.activation x i) neuron := by
    change ((inclusion.network.layers[i]?.bind fun layer => layer.neurons[k]?).map
      (exactValue _)).getD 0 = _
    rw [layerFound, Option.bind_some, neuronFound, Option.map_some, Option.getD_some]
  refine ⟨?_, ?_, ?_⟩
  · refine (inclusion.inBoxes_iff _).mpr ⟨?_, ?_⟩
    · intro k range found
      obtain ⟨v, present, member⟩ := inside.mem found
      change x[k]?.getD 0 ∈ range
      rwa [present, Option.getD_some]
    · intro i k n found
      obtain ⟨layer, neuron, layerFound, neuronFound, -⟩ := made.neuron?_eq_some found
      obtain ⟨m, v, foundToo, -, -, present, member, -⟩ :=
        encloses.neurons i layer k neuron layerFound neuronFound
      obtain rfl := Option.some.inj (found.symm.trans foundToo)
      change (inclusion.network.valuesAfter inclusion.activation x (i + 1))[k]?.getD 0 ∈ n.post
      rwa [present, Option.getD_some]
  · intro i k layer neuron layerFound neuronFound
    rw [preValue layerFound neuronFound, exactValue, ← sum_zipIdx_getD]
    rfl
  · intro i k n found
    obtain ⟨i, -, rfl, -, -⟩ := inclusion.neuron?_found found
    obtain ⟨layer, neuron, layerFound, neuronFound, -⟩ := made.neuron?_eq_some found
    obtain ⟨m, v, foundToo, value, inPre, present, -, residual⟩ :=
      encloses.neurons i layer k neuron layerFound neuronFound
    obtain rfl := Option.some.inj (found.symm.trans foundToo)
    have post : inclusion.trajectory x (.post (i + 1) k) = inclusion.activation.eval v := by
      change (inclusion.network.valuesAfter inclusion.activation x (i + 1))[k]?.getD 0 = _
      rw [present, Option.getD_some]
    rw [errorAt, post, preValue layerFound neuronFound, ← value]
    exact residual v inPre

end Propagated
end Inclusion

namespace Model

/-- The post- and pre-activations that an assignment gives, through the layout of a model. -/
noncomputable def activations (m : Model ℝ) (values : Array ℝ) :
    (Nat → Nat → ℝ) × (Nat → Nat → ℝ) :=
  (fun i k => m.layout.read (Program.reading values) (.post i k),
    fun i k => m.layout.read (Program.reading values) (.pre i k))

/-- The activations at the feasible assignments of a program. -/
def projection (m : Model ℝ) (p : Program ℝ) : Set ((Nat → Nat → ℝ) × (Nat → Nat → ℝ)) :=
  m.activations '' { values | p.isFeasible values 0 = true }

variable {inclusion : Inclusion ℝ} (made : inclusion.Propagated) (label : Nat)

theorem ofRelaxation_read (inclusion : Inclusion ℝ) (label : Nat) (formulation : Formulation) :
    (ofRelaxation inclusion label formulation).layout.read =
      (Blueprint.layoutOf inclusion formulation.exposesResiduals).read := by
  funext w s
  rw [Layout.read, ofRelaxation_slot?, Layout.read]

theorem ofRelaxation_assignment (inclusion : Inclusion ℝ) (label : Nat)
    (formulation : Formulation) : (ofRelaxation inclusion label formulation).layout.assignment =
      (Blueprint.layoutOf inclusion formulation.exposesResiduals).assignment := by
  cases formulation <;> rfl

/-- Layouts with and without residuals have the same activations. -/
theorem slot?_eq_none (residuals others : Bool) {s : Slot} (notResidual : ∀ i k, s ≠ .residual i k)
    (absent : (Blueprint.layoutOf inclusion residuals).slot? s = none) :
    (Blueprint.layoutOf inclusion others).slot? s = none := by
  refine Option.eq_none_iff_forall_ne_some.mpr fun v place => ?_
  have never {u : VarId} (found : (Blueprint.layoutOf inclusion residuals).slot? s = some u) :
      False := Option.some_ne_none u (found.symm.trans absent)
  match s, place with
  | .post i k, place =>
      obtain ⟨width, known, bound, -⟩ := (Layout.x?_eq_some_iff _ i k v).mp place
      have same : (Blueprint.layoutOf inclusion residuals).width? i = some width := by
        cases i <;> exact known
      exact never ((Layout.x?_eq_some_iff _ i k _).mpr ⟨width, same, bound, rfl⟩)
  | .pre (i + 1) k, place =>
      obtain ⟨width, known, bound, -⟩ := (Layout.z?_succ_iff _ i k v).mp place
      exact never ((Layout.z?_succ_iff _ i k _).mpr ⟨width, known, bound, rfl⟩)
  | .residual i k, _ => exact notResidual i k rfl

include made

theorem primal_isFeasible_iff {formulation : Formulation} {p : MarginProgram ℝ}
    (member : p ∈ (ofRelaxation inclusion label formulation).primal) (values : Array ℝ) :
    let val := (ofRelaxation inclusion label formulation).layout.read (Program.reading values)
    p.program.isFeasible values 0 = true ↔ values.size = p.program.vars.size ∧
      inclusion.Relaxes val ∧
        (formulation.exposesResiduals = true → inclusion.ResidualsFit val) := by
  obtain ⟨k, -, -, rfl⟩ := (mem_primal_iff inclusion label formulation p).mp member
  rw [Program.isFeasible_zero, marginProgram_admits_iff, made.base_admits_iff, ofRelaxation_read]

/-- Points of the relaxation are feasible for the primal programs of every formulation. -/
theorem assignment_isFeasible {formulation : Formulation} {p : MarginProgram ℝ}
    (member : p ∈ (ofRelaxation inclusion label formulation).primal) {val : Slot → ℝ}
    (relaxes : inclusion.Relaxes val) (fit : inclusion.ResidualsFit val) :
    p.program.isFeasible ((ofRelaxation inclusion label formulation).layout.assignment val) 0 =
      true := by
  obtain ⟨k, -, -, rfl⟩ := (mem_primal_iff inclusion label formulation p).mp member
  rw [Program.isFeasible_zero, marginProgram_admits_iff, ofRelaxation_assignment,
    Layout.assignment_size]
  exact ⟨(made.base_size formulation).symm, made.assignment_admitted formulation relaxes fit⟩

/-- Activations that relax a network are feasible in every formulation. -/
theorem activations_mem_projection {formulation other : Formulation} {q : MarginProgram ℝ}
    (member : q ∈ (ofRelaxation inclusion label other).primal) {values : Array ℝ}
    (relaxes : inclusion.Relaxes
      ((ofRelaxation inclusion label formulation).layout.read (Program.reading values))) :
    (ofRelaxation inclusion label formulation).activations values ∈
      (ofRelaxation inclusion label other).projection q.program := by
  let val := (ofRelaxation inclusion label formulation).layout.read (Program.reading values)
  refine ⟨_, assignment_isFeasible made label member (Inclusion.withErrors_relaxes relaxes)
    (inclusion.withErrors_fit val), ?_⟩
  have same (s : Slot) (notResidual : ∀ i k, s ≠ .residual i k)
      (kept : inclusion.withErrors val s = val s) :
      (ofRelaxation inclusion label other).layout.read (Program.reading
        ((ofRelaxation inclusion label other).layout.assignment (inclusion.withErrors val))) s =
        val s := by
    cases place : (ofRelaxation inclusion label other).layout.slot? s with
    | some v => rw [Layout.read_assignment _ _ place, kept]
    | none =>
        -- Where one layout has no variable the other has none either, and both readings are zero.
        rw [ofRelaxation_slot?] at place
        have absent := slot?_eq_none other.exposesResiduals formulation.exposesResiduals
          notResidual place
        rw [Layout.read, ofRelaxation_slot?, place]
        change 0 = Option.elim _ 0 _
        rw [ofRelaxation_slot?, absent]
        rfl
  refine Prod.ext (funext fun i => funext fun k => ?_) (funext fun i => funext fun k => ?_)
  · exact same (.post i k) (fun _ _ => Slot.noConfusion) rfl
  · exact same (.pre i k) (fun _ _ => Slot.noConfusion) rfl

theorem projection_subset {formulation other : Formulation} {p q : MarginProgram ℝ}
    (pMember : p ∈ (ofRelaxation inclusion label formulation).primal)
    (qMember : q ∈ (ofRelaxation inclusion label other).primal) :
    (ofRelaxation inclusion label formulation).projection p.program ⊆
      (ofRelaxation inclusion label other).projection q.program := by
  rintro _ ⟨values, feasible, rfl⟩
  obtain ⟨-, relaxes, -⟩ := (primal_isFeasible_iff made label pMember values).mp feasible
  exact activations_mem_projection made label qMember relaxes

theorem projection_eq {formulation other : Formulation} {p q : MarginProgram ℝ}
    (pMember : p ∈ (ofRelaxation inclusion label formulation).primal)
    (qMember : q ∈ (ofRelaxation inclusion label other).primal) :
    (ofRelaxation inclusion label formulation).projection p.program =
      (ofRelaxation inclusion label other).projection q.program :=
  Set.Subset.antisymm (projection_subset made label pMember qMember)
    (projection_subset made label qMember pMember)

/-- The objective of a primal program at an assignment is a difference of two outputs. -/
theorem primal_objective {formulation : Formulation} (inRange : label < inclusion.network.outputs)
    {p : MarginProgram ℝ} (member : p ∈ (ofRelaxation inclusion label formulation).primal) :
    ∃ k, k < inclusion.network.outputs ∧ k ≠ label ∧ p.competitor = some k ∧
      p.program.objective.direction = .minimize ∧
      ∀ values, p.program.objective.expr.eval values =
        let val := (ofRelaxation inclusion label formulation).layout.read (Program.reading values)
        val (.post inclusion.depth label) - val (.post inclusion.depth k) := by
  obtain ⟨k, bound, other, rfl⟩ := (mem_primal_iff inclusion label formulation p).mp member
  refine ⟨k, bound, other, rfl, rfl, fun values => ?_⟩
  rw [ofRelaxation_read]
  exact evalAt_margin made inRange bound formulation (Program.reading values)

theorem read_assignment_output (formulation : Formulation) {k : Nat}
    (bound : k < inclusion.network.outputs) (val : Slot → ℝ) :
    (ofRelaxation inclusion label formulation).layout.read (Program.reading
      ((ofRelaxation inclusion label formulation).layout.assignment val))
      (.post inclusion.depth k) = val (.post inclusion.depth k) := by
  have place := made.slot_output formulation.exposesResiduals bound
  rw [← ofRelaxation_slot? inclusion label formulation] at place
  exact Layout.read_assignment _ val place

/-- The outputs of a network on an input, as the last values of its trajectory. -/
theorem forward_trajectory {x : List ℝ} (inside : InBox x inclusion.input.box) :
    ∃ outputs, inclusion.network.forward inclusion.activation x = .ok outputs ∧
      ∀ k < inclusion.network.outputs,
        outputs[k]? = some (inclusion.trajectory x (.post inclusion.depth k)) := by
  have fits : x.length = inclusion.network.inputs := by
    rw [inside.length_eq, inclusion.input.box_length, made.size_eq]
  refine ⟨_, inclusion.network.forward_eq inclusion.activation x fits, fun k bound => ?_⟩
  have known : k < (inclusion.network.valuesAfter inclusion.activation x
      inclusion.network.depth).length := by
    rwa [Network.valuesAfter_depth_length]
  rw [made.depth_eq]
  change _ = some ((inclusion.network.valuesAfter inclusion.activation x
    inclusion.network.depth)[k]?.getD 0)
  rw [List.getElem?_eq_getElem known, Option.getD_some]

end Model

/-- The primal programs of a model, one for each competitor, admit exactly the points of the
relaxation, so that all formulations have the same activations. For a monotone activation the
trajectory of each input is one of these points, and the objective there is the difference of the
outputs of the network. -/
theorem primal_programs_encode (input : InputBox ℝ) (f : Activation ℝ) (network : Network ℝ)
    (point : Linearization) (inclusion : Inclusion ℝ)
    (built : Inclusion.build input f network point = .ok inclusion) (label : Nat)
    (inRange : label < network.outputs) (rivals : 2 ≤ network.outputs)
    (formulation : Formulation) :
    ∃ m, Model.build inclusion label formulation = .ok m ∧
      (∀ k < network.outputs, k ≠ label → ∃ p ∈ m.primal, p.competitor = some k) ∧
      (∀ p ∈ m.primal, ∀ values, p.program.isFeasible values 0 = true ↔
        values.size = p.program.vars.size ∧
        inclusion.Relaxes (m.layout.read (Program.reading values)) ∧
        (formulation.exposesResiduals = true →
          inclusion.ResidualsFit (m.layout.read (Program.reading values)))) ∧
      (∀ other m', Model.build inclusion label other = .ok m' → ∀ p ∈ m.primal, ∀ q ∈ m'.primal,
        m.projection p.program = m'.projection q.program) ∧
      (f.Monotonic → ∀ x, InBox x input.box → ∃ outputs, network.forward f x = .ok outputs ∧
        ∀ p ∈ m.primal,
          p.program.isFeasible (m.layout.assignment (inclusion.trajectory x)) 0 = true ∧
          ∃ k a b, p.competitor = some k ∧ outputs[label]? = some a ∧ outputs[k]? = some b ∧
            p.program.objective.expr.eval (m.layout.assignment (inclusion.trajectory x)) =
              a - b) := by
  obtain ⟨made, rfl, rfl, rfl, -⟩ := (Inclusion.build_eq_ok_iff _ _ _ _ _).mp built
  refine ⟨_, Model.build_eq made inRange rivals formulation, ?_, ?_, ?_, ?_⟩
  · intro k bound other
    exact ⟨_, (Model.mem_primal_iff _ _ _ _).mpr ⟨k, bound, other, rfl⟩, rfl⟩
  · intro p member values
    exact Model.primal_isFeasible_iff made label member values
  · intro other m' builtOther p pMember q qMember
    obtain ⟨-, -, rfl⟩ := (Model.build_eq_ok_iff made label other m').mp builtOther
    exact Model.projection_eq made label pMember qMember
  · intro monotone x inside
    obtain ⟨outputs, forward, values⟩ := Model.forward_trajectory made inside
    refine ⟨outputs, forward, fun p member => ⟨?_, ?_⟩⟩
    · exact Model.assignment_isFeasible made label member (made.trajectory_relaxes monotone inside)
        (inclusion.withErrors_fit _)
    · obtain ⟨k, bound, -, competitor, -, objective⟩ :=
        Model.primal_objective made label inRange member
      refine ⟨k, _, _, competitor, values label inRange, values k bound, ?_⟩
      rw [objective]
      dsimp only
      rw [Model.read_assignment_output made label formulation inRange,
        Model.read_assignment_output made label formulation bound]

theorem primal_programs_encode_crossing :
    ∃ inclusion m p, Inclusion.build .segment .cube .crossing .preActivation = .ok inclusion ∧
      0 < Network.crossing.outputs ∧ 2 ≤ Network.crossing.outputs ∧
      Model.build inclusion 0 .auxiliary = .ok m ∧ p ∈ m.primal ∧ p.competitor = some 2 ∧
      p.program.isFeasible (m.layout.assignment (inclusion.trajectory InputBox.segmentEnd)) 0 =
        true := by
  have built := Inclusion.build_eq .segment .cube .crossing .preActivation rfl
  have inRange : 0 < Network.crossing.outputs := Nat.zero_lt_succ 2
  obtain ⟨m, modelBuilt, each, -, -, trajectory⟩ := primal_programs_encode .segment .cube .crossing
    .preActivation _ built 0 inRange Network.crossing_rivals .auxiliary
  obtain ⟨p, member, competitor⟩ := each 2 (Nat.lt_succ_self 2) two_ne_zero
  obtain ⟨outputs, -, feasible⟩ := trajectory Activation.cube_monotonic _
    InputBox.segmentEnd_inBox
  exact ⟨_, m, p, built, inRange, Network.crossing_rivals, modelBuilt, member, competitor,
    (feasible p member).1⟩

end RobustMargin
