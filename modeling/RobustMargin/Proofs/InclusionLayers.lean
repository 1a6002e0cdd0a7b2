import RobustMargin.Proofs.Building

/-! # Layers of an inclusion

An inclusion is refused for an input of the wrong size and for nothing else. One that is built tells
the bounds of every layer of its network, counted from one, and each of them has an entry for every
neuron. -/
namespace RobustMargin

variable {α : Type} [Scalar α]

theorem Layer.affineBox_eq (layer : Layer α) {box : List (Interval α)}
    (fits : box.length = layer.inputs) :
    layer.affineBox box = .ok (layer.neurons.map (neuronInterval box)) :=
  if_pos fits

theorem Layer.map_pre_bounds (layer : Layer α) (f : Activation α) (point : Linearization)
    (box : List (Interval α)) :
    (layer.bounds f point box).map (·.pre) = layer.neurons.map (neuronInterval box) :=
  List.map_map

namespace Inclusion

/-- What an inclusion tells of a layer of its network: the bounds of the layer over the box before
it, with an entry for every neuron. In the layouts of models these entries have variables, and so
have the values that arrive at the layer. -/
structure TellsLayer (inclusion : Inclusion α) (i : Nat) (layer : Layer α) : Prop where
  arriving : (inclusion.post? i).map List.length = some layer.inputs
  propagated : (inclusion.post? i).map
      (layer.propagate inclusion.activation inclusion.linearization) =
    (inclusion.layer? (i + 1)).map .ok
  affine : (inclusion.post? i).map layer.affineBox = (inclusion.pre? (i + 1)).map .ok
  pres : (inclusion.pre? (i + 1)).map List.length = some layer.outputs
  posts : (inclusion.post? (i + 1)).map List.length = some layer.outputs
  centers : (inclusion.centers? (i + 1)).map List.length = some layer.outputs
  residuals : (inclusion.residuals? (i + 1)).map List.length = some layer.outputs
  entries : ∀ k < layer.outputs, ∃ n, inclusion.neuron? (i + 1) k = some n ∧
    (inclusion.pre? (i + 1)).bind (·[k]?) = some n.pre ∧
    (inclusion.post? (i + 1)).bind (·[k]?) = some n.post ∧
    (inclusion.centers? (i + 1)).bind (·[k]?) = some n.center ∧
    (inclusion.residuals? (i + 1)).bind (·[k]?) = some n.residual
  arrivingVars : ∀ residuals, ∀ j < layer.inputs,
    ∃ v, (Blueprint.layoutOf inclusion residuals).x? i j = some v
  neuronVars : ∀ residuals, ∀ k < layer.outputs,
    (∃ v, (Blueprint.layoutOf inclusion residuals).x? (i + 1) k = some v) ∧
    (∃ v, (Blueprint.layoutOf inclusion residuals).z? (i + 1) k = some v) ∧
    (residuals = true → ∃ v, (Blueprint.layoutOf inclusion residuals).r? (i + 1) k = some v)

/-- An inclusion tells exactly the layers of its network, counted from one, and the boxes before and
after them, of which the first is the input. -/
structure Complete (inclusion : Inclusion α) : Prop where
  depth_eq : inclusion.depth = inclusion.network.depth
  input : inclusion.post? 0 = some inclusion.input.box
  post_found : ∀ i, (inclusion.post? i).isSome = true ↔ i ≤ inclusion.network.depth
  layer_found : ∀ i, (inclusion.layer? i).isSome = true ↔ 1 ≤ i ∧ i ≤ inclusion.network.depth
  pre_found : ∀ i, (inclusion.pre? i).isSome = true ↔ 1 ≤ i ∧ i ≤ inclusion.network.depth
  centers_found : ∀ i, (inclusion.centers? i).isSome = true ↔ 1 ≤ i ∧ i ≤ inclusion.network.depth
  residuals_found : ∀ i,
    (inclusion.residuals? i).isSome = true ↔ 1 ≤ i ∧ i ≤ inclusion.network.depth
  layers : ∀ i layer, inclusion.network.layers[i]? = some layer → inclusion.TellsLayer i layer

section Readings

variable (inclusion : Inclusion α) {β : Type} (reading : NeuronBounds α → β) (i : Nat)

theorem length_reading : ((inclusion.layer? i).map (·.map reading)).map List.length =
    (inclusion.layer? i).map List.length := by
  rw [Option.map_map]
  exact congrArg (Option.map · _) (funext fun _ => List.length_map reading)

theorem isSome_layer?_iff : (inclusion.layer? i).isSome = true ↔ 1 ≤ i ∧ i ≤ inclusion.depth := by
  cases i with
  | zero => simp [layer?]
  | succ i => simp [layer?, depth]

theorem isSome_reading_iff : ((inclusion.layer? i).map (·.map reading)).isSome = true ↔
    1 ≤ i ∧ i ≤ inclusion.depth := by
  rw [Option.isSome_map, isSome_layer?_iff]

theorem isSome_post?_iff : (inclusion.post? i).isSome = true ↔ i ≤ inclusion.depth := by
  cases i with
  | zero => simp [post?]
  | succ i => exact (inclusion.isSome_reading_iff _ (i + 1)).trans (and_iff_right i.succ_pos)

end Readings

namespace Propagated

variable {inclusion : Inclusion α} (made : inclusion.Propagated)
include made

section Layer

variable {i : Nat} {layer : Layer α} (found : inclusion.network.layers[i]? = some layer)
include found

theorem hasNeuron_arriving {j : Nat} (bound : j < layer.inputs) :
    inclusion.network.HasNeuron i j :=
  ⟨_, (made.layout_width? false i).symm.trans (made.width?_eq false found), bound⟩

theorem hasNeuron_of_output {k : Nat} (bound : k < layer.outputs) :
    inclusion.network.HasNeuron (i + 1) k :=
  ⟨_, (made.layout_width? false (i + 1)).symm.trans (made.widths_getElem? false found), bound⟩

theorem tellsLayer : inclusion.TellsLayer i layer := by
  let box := inclusion.boxAfter i
  let bounds := layer.bounds inclusion.activation inclusion.linearization box
  have within : i < inclusion.network.depth := (List.getElem?_eq_some_iff.mp found).1
  have before : inclusion.post? i = some box := made.post?_of_le within.le
  have fits : box.length = layer.inputs := made.boxAfter_length found
  have known : inclusion.layer? (i + 1) = some bounds := by
    rw [layer?, made.layers_getElem?, found, Option.map_some]
  have width : bounds.length = layer.outputs := layer.bounds_length _ _ _
  have length {β : Type} (reading : NeuronBounds α → β) :
      ((inclusion.layer? (i + 1)).map (·.map reading)).map List.length = some layer.outputs := by
    rw [length_reading, known, Option.map_some, width]
  constructor
  case arriving => rw [before, Option.map_some, fits]
  case propagated =>
    rw [before, known, Option.map_some, Option.map_some, layer.propagate_eq _ _ box fits]
  case affine =>
    rw [before, pre?, known, Option.map_some, Option.map_some, Option.map_some,
      layer.affineBox_eq fits, layer.map_pre_bounds]
  case pres => exact length _
  case posts => exact length _
  case centers => exact length _
  case residuals => exact length _
  case entries =>
    intro k bound
    obtain ⟨n, place⟩ : ∃ n, bounds[k]? = some n :=
      ⟨_, List.getElem?_eq_getElem (width ▸ bound)⟩
    have neuron : inclusion.neuron? (i + 1) k = some n := by
      rw [neuron?, known, Option.bind_some, place]
    have entry {β : Type} (reading : NeuronBounds α → β) :
        ((inclusion.layer? (i + 1)).map (·.map reading)).bind (·[k]?) = some (reading n) := by
      rw [entry_reading, neuron, Option.map_some]
    exact ⟨n, neuron, entry _, entry _, entry _, entry _⟩
  case arrivingVars =>
    intro residuals j bound
    exact (made.exists_slot_post_iff residuals i j).mpr (made.hasNeuron_arriving found bound)
  case neuronVars =>
    intro residuals k bound
    have present := made.hasNeuron_of_output found bound
    exact ⟨(made.exists_slot_post_iff residuals _ k).mpr present,
      (made.exists_slot_pre_iff residuals _ k).mpr ⟨i.succ_pos, present⟩,
      fun exposed => (made.exists_slot_residual_iff residuals _ k).mpr
        ⟨exposed, i.succ_pos, present⟩⟩

end Layer

theorem complete : inclusion.Complete where
  depth_eq := made.depth_eq
  input := rfl
  post_found := made.depth_eq ▸ inclusion.isSome_post?_iff
  layer_found := made.depth_eq ▸ inclusion.isSome_layer?_iff
  pre_found := made.depth_eq ▸ inclusion.isSome_reading_iff _
  centers_found := made.depth_eq ▸ inclusion.isSome_reading_iff _
  residuals_found := made.depth_eq ▸ inclusion.isSome_reading_iff _
  layers := fun _ _ found => made.tellsLayer found

end Propagated
end Inclusion

/-- Over any scalars an inclusion is refused exactly if the input has not as many values as the
network has inputs, with an error that tells the two sizes and blames no layer. Otherwise every
layer of the network has its bounds in the inclusion. -/
theorem inclusions_complete (input : InputBox α) (f : Activation α) (network : Network α)
    (point : Linearization) :
    ((∃ e, Inclusion.build input f network point = .error e) ↔ input.size ≠ network.inputs) ∧
      (∀ e, Inclusion.build input f network point = .error e →
        e = .shapeMismatch [network.inputs] [input.size] ∧
          Error.mismatch? [network.inputs] [input.size] = some e) ∧
      (input.size = network.inputs →
        ∃ inclusion, Inclusion.build input f network point = .ok inclusion ∧
          inclusion.input = input ∧ inclusion.activation = f ∧ inclusion.network = network ∧
          inclusion.linearization = point ∧ inclusion.Complete) := by
  by_cases sizes : input.size = network.inputs
  · have built := Inclusion.build_eq input f network point sizes
    obtain ⟨made, -⟩ := (Inclusion.build_eq_ok_iff input f network point _).mp built
    have accepted (e : Error α) : Inclusion.build input f network point ≠ .error e := by
      intro refused
      cases built.symm.trans refused
    refine ⟨⟨fun ⟨e, refused⟩ => absurd refused (accepted e), fun differ => absurd sizes differ⟩,
      fun e refused => absurd refused (accepted e),
      fun _ => ⟨_, built, rfl, rfl, rfl, rfl, made.complete⟩⟩
  · have refused : Inclusion.build input f network point =
        .error (.shapeMismatch [network.inputs] [input.size]) := if_neg sizes
    refine ⟨⟨fun _ => sizes, fun _ => ⟨_, refused⟩⟩, fun e same => ?_,
      fun agree => absurd agree sizes⟩
    obtain rfl := Except.error.inj (refused.symm.trans same)
    have differ : [network.inputs] ≠ [input.size] :=
      fun agree => sizes (List.head_eq_of_cons_eq agree).symm
    exact ⟨rfl, if_neg differ⟩

/-- A single coordinate, too few for the crossing network. -/
noncomputable def InputBox.lone : InputBox ℝ where
  values := [0]
  uncertainties := [1]
  length_eq := rfl
  values_ne_nil := List.cons_ne_nil _ _
  values_finite := by simp
  radii := by simp [isRadius]

theorem inclusions_complete_crossing :
    InputBox.segment.size = Network.crossing.inputs ∧
      InputBox.lone.size ≠ Network.crossing.inputs ∧
      (∃ inclusion, Inclusion.build .segment .cube .crossing .preActivation = .ok inclusion ∧
        inclusion.Complete) ∧
      ∃ e, Inclusion.build .lone .cube .crossing .preActivation = .error e ∧
        e = .shapeMismatch [2] [1] := by
  have differ : InputBox.lone.size ≠ Network.crossing.inputs := by decide
  obtain ⟨-, -, accepts⟩ := inclusions_complete .segment .cube .crossing .preActivation
  obtain ⟨refuses, bare, -⟩ := inclusions_complete .lone .cube .crossing .preActivation
  obtain ⟨inclusion, built, -, -, -, -, complete⟩ := accepts rfl
  obtain ⟨e, refused⟩ := refuses.mpr differ
  exact ⟨rfl, differ, ⟨inclusion, built, complete⟩, e, refused, (bare e refused).1⟩

end RobustMargin
