import RobustMargin.Proofs.Interval
import RobustMargin.Inclusion

/-! # Propagated bounds

The bounds of a network without the checks that its shapes make superfluous, and the places of
single layers in them. The box after some layers does not depend on the expansion points. -/
namespace RobustMargin

variable {α : Type} [Scalar α]

/-- Each layer takes as many values as arrive at it. -/
def Feeds : Nat → List (Layer α) → Prop
  | _, [] => True
  | width, layer :: rest => width = layer.inputs ∧ Feeds layer.outputs rest

theorem feeds_of_chained (layer : Layer α) (rest : List (Layer α))
    (chained : Chained (layer :: rest)) : Feeds layer.inputs (layer :: rest) := by
  induction rest generalizing layer with
  | nil => exact ⟨rfl, trivial⟩
  | cons second rest ih =>
      obtain ⟨fits, later⟩ := chained
      have fed := ih second later
      rw [fits] at fed
      exact ⟨rfl, fed⟩

theorem Network.feeds (network : Network α) : Feeds network.inputs network.layers := by
  obtain ⟨layers, notEmpty, chained⟩ := network
  cases layers with
  | nil => exact absurd rfl notEmpty
  | cons layer rest => exact feeds_of_chained layer rest chained

namespace Layer

/-- The post-activation box of a layer over a box of matching length. -/
def postBox (layer : Layer α) (f : Activation α) (box : List (Interval α)) : List (Interval α) :=
  layer.neurons.map fun n => f.image (neuronInterval box n)

/-- The bounds of a layer over a box of matching length. -/
def bounds (layer : Layer α) (f : Activation α) (point : Linearization)
    (box : List (Interval α)) : List (NeuronBounds α) :=
  layer.neurons.map fun n => NeuronBounds.ofPre f point (neuronInterval box n)

@[simp]
theorem postBox_length (layer : Layer α) (f : Activation α) (box : List (Interval α)) :
    (layer.postBox f box).length = layer.outputs := by
  rw [postBox, List.length_map, neurons_length]

theorem forward_length (layer : Layer α) (f : Activation α) (x : List α) :
    (layer.forward f x).length = layer.outputs := by
  rw [forward, List.length_map, affine_length]

@[simp]
theorem bounds_length (layer : Layer α) (f : Activation α) (point : Linearization)
    (box : List (Interval α)) : (layer.bounds f point box).length = layer.outputs := by
  rw [bounds, List.length_map, neurons_length]

theorem map_post_bounds (layer : Layer α) (f : Activation α) (point : Linearization)
    (box : List (Interval α)) : (layer.bounds f point box).map (·.post) = layer.postBox f box := by
  rw [bounds, postBox, List.map_map]
  rfl

theorem propagate_eq (layer : Layer α) (f : Activation α) (point : Linearization)
    (box : List (Interval α)) (fits : box.length = layer.inputs) :
    layer.propagate f point box = .ok (layer.bounds f point box) := by
  rw [propagate, affineBox, if_pos fits]
  exact congrArg Except.ok List.map_map

end Layer

namespace Network

theorem depth_pos (network : Network α) : 0 < network.depth :=
  List.length_pos_iff.mpr network.layers_ne_nil

theorem lastLayer_found (network : Network α) :
    network.layers[network.depth - 1]? = some network.lastLayer := by
  rw [lastLayer, List.getLast_eq_getElem]
  exact List.getElem?_eq_getElem _

/-- The box after each layer in turn. -/
def runBox (f : Activation α) : List (Layer α) → List (Interval α) → List (Interval α)
  | [], box => box
  | layer :: rest, box => runBox f rest (layer.postBox f box)

/-- The bounds of all layers over a box of matching length. -/
def bounds (f : Activation α) (point : Linearization) :
    List (Layer α) → List (Interval α) → List (List (NeuronBounds α))
  | [], _ => []
  | layer :: rest, box => layer.bounds f point box :: bounds f point rest (layer.postBox f box)

theorem bounds_length (f : Activation α) (point : Linearization) (layers : List (Layer α))
    (box : List (Interval α)) : (bounds f point layers box).length = layers.length := by
  induction layers generalizing box with
  | nil => rfl
  | cons layer rest ih => exact congrArg Nat.succ (ih _)

theorem bounds_getElem? (f : Activation α) (point : Linearization) (layers : List (Layer α))
    (box : List (Interval α)) (i : Nat) :
    (bounds f point layers box)[i]? =
      layers[i]?.map fun layer => layer.bounds f point (runBox f (layers.take i) box) := by
  induction layers generalizing box i with
  | nil => rfl
  | cons layer rest ih =>
      cases i with
      | zero => rfl
      | succ i => exact ih _ i

theorem propagateLayers_eq (f : Activation α) (point : Linearization) (index : Nat)
    (layers : List (Layer α)) (box : List (Interval α)) (fed : Feeds box.length layers) :
    propagateLayers f point index box layers = .ok (bounds f point layers box) := by
  induction layers generalizing index box with
  | nil => rfl
  | cons layer rest ih =>
      obtain ⟨fits, later⟩ := fed
      have next := ih (index + 1) (layer.postBox f box) (by rwa [Layer.postBox_length])
      rw [propagateLayers, layer.propagate_eq f point box fits]
      change (propagateLayers f point (index + 1) ((layer.bounds f point box).map (·.post)) rest
        >>= fun later => pure (layer.bounds f point box :: later)) = _
      rw [layer.map_post_bounds, next]
      rfl

/-- The width that arrives at a layer is the number of its inputs. -/
theorem runBox_take_length (f : Activation α) (layers : List (Layer α)) (box : List (Interval α))
    (fed : Feeds box.length layers) {i : Nat} {layer : Layer α} (found : layers[i]? = some layer) :
    (runBox f (layers.take i) box).length = layer.inputs := by
  induction layers generalizing box i with
  | nil => cases found
  | cons first rest ih =>
      cases i with
      | zero =>
          obtain rfl := Option.some.inj found
          exact fed.1
      | succ i =>
          exact ih (first.postBox f box) (by rw [Layer.postBox_length]; exact fed.2) found

theorem run_append (f : Activation α) (first second : List (Layer α)) (x : List α) :
    run f (first ++ second) x = run f second (run f first x) := by
  induction first generalizing x with
  | nil => rfl
  | cons layer rest ih => exact ih _

theorem runBox_append (f : Activation α) (first second : List (Layer α))
    (box : List (Interval α)) :
    runBox f (first ++ second) box = runBox f second (runBox f first box) := by
  induction first generalizing box with
  | nil => rfl
  | cons layer rest ih => exact ih _

theorem run_take_succ (f : Activation α) (layers : List (Layer α)) (x : List α) {i : Nat}
    {layer : Layer α} (found : layers[i]? = some layer) :
    run f (layers.take (i + 1)) x = layer.forward f (run f (layers.take i) x) := by
  rw [List.take_add_one, found, run_append]
  rfl

theorem run_length (network : Network α) (f : Activation α) (x : List α) :
    (run f network.layers x).length = network.outputs := by
  have last := run_take_succ f network.layers x network.lastLayer_found
  rw [Nat.sub_add_cancel network.depth_pos, depth, List.take_length] at last
  rw [last, Layer.forward_length, outputs]

theorem runBox_take_succ (f : Activation α) (layers : List (Layer α)) (box : List (Interval α))
    {i : Nat} {layer : Layer α} (found : layers[i]? = some layer) :
    runBox f (layers.take (i + 1)) box = layer.postBox f (runBox f (layers.take i) box) := by
  rw [List.take_add_one, found, runBox_append]
  rfl

end Network

namespace Inclusion

theorem build_eq (input : InputBox α) (f : Activation α) (network : Network α)
    (point : Linearization) (sizes : input.size = network.inputs) :
    build input f network point =
      .ok ⟨input, f, network, point, Network.bounds f point network.layers input.box⟩ := by
  have fed : Feeds input.box.length network.layers := by
    rw [input.box_length, sizes]
    exact network.feeds
  rw [build, if_pos sizes, Network.propagateLayers_eq f point 0 network.layers input.box fed]
  rfl

/-- The box after a number of layers, which for zero is the input box. -/
def boxAfter (inclusion : Inclusion α) (i : Nat) : List (Interval α) :=
  Network.runBox inclusion.activation (inclusion.network.layers.take i) inclusion.input.box

/-- The bounds of a neuron of a layer counted from one. -/
def neuron? (inclusion : Inclusion α) (i k : Nat) : Option (NeuronBounds α) :=
  (inclusion.layer? i).bind fun bounds => bounds[k]?

theorem neuron?_eq_some_iff (inclusion : Inclusion α) (i k : Nat) (n : NeuronBounds α) :
    inclusion.neuron? (i + 1) k = some n ↔
      ∃ bounds, inclusion.layers[i]? = some bounds ∧ bounds[k]? = some n :=
  Option.bind_eq_some_iff

/-- What is read of every neuron of a layer has the reading of each neuron at its place. -/
theorem entry_reading (inclusion : Inclusion α) {β : Type} (reading : NeuronBounds α → β)
    (i k : Nat) : ((inclusion.layer? i).map (·.map reading)).bind (·[k]?) =
      (inclusion.neuron? i k).map reading := by
  rw [neuron?]
  cases inclusion.layer? i with
  | none => rfl
  | some bounds => exact List.getElem?_map

/-- Neurons belong to layers counted from one. -/
theorem neuron?_found (inclusion : Inclusion α) {i k : Nat} {n : NeuronBounds α}
    (found : inclusion.neuron? i k = some n) :
    ∃ j bounds, i = j + 1 ∧ inclusion.layers[j]? = some bounds ∧ bounds[k]? = some n := by
  cases i with
  | zero => cases found
  | succ j =>
      obtain ⟨bounds, layerFound, place⟩ := (inclusion.neuron?_eq_some_iff j k n).mp found
      exact ⟨j, bounds, rfl, layerFound, place⟩

theorem boxAfter_succ (inclusion : Inclusion α) {i : Nat} {layer : Layer α}
    (found : inclusion.network.layers[i]? = some layer) :
    inclusion.boxAfter (i + 1) = layer.postBox inclusion.activation (inclusion.boxAfter i) :=
  Network.runBox_take_succ inclusion.activation _ _ found

/-- What a successful construction yields. -/
structure Propagated (inclusion : Inclusion α) : Prop where
  size_eq : inclusion.input.size = inclusion.network.inputs
  layers_eq : inclusion.layers =
    Network.bounds inclusion.activation inclusion.linearization inclusion.network.layers
      inclusion.input.box

theorem build_eq_ok_iff (input : InputBox α) (f : Activation α) (network : Network α)
    (point : Linearization) (inclusion : Inclusion α) :
    build input f network point = .ok inclusion ↔
      inclusion.Propagated ∧ inclusion.input = input ∧ inclusion.activation = f ∧
        inclusion.network = network ∧ inclusion.linearization = point := by
  constructor
  · intro built
    by_cases sizes : input.size = network.inputs
    · rw [build_eq input f network point sizes] at built
      obtain rfl := Except.ok.inj built
      exact ⟨⟨sizes, rfl⟩, rfl, rfl, rfl, rfl⟩
    · rw [build, if_neg sizes] at built
      cases built
  · rintro ⟨⟨sizes, layersEq⟩, rfl, rfl, rfl, rfl⟩
    rw [build_eq _ _ _ _ sizes, ← layersEq]

namespace Propagated

variable {inclusion : Inclusion α}

theorem depth_eq (made : inclusion.Propagated) : inclusion.depth = inclusion.network.depth := by
  rw [depth, made.layers_eq, Network.bounds_length, Network.depth]

theorem feeds (made : inclusion.Propagated) :
    Feeds inclusion.input.box.length inclusion.network.layers := by
  rw [inclusion.input.box_length, made.size_eq]
  exact inclusion.network.feeds

theorem layers_getElem? (made : inclusion.Propagated) (i : Nat) :
    inclusion.layers[i]? = inclusion.network.layers[i]?.map fun layer =>
      layer.bounds inclusion.activation inclusion.linearization (inclusion.boxAfter i) := by
  rw [made.layers_eq, Network.bounds_getElem?]
  rfl

theorem neuron?_succ (made : inclusion.Propagated) (i k : Nat) :
    inclusion.neuron? (i + 1) k = inclusion.network.layers[i]?.bind fun layer =>
      layer.neurons[k]?.map fun n => NeuronBounds.ofPre inclusion.activation
        inclusion.linearization (neuronInterval (inclusion.boxAfter i) n) := by
  rw [neuron?, layer?, made.layers_getElem?, Option.bind_map]
  exact congrArg _ (funext fun layer => List.getElem?_map)

theorem boxAfter_length (made : inclusion.Propagated) {i : Nat} {layer : Layer α}
    (found : inclusion.network.layers[i]? = some layer) :
    (inclusion.boxAfter i).length = layer.inputs :=
  Network.runBox_take_length _ _ _ made.feeds found

/-- The post-activation box after each layer, and the input box before the first one. -/
theorem post?_of_le (made : inclusion.Propagated) {i : Nat}
    (bound : i ≤ inclusion.network.depth) : inclusion.post? i = some (inclusion.boxAfter i) := by
  cases i with
  | zero => rfl
  | succ i =>
      have found : inclusion.network.layers[i]? = some _ := List.getElem?_eq_getElem bound
      rw [post?, layer?, made.layers_getElem?, found, Option.map_some, Option.map_some,
        Layer.map_post_bounds, inclusion.boxAfter_succ found]

theorem outputBox_eq (made : inclusion.Propagated) :
    inclusion.outputBox = inclusion.boxAfter inclusion.network.depth := by
  have found := inclusion.network.lastLayer_found
  have last : inclusion.layers.getLast? = some (inclusion.network.lastLayer.bounds
      inclusion.activation inclusion.linearization
      (inclusion.boxAfter (inclusion.network.depth - 1))) := by
    rw [List.getLast?_eq_getElem?]
    change inclusion.layers[inclusion.depth - 1]? = _
    rw [made.depth_eq, made.layers_getElem?, found]
    rfl
  have next := inclusion.boxAfter_succ found
  rw [Nat.sub_add_cancel inclusion.network.depth_pos] at next
  rw [outputBox, last, next]
  exact Layer.map_post_bounds _ _ _ _

end Propagated
end Inclusion
end RobustMargin
