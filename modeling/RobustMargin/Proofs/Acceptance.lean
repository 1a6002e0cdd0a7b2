import RobustMargin.Proofs.Blueprint
import RobustMargin.Proofs.Enclosure

/-! # Accepted relaxations

The rows of a relaxation refer to earlier variables only, so that its pieces are accepted exactly if
its bounds are numbers that are not reversed and its right-hand sides are finite. Over the reals
this is always so. -/
namespace RobustMargin

variable {α : Type} [Scalar α]

/-- The endpoints are numbers and not reversed, as the bounds of a variable have to be. -/
def Interval.Bounding (range : Interval α) : Prop :=
  Scalar.isNumber range.lo = true ∧ Scalar.isNumber range.hi = true ∧ ¬ range.hi < range.lo

namespace Piece

theorem fits_row (name : String) {expr : LinearExpr α} (sense : Sense) {rhs : α} {count : Nat}
    (zero : Scalar.isFinite (0 : α) = true) (inside : expr.within count = true)
    (finite : Scalar.isFinite rhs = true) (constant : expr.constant = 0) :
    (Piece.row name expr sense rhs).Fits count :=
  ⟨inside, finite, constant ▸ zero⟩

end Piece

namespace Inclusion.Propagated

variable {inclusion : Inclusion α}

theorem neuron?_eq_some (made : inclusion.Propagated) {i k : Nat} {n : NeuronBounds α}
    (found : inclusion.neuron? (i + 1) k = some n) :
    ∃ layer neuron, inclusion.network.layers[i]? = some layer ∧ layer.neurons[k]? = some neuron ∧
      n = NeuronBounds.ofPre inclusion.activation inclusion.linearization
        (neuronInterval (inclusion.boxAfter i) neuron) := by
  rw [made.neuron?_succ, Option.bind_eq_some_iff] at found
  obtain ⟨layer, layerFound, mapped⟩ := found
  obtain ⟨neuron, neuronFound, rfl⟩ := Option.map_eq_some_iff.mp mapped
  exact ⟨layer, neuron, layerFound, neuronFound, rfl⟩

theorem widths_getElem? (made : inclusion.Propagated) (residuals : Bool) {i : Nat}
    {layer : Layer α} (found : inclusion.network.layers[i]? = some layer) :
    (Blueprint.layoutOf inclusion residuals).widths[i]? = some layer.outputs := by
  change (inclusion.layers.map List.length)[i]? = _
  rw [List.getElem?_map, made.layers_getElem?, found]
  exact congrArg some (layer.bounds_length _ _ _)

/-- The variables of a box in the layout are as many as its intervals. -/
theorem width?_eq (made : inclusion.Propagated) (residuals : Bool) {i : Nat} {layer : Layer α}
    (found : inclusion.network.layers[i]? = some layer) :
    (Blueprint.layoutOf inclusion residuals).width? i = some layer.inputs := by
  rw [← made.boxAfter_length found]
  cases i with
  | zero => exact congrArg some inclusion.input.box_length.symm
  | succ i =>
      have earlier : i < inclusion.network.layers.length :=
        (Nat.lt_succ_self i).trans (List.getElem?_eq_some_iff.mp found).1
      have previous := List.getElem?_eq_getElem earlier
      rw [inclusion.boxAfter_succ previous, Layer.postBox_length]
      exact made.widths_getElem? residuals previous

theorem length_eq_outputs (made : inclusion.Propagated) {i : Nat} {layer : Layer α}
    {bounds : List (NeuronBounds α)} (found : inclusion.network.layers[i]? = some layer)
    (boundsFound : inclusion.layers[i]? = some bounds) : bounds.length = layer.outputs := by
  have same := made.layers_getElem? i
  rw [boundsFound, found] at same
  rw [Option.some.inj same, Layer.bounds_length]

end Inclusion.Propagated

namespace Blueprint

/-- The numbers that a neuron brings into a program are accepted: its bounds, and either the bounds
of its residual with the intercept, or the two right-hand sides that hold both. -/
def Accepted (f : Activation α) (residuals : Bool) (n : NeuronBounds α) : Prop :=
  n.post.Bounding ∧
    if residuals then n.residual.Bounding ∧ Scalar.isFinite (intercept f n) = true
    else Scalar.isFinite (intercept f n + n.residual.lo) = true ∧
      Scalar.isFinite (intercept f n + n.residual.hi) = true

theorem within_affineExpr (l : Layout) (layer k : Nat) (weights : List α) {count : Nat}
    (inputs : ∀ j < weights.length, l.post layer j < count) (own : l.pre layer k < count) :
    (affineExpr l layer k weights).within count = true :=
  LinearExpr.within_foldl_addTerm _ _ _ _ (LinearExpr.within_var own) fun _ member =>
    inputs _ (List.mem_zipIdx' member).1

theorem constant_affineExpr (l : Layout) (layer k : Nat) (weights : List α) :
    (affineExpr l layer k weights).constant = 0 :=
  (LinearExpr.constant_foldl_addTerm _ _ _ _).trans (LinearExpr.constant_var _)

theorem within_linearized (l : Layout) (f : Activation α) (layer : Nat) (p : NeuronBounds α × Nat)
    {count : Nat} (own : l.pre layer p.2 < count) : (linearized l f layer p).within count = true :=
  LinearExpr.within_addTerm _ (LinearExpr.within_var ((Nat.lt_succ_self _).trans own)) own _

theorem constant_linearized (l : Layout) (f : Activation α) (layer : Nat)
    (p : NeuronBounds α × Nat) : (linearized l f layer p).constant = 0 :=
  (LinearExpr.constant_addTerm _ _ _).trans (LinearExpr.constant_var _)

theorem fit_inputs {box : List (Interval α)} (bounding : ∀ range ∈ box, range.Bounding)
    (count : Nat) : Pieces.Fit count (inputs box) := by
  refine Pieces.fit_of_forall _ _ fun piece member more _ => ?_
  obtain ⟨p, inBox, rfl⟩ := List.mem_map.mp member
  exact bounding p.1 (List.fst_mem_of_mem_zipIdx inBox)

theorem fit_neurons (index count : Nat) (bounds : List (NeuronBounds α))
    (bounding : ∀ n ∈ bounds, n.post.Bounding) :
    Pieces.Fit count (bounds.zipIdx.flatMap (neuron index)) := by
  refine Pieces.fit_of_forall _ _ fun piece member more _ => ?_
  obtain ⟨p, inBounds, inPair⟩ := List.mem_flatMap.mp member
  rcases List.mem_pair.mp inPair with rfl | rfl
  · exact bounding p.1 (List.fst_mem_of_mem_zipIdx inBounds)
  · trivial

section Rows

variable (zero : Scalar.isFinite (0 : α) = true)
include zero

theorem fit_affine (l : Layout) (index : Nat) (weights : Layer α) {count : Nat}
    (inputs : ∀ j < weights.inputs, l.post index j < count)
    (own : ∀ k < weights.outputs, l.pre index k < count) :
    Pieces.Fit count (weights.neurons.zipIdx.map (affine l index)) := by
  refine Pieces.fit_of_forall _ _ fun piece member more le => ?_
  obtain ⟨⟨neuron, k⟩, inNeurons, rfl⟩ := List.mem_map.mp member
  obtain ⟨inRows, inBias⟩ := List.of_mem_zip (List.fst_mem_of_mem_zipIdx inNeurons)
  have width : neuron.1.length = weights.inputs := weights.weight.rectangular _ inRows
  have place : k < weights.outputs := weights.neurons_length ▸ (List.mem_zipIdx' inNeurons).1
  have finite : Scalar.isFinite neuron.2 = true :=
    List.all_eq_true.mp (Bool.and_eq_true_iff.mp weights.finite).2 _ inBias
  refine Piece.fits_row _ _ zero (LinearExpr.within_mono _ ?_ le) finite
    (constant_affineExpr l index k neuron.1)
  exact within_affineExpr l index k neuron.1 (fun j bound => inputs j (width ▸ bound))
    (own k place)

theorem fit_exposed (l : Layout) (f : Activation α) (index : Nat)
    (bounds : List (NeuronBounds α)) (accepted : ∀ n ∈ bounds, Accepted f true n) :
    Pieces.Fit (l.offset index + 2 * bounds.length)
      (bounds.zipIdx.flatMap (exposedResidual l f index bounds.length)) := by
  refine Pieces.fit_flatMap_zipIdx bounds _ (fun _ => 1) (fun _ => rfl) _ 0 fun k n found => ?_
  have place := (List.getElem?_eq_some_iff.mp found).1
  have before : ((bounds.take k).map fun _ => 1).sum = k := by
    simp [Nat.min_eq_left place.le]
  obtain ⟨-, bounding, finite⟩ := accepted n (List.mem_of_getElem? found)
  rw [before, Nat.zero_add]
  refine ⟨bounding, ?_, trivial⟩
  refine Piece.fits_row _ _ zero
    (LinearExpr.within_addTerm _ (within_linearized l f index _ ?_) ?_ _) finite
    ((LinearExpr.constant_addTerm _ _ _).trans (constant_linearized l f index _))
  · change l.offset index + 2 * k + 1 < l.offset index + 2 * bounds.length + k + 1
    omega
  · exact Nat.lt_succ_self _

theorem fit_baked (l : Layout) (f : Activation α) (index : Nat) (bounds : List (NeuronBounds α))
    (accepted : ∀ n ∈ bounds, Accepted f false n) :
    Pieces.Fit (l.offset index + 2 * bounds.length)
      (bounds.zipIdx.flatMap (bakedResidual l f index)) := by
  refine Pieces.fit_of_forall _ _ fun piece member more le => ?_
  obtain ⟨⟨n, k⟩, inBounds, inPair⟩ := List.mem_flatMap.mp member
  have place : k < bounds.length := (List.mem_zipIdx' inBounds).1
  have own : l.pre index k < more := by
    refine lt_of_lt_of_le ?_ le
    change l.offset index + 2 * k + 1 < l.offset index + 2 * bounds.length
    omega
  obtain ⟨-, low, high⟩ := accepted n (List.fst_mem_of_mem_zipIdx inBounds)
  rcases List.mem_pair.mp inPair with rfl | rfl
  · exact Piece.fits_row _ _ zero (within_linearized l f index (n, k) own) low
      (constant_linearized l f index (n, k))
  · exact Piece.fits_row _ _ zero (within_linearized l f index (n, k) own) high
      (constant_linearized l f index (n, k))

variable {inclusion : Inclusion α}

theorem fit_layer (made : inclusion.Propagated) (residuals : Bool) {i : Nat} {weights : Layer α}
    {bounds : List (NeuronBounds α)} (found : inclusion.network.layers[i]? = some weights)
    (boundsFound : inclusion.layers[i]? = some bounds)
    (accepted : ∀ n ∈ bounds, Accepted inclusion.activation residuals n) :
    Pieces.Fit ((layoutOf inclusion residuals).offset i)
      (layer (layoutOf inclusion residuals) inclusion.activation i weights bounds) := by
  have width := made.length_eq_outputs found boundsFound
  have inputs (j) (bound : j < weights.inputs) :
      (layoutOf inclusion residuals).post i j < (layoutOf inclusion residuals).offset i :=
    Layout.post_lt_offset _ (made.width?_eq residuals found) bound
  have size : (Pieces.vars (bounds.zipIdx.flatMap (neuron i))).length = 2 * bounds.length := by
    rw [Pieces.vars_flatMap]
    exact (length_flatMap_pair _ _ _).trans (by rw [List.length_zipIdx])
  rw [layer, Pieces.fit_append, Pieces.fit_append, Pieces.vars_append, vars_affine,
    List.append_nil, size]
  refine ⟨⟨fit_neurons i _ bounds fun n member => (accepted n member).1, ?_⟩, ?_⟩
  · refine fit_affine zero _ i weights (fun j bound => ?_) fun k bound => ?_
    · exact lt_of_lt_of_le (inputs j bound) (Nat.le_add_right _ _)
    · rw [Layout.pre, width]
      omega
  · cases residuals with
    | true => exact fit_exposed zero _ _ i bounds accepted
    | false => exact fit_baked zero _ _ i bounds accepted

/-- The pieces of a relaxation fit if the numbers of the box and of every neuron are accepted. -/
theorem fit_relaxation_of_accepted (made : inclusion.Propagated) (residuals : Bool)
    (box : ∀ range ∈ inclusion.input.box, range.Bounding)
    (accepted : ∀ bounds ∈ inclusion.layers, ∀ n ∈ bounds,
      Accepted inclusion.activation residuals n) :
    Pieces.Fit 0 (relaxation inclusion (layoutOf inclusion residuals)) := by
  let l := layoutOf inclusion residuals
  rw [relaxation, Pieces.fit_append, vars_inputs, List.length_map, List.length_zipIdx, Nat.zero_add]
  refine ⟨fit_inputs box 0, ?_⟩
  refine Pieces.fit_flatMap_zipIdx (layersWithBounds inclusion) _
    (fun p => l.layerSize p.2.length) (fun p => ?_) _ 0 fun i p found => ?_
  · rw [vars_layer]
    exact layerVars_length residuals p
  · obtain ⟨weights, bounds⟩ := (layersWithBounds_getElem? inclusion i p).mp found
    have start : inclusion.input.box.length +
        (((layersWithBounds inclusion).take i).map fun p => l.layerSize p.2.length).sum =
        l.offset i := by
      rw [Layout.offset_eq, made.widths_eq, ← List.map_take, List.map_map,
        inclusion.input.box_length]
      rfl
    rw [start, Nat.zero_add]
    exact fit_layer zero made residuals weights bounds
      (accepted p.2 (List.mem_of_getElem? bounds))

end Rows

theorem exists_mem_zipIdx {β : Type} {xs : List β} {x : β} (member : x ∈ xs) :
    ∃ k, (x, k) ∈ xs.zipIdx := by
  obtain ⟨k, found⟩ := List.getElem?_of_mem member
  exact ⟨k, List.mem_zipIdx_iff_getElem?.mpr found⟩

/-- Pieces that fit have accepted numbers. -/
theorem accepted_of_fit {inclusion : Inclusion α} (made : inclusion.Propagated) (residuals : Bool)
    (fit : Pieces.Fit 0 (relaxation inclusion (layoutOf inclusion residuals))) :
    (∀ range ∈ inclusion.input.box, range.Bounding) ∧
      ∀ bounds ∈ inclusion.layers, ∀ n ∈ bounds, Accepted inclusion.activation residuals n := by
  constructor
  · intro range inBox
    obtain ⟨k, place⟩ := exists_mem_zipIdx inBox
    obtain ⟨_, fits⟩ := Pieces.fits_of_fit fit
      (List.mem_append_left _ (List.mem_map_of_mem place))
    exact fits
  · intro bounds inLayers n inBounds
    rw [← made.map_snd_layersWithBounds] at inLayers
    obtain ⟨p, inPairs, rfl⟩ := List.mem_map.mp inLayers
    obtain ⟨i, layerPlace⟩ := exists_mem_zipIdx inPairs
    obtain ⟨k, place⟩ := exists_mem_zipIdx inBounds
    have fits {piece : Piece α} (member : piece ∈ layer (layoutOf inclusion residuals)
        inclusion.activation i p.1 p.2) : ∃ more, piece.Fits more :=
      Pieces.fits_of_fit fit
        (List.mem_append_right _ (List.mem_flatMap.mpr ⟨_, layerPlace, member⟩))
    have ofNeuron {piece : Piece α} (member : piece ∈ neuron i (n, k)) :
        ∃ more, piece.Fits more :=
      fits (List.mem_append_left _ (List.mem_append_left _
        (List.mem_flatMap.mpr ⟨_, place, member⟩)))
    have ofResidual {piece : Piece α} (member : piece ∈
        if residuals then exposedResidual (layoutOf inclusion residuals) inclusion.activation i
          p.2.length (n, k)
        else bakedResidual (layoutOf inclusion residuals) inclusion.activation i (n, k)) :
        ∃ more, piece.Fits more :=
      fits (List.mem_append_right _ (List.mem_flatMap.mpr ⟨_, place, member⟩))
    obtain ⟨_, post⟩ := ofNeuron List.mem_cons_self
    refine ⟨post, ?_⟩
    cases residuals with
    | true =>
        obtain ⟨_, bounding⟩ := ofResidual List.mem_cons_self
        obtain ⟨_, row⟩ := ofResidual (List.mem_cons_of_mem _ List.mem_cons_self)
        exact ⟨bounding, row.2.1⟩
    | false =>
        obtain ⟨_, low⟩ := ofResidual List.mem_cons_self
        obtain ⟨_, high⟩ := ofResidual (List.mem_cons_of_mem _ List.mem_cons_self)
        exact ⟨low.2.1, high.2.1⟩

end Blueprint

section Reals

theorem Interval.Ordered.bounding {range : Interval ℝ} (ordered : range.Ordered) :
    range.Bounding :=
  ⟨Scalar.isNumber_real _, Scalar.isNumber_real _, not_lt.mpr ordered⟩

variable {inclusion : Inclusion ℝ}

theorem Inclusion.Propagated.ordered_neuron (made : inclusion.Propagated) {i k : Nat}
    {n : NeuronBounds ℝ} (found : inclusion.neuron? (i + 1) k = some n) :
    n.pre.Ordered ∧ n.post.Ordered ∧ n.residual.Ordered := by
  obtain ⟨layer, neuron, -, -, rfl⟩ := made.neuron?_eq_some found
  have pre := ordered_neuronInterval (inclusion.ordered_boxAfter i) neuron
  have post := inclusion.activation.ordered_image (neuronInterval (inclusion.boxAfter i) neuron)
  exact ⟨pre, post, ordered_taylorResidual _ _ pre post⟩

namespace Blueprint

theorem fit_relaxation (made : inclusion.Propagated) (residuals : Bool) :
    Pieces.Fit 0 (relaxation inclusion (layoutOf inclusion residuals)) := by
  refine fit_relaxation_of_accepted (Scalar.isFinite_real 0) made residuals ?_ ?_
  · exact fun range member => (inclusion.input.ordered_box range member).bounding
  · intro bounds inLayers n inBounds
    obtain ⟨i, boundsFound⟩ := List.getElem?_of_mem inLayers
    obtain ⟨k, place⟩ := List.getElem?_of_mem inBounds
    obtain ⟨-, post, residual⟩ := made.ordered_neuron
      ((inclusion.neuron?_eq_some_iff i k n).mpr ⟨bounds, boundsFound, place⟩)
    refine ⟨post.bounding, ?_⟩
    cases residuals with
    | true => exact ⟨residual.bounding, Scalar.isFinite_real _⟩
    | false => exact ⟨Scalar.isFinite_real _, Scalar.isFinite_real _⟩

end Blueprint

end Reals
end RobustMargin
