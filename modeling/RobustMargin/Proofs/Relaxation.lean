import RobustMargin.Proofs.Acceptance
import RobustMargin.Proofs.Feasibility

/-! # The relaxation as a set of points

An assignment is feasible for the programs of a model if and only if its values lie in the
post-activation boxes, are tied by the affine maps of the layers, and have their linearization
errors in the residual intervals. -/
namespace RobustMargin

theorem Variable.free_allows (name : String) (x : ℝ) : (Variable.free name).Allows x :=
  ⟨trivial, trivial⟩

/-- The value that an assignment gives to a value of the network, and zero where the layout has no
variable for it. -/
noncomputable def Layout.read (l : Layout) (w : VarId → ℝ) (s : Slot) : ℝ := (l.slot? s).elim 0 w

theorem Layout.read_of_slot (l : Layout) (w : VarId → ℝ) {s : Slot} {v : VarId}
    (place : l.slot? s = some v) : l.read w s = w v := by
  rw [read, place, Option.elim_some]

namespace Inclusion

variable (inclusion : Inclusion ℝ) (val : Slot → ℝ)

/-- The error that values make in the linearization of a neuron. -/
noncomputable def errorAt (i k : Nat) (n : NeuronBounds ℝ) : ℝ :=
  inclusion.activation.linearizationError n.center (val (.pre i k)) (val (.post i k))

/-- Post-activations that lie in the boxes. -/
def InBoxes (posts : Nat → Nat → ℝ) : Prop :=
  ∀ i k box range, inclusion.post? i = some box → box[k]? = some range → posts i k ∈ range

/-- Pre-activations that are the affine values of the post-activations before. -/
def Affine : Prop :=
  ∀ i k layer neuron, inclusion.network.layers[i]? = some layer →
    layer.neurons[k]? = some neuron → val (.pre (i + 1) k) =
      (neuron.1.zipIdx.map fun p => p.1 * val (.post i p.2)).sum + neuron.2

/-- The values of a point of the relaxation. -/
structure Relaxes : Prop where
  boxes : inclusion.InBoxes fun i k => val (.post i k)
  affine : inclusion.Affine val
  errors : ∀ i k n, inclusion.neuron? i k = some n → inclusion.errorAt val i k n ∈ n.residual

/-- The residuals are the linearization errors. -/
def ResidualsFit : Prop :=
  ∀ i k n, inclusion.neuron? i k = some n → val (.residual i k) = inclusion.errorAt val i k n

/-- The intervals of the boxes are those of the inputs and of the neurons. -/
theorem inBoxes_iff (posts : Nat → Nat → ℝ) : inclusion.InBoxes posts ↔
    (∀ k range, inclusion.input.box[k]? = some range → posts 0 k ∈ range) ∧
      ∀ i k n, inclusion.neuron? (i + 1) k = some n → posts (i + 1) k ∈ n.post := by
  constructor
  · intro all
    refine ⟨fun k range found => all 0 k _ range rfl found, fun i k n found => ?_⟩
    have known : inclusion.range? (i + 1) k = some n.post := by
      rw [range?_succ, found, Option.map_some]
    obtain ⟨box, boxFound, place⟩ := Option.bind_eq_some_iff.mp known
    exact all (i + 1) k box n.post boxFound place
  · rintro ⟨inputs, neurons⟩ i k box range boxFound found
    have known : inclusion.range? i k = some range :=
      Option.bind_eq_some_iff.mpr ⟨box, boxFound, found⟩
    cases i with
    | zero => exact inputs k range known
    | succ i =>
        rw [range?_succ] at known
        obtain ⟨n, place, rfl⟩ := Option.map_eq_some_iff.mp known
        exact neurons i k n place

end Inclusion

namespace Blueprint

variable {inclusion : Inclusion ℝ} (residuals : Bool)

theorem slot_input {k : Nat} {range : Interval ℝ} (found : inclusion.input.box[k]? = some range) :
    (layoutOf inclusion residuals).slot? (.post 0 k) = some k := by
  refine (Layout.x?_zero_iff _ k k).mpr ⟨?_, rfl⟩
  have bound := (List.getElem?_eq_some_iff.mp found).1
  rwa [inclusion.input.box_length] at bound

section Neuron

variable {i k : Nat} {bounds : List (NeuronBounds ℝ)} {n : NeuronBounds ℝ}
  (layerFound : inclusion.layers[i]? = some bounds) (place : bounds[k]? = some n)

include layerFound in
theorem width_found : (layoutOf inclusion residuals).widths[i]? = some bounds.length := by
  change (inclusion.layers.map List.length)[i]? = _
  rw [List.getElem?_map, layerFound, Option.map_some]

include layerFound place

theorem slot_post : (layoutOf inclusion residuals).slot? (.post (i + 1) k) =
    some ((layoutOf inclusion residuals).post (i + 1) k) :=
  (Layout.x?_succ_iff _ i k _).mpr
    ⟨_, width_found residuals layerFound, (List.getElem?_eq_some_iff.mp place).1, rfl⟩

theorem slot_pre : (layoutOf inclusion residuals).slot? (.pre (i + 1) k) =
    some ((layoutOf inclusion residuals).pre i k) :=
  (Layout.z?_succ_iff _ i k _).mpr
    ⟨_, width_found residuals layerFound, (List.getElem?_eq_some_iff.mp place).1, rfl⟩

theorem slot_residual : (layoutOf inclusion true).slot? (.residual (i + 1) k) =
    some ((layoutOf inclusion true).residual i bounds.length k) :=
  (Layout.r?_succ_iff _ i k _).mpr
    ⟨rfl, _, width_found true layerFound, (List.getElem?_eq_some_iff.mp place).1, rfl⟩

end Neuron

/-- A value of the network has a variable unless it is a residual of a layout without them. -/
theorem slot_found {s : Slot} {x : Variable ℝ} (isVar : inclusion.slotVar? s = some x)
    (present : residuals = true ∨ ∀ i k, s ≠ .residual i k) :
    ∃ v, (layoutOf inclusion residuals).slot? s = some v := by
  have neuronFound {i k : Nat} {y : NeuronBounds ℝ → Variable ℝ}
      (isVar : (inclusion.neuron? i k).map y = some x) :
      ∃ j bounds n, i = j + 1 ∧ inclusion.layers[j]? = some bounds ∧ bounds[k]? = some n := by
    obtain ⟨n, found, -⟩ := Option.map_eq_some_iff.mp isVar
    obtain ⟨j, bounds, same, layerFound, place⟩ := inclusion.neuron?_found found
    exact ⟨j, bounds, n, same, layerFound, place⟩
  match s, isVar with
  | .post 0 k, isVar =>
      obtain ⟨range, found, -⟩ := Option.map_eq_some_iff.mp isVar
      exact ⟨_, slot_input residuals found⟩
  | .post (i + 1) k, isVar =>
      obtain ⟨j, bounds, n, same, layerFound, place⟩ := neuronFound isVar
      obtain rfl := Nat.succ.inj same
      exact ⟨_, slot_post residuals layerFound place⟩
  | .pre i k, isVar =>
      obtain ⟨j, bounds, n, rfl, layerFound, place⟩ := neuronFound isVar
      exact ⟨_, slot_pre residuals layerFound place⟩
  | .residual i k, isVar =>
      obtain ⟨j, bounds, n, rfl, layerFound, place⟩ := neuronFound isVar
      rcases present with rfl | other
      · exact ⟨_, slot_residual layerFound place⟩
      · exact absurd rfl (other _ _)

end Blueprint

namespace Inclusion

/-- The variables of all values but absent residuals allow their values. -/
def Allows (inclusion : Inclusion ℝ) (residuals : Bool) (val : Slot → ℝ) : Prop :=
  ∀ s x, inclusion.slotVar? s = some x → (residuals = true ∨ ∀ i k, s ≠ .residual i k) →
    x.Allows (val s)

theorem Propagated.vars_allow_iff {inclusion : Inclusion ℝ} (made : inclusion.Propagated)
    (formulation : Formulation) (w : VarId → ℝ) :
    (∀ (v : VarId) (x : Variable ℝ), (Blueprint.base inclusion formulation).vars[v]? = some x →
        x.Allows (w v)) ↔
      inclusion.Allows formulation.exposesResiduals
        ((Blueprint.layoutOf inclusion formulation.exposesResiduals).read w) := by
  constructor
  · intro all s x isVar present
    obtain ⟨v, place⟩ := Blueprint.slot_found formulation.exposesResiduals isVar present
    rw [Layout.read_of_slot _ w place]
    exact all v x ((made.base_vars_iff formulation v x).mpr ⟨s, place, isVar⟩)
  · intro all v x found
    obtain ⟨s, place, isVar⟩ := (made.base_vars_iff formulation v x).mp found
    rw [← Layout.read_of_slot _ w place]
    refine all s x isVar ?_
    cases present : formulation.exposesResiduals with
    | true => exact .inl rfl
    | false =>
        refine .inr fun i k isResidual => ?_
        rw [isResidual, present] at place
        cases i with
        | zero => cases place
        | succ i =>
            have flag := ((Blueprint.layoutOf inclusion false).r?_succ_iff i k v).mp place
            exact absurd flag.1 Bool.false_ne_true

theorem allows_iff (inclusion : Inclusion ℝ) (residuals : Bool) (val : Slot → ℝ) :
    inclusion.Allows residuals val ↔
      (inclusion.InBoxes fun i k => val (.post i k)) ∧
      (residuals = true → ∀ i k n, inclusion.neuron? i k = some n →
        val (.residual i k) ∈ n.residual) := by
  rw [inBoxes_iff]
  constructor
  · intro all
    refine ⟨⟨fun k range found => ?_, fun i k n found => ?_⟩, fun present i k n found => ?_⟩
    · exact all (.post 0 k) (.over _ range) (by rw [slotVar?, found, Option.map_some])
        (.inr fun _ _ => Slot.noConfusion)
    · exact all (.post (i + 1) k) (.over _ n.post) (by rw [slotVar?, found, Option.map_some])
        (.inr fun _ _ => Slot.noConfusion)
    · exact all (.residual i k) (.over _ n.residual) (by rw [slotVar?, found, Option.map_some])
        (.inl present)
  · rintro ⟨⟨inputs, posts⟩, errors⟩ s x isVar present
    cases s with
    | post i k =>
        cases i with
        | zero =>
            obtain ⟨range, found, rfl⟩ := Option.map_eq_some_iff.mp isVar
            exact inputs k range found
        | succ i =>
            obtain ⟨n, found, rfl⟩ := Option.map_eq_some_iff.mp isVar
            exact posts i k n found
    | pre i k =>
        obtain ⟨n, found, rfl⟩ := Option.map_eq_some_iff.mp isVar
        exact Variable.free_allows _ _
    | residual i k =>
        obtain ⟨n, found, rfl⟩ := Option.map_eq_some_iff.mp isVar
        exact errors (present.resolve_right fun other => other i k rfl) i k n found

end Inclusion

namespace Blueprint

variable {inclusion : Inclusion ℝ} (residuals : Bool) (w : VarId → ℝ)

theorem evalAt_affineExpr (l : Layout) (layer k : Nat) (weights : List ℝ) :
    (affineExpr l layer k weights).evalAt w =
      w (l.pre layer k) - (weights.zipIdx.map fun p => p.1 * w (l.post layer p.2)).sum := by
  rw [affineExpr, LinearExpr.evalAt_foldl_subTerm, LinearExpr.evalAt_var]

/-- The linearized part of a row is the linearization error and a constant. -/
theorem evalAt_linearized (l : Layout) (f : Activation ℝ) (layer k : Nat) (n : NeuronBounds ℝ) :
    (linearized l f layer (n, k)).evalAt w =
      f.linearizationError n.center (w (l.pre layer k)) (w (l.post (layer + 1) k)) +
        intercept f n := by
  rw [linearized, LinearExpr.evalAt_addTerm, LinearExpr.evalAt_var, Activation.linearizationError,
    intercept, slope]
  ring

section Weights

variable {i k : Nat} {layer : Layer ℝ} {neuron : List ℝ × ℝ} (made : inclusion.Propagated)
  (layerFound : inclusion.network.layers[i]? = some layer)
  (neuronFound : layer.neurons[k]? = some neuron)
include made layerFound neuronFound

theorem slot_pre_of_weights : (layoutOf inclusion residuals).slot? (.pre (i + 1) k) =
    some ((layoutOf inclusion residuals).pre i k) := by
  refine (Layout.z?_succ_iff _ i k _).mpr ⟨_, made.widths_getElem? residuals layerFound, ?_, rfl⟩
  rw [← layer.neurons_length]
  exact (List.getElem?_eq_some_iff.mp neuronFound).1

theorem slot_post_of_weight {p : ℝ × Nat} (member : p ∈ neuron.1.zipIdx) :
    (layoutOf inclusion residuals).slot? (.post i p.2) =
      some ((layoutOf inclusion residuals).post i p.2) := by
  have inRows : neuron.1 ∈ layer.weight.rows :=
    (List.of_mem_zip (List.mem_of_getElem? neuronFound)).1
  have bound : p.2 < layer.inputs := by
    rw [Layer.inputs, ← layer.weight.rectangular _ inRows]
    exact (List.mem_zipIdx' member).1
  exact (Layout.x?_eq_some_iff _ i p.2 _).mpr
    ⟨_, made.width?_eq residuals layerFound, bound, rfl⟩

theorem affineRow_holds_iff : (affineRow (layoutOf inclusion residuals) i (neuron, k)).Holds w ↔
    (layoutOf inclusion residuals).read w (.pre (i + 1) k) =
      (neuron.1.zipIdx.map fun p =>
        p.1 * (layoutOf inclusion residuals).read w (.post i p.2)).sum + neuron.2 := by
  let l := layoutOf inclusion residuals
  have inputs : (neuron.1.zipIdx.map fun p => p.1 * w (l.post i p.2)) =
      neuron.1.zipIdx.map fun p => p.1 * l.read w (.post i p.2) := by
    refine List.map_congr_left fun p member => ?_
    rw [l.read_of_slot w (slot_post_of_weight residuals made layerFound neuronFound member)]
  change (affineExpr l i k neuron.1).evalAt w = neuron.2 ↔ _
  rw [evalAt_affineExpr, inputs, sub_eq_iff_eq_add',
    l.read_of_slot w (slot_pre_of_weights residuals made layerFound neuronFound)]

end Weights

/-- The rows of a neuron hold its linearization error, or a residual variable in its place. -/
theorem taylorRows_hold_iff {i k : Nat} {bounds : List (NeuronBounds ℝ)} {n : NeuronBounds ℝ}
    (layerFound : inclusion.layers[i]? = some bounds) (place : bounds[k]? = some n) :
    (∀ c ∈ taylorRows (layoutOf inclusion residuals) inclusion.activation i bounds.length (n, k),
        c.Holds w) ↔
      if residuals then (layoutOf inclusion residuals).read w (.residual (i + 1) k) =
        inclusion.errorAt ((layoutOf inclusion residuals).read w) (i + 1) k n
      else inclusion.errorAt ((layoutOf inclusion residuals).read w) (i + 1) k n ∈ n.residual := by
  let l := layoutOf inclusion residuals
  let error := inclusion.errorAt (l.read w) (i + 1) k n
  have linear : (linearized l inclusion.activation i (n, k)).evalAt w =
      error + intercept inclusion.activation n := by
    rw [evalAt_linearized, ← l.read_of_slot w (slot_pre residuals layerFound place),
      ← l.read_of_slot w (slot_post residuals layerFound place)]
    rfl
  cases residuals with
  | true =>
      have own := l.read_of_slot w (slot_residual layerFound place)
      have present : (layoutOf inclusion true).residuals = true := rfl
      rw [taylorRows, if_pos present, if_pos rfl, List.forall_mem_singleton, own]
      change LinearExpr.evalAt (LinearExpr.addTerm _ _ _) w = intercept inclusion.activation n ↔ _
      rw [LinearExpr.evalAt_addTerm, linear]
      constructor
      · intro holds
        linarith
      · intro fits
        rw [fits]
        ring
  | false =>
      have absent : ¬ (layoutOf inclusion false).residuals = true := Bool.false_ne_true
      rw [taylorRows, if_neg absent, if_neg Bool.false_ne_true, List.forall_mem_cons,
        List.forall_mem_singleton]
      change intercept inclusion.activation n + n.residual.lo ≤ LinearExpr.evalAt _ w ∧
        LinearExpr.evalAt _ w ≤ intercept inclusion.activation n + n.residual.hi ↔ _
      rw [linear, add_comm error, add_le_add_iff_left, add_le_add_iff_left]
      rfl

end Blueprint

namespace Inclusion.Propagated

variable {inclusion : Inclusion ℝ}

theorem rows_hold_iff (made : inclusion.Propagated) (formulation : Formulation)
    (w : VarId → ℝ) :
    let val := (Blueprint.layoutOf inclusion formulation.exposesResiduals).read w
    (∀ c ∈ (Blueprint.base inclusion formulation).constraints, c.Holds w) ↔
      inclusion.Affine val ∧
      ∀ i k n, inclusion.neuron? i k = some n →
        if formulation.exposesResiduals then val (.residual i k) = inclusion.errorAt val i k n
        else inclusion.errorAt val i k n ∈ n.residual := by
  intro val
  constructor
  · intro rows
    constructor
    · intro i k layer neuron layerFound neuronFound
      have boundsFound := made.layers_getElem? i
      rw [layerFound, Option.map_some] at boundsFound
      exact (Blueprint.affineRow_holds_iff _ w made layerFound neuronFound).mp
        (rows _ ((Blueprint.mem_rows_iff _ _ _).mpr
          ⟨i, layer, _, layerFound, boundsFound, .inl ⟨k, neuron, neuronFound, rfl⟩⟩))
    · intro i k n found
      obtain ⟨i, bounds, rfl, boundsFound, place⟩ := inclusion.neuron?_found found
      obtain ⟨layer, -, layerFound, -⟩ := made.neuron?_eq_some found
      refine (Blueprint.taylorRows_hold_iff _ w boundsFound place).mp fun c member => ?_
      exact rows c ((Blueprint.mem_rows_iff _ _ _).mpr
        ⟨i, layer, bounds, layerFound, boundsFound, .inr ⟨k, n, place, member⟩⟩)
  · rintro ⟨affine, errors⟩ c member
    obtain ⟨i, layer, bounds, layerFound, boundsFound, isRow⟩ :=
      (Blueprint.mem_rows_iff _ _ _).mp member
    rcases isRow with ⟨k, neuron, neuronFound, rfl⟩ | ⟨k, n, place, inTaylor⟩
    · exact (Blueprint.affineRow_holds_iff _ w made layerFound neuronFound).mpr
        (affine i k layer neuron layerFound neuronFound)
    · exact (Blueprint.taylorRows_hold_iff _ w boundsFound place).mpr
        (errors (i + 1) k n ((inclusion.neuron?_eq_some_iff i k n).mpr
          ⟨bounds, boundsFound, place⟩)) c inTaylor

/-- An assignment admitted by the program of the relaxation is a point of the relaxation, with the
linearization errors as residuals where these are variables. -/
theorem base_admits_iff (made : inclusion.Propagated) (formulation : Formulation)
    (w : VarId → ℝ) :
    (Blueprint.base inclusion formulation).Admits w ↔
      inclusion.Relaxes ((Blueprint.layoutOf inclusion formulation.exposesResiduals).read w) ∧
        (formulation.exposesResiduals = true → inclusion.ResidualsFit
          ((Blueprint.layoutOf inclusion formulation.exposesResiduals).read w)) := by
  have vars := (made.vars_allow_iff formulation w).trans (inclusion.allows_iff _ _)
  have rows := made.rows_hold_iff formulation w
  constructor
  · intro admitted
    obtain ⟨boxes, residuals⟩ := vars.mp admitted.vars
    obtain ⟨affine, errors⟩ := rows.mp admitted.rows
    -- A residual variable is bounded by its interval; without it two rows bound the error itself.
    cases exposes : formulation.exposesResiduals with
    | true =>
        rw [exposes] at boxes residuals affine errors
        refine ⟨⟨boxes, affine, fun i k n found => ?_⟩, fun _ => errors⟩
        exact errors i k n found ▸ residuals rfl i k n found
    | false =>
        rw [exposes] at boxes affine errors
        exact ⟨⟨boxes, affine, errors⟩, fun present => absurd present Bool.false_ne_true⟩
  · rintro ⟨relaxes, fit⟩
    refine ⟨vars.mpr ⟨relaxes.boxes, fun present i k n found => ?_⟩, rows.mpr ⟨relaxes.affine, ?_⟩⟩
    · rw [fit present i k n found]
      exact relaxes.errors i k n found
    · intro i k n found
      split
      · rename_i present
        exact fit present i k n found
      · exact relaxes.errors i k n found

end Inclusion.Propagated
end RobustMargin
