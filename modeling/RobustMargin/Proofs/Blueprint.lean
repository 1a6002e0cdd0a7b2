import RobustMargin.Proofs.Arrangement
import RobustMargin.Proofs.Pieces
import RobustMargin.Proofs.Propagation
import RobustMargin.Model

/-! # The relaxation of a network

The variables and the rows that a propagated inclusion puts into a program: each variable stands
at the index that the layout tells, and each row belongs to one neuron. -/
namespace RobustMargin

variable {α : Type} [Scalar α]

/-- A variable over an interval. -/
def Variable.over (name : String) (range : Interval α) : Variable α :=
  ⟨name, .ofScalar range.lo, .ofScalar range.hi⟩

/-- The variable that stands for a value of the network, if there is such a value. -/
def Inclusion.slotVar? (inclusion : Inclusion α) : Slot → Option (Variable α)
  | .post 0 k => inclusion.input.box[k]?.map (.over (indexedName "x" 0 k))
  | .post (layer + 1) k =>
      (inclusion.neuron? (layer + 1) k).map fun n => .over (indexedName "x" (layer + 1) k) n.post
  | .pre layer k => (inclusion.neuron? layer k).map fun _ => .free (indexedName "z" layer k)
  | .residual layer k =>
      (inclusion.neuron? layer k).map fun n => .over (indexedName "r" layer k) n.residual

namespace Inclusion

/-- The interval of a post-activation. -/
def range? (inclusion : Inclusion α) (i k : Nat) : Option (Interval α) :=
  (inclusion.post? i).bind fun box => box[k]?

theorem range?_succ (inclusion : Inclusion α) (i k : Nat) :
    inclusion.range? (i + 1) k = (inclusion.neuron? (i + 1) k).map (·.post) :=
  inclusion.entry_reading _ _ _

theorem slotVar?_post (inclusion : Inclusion α) (i k : Nat) :
    inclusion.slotVar? (.post i k) =
      (inclusion.range? i k).map (.over (indexedName "x" i k)) := by
  cases i with
  | zero => rfl
  | succ i =>
      rw [slotVar?, range?_succ, Option.map_map]
      rfl

/-- The interval of a linearization error. -/
def residual? (inclusion : Inclusion α) (i k : Nat) : Option (Interval α) :=
  (inclusion.residuals? i).bind fun residuals => residuals[k]?

theorem slotVar?_residual (inclusion : Inclusion α) (i k : Nat) :
    inclusion.slotVar? (.residual i k) =
      (inclusion.residual? i k).map (.over (indexedName "r" i k)) := by
  rw [slotVar?, residual?, residuals?, entry_reading, Option.map_map]
  rfl

end Inclusion

namespace Blueprint

/-- The row that ties a pre-activation to the layer before. -/
def affineRow (l : Layout) (layer : Nat) (p : (List α × α) × Nat) : Constraint α :=
  ⟨indexedName "affine" (layer + 1) p.2, affineExpr l layer p.2 p.1.1, .eq, p.1.2⟩

/-- The rows that hold a neuron inside its relaxation. -/
def taylorRows (l : Layout) (f : Activation α) (layer width : Nat) (p : NeuronBounds α × Nat) :
    List (Constraint α) :=
  if l.residuals then
    [⟨indexedName "taylor" (layer + 1) p.2,
      (linearized l f layer p).addTerm (l.residual layer width p.2) (-1), .eq, intercept f p.1⟩]
  else
    [⟨indexedName "taylor_lo" (layer + 1) p.2, linearized l f layer p, .ge,
      intercept f p.1 + p.1.residual.lo⟩,
    ⟨indexedName "taylor_hi" (layer + 1) p.2, linearized l f layer p, .le,
      intercept f p.1 + p.1.residual.hi⟩]

/-- The variables of a layer. -/
def layerVars (residuals : Bool) (p : (Layer α × List (NeuronBounds α)) × Nat) :
    List (Variable α) :=
  p.1.2.zipIdx.flatMap (fun n => [.over (indexedName "x" (p.2 + 1) n.2) n.1.post,
    .free (indexedName "z" (p.2 + 1) n.2)]) ++
    if residuals then
      p.1.2.zipIdx.map fun n => .over (indexedName "r" (p.2 + 1) n.2) n.1.residual
    else []

theorem vars_inputs (box : List (Interval α)) :
    Pieces.vars (inputs box) = box.zipIdx.map fun p => .over (indexedName "x" 0 p.2) p.1 := by
  rw [Pieces.vars, inputs, List.filterMap_map]
  exact congrFun List.filterMap_eq_map' _

omit [Scalar α] in
theorem rows_inputs (box : List (Interval α)) : Pieces.rows (inputs box) = [] := by
  rw [Pieces.rows, inputs, List.filterMap_map]
  exact List.filterMap_eq_nil_iff.mpr fun _ _ => rfl

theorem vars_affine (l : Layout) (index : Nat) (weights : Layer α) :
    Pieces.vars (weights.neurons.zipIdx.map (affine l index)) = [] := by
  rw [Pieces.vars, List.filterMap_map]
  exact List.filterMap_eq_nil_iff.mpr fun _ _ => rfl

theorem vars_layer (l : Layout) (f : Activation α) (index : Nat) (weights : Layer α)
    (bounds : List (NeuronBounds α)) :
    Pieces.vars (layer l f index weights bounds) =
      layerVars l.residuals ((weights, bounds), index) := by
  rw [layer, Pieces.vars_append, Pieces.vars_append, vars_affine, List.append_nil,
    Pieces.vars_flatMap, Pieces.vars_flatMap, layerVars]
  congr 1
  cases l.residuals with
  | true => exact List.map_eq_flatMap.symm
  | false => exact List.flatMap_eq_nil_iff.mpr fun _ _ => rfl

theorem rows_layer (l : Layout) (f : Activation α) (index : Nat) (weights : Layer α)
    (bounds : List (NeuronBounds α)) :
    Pieces.rows (layer l f index weights bounds) =
      weights.neurons.zipIdx.map (affineRow l index) ++
        bounds.zipIdx.flatMap (taylorRows l f index bounds.length) := by
  have noRows : Pieces.rows (bounds.zipIdx.flatMap (neuron index)) = [] := by
    rw [Pieces.rows_flatMap]
    exact List.flatMap_eq_nil_iff.mpr fun _ _ => rfl
  have affineRows : Pieces.rows (weights.neurons.zipIdx.map (affine l index)) =
      weights.neurons.zipIdx.map (affineRow l index) := by
    rw [Pieces.rows, List.filterMap_map]
    exact congrFun List.filterMap_eq_map' _
  rw [layer, Pieces.rows_append, Pieces.rows_append, noRows, affineRows, List.nil_append,
    Pieces.rows_flatMap]
  congr 2
  funext p
  rw [taylorRows]
  split <;> rfl

theorem layerVars_length (residuals : Bool) (p : (Layer α × List (NeuronBounds α)) × Nat) :
    (layerVars residuals p).length =
      if residuals then 3 * p.1.2.length else 2 * p.1.2.length := by
  rw [layerVars, length_block, List.length_zipIdx]

/-- The layers of a network, each with its bounds. -/
def layersWithBounds (inclusion : Inclusion α) : List (Layer α × List (NeuronBounds α)) :=
  inclusion.network.layers.zip inclusion.layers

theorem vars_relaxation (inclusion : Inclusion α) (l : Layout) :
    Pieces.vars (relaxation inclusion l) =
      inclusion.input.box.zipIdx.map (fun p => .over (indexedName "x" 0 p.2) p.1) ++
        (layersWithBounds inclusion).zipIdx.flatMap (layerVars l.residuals) := by
  rw [relaxation, Pieces.vars_append, vars_inputs, Pieces.vars_flatMap]
  congr 1
  exact List.flatMap_congr fun p _ => vars_layer ..

theorem rows_relaxation (inclusion : Inclusion α) (l : Layout) :
    Pieces.rows (relaxation inclusion l) =
      (layersWithBounds inclusion).zipIdx.flatMap fun p =>
        p.1.1.neurons.zipIdx.map (affineRow l p.2) ++
          p.1.2.zipIdx.flatMap (taylorRows l inclusion.activation p.2 p.1.2.length) := by
  rw [relaxation, Pieces.rows_append, rows_inputs, Pieces.rows_flatMap, List.nil_append]
  exact List.flatMap_congr fun p _ => rows_layer ..

theorem layersWithBounds_getElem? (inclusion : Inclusion α) (i : Nat)
    (p : Layer α × List (NeuronBounds α)) :
    (layersWithBounds inclusion)[i]? = some p ↔
      inclusion.network.layers[i]? = some p.1 ∧ inclusion.layers[i]? = some p.2 :=
  List.getElem?_zip_eq_some

theorem map_some_layerVars (inclusion : Inclusion α) (l : Layout)
    (p : (Layer α × List (NeuronBounds α)) × Nat) (found : inclusion.layers[p.2]? = some p.1.2) :
    (layerVars l.residuals p).map some =
      (l.layerSlots (p.1.2.length, p.2)).map inclusion.slotVar? := by
  have known (q : NeuronBounds α × Nat) (member : q ∈ p.1.2.zipIdx) :
      inclusion.neuron? (p.2 + 1) q.2 = some q.1 :=
    (inclusion.neuron?_eq_some_iff _ _ _).mpr ⟨_, found, List.mem_zipIdx_iff_getElem?.mp member⟩
  rw [layerVars, Layout.layerSlots, range_eq_map_snd, List.map_append, List.map_append,
    List.flatMap_map, List.map_flatMap, List.map_flatMap]
  congr 1
  · refine List.flatMap_congr fun q member => ?_
    simp [Inclusion.slotVar?, known q member]
  · cases l.residuals with
    | true =>
        rw [if_pos rfl, if_pos rfl, List.map_map, List.map_map, List.map_map]
        refine List.map_congr_left fun q member => ?_
        simp [Inclusion.slotVar?, known q member]
    | false => rfl

/-- The program that all primal programs of a model share, save for the objective. -/
def base (inclusion : Inclusion α) (formulation : Formulation) : Program α :=
  (Program.empty (Model.programName formulation)).extend
    (relaxation inclusion (layoutOf inclusion formulation.exposesResiduals))

theorem mem_rows_iff (inclusion : Inclusion α) (formulation : Formulation) (c : Constraint α) :
    c ∈ (base inclusion formulation).constraints ↔
      ∃ i weights bounds, inclusion.network.layers[i]? = some weights ∧
        inclusion.layers[i]? = some bounds ∧
        ((∃ k neuron, weights.neurons[k]? = some neuron ∧
            c = affineRow (layoutOf inclusion formulation.exposesResiduals) i (neuron, k)) ∨
          ∃ k n, bounds[k]? = some n ∧
            c ∈ taylorRows (layoutOf inclusion formulation.exposesResiduals) inclusion.activation i
              bounds.length (n, k)) := by
  have flat : c ∈ (base inclusion formulation).constraints ↔ c ∈ Pieces.rows (relaxation inclusion
      (layoutOf inclusion formulation.exposesResiduals)) := by
    simp [base, Program.extend, Program.empty]
  rw [flat, rows_relaxation, List.mem_flatMap]
  constructor
  · rintro ⟨⟨⟨weights, bounds⟩, i⟩, member, inRows⟩
    obtain ⟨found, boundsFound⟩ := (layersWithBounds_getElem? inclusion _ _).mp
      (List.mem_zipIdx_iff_getElem?.mp member)
    refine ⟨i, weights, bounds, found, boundsFound, ?_⟩
    rcases List.mem_append.mp inRows with affine | taylor
    · obtain ⟨⟨neuron, k⟩, place, rfl⟩ := List.mem_map.mp affine
      exact .inl ⟨k, neuron, List.mem_zipIdx_iff_getElem?.mp place, rfl⟩
    · obtain ⟨⟨n, k⟩, place, inTaylor⟩ := List.mem_flatMap.mp taylor
      exact .inr ⟨k, n, List.mem_zipIdx_iff_getElem?.mp place, inTaylor⟩
  · rintro ⟨i, weights, bounds, found, boundsFound, rows⟩
    refine ⟨((weights, bounds), i), List.mem_zipIdx_iff_getElem?.mpr
      ((layersWithBounds_getElem? inclusion i _).mpr ⟨found, boundsFound⟩), ?_⟩
    rcases rows with ⟨k, neuron, place, rfl⟩ | ⟨k, n, place, inTaylor⟩
    · exact List.mem_append_left _
        (List.mem_map.mpr ⟨(neuron, k), List.mem_zipIdx_iff_getElem?.mpr place, rfl⟩)
    · exact List.mem_append_right _
        (List.mem_flatMap.mpr ⟨(n, k), List.mem_zipIdx_iff_getElem?.mpr place, inTaylor⟩)

end Blueprint

namespace Inclusion.Propagated

variable {inclusion : Inclusion α}

theorem map_snd_layersWithBounds (made : inclusion.Propagated) :
    (Blueprint.layersWithBounds inclusion).map Prod.snd = inclusion.layers := by
  refine List.map_snd_zip (le_of_eq ?_)
  rw [made.layers_eq, Network.bounds_length]

theorem widths_eq (made : inclusion.Propagated) (residuals : Bool) :
    (Blueprint.layoutOf inclusion residuals).widths =
      (Blueprint.layersWithBounds inclusion).map fun p => p.2.length := by
  change inclusion.layers.map List.length = _
  rw [← made.map_snd_layersWithBounds, List.map_map]
  rfl

/-- The variables of the relaxation stand in the order of the layout. -/
theorem map_some_vars (made : inclusion.Propagated) (residuals : Bool) :
    let l := Blueprint.layoutOf inclusion residuals
    (Pieces.vars (Blueprint.relaxation inclusion l)).map some = l.slots.map inclusion.slotVar? := by
  intro l
  have widths : (Blueprint.layoutOf inclusion residuals).widths.zipIdx =
      (Blueprint.layersWithBounds inclusion).zipIdx.map fun p => (p.1.2.length, p.2) := by
    rw [made.widths_eq, List.zipIdx_map]
    rfl
  rw [Blueprint.vars_relaxation, Layout.slots, List.map_append, List.map_append, widths,
    List.flatMap_map, List.map_flatMap, List.map_flatMap]
  congr 1
  · change _ = ((List.range inclusion.input.size).map (Slot.post 0)).map inclusion.slotVar?
    rw [← inclusion.input.box_length, range_eq_map_snd, List.map_map, List.map_map, List.map_map]
    refine List.map_congr_left fun q member => ?_
    simp [slotVar?, List.mem_zipIdx_iff_getElem?.mp member]
  · refine List.flatMap_congr fun p member => ?_
    have found := (Blueprint.layersWithBounds_getElem? inclusion _ _).mp
      (List.mem_zipIdx_iff_getElem?.mp member)
    exact Blueprint.map_some_layerVars inclusion _ p found.2

/-- Each variable of the relaxation stands for one value of the network, at its index. -/
theorem base_vars_iff (made : inclusion.Propagated) (formulation : Formulation) (v : VarId)
    (x : Variable α) :
    (Blueprint.base inclusion formulation).vars[v]? = some x ↔
      ∃ s, (Blueprint.layoutOf inclusion formulation.exposesResiduals).slot? s = some v ∧
        inclusion.slotVar? s = some x := by
  have same := congrArg (fun vars => vars[v]?)
    (made.map_some_vars formulation.exposesResiduals)
  have flat : (Blueprint.base inclusion formulation).vars[v]? = (Pieces.vars (Blueprint.relaxation
      inclusion (Blueprint.layoutOf inclusion formulation.exposesResiduals)))[v]? := by
    simp [Blueprint.base, Program.extend, Program.empty]
  simp only [List.getElem?_map, ← flat] at same
  constructor
  · intro found
    rw [found] at same
    obtain ⟨s, slotFound, stands⟩ := Option.map_eq_some_iff.mp same.symm
    exact ⟨s, ((Layout.slots_getElem?_iff _ _ _).mp slotFound), stands⟩
  · rintro ⟨s, place, isVar⟩
    rw [(Layout.slots_getElem?_iff _ _ _).mpr place, Option.map_some, isVar] at same
    obtain ⟨y, found, same⟩ := Option.map_eq_some_iff.mp same
    rw [found, Option.some.inj same]

theorem base_size (made : inclusion.Propagated) (formulation : Formulation) :
    (Blueprint.base inclusion formulation).vars.size =
      (Blueprint.layoutOf inclusion formulation.exposesResiduals).size := by
  have same := congrArg List.length (made.map_some_vars formulation.exposesResiduals)
  rw [List.length_map, List.length_map, Layout.slots_length] at same
  rw [← same, Blueprint.base, Program.size_extend]
  exact Nat.zero_add _

end Inclusion.Propagated
end RobustMargin
