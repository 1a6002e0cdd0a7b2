import RobustMargin.Proofs.Names

/-! # Sizes

The numbers of variables and rows of the programs of a model, in the number of inputs, the number of
neurons and the number of competitors. -/
namespace RobustMargin

section Counts

variable {α : Type} [Scalar α] {inclusion : Inclusion α}

/-- Lists that are a multiple of the width of each layer in turn. -/
theorem length_flatMap_layers {γ : Type} (xs : List (Layer α × List (NeuronBounds α)))
    (f : (Layer α × List (NeuronBounds α)) × Nat → List γ) (count : Nat)
    (each : ∀ p ∈ xs.zipIdx, (f p).length = count * p.1.2.length) :
    (xs.zipIdx.flatMap f).length = count * (xs.map (·.2.length)).sum := by
  have layers : xs.zipIdx.map (fun p => p.1.2.length) = xs.map (·.2.length) := by
    rw [← List.zipIdx_map_fst 0 xs, List.map_map, List.zipIdx_map_fst]
    rfl
  rw [List.length_flatMap, List.map_congr_left each, List.sum_map_mul_left, layers]

theorem Inclusion.Propagated.sum_widths (made : inclusion.Propagated) :
    ((Blueprint.layersWithBounds inclusion).map (·.2.length)).sum =
      inclusion.network.neuronCount := by
  have widths := made.widths_eq true
  rw [← widths]
  change (inclusion.layers.map List.length).sum = _
  rw [made.layers_eq, Network.bounds_widths]
  rfl

theorem Inclusion.Propagated.base_vars_size (made : inclusion.Propagated)
    (formulation : Formulation) : (Blueprint.base inclusion formulation).vars.size =
      inclusion.network.inputs + (if formulation.exposesResiduals then 3 else 2) *
        inclusion.network.neuronCount := by
  rw [← made.sum_widths, ← made.size_eq, ← inclusion.input.box_length, ← Array.length_toList,
    Blueprint.base_vars, Blueprint.vars_relaxation, List.length_append, List.length_map,
    List.length_zipIdx]
  refine congrArg _ (length_flatMap_layers _ _ _ fun p _ => ?_)
  rw [Blueprint.layerVars_length]
  change (if formulation.exposesResiduals then _ else _) = _
  split <;> rfl

theorem Inclusion.Propagated.base_rows_size (made : inclusion.Propagated)
    (formulation : Formulation) : (Blueprint.base inclusion formulation).constraints.size =
      (if formulation.exposesResiduals then 2 else 3) * inclusion.network.neuronCount := by
  rw [← made.sum_widths, ← Array.length_toList, Blueprint.base_rows, Blueprint.rows_relaxation]
  refine length_flatMap_layers _ _ _ fun p member => ?_
  obtain ⟨found, boundsFound⟩ := (Blueprint.layersWithBounds_getElem? inclusion _ _).mp
    (List.mem_zipIdx_iff_getElem?.mp member)
  have width : p.1.1.neurons.length = p.1.2.length := by
    rw [p.1.1.neurons_length, made.length_eq_outputs found boundsFound]
  have perNeuron (q : NeuronBounds α × Nat) : (Blueprint.taylorRows
      (Blueprint.layoutOf inclusion formulation.exposesResiduals) inclusion.activation p.2
      p.1.2.length q).length = if formulation.exposesResiduals then 1 else 2 := by
    unfold Blueprint.taylorRows
    change (if formulation.exposesResiduals then _ else _ : List _).length = _
    split <;> rfl
  rw [List.length_append, List.length_map, List.length_zipIdx, width, List.length_flatMap,
    List.map_congr_left fun q _ => perNeuron q, List.map_const', List.sum_replicate,
    List.length_zipIdx, smul_eq_mul]
  split <;> ring

theorem length_varNames (base : Program α) (k : Nat) : (Dual.varNames base k).length =
    base.constraints.size + (base.vars.toList.flatMap Dual.finiteBounds).length := by
  rw [Dual.varNames, List.length_append, List.length_map, List.length_map, List.length_flatMap,
    List.length_flatMap, Array.length_toList]
  simp only [List.length_map]

omit [Scalar α] in
theorem length_rowNames (base : Program α) (k : Nat) :
    (Dual.rowNames base k).length = base.vars.size := by
  rw [Dual.rowNames, List.length_map, List.length_map, Array.length_toList]

end Counts

section Bounds

theorem Dual.length_finiteBounds_over (name : String) (range : Interval ℝ) :
    (finiteBounds (.over name range)).length = 2 := rfl

/-- Inputs, post-activations and residuals have two finite bounds, pre-activations have none. -/
theorem Inclusion.Propagated.length_finiteBounds {inclusion : Inclusion ℝ}
    (made : inclusion.Propagated) (formulation : Formulation)
    (exposed : formulation.exposesResiduals = true) :
    ((Blueprint.base inclusion formulation).vars.toList.flatMap Dual.finiteBounds).length =
      2 * inclusion.network.inputs + 4 * inclusion.network.neuronCount := by
  have layer (p : (Layer ℝ × List (NeuronBounds ℝ)) × Nat) :
      ((Blueprint.layerVars true p).flatMap Dual.finiteBounds).length = 4 * p.1.2.length := by
    have pair (n : NeuronBounds ℝ × Nat) :
        ([Variable.over (indexedName "x" (p.2 + 1) n.2) n.1.post,
          .free (indexedName "z" (p.2 + 1) n.2)].flatMap Dual.finiteBounds).length = 2 := rfl
    rw [Blueprint.layerVars, if_pos rfl, List.flatMap_append, List.length_append,
      List.flatMap_assoc, List.flatMap_map, List.length_flatMap, List.length_flatMap]
    simp only [pair, Dual.length_finiteBounds_over, List.map_const', List.sum_replicate,
      List.length_zipIdx, smul_eq_mul]
    ring
  rw [← made.sum_widths, ← made.size_eq, ← inclusion.input.box_length, Blueprint.base_vars,
    Blueprint.vars_relaxation, List.flatMap_append, List.length_append, List.flatMap_map,
    List.flatMap_assoc]
  have residuals : (Blueprint.layoutOf inclusion formulation.exposesResiduals).residuals = true :=
    exposed
  rw [residuals, length_flatMap_layers _ _ 4 fun p _ => layer p, List.length_flatMap]
  simp only [Dual.length_finiteBounds_over, List.map_const', List.sum_replicate,
    List.length_zipIdx, smul_eq_mul]
  ring

end Bounds

/-- The program has these numbers of variables and of rows. -/
def Program.HasSize {α : Type} (p : Program α) (vars rows : Nat) : Prop :=
  p.vars.size = vars ∧ p.constraints.size = rows

namespace Model

theorem length_competitors {outputs label : Nat} (inRange : label < outputs) :
    (competitors outputs label).length = outputs - 1 := by
  have others : competitors outputs label = (List.range outputs).erase label := by
    rw [List.nodup_range.erase_eq_filter]
    refine List.filter_congr fun k _ => ?_
    rw [decide_not, bne, beq_eq_decide]
  rw [others, List.length_erase_of_mem (List.mem_range.mpr inRange), List.length_range]

/-- Every competitor brings a multiplier for each row and each finite bound of the relaxation, a
row for each of its variables, and one row for the margin. -/
theorem robustProgram_hasSize {inclusion : Inclusion ℝ} (made : inclusion.Propagated) {label : Nat}
    (inRange : label < inclusion.network.outputs) :
    (robustProgram inclusion label .auxiliary).HasSize
      (1 + (inclusion.network.outputs - 1) *
        (2 * inclusion.network.inputs + 6 * inclusion.network.neuronCount))
      ((inclusion.network.outputs - 1) *
        (inclusion.network.inputs + 3 * inclusion.network.neuronCount + 1)) := by
  obtain ⟨vars, rows⟩ := robustProgram_names inclusion label .auxiliary
  have varCount := congrArg List.length vars
  have rowCount := congrArg List.length rows
  have baseVars : (Blueprint.base inclusion .auxiliary).vars.size =
      inclusion.network.inputs + 3 * inclusion.network.neuronCount := made.base_vars_size .auxiliary
  have baseRows : (Blueprint.base inclusion .auxiliary).constraints.size =
      2 * inclusion.network.neuronCount := made.base_rows_size .auxiliary
  have bounds := made.length_finiteBounds .auxiliary rfl
  have block : 2 * inclusion.network.neuronCount + (2 * inclusion.network.inputs +
      4 * inclusion.network.neuronCount) =
      2 * inclusion.network.inputs + 6 * inclusion.network.neuronCount := by ring
  rw [List.length_map, Array.length_toList, List.length_cons, List.length_flatMap] at varCount
  rw [List.length_map, Array.length_toList, List.length_flatMap] at rowCount
  simp only [length_varNames, List.map_const', List.sum_replicate, smul_eq_mul,
    length_competitors inRange, baseRows, bounds, block] at varCount
  simp only [List.length_append, length_rowNames, List.length_singleton, List.map_const',
    List.sum_replicate, smul_eq_mul, length_competitors inRange, baseVars] at rowCount
  exact ⟨varCount.trans (Nat.add_comm _ _), rowCount⟩

end Model
end RobustMargin
