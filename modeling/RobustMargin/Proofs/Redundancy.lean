import RobustMargin.Proofs.Encoding

/-! # Redundant rows

The residual interval of a neuron holds the linearization errors of all values in its box. The rows
of the linearization therefore restrict nothing, and a point of the relaxation is any choice of
post-activations from the boxes. -/
namespace RobustMargin

namespace Inclusion

variable {inclusion : Inclusion ℝ}

namespace Propagated

variable (made : inclusion.Propagated)
include made

/-- Affine values of a point of the boxes lie in the pre-activation intervals. -/
theorem pre_mem {val : Slot → ℝ} (boxes : inclusion.InBoxes fun i k => val (.post i k))
    (affine : inclusion.Affine val) {i k : Nat} {n : NeuronBounds ℝ}
    (found : inclusion.neuron? (i + 1) k = some n) : val (.pre (i + 1) k) ∈ n.pre := by
  obtain ⟨layer, neuron, layerFound, neuronFound, rfl⟩ := made.neuron?_eq_some found
  let box := inclusion.boxAfter i
  let values := box.zipIdx.map fun p => val (.post i p.2)
  have inside : InBox values box := by
    have bound : i < inclusion.network.depth := (List.getElem?_eq_some_iff.mp layerFound).1
    have pointwise := InBox.map (fun p => val (.post i p.2)) Prod.fst box.zipIdx
      fun p member => boxes i p.2 box p.1 (made.post?_of_le bound.le)
        (List.mem_zipIdx_iff_getElem?.mp member)
    rwa [List.zipIdx_map_fst] at pointwise
  -- There are as many weights as intervals, so that no weight meets a missing value.
  have width : neuron.1.length = box.length := by
    rw [made.boxAfter_length layerFound]
    exact layer.weight.rectangular _ (List.of_mem_zip (List.mem_of_getElem? neuronFound)).1
  have inputs : (neuron.1.zipIdx.map fun p => p.1 * val (.post i p.2)) =
      neuron.1.zipIdx.map fun p => p.1 * values[p.2]?.getD 0 := by
    refine List.map_congr_left fun p member => ?_
    have bound : p.2 < box.length := width ▸ (List.mem_zipIdx' member).1
    rw [List.getElem?_map, List.getElem?_zipIdx, List.getElem?_eq_getElem bound, Nat.zero_add]
    rfl
  rw [affine i k layer neuron layerFound neuronFound, inputs, sum_zipIdx_getD]
  exact mem_neuronInterval inside neuron

/-- The linearization errors need not be asked for. -/
theorem relaxes_of_affine {val : Slot → ℝ} (boxes : inclusion.InBoxes fun i k => val (.post i k))
    (affine : inclusion.Affine val) : inclusion.Relaxes val := by
  refine ⟨boxes, affine, fun i k n found => ?_⟩
  obtain ⟨i, -, rfl, -, -⟩ := inclusion.neuron?_found found
  have post := ((inclusion.inBoxes_iff _).mp boxes).2 i k n found
  have pre := made.pre_mem boxes affine found
  obtain ⟨layer, neuron, -, -, rfl⟩ := made.neuron?_eq_some found
  exact mem_taylorResidual _ _ pre post

end Propagated

/-- Post-activations with the pre-activations that they determine. -/
noncomputable def ofPosts (inclusion : Inclusion ℝ) (posts : Nat → Nat → ℝ) : Slot → ℝ
  | .post i k => posts i k
  | .pre (i + 1) k => (inclusion.network.layers[i]?.bind fun layer => layer.neurons[k]?).elim 0
      fun neuron => (neuron.1.zipIdx.map fun p => p.1 * posts i p.2).sum + neuron.2
  | _ => 0

/-- Any choice of post-activations from the boxes is a point of the relaxation. -/
theorem Propagated.ofPosts_relaxes (made : inclusion.Propagated) {posts : Nat → Nat → ℝ}
    (boxes : inclusion.InBoxes posts) : inclusion.Relaxes (inclusion.ofPosts posts) := by
  refine made.relaxes_of_affine boxes fun i k layer neuron layerFound neuronFound => ?_
  rw [ofPosts, layerFound, Option.bind_some, neuronFound, Option.elim_some]
  rfl

end Inclusion

theorem indexedName_toList (letter : String) (layer neuron : Nat) :
    (indexedName letter layer neuron).toList =
      letter.toList ++ ("_" ++ toString layer ++ "_" ++ toString neuron).toList := by
  change (letter ++ "_" ++ toString layer ++ "_" ++ toString neuron).toList = _
  simp [String.toList_append]

/-- The row belongs to a linearization: its name is one of `taylor`, `taylor_lo` and `taylor_hi`
with indices. -/
def Constraint.isTaylor {α : Type} (c : Constraint α) : Bool :=
  "taylor".toList.isPrefixOf c.name.toList

def Program.withoutTaylor {α : Type} (p : Program α) : Program α :=
  { p with constraints := p.constraints.filter fun c => !c.isTaylor }

namespace Blueprint

variable {α : Type} [Scalar α]

theorem affineRow_isTaylor (l : Layout) (layer : Nat) (p : (List α × α) × Nat) :
    (affineRow l layer p).isTaylor = false := by
  rw [Constraint.isTaylor, affineRow, indexedName_toList]
  rfl

theorem taylorRows_isTaylor (l : Layout) (f : Activation α) (layer width : Nat)
    (p : NeuronBounds α × Nat) {c : Constraint α} (member : c ∈ taylorRows l f layer width p) :
    c.isTaylor = true := by
  unfold taylorRows at member
  split at member
  · obtain rfl := List.mem_singleton.mp member
    rw [Constraint.isTaylor, indexedName_toList]
    rfl
  · rcases List.mem_pair.mp member with rfl | rfl
    · rw [Constraint.isTaylor, indexedName_toList]
      rfl
    · rw [Constraint.isTaylor, indexedName_toList]
      rfl

/-- The rows that remain are the affine ones. -/
theorem mem_withoutTaylor_iff (inclusion : Inclusion α) (formulation : Formulation)
    (c : Constraint α) : c ∈ (base inclusion formulation).withoutTaylor.constraints ↔
      c ∈ (base inclusion formulation).constraints ∧ ∃ i k neuron,
        c = affineRow (layoutOf inclusion formulation.exposesResiduals) i (neuron, k) := by
  rw [Program.withoutTaylor, Array.mem_filter]
  refine and_congr_right fun member => ?_
  obtain ⟨i, weights, bounds, -, -, ⟨k, neuron, -, rfl⟩ | ⟨k, n, -, inTaylor⟩⟩ :=
    (mem_rows_iff inclusion formulation c).mp member
  · rw [affineRow_isTaylor]
    exact iff_of_true rfl ⟨i, k, neuron, rfl⟩
  · rw [taylorRows_isTaylor _ _ _ _ _ inTaylor]
    refine iff_of_false Bool.false_ne_true ?_
    rintro ⟨j, m, neuron, rfl⟩
    have both := (affineRow_isTaylor (layoutOf inclusion formulation.exposesResiduals) j
      (neuron, m)).symm.trans (taylorRows_isTaylor _ _ _ _ _ inTaylor)
    exact Bool.false_ne_true both

end Blueprint

namespace Inclusion.Propagated

variable {inclusion : Inclusion ℝ} (made : inclusion.Propagated)
include made

/-- Bounds of variables and affine rows already make a point of the relaxation. -/
theorem relaxes_of_withoutTaylor (formulation : Formulation) {w : VarId → ℝ}
    (admitted : (Blueprint.base inclusion formulation).withoutTaylor.Admits w) :
    inclusion.Relaxes ((Blueprint.layoutOf inclusion formulation.exposesResiduals).read w) := by
  have allowed := (made.vars_allow_iff formulation w).mp admitted.vars
  refine made.relaxes_of_affine ((inclusion.allows_iff _ _).mp allowed).1 ?_
  intro i k layer neuron layerFound neuronFound
  have boundsFound := made.layers_getElem? i
  rw [layerFound, Option.map_some] at boundsFound
  refine (Blueprint.affineRow_holds_iff _ w made layerFound neuronFound).mp (admitted.rows _ ?_)
  exact (Blueprint.mem_withoutTaylor_iff _ _ _).mpr ⟨(Blueprint.mem_rows_iff _ _ _).mpr
    ⟨i, layer, _, layerFound, boundsFound, .inl ⟨k, neuron, neuronFound, rfl⟩⟩,
    i, k, neuron, rfl⟩

end Inclusion.Propagated

/-- Without the rows of the linearization a primal program has the same activations. -/
theorem Model.projection_withoutTaylor {inclusion : Inclusion ℝ} (made : inclusion.Propagated)
    (label : Nat) {formulation : Formulation} {p : MarginProgram ℝ}
    (member : p ∈ (ofRelaxation inclusion label formulation).primal) :
    (ofRelaxation inclusion label formulation).projection p.program.withoutTaylor =
      (ofRelaxation inclusion label formulation).projection p.program := by
  refine Set.Subset.antisymm ?_ ?_
  · rintro _ ⟨values, feasible, rfl⟩
    refine activations_mem_projection made label member ?_
    obtain ⟨k, -, -, rfl⟩ := (mem_primal_iff inclusion label formulation p).mp member
    obtain ⟨-, admitted⟩ := (Program.isFeasible_zero _ values).mp feasible
    rw [ofRelaxation_read]
    exact made.relaxes_of_withoutTaylor formulation ⟨admitted.vars, admitted.rows⟩
  · rintro _ ⟨values, feasible, rfl⟩
    obtain ⟨size, admitted⟩ := (Program.isFeasible_zero _ values).mp feasible
    refine ⟨values, (Program.isFeasible_zero _ values).mpr ⟨size, admitted.vars, ?_⟩, rfl⟩
    exact fun c remains => admitted.rows c (Array.mem_filter.mp remains).1

end RobustMargin
