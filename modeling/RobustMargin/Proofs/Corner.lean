import RobustMargin.Proofs.Redundancy

/-! # The corner for a competitor

A point of the relaxation at which the output of a competitor is as high and all other outputs are
as low as their intervals allow. The margin over the competitor is the best that the bounds of the
variables allow there. -/
namespace RobustMargin

namespace Inclusion

variable {inclusion : Inclusion ℝ}

theorem range?_depth (inclusion : Inclusion ℝ) (k : Nat) :
    inclusion.range? inclusion.depth k = inclusion.outputBox[k]? := by
  have last : inclusion.post? inclusion.depth = some inclusion.outputBox := by
    rw [outputBox, depth, List.getLast?_eq_getElem?]
    cases layersEq : inclusion.layers with
    | nil => rfl
    | cons first rest =>
        rw [List.length_cons, post?, layer?, layersEq, Nat.add_sub_cancel]
        have bound : rest.length < (first :: rest).length := Nat.lt_succ_self _
        rw [List.getElem?_eq_getElem bound, Option.map_some]
  rw [range?, last, Option.bind_some]

theorem Relaxes.output_mem {val : Slot → ℝ} (relaxes : inclusion.Relaxes val) {k : Nat}
    {range : Interval ℝ} (found : inclusion.outputBox[k]? = some range) :
    val (.post inclusion.depth k) ∈ range := by
  rw [← inclusion.range?_depth] at found
  obtain ⟨box, boxFound, place⟩ := Option.bind_eq_some_iff.mp found
  exact relaxes.boxes _ k box range boxFound place

theorem Propagated.output_found (made : inclusion.Propagated) {k : Nat}
    (bound : k < inclusion.network.outputs) : ∃ range, inclusion.outputBox[k]? = some range := by
  have next := inclusion.boxAfter_succ inclusion.network.lastLayer_found
  rw [Nat.sub_add_cancel inclusion.network.depth_pos] at next
  refine ⟨_, List.getElem?_eq_getElem ?_⟩
  rw [made.outputBox_eq, next, Layer.postBox_length]
  exact bound

theorem Propagated.ordered_range (made : inclusion.Propagated) {i k : Nat} {range : Interval ℝ}
    (found : inclusion.range? i k = some range) : range.Ordered := by
  cases i with
  | zero => exact inclusion.input.ordered_box _ (List.mem_of_getElem? found)
  | succ i =>
      rw [range?_succ] at found
      obtain ⟨n, place, rfl⟩ := Option.map_eq_some_iff.mp found
      exact (made.ordered_neuron place).2.1

/-- Every post-activation as low as its interval allows, save for one output. -/
noncomputable def cornerPosts (inclusion : Inclusion ℝ) (competitor i k : Nat) : ℝ :=
  (inclusion.range? i k).elim 0 fun range =>
    if i = inclusion.depth ∧ k = competitor then range.hi else range.lo

noncomputable def corner (inclusion : Inclusion ℝ) (competitor : Nat) : Slot → ℝ :=
  inclusion.withErrors (inclusion.ofPosts (inclusion.cornerPosts competitor))

theorem corner_low (inclusion : Inclusion ℝ) {competitor k : Nat} (other : k ≠ competitor)
    {range : Interval ℝ} (found : inclusion.outputBox[k]? = some range) :
    inclusion.corner competitor (.post inclusion.depth k) = range.lo := by
  change inclusion.cornerPosts competitor inclusion.depth k = range.lo
  rw [cornerPosts, range?_depth, found, Option.elim_some, if_neg fun both => other both.2]

theorem corner_high (inclusion : Inclusion ℝ) {competitor : Nat} {range : Interval ℝ}
    (found : inclusion.outputBox[competitor]? = some range) :
    inclusion.corner competitor (.post inclusion.depth competitor) = range.hi := by
  change inclusion.cornerPosts competitor inclusion.depth competitor = range.hi
  rw [cornerPosts, range?_depth, found, Option.elim_some, if_pos ⟨rfl, rfl⟩]

theorem Propagated.corner_relaxes (made : inclusion.Propagated) (competitor : Nat) :
    inclusion.Relaxes (inclusion.corner competitor) := by
  refine withErrors_relaxes (made.ofPosts_relaxes fun i k box range boxFound place => ?_)
  have found : inclusion.range? i k = some range := by
    rw [range?, boxFound, Option.bind_some, place]
  have ordered := made.ordered_range found
  rw [cornerPosts, found, Option.elim_some]
  split
  · exact ordered.hi_mem
  · exact ordered.lo_mem

end Inclusion

namespace Model

variable {inclusion : Inclusion ℝ} (made : inclusion.Propagated) {label k : Nat}
  (inRange : label < inclusion.network.outputs) (bound : k < inclusion.network.outputs)
  (other : k ≠ label) (formulation : Formulation)

/-- The variable of a post-activation has its interval as bounds. -/
theorem bounds_of_place {i k : Nat} {v : VarId} {x : Variable ℝ} (made : inclusion.Propagated)
    (place : (Blueprint.layoutOf inclusion formulation.exposesResiduals).slot? (.post i k) = some v)
    (found : (Blueprint.base inclusion formulation).vars[v]? = some x) :
    ∃ range, inclusion.range? i k = some range ∧ x.lower = .num range.lo ∧
      x.upper = .num range.hi := by
  obtain ⟨s, sPlace, isVar⟩ := (made.base_vars_iff formulation v x).mp found
  have same := ((Layout.slots_getElem?_iff _ v s).mpr sPlace).symm.trans
    ((Layout.slots_getElem?_iff _ v _).mpr place)
  rw [Option.some.inj same, inclusion.slotVar?_post] at isVar
  obtain ⟨range, rangeFound, rfl⟩ := Option.map_eq_some_iff.mp isVar
  exact ⟨range, rangeFound, rfl, rfl⟩

/-- The assignment of the corner for a competitor. -/
noncomputable def cornerAssignment (inclusion : Inclusion ℝ) (formulation : Formulation)
    (k : Nat) : Array ℝ :=
  (Blueprint.layoutOf inclusion formulation.exposesResiduals).assignment (inclusion.corner k)

include made in
theorem cornerAssignment_admitted (k : Nat) : (Blueprint.base inclusion formulation).Admits
    (Program.reading (cornerAssignment inclusion formulation k)) :=
  made.assignment_admitted formulation (made.corner_relaxes k) (inclusion.withErrors_fit _)

include made inRange bound other

theorem evalAt_margin_corner {a b : Interval ℝ} (aFound : inclusion.outputBox[label]? = some a)
    (bFound : inclusion.outputBox[k]? = some b) :
    (margin inclusion label formulation k).evalAt
      (Program.reading (cornerAssignment inclusion formulation k)) = a.lo - b.hi := by
  rw [evalAt_margin made inRange bound formulation, cornerAssignment]
  dsimp only
  rw [Layout.read_assignment _ _ (made.slot_output _ inRange),
    Layout.read_assignment _ _ (made.slot_output _ bound), inclusion.corner_low other.symm aFound,
    inclusion.corner_high bFound]

theorem corner_atBest : Dual.AtBest (Blueprint.base inclusion formulation)
    (margin inclusion label formulation k)
    (Program.reading (cornerAssignment inclusion formulation k)) := by
  let l := Blueprint.layoutOf inclusion formulation.exposesResiduals
  have labelPlace := made.slot_output formulation.exposesResiduals inRange
  have rivalPlace := made.slot_output formulation.exposesResiduals bound
  have costs (j : VarId) : Dual.cost (margin inclusion label formulation k) j =
      (if l.post inclusion.depth label = j then 1 else 0) +
        if l.post inclusion.depth k = j then -1 else 0 := by
    rw [margin, marginExpr, Dual.cost_addTerm, Dual.cost_var]
  -- The label alone has a positive cost, and the competitor alone a negative one.
  intro j x found
  rw [costs]
  constructor
  · intro positive
    have isLabel : l.post inclusion.depth label = j := by
      by_contra different
      rw [if_neg different, zero_add] at positive
      split at positive <;> linarith
    obtain ⟨range, rangeFound, lower, -⟩ := bounds_of_place formulation made labelPlace
      (isLabel ▸ found)
    rw [inclusion.range?_depth] at rangeFound
    rw [lower, ← isLabel, cornerAssignment, Layout.reading_assignment _ _ labelPlace,
      inclusion.corner_low other.symm rangeFound]
  · intro negative
    have isRival : l.post inclusion.depth k = j := by
      by_contra different
      rw [if_neg different, add_zero] at negative
      split at negative <;> linarith
    obtain ⟨range, rangeFound, -, upper⟩ := bounds_of_place formulation made rivalPlace
      (isRival ▸ found)
    rw [inclusion.range?_depth] at rangeFound
    rw [upper, ← isRival, cornerAssignment, Layout.reading_assignment _ _ rivalPlace,
      inclusion.corner_high rangeFound]

end Model
end RobustMargin
