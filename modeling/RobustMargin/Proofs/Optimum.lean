import RobustMargin.Proofs.Corner

/-! # Optima of the programs

The boxes of the last layer alone determine the optimum of every program of a model: each margin is
least where the output of the label is lowest and that of the competitor is highest. -/
namespace RobustMargin

namespace Program

/-- The values of the objective at feasible assignments. -/
def objectiveValues (p : Program ℝ) : Set ℝ :=
  p.objective.expr.eval '' { values | p.isFeasible values 0 = true }

/-- The best value of the objective, which some feasible assignment attains. -/
def HasOptimum (p : Program ℝ) (value : ℝ) : Prop :=
  match p.objective.direction with
  | .minimize => IsLeast p.objectiveValues value
  | .maximize => IsGreatest p.objectiveValues value

end Program

/-- The least of the optima of a model's programs, each of which has one. -/
structure Model.HasMargin (m : Model ℝ) (margin : ℝ) : Prop where
  solvable : ∀ p ∈ m.programs, ∃ value, p.program.HasOptimum value
  least : IsLeast { value | ∃ p ∈ m.programs, p.program.HasOptimum value } margin

/-- The least differences of the outputs over their box, one for each competitor. -/
def Inclusion.boxMargins (inclusion : Inclusion ℝ) (label : Nat) : Set ℝ :=
  { margin | ∃ k a b, k < inclusion.network.outputs ∧ k ≠ label ∧
    inclusion.outputBox[label]? = some a ∧ inclusion.outputBox[k]? = some b ∧
    margin = a.lo - b.hi }

namespace Model

variable {inclusion : Inclusion ℝ} (made : inclusion.Propagated) {label : Nat}
  (inRange : label < inclusion.network.outputs) (formulation : Formulation)
include made inRange

/-- The optimum of a primal program is the least difference of two outputs over their box. -/
theorem primal_hasOptimum {p : MarginProgram ℝ}
    (member : p ∈ (ofRelaxation inclusion label formulation).primal) :
    ∃ k a b, k < inclusion.network.outputs ∧ k ≠ label ∧ p.competitor = some k ∧
      inclusion.outputBox[label]? = some a ∧ inclusion.outputBox[k]? = some b ∧
      p.program.HasOptimum (a.lo - b.hi) := by
  obtain ⟨k, bound, other, competitor, direction, objective⟩ :=
    primal_objective made label inRange member
  obtain ⟨a, aFound⟩ := made.output_found inRange
  obtain ⟨b, bFound⟩ := made.output_found bound
  refine ⟨k, a, b, bound, other, competitor, aFound, bFound, ?_⟩
  rw [Program.HasOptimum, direction]
  constructor
  · refine ⟨_, assignment_isFeasible made label member (made.corner_relaxes k)
      (inclusion.withErrors_fit _), ?_⟩
    rw [objective]
    dsimp only
    rw [read_assignment_output made label formulation inRange,
      read_assignment_output made label formulation bound, inclusion.corner_low other.symm aFound,
      inclusion.corner_high bFound]
  · rintro _ ⟨values, feasible, rfl⟩
    obtain ⟨-, relaxes, -⟩ := (primal_isFeasible_iff made label member values).mp feasible
    rw [objective]
    exact sub_le_sub (relaxes.output_mem aFound).1 (relaxes.output_mem bFound).2

theorem robustProgram_hasOptimum {margin : ℝ}
    (least : IsLeast (inclusion.boxMargins label) margin) :
    (robustProgram inclusion label formulation).HasOptimum margin := by
  let base := Blueprint.base inclusion formulation
  let rivals := competitors inclusion.network.outputs label
  have inside (k) (member : k ∈ rivals) :
      (Model.margin inclusion label formulation k).within base.vars.size = true :=
    margin_within made inRange ((mem_competitors label _ k).mp member).1 formulation
  have atCorner {k a b} (bound : k < inclusion.network.outputs) (other : k ≠ label) :=
    evalAt_margin_corner (a := a) (b := b) made inRange bound other formulation
  constructor
  · let values := margin :: rivals.flatMap fun k =>
      Dual.boxMultipliers base (Model.margin inclusion label formulation k)
    obtain ⟨first, rest⟩ := (Placed.cons_iff _ _).mp (Program.placed_reading values)
    have below (k) (member : k ∈ rivals) : Program.reading values.toArray 0 ≤
        (Model.margin inclusion label formulation k).evalAt
          (Program.reading (cornerAssignment inclusion formulation k)) := by
      obtain ⟨bound, other⟩ := (mem_competitors label _ k).mp member
      obtain ⟨a, aFound⟩ := made.output_found inRange
      obtain ⟨b, bFound⟩ := made.output_found bound
      rw [first, atCorner bound other aFound bFound]
      exact least.2 ⟨k, a, b, bound, other, aFound, bFound, rfl⟩
    have best (k) (member : k ∈ rivals) :=
      corner_atBest made inRange ((mem_competitors label _ k).mp member).1
        ((mem_competitors label _ k).mp member).2 formulation
    refine ⟨values.toArray, (Program.isFeasible_zero _ _).mpr ⟨?_, ?_⟩, ?_⟩
    · change values.toArray.size = (Program.extend _ _).vars.size
      rw [Program.size_extend, dualBlocks, vars_blocks_length, List.size_toArray, List.length_cons,
        Nat.add_comm]
      rfl
    · exact (robustProgram_admits_iff _ _ _ _).mpr (blocks_admit_of_corners base
        (Model.margin inclusion label formulation) rivals inside _ best below rest)
    · exact (LinearExpr.evalAt_var 0 _).trans first
  · rintro _ ⟨values, feasible, rfl⟩
    obtain ⟨k, a, b, bound, other, aFound, bFound, rfl⟩ := least.1
    have admitted := (robustProgram_admits_iff _ _ _ _).mp
      ((Program.isFeasible_zero _ values).mp feasible).2
    have below := margin_le_of_admit base (Model.margin inclusion label formulation) rivals inside
      (made.base_rows_within formulation) (cornerAssignment_admitted made formulation k) admitted k
      ((mem_competitors label _ k).mpr ⟨bound, other⟩)
    rw [atCorner bound other aFound bFound] at below
    exact (LinearExpr.evalAt_var 0 (Program.reading values)).trans_le below

omit inRange made in
theorem hasOptimum_unique {p : Program ℝ} {value other : ℝ} (first : p.HasOptimum value)
    (second : p.HasOptimum other) : value = other := by
  unfold Program.HasOptimum at first second
  split at first
  · exact IsLeast.unique first (by simpa [*] using second)
  · exact IsGreatest.unique first (by simpa [*] using second)

omit formulation in
/-- Some competitor comes closest to the label over the box of the outputs. -/
theorem boxMargins_least (rivals : 2 ≤ inclusion.network.outputs) :
    ∃ margin, IsLeast (inclusion.boxMargins label) margin := by
  let competitorSet : Set Nat := { k | k < inclusion.network.outputs ∧ k ≠ label }
  have finite : competitorSet.Finite :=
    (Set.finite_lt_nat inclusion.network.outputs).subset fun k member => member.1
  have nonempty : competitorSet.Nonempty := exists_competitor label rivals
  obtain ⟨a, aFound⟩ := made.output_found inRange
  let high (k : Nat) : ℝ := (inclusion.outputBox[k]?.map (·.hi)).getD 0
  obtain ⟨k, ⟨bound, other⟩, best⟩ := Set.exists_min_image competitorSet (fun k => a.lo - high k)
    finite nonempty
  obtain ⟨b, bFound⟩ := made.output_found bound
  have highFound {j : Nat} {range : Interval ℝ}
      (found : inclusion.outputBox[j]? = some range) : high j = range.hi := by
    rw [show high j = (inclusion.outputBox[j]?.map (·.hi)).getD 0 from rfl, found]
    rfl
  refine ⟨a.lo - b.hi, ⟨k, a, b, bound, other, aFound, bFound, rfl⟩, ?_⟩
  rintro _ ⟨j, c, d, jBound, jOther, cFound, dFound, rfl⟩
  obtain rfl := Option.some.inj (aFound.symm.trans cFound)
  have least := best j ⟨jBound, jOther⟩
  rwa [highFound bFound, highFound dFound] at least

/-- The optima of the primal programs are the least differences over the box of the outputs. -/
theorem primal_optima : { value | ∃ p ∈ (ofRelaxation inclusion label formulation).primal,
    p.program.HasOptimum value } = inclusion.boxMargins label := by
  ext value
  constructor
  · rintro ⟨p, member, attained⟩
    obtain ⟨k, a, b, bound, other, -, aFound, bFound, optimum⟩ :=
      primal_hasOptimum made inRange formulation member
    exact ⟨k, a, b, bound, other, aFound, bFound, hasOptimum_unique attained optimum⟩
  · rintro ⟨k, a, b, bound, other, aFound, bFound, rfl⟩
    have member := (mem_primal_iff inclusion label formulation _).mpr ⟨k, bound, other, rfl⟩
    obtain ⟨j, c, d, -, -, competitor, cFound, dFound, optimum⟩ :=
      primal_hasOptimum made inRange formulation member
    obtain rfl := Option.some.inj competitor
    obtain rfl := Option.some.inj (aFound.symm.trans cFound)
    obtain rfl := Option.some.inj (bFound.symm.trans dFound)
    exact ⟨_, member, optimum⟩

theorem ofRelaxation_hasMargin {margin : ℝ}
    (least : IsLeast (inclusion.boxMargins label) margin) :
    (ofRelaxation inclusion label formulation).HasMargin margin := by
  have solvable (p) (member : p ∈ (ofRelaxation inclusion label formulation).primal) :
      ∃ value, p.program.HasOptimum value := by
    obtain ⟨k, a, b, -, -, -, -, -, optimum⟩ := primal_hasOptimum made inRange formulation member
    exact ⟨_, optimum⟩
  have optima := primal_optima made inRange formulation
  have robust := robustProgram_hasOptimum made inRange formulation least
  cases formulation with
  | direct => exact ⟨solvable, optima ▸ least⟩
  | baked => exact ⟨solvable, optima ▸ least⟩
  | auxiliary =>
      refine ⟨fun p member => ?_, ⟨_, List.mem_singleton_self _, robust⟩, ?_⟩
      · obtain rfl := List.mem_singleton.mp member
        exact ⟨margin, robust⟩
      · rintro value ⟨p, member, attained⟩
        obtain rfl := List.mem_singleton.mp member
        exact (hasOptimum_unique robust attained).le

end Model

/-- The boxes of the outputs depend on the expansion points in no way. -/
theorem Inclusion.boxMargins_congr {inclusion other : Inclusion ℝ} (made : inclusion.Propagated)
    (madeOther : other.Propagated) (input : inclusion.input = other.input)
    (activation : inclusion.activation = other.activation)
    (network : inclusion.network = other.network) (label : Nat) :
    inclusion.boxMargins label = other.boxMargins label := by
  have outputs : inclusion.outputBox = other.outputBox := by
    rw [made.outputBox_eq, madeOther.outputBox_eq, boxAfter, boxAfter, input, activation, network]
  rw [boxMargins, boxMargins, outputs, network]

/-- All formulations have one margin, whatever the expansion points: the least over the competitors
of the lowest output of the label less the highest one of the competitor. Each primal program
attains the difference for its competitor, the program of the common margin attains the least of
them, and the rows of the linearization make no difference to the activations. -/
theorem formulations_agree (input : InputBox ℝ) (f : Activation ℝ) (network : Network ℝ)
    (label : Nat) (inRange : label < network.outputs) (rivals : 2 ≤ network.outputs) :
    ∃ margin, ∀ point inclusion, Inclusion.build input f network point = .ok inclusion →
      IsLeast (inclusion.boxMargins label) margin ∧
      ∀ formulation, ∃ m, Model.build inclusion label formulation = .ok m ∧
        (∀ k < network.outputs, k ≠ label → ∃ p ∈ m.primal, p.competitor = some k) ∧
        (∀ p ∈ m.primal, ∃ k a b, p.competitor = some k ∧
          inclusion.outputBox[label]? = some a ∧ inclusion.outputBox[k]? = some b ∧
          p.program.objective.direction = .minimize ∧ p.program.HasOptimum (a.lo - b.hi)) ∧
        (formulation = .auxiliary → ∃ robust, m.programs = [robust] ∧
          robust.program.objective.direction = .maximize ∧ robust.program.HasOptimum margin) ∧
        (∀ p ∈ m.primal,
          m.projection p.program.withoutTaylor = m.projection p.program) ∧
        m.HasMargin margin := by
  by_cases sizes : input.size = network.inputs
  · obtain ⟨first, builtFirst⟩ : ∃ first, Inclusion.build input f network .postActivation =
        .ok first := ⟨_, Inclusion.build_eq input f network .postActivation sizes⟩
    obtain ⟨madeFirst, rfl, rfl, rfl, -⟩ := (Inclusion.build_eq_ok_iff _ _ _ _ _).mp builtFirst
    obtain ⟨margin, leastFirst⟩ := Model.boxMargins_least madeFirst inRange rivals
    refine ⟨margin, fun point inclusion built => ?_⟩
    obtain ⟨made, input, activation, network, -⟩ :=
      (Inclusion.build_eq_ok_iff _ _ _ _ _).mp built
    -- The margin of one expansion point serves for all, since the outputs have the same box.
    have least := leastFirst
    rw [Inclusion.boxMargins_congr madeFirst made input.symm activation.symm network.symm] at least
    rw [← network] at inRange rivals ⊢
    refine ⟨least, fun formulation => ⟨_, Model.build_eq made inRange rivals formulation,
      ?_, ?_, ?_, ?_, Model.ofRelaxation_hasMargin made inRange formulation least⟩⟩
    · intro k bound other
      exact ⟨_, (Model.mem_primal_iff _ _ _ _).mpr ⟨k, bound, other, rfl⟩, rfl⟩
    · intro p member
      obtain ⟨-, -, -, -, direction, -⟩ := Model.primal_objective made label inRange member
      obtain ⟨k, a, b, -, -, competitor, aFound, bFound, optimum⟩ :=
        Model.primal_hasOptimum made inRange formulation member
      exact ⟨k, a, b, competitor, aFound, bFound, direction, optimum⟩
    · rintro rfl
      exact ⟨_, rfl, rfl, Model.robustProgram_hasOptimum made inRange .auxiliary least⟩
    · intro p member
      exact Model.projection_withoutTaylor made label member
  · refine ⟨0, fun point inclusion built => absurd ?_ sizes⟩
    obtain ⟨made, rfl, rfl, rfl, -⟩ := (Inclusion.build_eq_ok_iff _ _ _ _ _).mp built
    exact made.size_eq

/-- The second power, which is not monotone, with its derivative. -/
noncomputable def Activation.square : Activation ℝ :=
  .custom "square" (fun x => x * x) (fun x => x + x)

/-- Of three outputs the label has two competitors, and the margin is the lesser of their optima. -/
theorem formulations_agree_crossing :
    0 < Network.crossing.outputs ∧ 2 ≤ Network.crossing.outputs ∧
      ∃ margin inclusion m, Inclusion.build .segment .square .crossing .preActivation =
        .ok inclusion ∧ Model.build inclusion 0 .auxiliary = .ok m ∧ m.HasMargin margin ∧
        IsLeast (inclusion.boxMargins 0) margin ∧
        ∃ a b c, inclusion.outputBox[0]? = some a ∧ inclusion.outputBox[1]? = some b ∧
          inclusion.outputBox[2]? = some c ∧ margin = min (a.lo - b.hi) (a.lo - c.hi) := by
  have built := Inclusion.build_eq .segment .square .crossing .preActivation rfl
  obtain ⟨made, -, -, network, -⟩ := (Inclusion.build_eq_ok_iff _ _ _ _ _).mp built
  have three := congrArg Network.outputs network
  change _ = 3 at three
  have inRange : 0 < Network.crossing.outputs := Nat.zero_lt_succ 2
  obtain ⟨margin, agree⟩ := formulations_agree .segment .square .crossing 0 inRange
    Network.crossing_rivals
  obtain ⟨least, models⟩ := agree .preActivation _ built
  obtain ⟨m, modelBuilt, -, -, -, -, hasMargin⟩ := models .auxiliary
  obtain ⟨a, aFound⟩ := made.output_found (three ▸ inRange)
  obtain ⟨b, bFound⟩ := made.output_found (k := 1) (three ▸ by decide)
  obtain ⟨c, cFound⟩ := made.output_found (k := 2) (three ▸ by decide)
  refine ⟨inRange, Network.crossing_rivals, margin, _, m, built, modelBuilt, hasMargin, least,
    a, b, c, aFound, bFound, cFound, le_antisymm (le_min ?_ ?_) ?_⟩
  · exact least.2 ⟨1, a, b, three ▸ by decide, one_ne_zero, aFound, bFound, rfl⟩
  · exact least.2 ⟨2, a, c, three ▸ by decide, two_ne_zero, aFound, cFound, rfl⟩
  · obtain ⟨k, x, y, bound, other, xFound, yFound, rfl⟩ := least.1
    obtain rfl := Option.some.inj (aFound.symm.trans xFound)
    obtain rfl | rfl : k = 1 ∨ k = 2 := by omega
    · obtain rfl := Option.some.inj (bFound.symm.trans yFound)
      exact min_le_left _ _
    · obtain rfl := Option.some.inj (cFound.symm.trans yFound)
      exact min_le_right _ _

end RobustMargin
