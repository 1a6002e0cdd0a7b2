import RobustMargin.Proofs.Certification
import RobustMargin.Proofs.Comparisons
import RobustMargin.Proofs.Readings

/-! # Exact solvers

A solver that finds an optimum wherever there is one makes every solve optimal. The margin reported
is the least one over the relaxation, and the values read back attain the margin over the competitor
that is named, whichever optimal points the solver has chosen. -/
namespace RobustMargin

/-- Every program with an optimum is answered with some feasible point that attains it. -/
def Solver.Exact {σ : Type} (solver : Solver ℝ σ) : Prop :=
  ∀ p value, p.HasOptimum value → ∀ state, ∃ solution next,
    solver.solve p state = (.ok (.optimal solution), next) ∧
      p.isFeasible solution.values 0 = true ∧
      solution.objective = p.objective.expr.eval solution.values ∧ solution.objective = value

theorem Solver.Exact.of_gives {σ : Type} {solver : Solver ℝ σ} (exact : solver.Exact)
    {p : Program ℝ} {value : ℝ} (optimum : p.HasOptimum value) {solution : Solution ℝ}
    (gives : Solve.Gives solver p solution) : p.isFeasible solution.values 0 = true ∧
      solution.objective = p.objective.expr.eval solution.values ∧ solution.objective = value := by
  obtain ⟨before, after, answer⟩ := gives
  obtain ⟨other, next, solved, properties⟩ := exact p value optimum before
  obtain ⟨reply, -⟩ := Prod.mk.inj (answer.symm.trans solved)
  obtain rfl := Outcome.optimal.inj (Except.ok.inj reply)
  exact properties

namespace Inclusion

/-- The margins over a competitor at the points of the relaxation. -/
def margins (inclusion : Inclusion ℝ) (label competitor : Nat) : Set ℝ :=
  (fun val => val (.post inclusion.depth label) - val (.post inclusion.depth competitor)) ''
    { val : Slot → ℝ | inclusion.Relaxes val }

variable {inclusion : Inclusion ℝ}

/-- The least margin is attained in a corner. -/
theorem Propagated.margins_least (made : inclusion.Propagated) {label k : Nat} (other : k ≠ label)
    {a b : Interval ℝ} (aFound : inclusion.outputBox[label]? = some a)
    (bFound : inclusion.outputBox[k]? = some b) :
    IsLeast (inclusion.margins label k) (a.lo - b.hi) := by
  constructor
  · refine ⟨inclusion.corner k, made.corner_relaxes k, ?_⟩
    dsimp only
    rw [inclusion.corner_low other.symm aFound, inclusion.corner_high bFound]
  · rintro _ ⟨val, relaxes, rfl⟩
    exact sub_le_sub (relaxes.output_mem aFound).1 (relaxes.output_mem bFound).2

theorem Propagated.exists_margins_least (made : inclusion.Propagated) {label k : Nat}
    (inRange : label < inclusion.network.outputs) (bound : k < inclusion.network.outputs)
    (other : k ≠ label) : ∃ margin, IsLeast (inclusion.margins label k) margin := by
  obtain ⟨a, aFound⟩ := made.output_found inRange
  obtain ⟨b, bFound⟩ := made.output_found bound
  exact ⟨_, made.margins_least other aFound bFound⟩

/-- The differences over the output box are the least margins of the competitors. -/
theorem Propagated.mem_boxMargins_iff (made : inclusion.Propagated) {label : Nat}
    (inRange : label < inclusion.network.outputs) (y : ℝ) : y ∈ inclusion.boxMargins label ↔
      ∃ k < inclusion.network.outputs, k ≠ label ∧ IsLeast (inclusion.margins label k) y := by
  constructor
  · rintro ⟨k, a, b, bound, other, aFound, bFound, rfl⟩
    exact ⟨k, bound, other, made.margins_least other aFound bFound⟩
  · rintro ⟨k, bound, other, least⟩
    obtain ⟨a, aFound⟩ := made.output_found inRange
    obtain ⟨b, bFound⟩ := made.output_found bound
    exact ⟨k, a, b, bound, other, aFound, bFound,
      least.unique (made.margins_least other aFound bFound)⟩

end Inclusion

namespace Solve

/-- If the competitors of the solutions increase, a tie is won by the lowest one. -/
theorem keepAll_lowest {pairs : List (MarginProgram ℝ × Solution ℝ)}
    (increasing : pairs.Pairwise fun p q =>
      ∀ i j, p.1.competitor = some i → q.1.competitor = some j → i < j)
    {o : Optimum ℝ} (kept : keepAll none pairs = some o) :
    ∃ pair ∈ pairs, o = optimumOf pair.1 pair.2 ∧
      ∀ q ∈ pairs, pair.2.objective ≤ q.2.objective ∧
        ∀ i j, pair.1.competitor = some i → q.1.competitor = some j →
          q.2.objective = pair.2.objective → i ≤ j := by
  obtain ⟨pair, rfl, before, after, rfl, above, notBelow⟩ :=
    keepAll_first pairs (fun _ _ => Scalar.isNumber_real _) kept
  refine ⟨pair, List.mem_append_right _ List.mem_cons_self, rfl, fun q member => ?_⟩
  rcases List.mem_append.mp member with early | late
  · have less := above q early
    exact ⟨less.le, fun _ _ _ _ tie => absurd tie less.ne'⟩
  · rcases List.mem_cons.mp late with rfl | late
    · exact ⟨le_rfl, fun i j first second _ =>
        (Option.some.inj (first.symm.trans second)).le⟩
    · have ordered := (List.pairwise_cons.mp (List.pairwise_append.mp increasing).2.1).1 q late
      exact ⟨notBelow q late, fun i j first second _ => (ordered i j first second).le⟩

theorem tolerance_real (margin : ℝ) : tolerance margin = 1 / 1000000 * max 1 |margin| := by
  have greater : Scalar.greater |margin| 1 = max 1 |margin| := by
    rw [Scalar.greater, if_pos (Scalar.isNumber_real _), max_def]
    by_cases less : |margin| < 1
    · rw [if_pos less, if_neg (not_le.mpr less)]
    · rw [if_neg less, if_pos (not_lt.mp less)]
  have million : (Scalar.ofNat 1000000 : ℝ) = 1000000 := Nat.cast_ofNat
  change 1 / Scalar.ofNat 1000000 * Scalar.greater |margin| 1 = _
  rw [greater, million]

theorem tolerance_nonneg (margin : ℝ) : 0 ≤ tolerance margin := by
  rw [tolerance_real]
  positivity

end Solve

namespace Model

/-- The valuation that an assignment gives, through the layout of a relaxation. -/
noncomputable def valuation (inclusion : Inclusion ℝ) (label : Nat) (formulation : Formulation)
    (values : Array ℝ) : Slot → ℝ :=
  (ofRelaxation inclusion label formulation).layout.read (Program.reading values)

/-- Values of a point of the relaxation at which the margin over a competitor is least. -/
structure AttainedAt (inclusion : Inclusion ℝ) (label : Nat) (formulation : Formulation)
    (values : Array ℝ) (k : Nat) : Prop where
  bound : k < inclusion.network.outputs
  other : k ≠ label
  full : values.size = (Blueprint.base inclusion formulation).vars.size
  relaxes : inclusion.Relaxes (valuation inclusion label formulation values)
  fit : formulation.exposesResiduals = true →
    inclusion.ResidualsFit (valuation inclusion label formulation values)
  least : IsLeast (inclusion.margins label k)
    (valuation inclusion label formulation values (.post inclusion.depth label) -
      valuation inclusion label formulation values (.post inclusion.depth k))

/-- The programs of the competitors come in the order of the competitors. -/
theorem marginPrograms_increasing (inclusion : Inclusion ℝ) (label : Nat)
    (formulation : Formulation) : (marginPrograms inclusion label formulation).Pairwise fun p q =>
      ∀ i j, p.competitor = some i → q.competitor = some j → i < j := by
  refine List.pairwise_map.mpr ((List.pairwise_lt_range.filter _).imp ?_)
  intro i j less first second isFirst isSecond
  obtain rfl := Option.some.inj isFirst
  obtain rfl := Option.some.inj isSecond
  exact less

section PerCompetitor

variable (inclusion : Inclusion ℝ) (label : Nat) {formulation : Formulation}
  (each : formulation.perCompetitor = true)
include each

/-- Where each competitor has a program of its own, these are the programs to solve. -/
theorem ofRelaxation_programs : (ofRelaxation inclusion label formulation).programs =
    (ofRelaxation inclusion label formulation).primal := by
  cases formulation with
  | auxiliary => cases each
  | _ => rfl

theorem keeps_of_perCompetitor {σ : Type} {solver : Solver ℝ σ} {state : σ} {o : Optimum ℝ}
    (kept : (Solve.perCompetitor (ofRelaxation inclusion label formulation) solver
      state).1.solution = some o) :
    Solve.Keeps (ofRelaxation inclusion label formulation) solver state o := by
  refine ⟨_, ?_, kept⟩
  cases formulation with
  | auxiliary => cases each
  | _ => rfl

end PerCompetitor

/-- There is a witness for each certificate. -/
theorem certificates_length {inclusion : Inclusion ℝ} (made : inclusion.Propagated) {label : Nat}
    (inRange : label < inclusion.network.outputs) (rivals : 2 ≤ inclusion.network.outputs) :
    (ofRelaxation inclusion label .auxiliary).certificates.length =
      (ofRelaxation inclusion label .auxiliary).witnesses.length := by
  have built := builtFor_of_build (build_eq made inRange rivals .auxiliary)
  have certificates := congrArg List.length (built.auxiliary rfl).2
  rw [List.length_map] at certificates
  exact certificates.trans (List.length_map _).symm

section Exact

variable {inclusion : Inclusion ℝ} (made : inclusion.Propagated) {label : Nat}
  (inRange : label < inclusion.network.outputs) (formulation : Formulation) {σ : Type}
  {solver : Solver ℝ σ} (exact : solver.Exact)
include made inRange exact

theorem exact_answers {p : MarginProgram ℝ}
    (member : p ∈ (ofRelaxation inclusion label formulation).primal) (state : σ) :
    ∃ solution next, solver.solve p.program state = (.ok (.optimal solution), next) := by
  obtain ⟨k, a, b, -, -, -, -, -, optimum⟩ := primal_hasOptimum made inRange formulation member
  obtain ⟨solution, next, solved, -⟩ := exact p.program _ optimum state
  exact ⟨solution, next, solved⟩

theorem attainedAt_of_gives {p : MarginProgram ℝ}
    (member : p ∈ (ofRelaxation inclusion label formulation).primal) {solution : Solution ℝ}
    (gives : Solve.Gives solver p.program solution) :
    ∃ k, p.competitor = some k ∧ AttainedAt inclusion label formulation solution.values k ∧
      IsLeast (inclusion.margins label k) solution.objective := by
  obtain ⟨k, a, b, bound, other, competitor, aFound, bFound, optimum⟩ :=
    primal_hasOptimum made inRange formulation member
  obtain ⟨feasible, atValues, attained⟩ := exact.of_gives optimum gives
  obtain ⟨size, relaxes, fit⟩ :=
    (primal_isFeasible_iff made label member solution.values).mp feasible
  obtain ⟨j, -, -, sameCompetitor, -, objective⟩ := primal_objective made label inRange member
  obtain rfl := Option.some.inj (sameCompetitor.symm.trans competitor)
  have full : solution.values.size = (Blueprint.base inclusion formulation).vars.size := by
    obtain ⟨i, -, -, rfl⟩ := (mem_primal_iff inclusion label formulation p).mp member
    exact size
  have least := made.margins_least other aFound bFound
  rw [← attained] at least
  refine ⟨_, competitor, ⟨bound, other, full, relaxes, fit, ?_⟩, least⟩
  rw [atValues, objective] at least
  exact least

/-- Solving the programs in turn keeps the margin over the first competitor that comes closest. -/
theorem perCompetitor_of_exact (each : formulation.perCompetitor = true)
    (rivals : 2 ≤ inclusion.network.outputs) (state : σ) :
    ∃ o k, Solve.Keeps (ofRelaxation inclusion label formulation) solver state o ∧
      o.competitor = some k ∧ AttainedAt inclusion label formulation o.values k ∧
      IsLeast (inclusion.margins label k) o.objective ∧
      ∀ j < inclusion.network.outputs, j ≠ label → ∀ y, IsLeast (inclusion.margins label j) y →
        o.objective ≤ y ∧ (y = o.objective → k ≤ j) := by
  let m := ofRelaxation inclusion label formulation
  have primal : m.programs = m.primal := ofRelaxation_programs inclusion label each
  have hasProgram {j : Nat} (bound : j < inclusion.network.outputs) (other : j ≠ label) :
      ∃ p ∈ m.programs, p.competitor = some j := by
    rw [primal]
    exact ⟨_, (mem_primal_iff _ _ _ _).mpr ⟨j, bound, other, rfl⟩, rfl⟩
  obtain ⟨solutions, last, answered⟩ := Solve.exists_answered m.programs
    (fun p member => exact_answers made inRange formulation exact (primal ▸ member)) state
  have notEmpty : m.programs ≠ [] := by
    obtain ⟨j, bound, other⟩ := exists_competitor label rivals
    obtain ⟨p, member, -⟩ := hasProgram bound other
    exact List.ne_nil_of_mem member
  obtain ⟨o, solved⟩ := Solve.perCompetitor_optimal solver m answered notEmpty
  obtain ⟨solutions, last, answered, kept⟩ := Solve.perCompetitor_solution_iff.mp solved
  have attained {pair} (member : pair ∈ m.programs.zip solutions) := by
    obtain ⟨inPrograms, gives⟩ := answered.gives member
    exact attainedAt_of_gives made inRange formulation exact (primal ▸ inPrograms) gives
  have increasing : (m.programs.zip solutions).Pairwise fun p q =>
      ∀ i j, p.1.competitor = some i → q.1.competitor = some j → i < j := by
    have order := marginPrograms_increasing inclusion label formulation
    rw [← ofRelaxation_primal, ← primal, ← List.map_fst_zip answered.length_eq.le] at order
    exact List.pairwise_map.mp order
  obtain ⟨pair, inPairs, rfl, lowest⟩ := Solve.keepAll_lowest increasing kept
  obtain ⟨k, competitor, atValues, attains⟩ := attained inPairs
  refine ⟨_, k, keeps_of_perCompetitor inclusion label each solved, competitor, atValues, attains,
    ?_⟩
  intro j bound other y least
  obtain ⟨p, member, isRival⟩ := hasProgram bound other
  obtain ⟨solution, -, -, paired, -⟩ := answered.solution_of_mem member
  obtain ⟨i, same, -, atRival⟩ := attained paired
  obtain rfl := Option.some.inj (same.symm.trans isRival)
  obtain rfl : solution.objective = y := atRival.unique least
  obtain ⟨notBelow, first⟩ := lowest _ paired
  exact ⟨notBelow, first k _ competitor isRival⟩

/-- The optimum of the auxiliary program is the margin, and the search for a witness ends at
a competitor within the tolerance of it, wherever the dual point has put the bounds. -/
theorem auxiliary_of_exact (rivals : 2 ≤ inclusion.network.outputs) {value : ℝ}
    (least : IsLeast (inclusion.boxMargins label) value) (state : σ) :
    ∃ o k margin, Solve.Keeps (ofRelaxation inclusion label .auxiliary) solver state o ∧
      o.competitor = some k ∧ AttainedAt inclusion label .auxiliary o.values k ∧
      o.objective = value ∧ IsLeast (inclusion.margins label k) margin ∧
      margin ≤ value + Solve.tolerance value := by
  let m := ofRelaxation inclusion label .auxiliary
  obtain ⟨margin, next, solved, feasible, -, rfl⟩ :=
    exact _ value (robustProgram_hasOptimum made inRange .auxiliary least) state
  have full := ((Program.isFeasible_zero _ margin.values).mp feasible).1
  obtain ⟨order, ordered⟩ := Solve.exists_bindingOrder inclusion label full
  have same (p : MarginProgram ℝ) : p ∈ Solve.witnessesIn m order ↔ p ∈ m.primal :=
    (Solve.witnessesIn_perm ordered (certificates_length made inRange rivals)).mem_iff
  obtain ⟨pairs, last, searched⟩ := Solve.exists_searched
    (margin.objective + Solve.tolerance margin.objective) (Solve.witnessesIn m order)
    (fun p member => exact_answers made inRange .auxiliary exact ((same p).mp member)) next
  have attained {pair} (member : pair ∈ pairs) := by
    obtain ⟨inOrder, gives⟩ := searched.gives member
    exact attainedAt_of_gives made inRange .auxiliary exact ((same _).mp inOrder) gives
  -- The competitor that comes closest has a witness, so the search cannot miss the limit.
  obtain ⟨lowest, inPairs, low⟩ : ∃ pair ∈ pairs,
      pair.2.objective ≤ margin.objective + Solve.tolerance margin.objective := by
    obtain ⟨j, bound, other, closest⟩ := (made.mem_boxMargins_iff inRange _).mp least.1
    have member := (mem_primal_iff inclusion label .auxiliary _).mpr ⟨j, bound, other, rfl⟩
    refine searched.exists_low ((same _).mpr member) fun solution gives => ?_
    obtain ⟨i, competitor, -, attains⟩ :=
      attainedAt_of_gives made inRange .auxiliary exact member gives
    obtain rfl := Option.some.inj competitor
    rw [attains.unique closest]
    exact le_add_of_nonneg_right (Solve.tolerance_nonneg _)
  obtain ⟨witness, kept⟩ := Option.isSome_iff_exists.mp
    (Solve.keepAll_isSome none pairs (.inr (List.ne_nil_of_mem inPairs)))
  have notAbove := (Solve.keepAll_le pairs none kept).2 lowest inPairs
  obtain ⟨pair, member, rfl⟩ := (Solve.keepAll_mem pairs none kept).resolve_left
    (Option.some_ne_none witness).symm
  obtain ⟨k, competitor, atValues, attains⟩ := attained member
  refine ⟨_, k, _, Solve.auxiliary_solution_iff.mpr ⟨_, [], margin, next, order, pairs, last, _,
    rfl, solved, ordered, searched, kept, rfl⟩, competitor, atValues, rfl, attains,
    notAbove.trans low⟩

/-- Every formulation reports the least margin with a competitor that is close to it; where
competitors have programs of their own, it is the first one that attains it. -/
theorem run_of_exact (rivals : 2 ≤ inclusion.network.outputs) {value : ℝ}
    (least : IsLeast (inclusion.boxMargins label) value) (state : σ) :
    ∃ o k margin, Solve.Keeps (ofRelaxation inclusion label formulation) solver state o ∧
      o.competitor = some k ∧ AttainedAt inclusion label formulation o.values k ∧
      o.objective = value ∧ IsLeast (inclusion.margins label k) margin ∧
      margin ≤ value + Solve.tolerance value ∧
      (formulation.perCompetitor = true → margin = value ∧
        ∀ j < inclusion.network.outputs, j ≠ label → IsLeast (inclusion.margins label j) value →
          k ≤ j) := by
  by_cases each : formulation.perCompetitor = true
  · obtain ⟨o, k, optimal, competitor, atValues, attains, first⟩ :=
      perCompetitor_of_exact made inRange formulation exact each rivals state
    obtain ⟨j, bound, other, closest⟩ := (made.mem_boxMargins_iff inRange _).mp least.1
    have isValue : o.objective = value := by
      refine le_antisymm (first j bound other value closest).1 (least.2 ?_)
      exact (made.mem_boxMargins_iff inRange _).mpr ⟨k, atValues.bound, atValues.other, attains⟩
    subst isValue
    refine ⟨o, k, _, optimal, competitor, atValues, rfl, attains,
      le_add_of_nonneg_right (Solve.tolerance_nonneg _), fun _ => ⟨rfl, ?_⟩⟩
    intro j bound other attained
    exact (first j bound other _ attained).2 rfl
  · have isAuxiliary : formulation = .auxiliary := by
      cases formulation with
      | auxiliary => rfl
      | _ => exact absurd rfl each
    subst isAuxiliary
    obtain ⟨o, k, margin, optimal, competitor, atValues, isValue, attains, close⟩ :=
      auxiliary_of_exact made inRange exact rivals least state
    exact ⟨o, k, margin, optimal, competitor, atValues, isValue, attains, close,
      fun common => absurd common each⟩

end Exact

end Model

namespace Verification

/-- What can be read of the neurons of a network are the values of a valuation. -/
structure Reads (v : Verification ℝ) (network : Network ℝ) (val : Slot → ℝ) : Prop where
  x : ∀ layer k, network.HasNeuron layer k → v.xValue layer k = .ok (val (.post layer k))
  z : ∀ layer k, 0 < layer → network.HasNeuron layer k →
    v.zValue layer k = .ok (val (.pre layer k))
  residual : v.formulation.exposesResiduals = true → ∀ layer k, 0 < layer →
    network.HasNeuron layer k → v.residualValue layer k = .ok (val (.residual layer k))

theorem reads_of_optimal {inclusion : Inclusion ℝ} (made : inclusion.Propagated) {label : Nat}
    {formulation : Formulation} {o : Optimum ℝ}
    (full : o.values.size = (Blueprint.base inclusion formulation).vars.size) :
    Reads ⟨inclusion, Model.ofRelaxation inclusion label formulation,
        .solved (.optimal o.objective), some o⟩
      inclusion.network (Model.valuation inclusion label formulation o.values) := by
  let v : Verification ℝ := ⟨inclusion, Model.ofRelaxation inclusion label formulation,
    .solved (.optimal o.objective), some o⟩
  have exposes : v.formulation.exposesResiduals = formulation.exposesResiduals := by
    cases formulation <;> rfl
  have values {s : Slot} (name : String)
      (placed : ∃ index, (Blueprint.layoutOf inclusion formulation.exposesResiduals).slot? s =
        some index) : v.valueOf (v.model.layout.slot? s) name =
          .ok (Model.valuation inclusion label formulation o.values s) := by
    obtain ⟨index, place⟩ := placed
    have bound : index < o.values.size := full ▸ made.slot_lt_size formulation place
    rw [← Model.ofRelaxation_slot? inclusion label formulation] at place
    refine (v.valueOf_eq_ok_iff _ _ _).mpr ⟨o, index, rfl, place, ?_⟩
    rw [Model.valuation, Layout.read_of_slot _ _ place, Program.reading,
      Array.getD_eq_getD_getElem?, Array.getElem?_eq_getElem bound, Option.getD_some]
  constructor
  · intro layer k present
    exact values _ ((made.exists_slot_post_iff _ layer k).mpr present)
  · intro layer k positive present
    exact values _ ((made.exists_slot_pre_iff _ layer k).mpr ⟨positive, present⟩)
  · intro isVar layer k positive present
    rw [v.residualValue_of_present isVar]
    exact values _ ((made.exists_slot_residual_iff _ layer k).mpr
      ⟨exposes.symm.trans isVar, positive, present⟩)

end Verification

/-- With an exact solver every solve is optimal and reports the least margin of all competitors over
the relaxation. The values read back are a point of the relaxation that attains the margin over the
competitor that is named: the lowest closest one where each competitor has a program of its own, and
one within the tolerance of a witness in the auxiliary formulation. -/
theorem exact_solvers_attain_margins (input : InputBox ℝ) (f : Activation ℝ) (network : Network ℝ)
    (point : Linearization) (inclusion : Inclusion ℝ)
    (built : Inclusion.build input f network point = .ok inclusion) (label : Nat)
    (inRange : label < network.outputs) (rivals : 2 ≤ network.outputs) :
    ∃ (margin : Nat → ℝ) (value : ℝ),
      (∀ k < network.outputs, k ≠ label → IsLeast (inclusion.margins label k) (margin k)) ∧
      IsLeast { y | ∃ k < network.outputs, k ≠ label ∧ y = margin k } value ∧
      ∀ (formulation : Formulation) (σ : Type) (solver : Solver ℝ σ), solver.Exact → ∀ state,
        ∃ v s c val, Verification.withLabel inclusion label formulation = .ok v ∧
          v.solve solver state = some (.ok s) ∧
          s.verification.status? = some (.optimal value) ∧
          s.verification.objective = .ok value ∧
          s.verification.worstCompetitor = .ok (some c) ∧ c < network.outputs ∧ c ≠ label ∧
          s.verification.Reads network val ∧ inclusion.Relaxes val ∧
          (formulation.exposesResiduals = true → inclusion.ResidualsFit val) ∧
          val (.post inclusion.depth label) - val (.post inclusion.depth c) = margin c ∧
          margin c ≤ value + 1 / 1000000 * max 1 |value| ∧
          (formulation.perCompetitor = true → margin c = value ∧
            ∀ k < network.outputs, k ≠ label → margin k = value → c ≤ k) := by
  obtain ⟨made, -, -, rfl, -⟩ := (Inclusion.build_eq_ok_iff _ _ _ _ _).mp built
  let margin (k : Nat) : ℝ := sInf (inclusion.margins label k)
  have leastOf {k : Nat} {y : ℝ} (least : IsLeast (inclusion.margins label k) y) : margin k = y :=
    least.csInf_eq
  have margins (k) (bound : k < inclusion.network.outputs) (other : k ≠ label) :
      IsLeast (inclusion.margins label k) (margin k) := by
    obtain ⟨y, least⟩ := made.exists_margins_least inRange bound other
    rwa [leastOf least]
  have boxMargins : { y | ∃ k < inclusion.network.outputs, k ≠ label ∧ y = margin k } =
      inclusion.boxMargins label := by
    ext y
    rw [made.mem_boxMargins_iff inRange]
    refine exists_congr fun k => and_congr_right fun bound => and_congr_right fun other => ?_
    exact ⟨fun same => same ▸ margins k bound other, fun least => (leastOf least).symm⟩
  obtain ⟨value, least⟩ := Model.boxMargins_least made inRange rivals
  refine ⟨margin, value, margins, boxMargins ▸ least, fun formulation σ solver exact state => ?_⟩
  obtain ⟨o, c, m, ⟨⟨solution, status, fallsShort⟩, ended, kept⟩, competitor, atValues, rfl,
    attains, close, first⟩ := Model.run_of_exact made inRange formulation exact rivals least state
  obtain rfl : solution = some o := kept
  obtain rfl : status = .optimal o.objective := (Solve.run_settled ended).status_eq
  obtain rfl := leastOf attains
  refine ⟨⟨inclusion, Model.ofRelaxation inclusion label formulation, .built, none⟩, _, c, _,
    Verification.withLabel_eq made inRange rivals formulation,
    Verification.solve_eq rfl ended, rfl, rfl,
    congrArg Except.ok competitor, atValues.bound, atValues.other,
    Verification.reads_of_optimal made atValues.full, atValues.relaxes, atValues.fit,
    atValues.least.unique attains, Solve.tolerance_real o.objective ▸ close, fun each => ?_⟩
  obtain ⟨isValue, lowest⟩ := first each
  refine ⟨isValue, fun k bound other same => lowest k bound other ?_⟩
  exact same ▸ margins k bound other

theorem Solver.choosing_exact : choosing.Exact := by
  intro p value optimum state
  obtain ⟨solution, next, answer⟩ := choosing_of_hasOptimum optimum state
  obtain ⟨feasible, atValues, attains⟩ := choosing_answers answer
  exact ⟨solution, next, answer, feasible, atValues, Model.hasOptimum_unique attains optimum⟩

/-- The margin is the lesser one of two competitors, and programs of their own name the first of the
two that attains it. -/
theorem exact_solvers_attain_margins_crossing :
    0 < Network.crossing.outputs ∧ 2 ≤ Network.crossing.outputs ∧ Solver.choosing.Exact ∧
      ∃ inclusion first second,
        Inclusion.build .segment .square .crossing .preActivation = .ok inclusion ∧
        IsLeast (inclusion.margins 0 1) first ∧ IsLeast (inclusion.margins 0 2) second ∧
        ∀ formulation, ∃ v s c, Verification.withLabel inclusion 0 formulation = .ok v ∧
          v.solve .choosing () = some (.ok s) ∧
          s.verification.objective = .ok (min first second) ∧
          s.verification.worstCompetitor = .ok (some c) ∧ (c = 1 ∨ c = 2) ∧
          (formulation.perCompetitor = true → (c = 1 ↔ first ≤ second)) := by
  have built := Inclusion.build_eq .segment .square .crossing .preActivation rfl
  have inRange : 0 < Network.crossing.outputs := Nat.zero_lt_succ 2
  obtain ⟨margin, value, margins, least, solves⟩ := exact_solvers_attain_margins .segment .square
    .crossing .preActivation _ built 0 inRange Network.crossing_rivals
  have either {k : Nat} (bound : k < Network.crossing.outputs) (other : k ≠ 0) :
      k = 1 ∨ k = 2 := by
    change k < 3 at bound
    omega
  have one : 1 < Network.crossing.outputs := Network.crossing_rivals
  have two : 2 < Network.crossing.outputs := Nat.lt_succ_self 2
  have isMin : value = min (margin 1) (margin 2) := by
    refine le_antisymm (le_min (least.2 ⟨1, one, one_ne_zero, rfl⟩)
      (least.2 ⟨2, two, two_ne_zero, rfl⟩)) ?_
    obtain ⟨k, bound, other, rfl⟩ := least.1
    rcases either bound other with rfl | rfl
    · exact min_le_left _ _
    · exact min_le_right _ _
  refine ⟨inRange, Network.crossing_rivals, Solver.choosing_exact, _, margin 1, margin 2, built,
    margins 1 one one_ne_zero, margins 2 two two_ne_zero, fun formulation => ?_⟩
  obtain ⟨v, s, c, -, started, solved, -, objective, competitor, bound, other, -, -, -, -, -,
    first⟩ := solves formulation Unit .choosing Solver.choosing_exact ()
  refine ⟨v, s, c, started, solved, isMin ▸ objective, competitor, either bound other,
    fun each => ?_⟩
  obtain ⟨attained, lowest⟩ := first each
  constructor
  · rintro rfl
    exact min_eq_left_iff.mp (isMin.symm.trans attained.symm)
  · intro le
    have atFirst : margin 1 = value := (isMin.trans (min_eq_left le)).symm
    exact le_antisymm (lowest 1 one one_ne_zero atFirst) (Nat.one_le_iff_ne_zero.mpr other)

end RobustMargin
