import RobustMargin.Proofs.Optimum
import RobustMargin.Proofs.Readings

/-! # Certified margins

The margin of an optimal solve bounds the outputs of the network on every point of the input box:
the label exceeds each competitor by at least the margin. -/
namespace RobustMargin

/-- On every point of a box the output of a label exceeds all others by a margin. -/
def Network.Separates (network : Network ℝ) (f : Activation ℝ) (box : List (Interval ℝ))
    (label : Nat) (margin : ℝ) : Prop :=
  ∀ x, InBox x box → ∃ outputs, network.forward f x = .ok outputs ∧
    ∀ k < network.outputs, k ≠ label →
      ∃ a b, outputs[label]? = some a ∧ outputs[k]? = some b ∧ margin ≤ a - b

theorem Network.Separates.mono {network : Network ℝ} {f : Activation ℝ}
    {box : List (Interval ℝ)} {label : Nat} {margin less : ℝ}
    (separated : network.Separates f box label margin) (le : less ≤ margin) :
    network.Separates f box label less := by
  intro x inside
  obtain ⟨outputs, forward, exceeds⟩ := separated x inside
  refine ⟨outputs, forward, fun k bound other => ?_⟩
  obtain ⟨a, b, aFound, bFound, below⟩ := exceeds k bound other
  exact ⟨a, b, aFound, bFound, le.trans below⟩

namespace Model

variable {inclusion : Inclusion ℝ} (made : inclusion.Propagated) {label : Nat}
  (inRange : label < inclusion.network.outputs) (formulation : Formulation)
include made inRange

/-- An assignment to the program of the common margin keeps it below the objectives of all primal
programs. -/
theorem robustProgram_le {dual : Array ℝ}
    (dualFeasible : (robustProgram inclusion label formulation).isFeasible dual 0 = true)
    {p : MarginProgram ℝ} (member : p ∈ (ofRelaxation inclusion label formulation).primal)
    {values : Array ℝ} (feasible : p.program.isFeasible values 0 = true) :
    (robustProgram inclusion label formulation).objective.expr.eval dual ≤
      p.program.objective.expr.eval values := by
  obtain ⟨k, bound, other, rfl⟩ := (mem_primal_iff inclusion label formulation p).mp member
  have primal := (marginProgram_admits_iff _ _ k _).mp
    ((Program.isFeasible_zero _ values).mp feasible).2
  have admitted := (robustProgram_admits_iff _ _ _ _).mp
    ((Program.isFeasible_zero _ dual).mp dualFeasible).2
  have below := margin_le_of_admit _ (margin inclusion label formulation)
    (competitors inclusion.network.outputs label)
    (fun j inRivals =>
      margin_within made inRange ((mem_competitors label _ j).mp inRivals).1 formulation)
    (made.base_rows_within formulation) primal admitted k
    ((mem_competitors label _ k).mpr ⟨bound, other⟩)
  exact (LinearExpr.evalAt_var 0 (Program.reading dual)).trans_le below

/-- The margin that a sound solver reports lies below the objective of each primal program at every
feasible assignment. -/
theorem reported_le {σ : Type} {solver : Solver ℝ σ} (sound : solver.Sound) (state : σ)
    {c : Conclusion ℝ}
    (ended : (Solve.run (ofRelaxation inclusion label formulation) solver state).1 = some c)
    {value : ℝ} (optimal : c.status = .optimal value) {p : MarginProgram ℝ}
    (member : p ∈ (ofRelaxation inclusion label formulation).primal)
    {values : Array ℝ} (feasible : p.program.isFeasible values 0 = true) :
    value ≤ p.program.objective.expr.eval values := by
  obtain ⟨-, -, -, -, minimize, -⟩ := primal_objective made label inRange member
  cases formulation with
  | direct =>
      obtain rfl := Option.some.inj ended
      exact Solve.perCompetitor_le sound _ state optimal member minimize feasible
  | baked =>
      obtain rfl := Option.some.inj ended
      exact Solve.perCompetitor_le sound _ state optimal member minimize feasible
  | auxiliary =>
      have certified : (Solve.auxiliary (ofRelaxation inclusion label .auxiliary) solver
          state).1 = some c := ended
      obtain ⟨robust, rest, dual, programs, dualFeasible, rfl⟩ :=
        Solve.auxiliary_optimal sound _ state certified optimal
      obtain ⟨rfl, -⟩ := List.cons.inj programs
      exact robustProgram_le made inRange .auxiliary dualFeasible member feasible

theorem separates_of_optimal (monotone : inclusion.activation.Monotonic) {σ : Type}
    {solver : Solver ℝ σ} (sound : solver.Sound) (state : σ) {c : Conclusion ℝ}
    (ended : (Solve.run (ofRelaxation inclusion label formulation) solver state).1 = some c)
    {value : ℝ} (optimal : c.status = .optimal value) :
    inclusion.network.Separates inclusion.activation inclusion.input.box label value := by
  intro x inside
  obtain ⟨outputs, forward, values⟩ := forward_trajectory made inside
  refine ⟨outputs, forward, fun k bound other => ⟨_, _, values label inRange, values k bound, ?_⟩⟩
  have member := (mem_primal_iff inclusion label formulation _).mpr ⟨k, bound, other, rfl⟩
  have feasible := assignment_isFeasible made label member
    (made.trajectory_relaxes monotone inside) (inclusion.withErrors_fit _)
  have below := reported_le made inRange formulation sound state ended optimal member feasible
  obtain ⟨j, jBound, -, competitor, -, objective⟩ := primal_objective made label inRange member
  obtain rfl := Option.some.inj competitor
  rw [objective] at below
  dsimp only at below
  rwa [read_assignment_output made label formulation inRange,
    read_assignment_output made label formulation bound] at below

end Model

/-- Verification is sound from end to end: whatever a sound solver answers, the margin of an optimal
solve separates the label from all competitors on the whole input box, and a robust verdict means
that no competitor exceeds the label there. -/
theorem margins_certified {σ : Type} (input : InputBox ℝ) (f : Activation ℝ) (network : Network ℝ)
    (point : Linearization) (sizes : input.size = network.inputs) (monotone : f.Monotonic)
    (label : Nat) (formulation : Formulation) (solver : Solver ℝ σ) (sound : solver.Sound)
    (state : σ) :
    ∃ inclusion, Inclusion.build input f network point = .ok inclusion ∧
      (label < network.outputs → 2 ≤ network.outputs →
        ∃ v, Verification.withLabel inclusion label formulation = .ok v) ∧
      ∀ v, Verification.withLabel inclusion label formulation = .ok v →
        ∃ s, v.solve solver state = some (.ok s) ∧
          (∀ value, s.verification.status? = some (.optimal value) →
            network.Separates f input.box label value) ∧
          ∀ margin, s.verification.verdict = .ok (.robust margin) →
            network.Separates f input.box label 0 := by
  obtain ⟨inclusion, built⟩ : ∃ inclusion, Inclusion.build input f network point = .ok inclusion :=
    ⟨_, Inclusion.build_eq input f network point sizes⟩
  obtain ⟨made, rfl, rfl, rfl, -⟩ := (Inclusion.build_eq_ok_iff _ _ _ _ _).mp built
  refine ⟨inclusion, built, fun inRange rivals => ?_, fun v started => ?_⟩
  · exact ⟨⟨inclusion, _, .built, none⟩, by
      rw [Verification.withLabel, Model.build_eq made inRange rivals formulation]
      rfl⟩
  · obtain ⟨rfl, model⟩ := Verification.eq_of_withLabel started
    have inRange := model.inRange
    obtain ⟨c, ended⟩ := Solve.exists_conclusion inclusion label formulation
      (.inr sound.fullLength) state
    have separates (value) (optimal : c.status = .optimal value) :=
      Model.separates_of_optimal made inRange formulation monotone sound state ended optimal
    refine ⟨_, Verification.solve_eq rfl ended,
      fun value optimal => separates value (Option.some.inj optimal), ?_⟩
    intro margin robust
    have isRobust : (Verdict.ofStatus c.status).isRobust = true :=
      congrArg Verdict.isRobust (Except.ok.inj robust)
    obtain ⟨value, optimal, notNegative⟩ := (Verdict.isRobust_ofStatus_iff _).mp isRobust
    exact (separates value optimal).mono notNegative

open Classical in
/-- A solver that chooses an optimal assignment wherever there is one. -/
noncomputable def Solver.choosing : Solver ℝ Unit :=
  .ofFunction "choosing" fun p =>
    if solvable : ∃ values, p.isFeasible values 0 = true ∧
        p.HasOptimum (p.objective.expr.eval values) then
      .ok (.optimal ⟨solvable.choose, p.objective.expr.eval solvable.choose⟩)
    else .ok .infeasible

theorem Solver.choosing_answers {p : Program ℝ} {solution : Solution ℝ} {state next : Unit}
    (answer : choosing.solve p state = (.ok (.optimal solution), next)) :
    p.isFeasible solution.values 0 = true ∧
      solution.objective = p.objective.expr.eval solution.values ∧
      p.HasOptimum solution.objective := by
  have reply := (Prod.mk.inj answer).1
  dsimp only [choosing, ofFunction] at reply
  split at reply
  · rename_i solvable
    obtain rfl := Outcome.optimal.inj (Except.ok.inj reply)
    exact ⟨solvable.choose_spec.1, rfl, solvable.choose_spec.2⟩
  · cases Except.ok.inj reply

theorem Solver.choosing_sound : choosing.Sound where
  feasible := fun _ _ _ _ answer => (choosing_answers answer).1
  objective := fun _ _ _ _ answer => (choosing_answers answer).2.1
  minimal := by
    intro p state solution next answer minimize values feasible
    have optimum := (choosing_answers answer).2.2
    rw [Program.HasOptimum, minimize] at optimum
    exact optimum.2 ⟨values, feasible, rfl⟩

theorem Solver.choosing_of_hasOptimum {p : Program ℝ} {value : ℝ} (optimum : p.HasOptimum value)
    (state : Unit) : ∃ solution next, choosing.solve p state = (.ok (.optimal solution), next) := by
  have solvable : ∃ values, p.isFeasible values 0 = true ∧
      p.HasOptimum (p.objective.expr.eval values) := by
    have attained : value ∈ p.objectiveValues := by
      unfold Program.HasOptimum at optimum
      split at optimum
      · exact optimum.1
      · exact optimum.1
    obtain ⟨values, feasible, rfl⟩ := attained
    exact ⟨values, feasible, optimum⟩
  exact ⟨_, (), Prod.ext (dif_pos solvable) rfl⟩

/-- A solver with a solution for each program that has an optimum solves the programs of the
competitors. -/
theorem Model.solves_of_answers {σ : Type} {solver : Solver ℝ σ}
    (answers : ∀ (p : Program ℝ) (value : ℝ), p.HasOptimum value → ∀ state,
      ∃ solution next, solver.solve p state = (.ok (.optimal solution), next))
    {inclusion : Inclusion ℝ} (made : inclusion.Propagated) {label : Nat}
    (inRange : label < inclusion.network.outputs) (rivals : 2 ≤ inclusion.network.outputs)
    (state : σ) :
    ∃ c value, (Solve.run (ofRelaxation inclusion label .direct) solver state).1 = some c ∧
      c.status = .optimal value := by
  let m := ofRelaxation inclusion label .direct
  have each (p) (member : p ∈ m.programs) (state : σ) :
      ∃ solution next, solver.solve p.program state = (.ok (.optimal solution), next) := by
    obtain ⟨k, a, b, -, -, -, -, -, optimum⟩ := primal_hasOptimum made inRange .direct member
    exact answers _ _ optimum state
  obtain ⟨margin, least⟩ := boxMargins_least made inRange rivals
  obtain ⟨p, member, -⟩ := (ofRelaxation_hasMargin made inRange .direct least).least.1
  obtain ⟨solutions, last, answered⟩ := Solve.exists_answered m.programs each state
  obtain ⟨optimum, solved⟩ := Solve.perCompetitor_optimal solver m answered
    (List.ne_nil_of_mem member)
  exact ⟨_, _, rfl, (solved ▸ Solve.perCompetitor_settled).status_eq⟩

theorem margins_certified_crossing :
    InputBox.segment.size = Network.crossing.inputs ∧ Activation.cube.Monotonic ∧
      Solver.choosing.Sound ∧
      ∃ inclusion v s value,
        Inclusion.build .segment .cube .crossing .postActivation = .ok inclusion ∧
        Verification.withLabel inclusion 0 .direct = .ok v ∧
        v.solve .choosing () = some (.ok s) ∧
        s.verification.status? = some (.optimal value) ∧
        Network.crossing.Separates .cube InputBox.segment.box 0 value := by
  obtain ⟨inclusion, built, starts, certifies⟩ := margins_certified .segment .cube .crossing
    .postActivation rfl Activation.cube_monotonic 0 .direct .choosing Solver.choosing_sound ()
  obtain ⟨made, -, -, network, -⟩ := (Inclusion.build_eq_ok_iff _ _ _ _ _).mp built
  obtain ⟨v, started⟩ := starts (Nat.zero_lt_succ 2) Network.crossing_rivals
  obtain ⟨s, solved, separates, -⟩ := certifies v started
  obtain ⟨rfl, model⟩ := Verification.eq_of_withLabel started
  have rivals := Network.crossing_rivals
  rw [← network] at rivals
  obtain ⟨c, value, ended, optimal⟩ := Model.solves_of_answers
    (fun _ _ => Solver.choosing_of_hasOptimum) made model.inRange rivals ()
  obtain rfl := Except.ok.inj (Option.some.inj
    (solved.symm.trans (Verification.solve_eq rfl ended)))
  have status := congrArg some optimal
  exact ⟨rfl, Activation.cube_monotonic, Solver.choosing_sound, inclusion, _, _, value, built,
    started, solved, status, separates value status⟩

end RobustMargin
