import RobustMargin.Proofs.Conclusions
import RobustMargin.Proofs.Feasibility

/-! # Runs of a solver

A run over the programs of a model succeeds if every answer is a solution. It keeps the solution
with the least objective. -/
namespace RobustMargin

/-- Optimal answers are feasible, carry the value of the objective, and for programs to minimize no
feasible assignment has a lesser one. -/
structure Solver.Sound {σ : Type} (solver : Solver ℝ σ) : Prop where
  feasible : ∀ p state solution next,
    solver.solve p state = (.ok (.optimal solution), next) → p.isFeasible solution.values 0 = true
  objective : ∀ p state solution next, solver.solve p state = (.ok (.optimal solution), next) →
    solution.objective = p.objective.expr.eval solution.values
  minimal : ∀ p state solution next, solver.solve p state = (.ok (.optimal solution), next) →
    p.objective.direction = .minimize → ∀ values, p.isFeasible values 0 = true →
      solution.objective ≤ p.objective.expr.eval values

/-- Optimal answers have a value for every variable. -/
def Solver.FullLength {α σ : Type} (solver : Solver α σ) : Prop :=
  ∀ p state solution next, solver.solve p state = (.ok (.optimal solution), next) →
    solution.values.size = p.vars.size

theorem Solver.Sound.fullLength {σ : Type} {solver : Solver ℝ σ} (sound : solver.Sound) :
    solver.FullLength := by
  intro p state solution next answer
  have feasible := sound.feasible p state solution next answer
  exact ((Program.isFeasible_zero p solution.values).mp feasible).1

namespace Solve

section Runs

variable {α σ : Type} [Scalar α] (solver : Solver α σ)

/-- The solver answers programs in turn with solutions. -/
inductive Answered : σ → List (MarginProgram α) → List (Solution α) → σ → Prop
  | nil (state : σ) : Answered state [] [] state
  | cons {state next last : σ} {p : MarginProgram α} {rest : List (MarginProgram α)}
      {solution : Solution α} {solutions : List (Solution α)} :
      solver.solve p.program state = (.ok (.optimal solution), next) →
      Answered next rest solutions last →
      Answered state (p :: rest) (solution :: solutions) last

/-- The best optimum after some solutions. -/
def keepAll (best : Option (Optimum α)) (pairs : List (MarginProgram α × Solution α)) :
    Option (Optimum α) :=
  pairs.foldl (fun best p => some (keepLesser best (optimumOf p.1 p.2))) best

theorem solutionOf_eq_ok_iff (name : String) (answer : Answer α) (solution : Solution α) :
    solutionOf name answer = .ok solution ↔ answer = .ok (.optimal solution) := by
  match answer with
  | .ok (.optimal found) => simp [solutionOf]
  | .ok .infeasible => simp [solutionOf]
  | .ok .unbounded => simp [solutionOf]
  | .error e => simp [solutionOf]

/-- Solving every program in turn is a run in which all are answered. -/
theorem eachCompetitor_eq_ok_iff (best : Option (Optimum α)) (programs : List (MarginProgram α))
    (state last : σ) (result : Option (Optimum α)) :
    eachCompetitor solver best programs state = (.ok result, last) ↔
      ∃ solutions, Answered solver state programs solutions last ∧
        result = keepAll best (programs.zip solutions) := by
  induction programs generalizing best state with
  | nil =>
      constructor
      · intro run
        obtain ⟨sameResult, sameState⟩ := Prod.mk.inj run
        obtain rfl := Except.ok.inj sameResult
        obtain rfl := sameState
        exact ⟨[], .nil state, rfl⟩
      · rintro ⟨solutions, answered, rfl⟩
        cases answered
        rfl
  | cons p rest ih =>
      rw [eachCompetitor]
      rcases answer : solver.solve p.program state with ⟨reply, next⟩
      cases found : solutionOf solver.name reply with
      | error cause =>
          -- The run ends here, and a relation that goes on would contradict the answer.
          constructor
          · intro run
            simp only [found] at run
            cases (Prod.mk.inj run).1
          · rintro ⟨solutions, answered, -⟩
            cases answered with
            | cons solved _ =>
                obtain ⟨rfl, -⟩ := Prod.mk.inj (answer.symm.trans solved)
                cases found
      | ok solution =>
          have optimal := (solutionOf_eq_ok_iff _ _ _).mp found
          simp only [found]
          rw [ih]
          constructor
          · rintro ⟨solutions, answered, kept⟩
            exact ⟨solution :: solutions, .cons (optimal ▸ answer) answered, kept⟩
          · rintro ⟨solutions, answered, kept⟩
            cases answered with
            | cons solved later =>
                obtain ⟨same, rfl⟩ := Prod.mk.inj (answer.symm.trans solved)
                rw [optimal] at same
                obtain rfl := Outcome.optimal.inj (Except.ok.inj same)
                exact ⟨_, later, kept⟩

omit [Scalar α] in
theorem Answered.solution_of_mem {solver : Solver α σ} {state last : σ}
    {programs : List (MarginProgram α)} {solutions : List (Solution α)}
    (answered : Answered solver state programs solutions last) {p : MarginProgram α}
    (member : p ∈ programs) : ∃ solution before after, (p, solution) ∈ programs.zip solutions ∧
      solver.solve p.program before = (.ok (.optimal solution), after) := by
  induction answered with
  | nil => cases member
  | cons solved _ ih =>
      rcases List.mem_cons.mp member with rfl | inRest
      · exact ⟨_, _, _, List.mem_cons_self, solved⟩
      · obtain ⟨solution, before, after, paired, answer⟩ := ih inRest
        exact ⟨solution, before, after, List.mem_cons_of_mem _ paired, answer⟩

omit [Scalar α] in
/-- A solver with an answer to each program answers them all. -/
theorem exists_answered {solver : Solver α σ} (programs : List (MarginProgram α))
    (answers : ∀ p ∈ programs, ∀ state, ∃ solution next,
      solver.solve p.program state = (.ok (.optimal solution), next)) (state : σ) :
    ∃ solutions last, Answered solver state programs solutions last := by
  induction programs generalizing state with
  | nil => exact ⟨[], state, .nil state⟩
  | cons p rest ih =>
      rw [List.forall_mem_cons] at answers
      obtain ⟨solution, next, solved⟩ := answers.1 state
      obtain ⟨solutions, last, answered⟩ := ih answers.2 next
      exact ⟨solution :: solutions, last, .cons solved answered⟩

omit [Scalar α] in
theorem Answered.length_eq {solver : Solver α σ} {state last : σ}
    {programs : List (MarginProgram α)} {solutions : List (Solution α)}
    (answered : Answered solver state programs solutions last) :
    programs.length = solutions.length := by
  induction answered with
  | nil => rfl
  | cons _ _ ih => exact congrArg Nat.succ ih

theorem keepAll_isSome (best : Option (Optimum α)) (pairs : List (MarginProgram α × Solution α))
    (some_first : best.isSome = true ∨ pairs ≠ []) : (keepAll best pairs).isSome = true := by
  induction pairs generalizing best with
  | nil => exact some_first.resolve_right fun notEmpty => notEmpty rfl
  | cons pair rest ih => exact ih _ (.inl rfl)

/-- A model with programs that are all answered is solved. -/
theorem perCompetitor_optimal (m : Model α) {state last : σ} {solutions : List (Solution α)}
    (answered : Answered solver state m.programs solutions last) (notEmpty : m.programs ≠ []) :
    ∃ optimum, (perCompetitor m solver state).1.solution = some optimum := by
  have pairs : m.programs.zip solutions ≠ [] := by
    intro none
    rcases List.zip_eq_nil_iff.mp none with isEmpty | isEmpty
    · exact notEmpty isEmpty
    · have same := answered.length_eq
      rw [isEmpty] at same
      exact notEmpty (List.length_eq_zero_iff.mp same)
  have run := (eachCompetitor_eq_ok_iff solver none m.programs state last _).mpr
    ⟨solutions, answered, rfl⟩
  obtain ⟨optimum, kept⟩ := Option.isSome_iff_exists.mp (keepAll_isSome none _ (.inr pairs))
  refine ⟨optimum, ?_⟩
  rw [perCompetitor, run, kept]
  rfl

end Runs

theorem keepLesser_le (best : Option (Optimum ℝ)) (new : Optimum ℝ) :
    (keepLesser best new).objective ≤ new.objective ∧
      ∀ old, best = some old → (keepLesser best new).objective ≤ old.objective := by
  cases best with
  | none =>
      refine ⟨le_rfl, ?_⟩
      intro old none
      cases none
  | some old =>
      rw [keepLesser]
      split
      · rename_i less
        exact ⟨le_rfl, fun other same => Option.some.inj same ▸ less.le⟩
      · rename_i notLess
        exact ⟨not_lt.mp notLess, fun other same => Option.some.inj same ▸ le_rfl⟩

/-- No solution has a lesser objective than the one that is kept. -/
theorem keepAll_le (pairs : List (MarginProgram ℝ × Solution ℝ)) (best : Option (Optimum ℝ))
    {optimum : Optimum ℝ} (kept : keepAll best pairs = some optimum) :
    (∀ old, best = some old → optimum.objective ≤ old.objective) ∧
      ∀ pair ∈ pairs, optimum.objective ≤ pair.2.objective := by
  induction pairs generalizing best with
  | nil =>
      constructor
      · intro old same
        obtain rfl := Option.some.inj (kept.symm.trans same)
        exact le_rfl
      · intro pair none
        cases none
  | cons pair rest ih =>
      obtain ⟨belowFirst, belowRest⟩ := ih _ kept
      obtain ⟨belowNew, belowOld⟩ := keepLesser_le best (optimumOf pair.1 pair.2)
      rw [List.forall_mem_cons]
      exact ⟨fun old same => (belowFirst _ rfl).trans (belowOld old same),
        (belowFirst _ rfl).trans belowNew, belowRest⟩

/-- The margin of the programs solved in turn lies below the objective of each of them at every
feasible assignment. -/
theorem perCompetitor_le {σ : Type} {solver : Solver ℝ σ} (sound : solver.Sound) (m : Model ℝ)
    (state : σ) {value : ℝ}
    (optimal : (perCompetitor m solver state).1.status = .optimal value)
    {p : MarginProgram ℝ} (member : p ∈ m.programs)
    (minimize : p.program.objective.direction = .minimize) {values : Array ℝ}
    (feasible : p.program.isFeasible values 0 = true) :
    value ≤ p.program.objective.expr.eval values := by
  rw [perCompetitor] at optimal
  rcases run : eachCompetitor solver none m.programs state with ⟨result, last⟩
  rw [run] at optimal
  match result, run, optimal with
  | .ok (some optimum), run, optimal =>
      obtain ⟨solutions, answered, kept⟩ :=
        (eachCompetitor_eq_ok_iff solver none m.programs state last _).mp run
      obtain ⟨solution, before, after, paired, answer⟩ := answered.solution_of_mem member
      have least := (keepAll_le _ _ kept.symm).2 _ paired
      obtain rfl : optimum.objective = value := Status.optimal.inj optimal
      exact least.trans (sound.minimal _ _ _ _ answer minimize values feasible)

theorem certify_optimal {margin value : ℝ} {best : Except Failure (Option (Optimum ℝ))}
    (optimal : (certify margin best).status = .optimal value) : value = margin := by
  match best, optimal with
  | .ok (some witness), optimal => exact (Status.optimal.inj optimal).symm

/-- The margin of the auxiliary formulation is the objective of an answer to its program. -/
theorem auxiliary_optimal {σ : Type} {solver : Solver ℝ σ} (sound : solver.Sound) (m : Model ℝ)
    (state : σ) {c : Conclusion ℝ} (ended : (auxiliary m solver state).1 = some c) {value : ℝ}
    (optimal : c.status = .optimal value) :
    ∃ robust rest values, m.programs = robust :: rest ∧
      robust.program.isFeasible values 0 = true ∧
      value = robust.program.objective.expr.eval values := by
  rcases auxiliary_cases ended with
    ⟨cause, rfl⟩ | ⟨robust, rest, margin, _, _, programs, answer, -, rfl⟩
  · cases optimal
  · refine ⟨robust, rest, margin.values, programs, sound.feasible _ _ _ _ answer, ?_⟩
    rw [← sound.objective _ _ _ _ answer]
    exact certify_optimal optimal

end Solve
end RobustMargin
