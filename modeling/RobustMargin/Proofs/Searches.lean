import RobustMargin.Proofs.Construction
import RobustMargin.Proofs.SolverRuns

/-! # Searches among witnesses

The witnesses of an auxiliary model are solved in the order of their bounds until one is low enough.
Whatever the bounds are, each witness comes up once, and what is kept in the end is a solution of a
primal program. -/
namespace RobustMargin

namespace Solve

section Runs

variable {α σ : Type} [Scalar α] (solver : Solver α σ)

/-- The solver solves witnesses in turn and stops at the first one that is not above a limit. -/
inductive Searched (limit : α) :
    σ → List (MarginProgram α) → List (MarginProgram α × Solution α) → σ → Prop
  | exhausted (state : σ) : Searched limit state [] [] state
  | attained {state next : σ} {p : MarginProgram α} {rest : List (MarginProgram α)}
      {solution : Solution α} :
      solver.solve p.program state = (.ok (.optimal solution), next) →
      solution.objective ≤ limit → Searched limit state (p :: rest) [(p, solution)] next
  | above {state next last : σ} {p : MarginProgram α} {rest : List (MarginProgram α)}
      {solution : Solution α} {pairs : List (MarginProgram α × Solution α)} :
      solver.solve p.program state = (.ok (.optimal solution), next) →
      ¬ solution.objective ≤ limit → Searched limit next rest pairs last →
      Searched limit state (p :: rest) ((p, solution) :: pairs) last

/-- A search that ends without a failure keeps the best of the witnesses it has solved. -/
theorem untilAttained_eq_ok_iff (limit : α) (best : Option (Optimum α))
    (programs : List (MarginProgram α)) (state last : σ) (result : Option (Optimum α)) :
    untilAttained solver limit best programs state = (.ok result, last) ↔
      ∃ pairs, Searched solver limit state programs pairs last ∧ result = keepAll best pairs := by
  induction programs generalizing best state with
  | nil =>
      constructor
      · intro run
        obtain ⟨sameResult, rfl⟩ := Prod.mk.inj run
        obtain rfl := Except.ok.inj sameResult
        exact ⟨[], .exhausted state, rfl⟩
      · rintro ⟨pairs, searched, rfl⟩
        cases searched
        rfl
  | cons p rest ih =>
      rw [untilAttained]
      rcases answer : solver.solve p.program state with ⟨reply, next⟩
      cases found : solutionOf solver.name reply with
      | error cause =>
          have notOptimal (solution : Solution α) (other : σ)
              (solved : solver.solve p.program state = (.ok (.optimal solution), other)) :
              False := by
            obtain ⟨rfl, -⟩ := Prod.mk.inj (answer.symm.trans solved)
            cases found
          constructor
          · intro run
            simp only [found] at run
            cases (Prod.mk.inj run).1
          · rintro ⟨pairs, searched, -⟩
            cases searched with
            | attained solved _ => exact (notOptimal _ _ solved).elim
            | above solved _ _ => exact (notOptimal _ _ solved).elim
      | ok solution =>
          rw [(solutionOf_eq_ok_iff _ _ _).mp found] at answer
          have same (other : Solution α) (after : σ)
              (solved : solver.solve p.program state = (.ok (.optimal other), after)) :
              solution = other ∧ next = after := by
            obtain ⟨reply, state⟩ := Prod.mk.inj (answer.symm.trans solved)
            exact ⟨Outcome.optimal.inj (Except.ok.inj reply), state⟩
          simp only [found]
          by_cases low : solution.objective ≤ limit
          · rw [if_pos low]
            constructor
            · intro run
              obtain ⟨sameResult, rfl⟩ := Prod.mk.inj run
              obtain rfl := Except.ok.inj sameResult
              exact ⟨_, .attained answer low, rfl⟩
            · rintro ⟨pairs, searched, rfl⟩
              cases searched with
              | attained solved _ =>
                  obtain ⟨rfl, rfl⟩ := same _ _ solved
                  rfl
              | above solved high _ =>
                  obtain ⟨rfl, -⟩ := same _ _ solved
                  exact absurd low high
          · rw [if_neg low, ih]
            constructor
            · rintro ⟨pairs, searched, kept⟩
              exact ⟨_, .above answer low searched, kept⟩
            · rintro ⟨pairs, searched, kept⟩
              cases searched with
              | attained solved below =>
                  obtain ⟨rfl, -⟩ := same _ _ solved
                  exact absurd below low
              | above solved _ later =>
                  obtain ⟨rfl, rfl⟩ := same _ _ solved
                  exact ⟨_, later, kept⟩

variable {solver}

omit [Scalar α] in
/-- The solver has a solution for a program in some state. -/
def Gives (solver : Solver α σ) (p : Program α) (solution : Solution α) : Prop :=
  ∃ before after, solver.solve p before = (.ok (.optimal solution), after)

omit [Scalar α] in
theorem Answered.gives {state last : σ} {programs : List (MarginProgram α)}
    {solutions : List (Solution α)} (answered : Answered solver state programs solutions last)
    {pair : MarginProgram α × Solution α} (member : pair ∈ programs.zip solutions) :
    pair.1 ∈ programs ∧ Gives solver pair.1.program pair.2 := by
  refine ⟨(List.of_mem_zip member).1, ?_⟩
  induction answered with
  | nil => cases member
  | cons solved _ ih =>
      rcases List.mem_cons.mp member with rfl | inRest
      · exact ⟨_, _, solved⟩
      · exact ih inRest

theorem Searched.gives {limit : α} {state last : σ} {programs : List (MarginProgram α)}
    {pairs : List (MarginProgram α × Solution α)}
    (searched : Searched solver limit state programs pairs last)
    {pair : MarginProgram α × Solution α} (member : pair ∈ pairs) :
    pair.1 ∈ programs ∧ Gives solver pair.1.program pair.2 := by
  induction searched with
  | exhausted => cases member
  | attained solved _ =>
      obtain rfl := List.mem_singleton.mp member
      exact ⟨List.mem_cons_self, _, _, solved⟩
  | above solved _ _ ih =>
      rcases List.mem_cons.mp member with rfl | inRest
      · exact ⟨List.mem_cons_self, _, _, solved⟩
      · obtain ⟨inPrograms, gives⟩ := ih inRest
        exact ⟨List.mem_cons_of_mem _ inPrograms, gives⟩

/-- A solver with a solution to each witness comes to the end of the search. -/
theorem exists_searched (limit : α) (programs : List (MarginProgram α))
    (answers : ∀ p ∈ programs, ∀ state, ∃ solution next,
      solver.solve p.program state = (.ok (.optimal solution), next)) (state : σ) :
    ∃ pairs last, Searched solver limit state programs pairs last := by
  induction programs generalizing state with
  | nil => exact ⟨[], state, .exhausted state⟩
  | cons p rest ih =>
      rw [List.forall_mem_cons] at answers
      obtain ⟨solution, next, solved⟩ := answers.1 state
      by_cases low : solution.objective ≤ limit
      · exact ⟨_, _, .attained solved low⟩
      · obtain ⟨pairs, last, searched⟩ := ih answers.2 next
        exact ⟨_, _, .above solved low searched⟩

/-- The search meets a witness that is low enough, if there is one. -/
theorem Searched.exists_low {limit : α} {state last : σ} {programs : List (MarginProgram α)}
    {pairs : List (MarginProgram α × Solution α)}
    (searched : Searched solver limit state programs pairs last)
    {p : MarginProgram α} (member : p ∈ programs)
    (low : ∀ solution, Gives solver p.program solution → solution.objective ≤ limit) :
    ∃ pair ∈ pairs, pair.2.objective ≤ limit := by
  induction searched with
  | exhausted => cases member
  | attained _ below => exact ⟨_, List.mem_cons_self, below⟩
  | above solved high _ ih =>
      rcases List.mem_cons.mp member with rfl | inRest
      · exact absurd (low _ ⟨_, _, solved⟩) high
      · obtain ⟨pair, inPairs, below⟩ := ih inRest
        exact ⟨pair, List.mem_cons_of_mem _ inPairs, below⟩

theorem keepLesser_eq (best : Option (Optimum α)) (new : Optimum α) :
    keepLesser best new = new ∨ best = some (keepLesser best new) := by
  cases best with
  | none => exact .inl rfl
  | some old =>
      rw [keepLesser]
      split
      · exact .inl rfl
      · exact .inr rfl

/-- What is kept is one of the solutions, or the optimum from before. -/
theorem keepAll_mem (pairs : List (MarginProgram α × Solution α)) (best : Option (Optimum α))
    {optimum : Optimum α} (kept : keepAll best pairs = some optimum) :
    best = some optimum ∨ ∃ pair ∈ pairs, optimum = optimumOf pair.1 pair.2 := by
  induction pairs generalizing best with
  | nil => exact .inl kept
  | cons pair rest ih =>
      rcases ih _ kept with first | ⟨other, member, same⟩
      · rw [← Option.some.inj first]
        rcases keepLesser_eq best (optimumOf pair.1 pair.2) with isNew | isOld
        · exact .inr ⟨pair, List.mem_cons_self, isNew⟩
        · exact .inl isOld
      · exact .inr ⟨other, List.mem_cons_of_mem _ member, same⟩

end Runs

section Order

variable {α : Type} [Scalar α]

theorem sortedIndices_perm (values : List α) :
    (sortedIndices values).Perm (List.range values.length) := by
  rw [range_eq_map_snd values]
  exact (List.mergeSort_perm values.zipIdx _).map Prod.snd

theorem bindingOrder_perm {certificates : List (Certificate α)} {values : Array α}
    {order : List Nat} (ordered : bindingOrder certificates values = some order) :
    order.Perm (List.range certificates.length) := by
  obtain ⟨-, rfl⟩ := (bindingOrder_eq_some_iff ..).mp ordered
  have sorted := sortedIndices_perm (certificates.map fun c => c.bound.eval values)
  rwa [List.length_map] at sorted

theorem filterMap_range_getElem? {β : Type} (xs : List β) :
    (List.range xs.length).filterMap (fun index => xs[index]?) = xs := by
  induction xs with
  | nil => rfl
  | cons x xs ih =>
      rw [List.length_cons, List.range_succ_eq_map, List.filterMap_cons]
      simp only [List.getElem?_cons_zero, List.filterMap_map]
      exact congrArg (x :: ·) ih

/-- The order of the bounds leaves no witness out and repeats none. -/
theorem witnessesIn_perm {m : Model α} {values : Array α} {order : List Nat}
    (ordered : bindingOrder m.certificates values = some order)
    (each : m.certificates.length = m.witnesses.length) :
    (witnessesIn m order).Perm m.witnesses := by
  have indices := bindingOrder_perm ordered
  rw [each] at indices
  have filtered := indices.filterMap fun index => m.witnesses[index]?
  rwa [filterMap_range_getElem?] at filtered

/-- At a point of full length the bounds of a relaxation can be evaluated. -/
theorem exists_bindingOrder (inclusion : Inclusion α) (label : Nat) {values : Array α}
    (full : values.size = (Model.robustProgram inclusion label .auxiliary).vars.size) :
    ∃ order, bindingOrder (Model.ofRelaxation inclusion label .auxiliary).certificates values =
      some order :=
  ⟨_, (bindingOrder_eq_some_iff ..).mpr
    ⟨full ▸ Model.certificates_within inclusion label .auxiliary, rfl⟩⟩

/-- A run comes to a conclusion where each competitor has a program of its own, and where answers
have full length. -/
theorem exists_conclusion {σ : Type} (inclusion : Inclusion α) (label : Nat)
    (formulation : Formulation) {solver : Solver α σ}
    (full : formulation.perCompetitor = true ∨ solver.FullLength) (state : σ) :
    ∃ c, (run (Model.ofRelaxation inclusion label formulation) solver state).1 = some c := by
  cases formulation with
  | direct => exact ⟨_, rfl⟩
  | baked => exact ⟨_, rfl⟩
  | auxiliary =>
      have fullLength := full.resolve_left Bool.false_ne_true
      refine Option.ne_none_iff_exists'.mp fun ended => ?_
      have unconcluded : (auxiliary (Model.ofRelaxation inclusion label .auxiliary) solver
          state).1 = none := ended
      obtain ⟨robust, rest, margin, next, programs, solved, unordered⟩ :=
        auxiliary_eq_none_iff.mp unconcluded
      obtain ⟨rfl, -⟩ := List.cons.inj programs
      obtain ⟨order, ordered⟩ := exists_bindingOrder inclusion label (fullLength _ _ _ _ solved)
      rw [unordered] at ordered
      cases ordered

end Order

section Results

variable {α σ : Type} [Scalar α] {solver : Solver α σ} {m : Model α} {state : σ}
  {optimum : Optimum α}

omit [Scalar α] in
theorem conclude_solution_iff (best : Except Failure (Option (Optimum α))) :
    (conclude best).solution = some optimum ↔ best = .ok (some optimum) := by
  match best with
  | .ok (some other) => simp [conclude, finish]
  | .ok none => simp [conclude, finish, failed]
  | .error cause => simp [conclude, failed]

theorem certify_solution_iff (margin : α) (best : Except Failure (Option (Optimum α))) :
    (certify margin best).solution = some optimum ↔
      ∃ witness, best = .ok (some witness) ∧ optimum = { witness with objective := margin } := by
  match best with
  | .ok (some witness) => simp [certify, finish, eq_comm]
  | .ok none => simp [certify, conclude, finish, failed]
  | .error cause => simp [certify, conclude, failed]

/-- All programs of the competitors are solved, and the best solution is kept. -/
theorem perCompetitor_solution_iff : (perCompetitor m solver state).1.solution = some optimum ↔
    ∃ solutions last, Answered solver state m.programs solutions last ∧
      keepAll none (m.programs.zip solutions) = some optimum := by
  rw [perCompetitor]
  rcases run : eachCompetitor solver none m.programs state with ⟨best, last⟩
  change (conclude best).solution = some optimum ↔ _
  rw [conclude_solution_iff]
  constructor
  · rintro rfl
    obtain ⟨solutions, answered, kept⟩ := (eachCompetitor_eq_ok_iff ..).mp run
    exact ⟨solutions, last, answered, kept.symm⟩
  · rintro ⟨solutions, other, answered, kept⟩
    have solved := (eachCompetitor_eq_ok_iff solver none m.programs state other _).mpr
      ⟨solutions, answered, kept.symm⟩
    exact (Prod.mk.inj (run.symm.trans solved)).1

/-- The auxiliary program is solved, then witnesses are searched for one that attains its margin;
what is kept is the best of them, with that margin. -/
theorem auxiliary_solution_iff :
    (∃ c, (auxiliary m solver state).1 = some c ∧ c.solution = some optimum) ↔
    ∃ robust rest margin next order pairs last witness, m.programs = robust :: rest ∧
      solver.solve robust.program state = (.ok (.optimal margin), next) ∧
      bindingOrder m.certificates margin.values = some order ∧
      Searched solver (margin.objective + tolerance margin.objective) next
        (witnessesIn m order) pairs last ∧
      keepAll none pairs = some witness ∧
      optimum = { witness with objective := margin.objective } := by
  constructor
  · rintro ⟨c, ended, kept⟩
    rcases auxiliary_cases ended with
      ⟨cause, rfl⟩ | ⟨robust, rest, margin, next, order, programs, solved, ordered, rfl⟩
    · cases kept
    · obtain ⟨witness, found, same⟩ := (certify_solution_iff _ _).mp kept
      obtain ⟨pairs, searched, kept⟩ := (untilAttained_eq_ok_iff ..).mp (Prod.ext found rfl)
      exact ⟨robust, rest, margin, next, order, pairs, _, witness, programs, solved, ordered,
        searched, kept.symm, same⟩
  · rintro ⟨robust, rest, margin, next, order, pairs, last, witness, programs, solved, ordered,
      searched, kept, same⟩
    have found := (untilAttained_eq_ok_iff ..).mpr ⟨pairs, searched, kept.symm⟩
    rw [auxiliary_of_solved programs solved, ordered, Option.map_some, found]
    exact ⟨_, rfl, (certify_solution_iff _ _).mpr ⟨witness, rfl, same⟩⟩

/-- An optimum that is kept comes from the solution of a primal program. -/
theorem exists_solution_of_kept {c : Conclusion α} (ended : (run m solver state).1 = some c)
    (kept : c.solution = some optimum) :
    ∃ p ∈ m.primal, ∃ solution, Gives solver p.program solution ∧
      optimum.values = solution.values ∧ optimum.competitor = p.competitor := by
  rw [Model.primal]
  by_cases each : m.formulation.perCompetitor = true
  · rw [if_pos each]
    rw [run_of_perCompetitor each] at ended
    obtain rfl := Option.some.inj ended
    obtain ⟨solutions, last, answered, best⟩ := perCompetitor_solution_iff.mp kept
    rcases keepAll_mem _ _ best with isNone | ⟨pair, member, rfl⟩
    · cases isNone
    · obtain ⟨inPrograms, gives⟩ := answered.gives member
      exact ⟨_, inPrograms, _, gives, rfl, rfl⟩
  · rw [if_neg each]
    rw [run_of_common (Bool.eq_false_iff.mpr each)] at ended
    obtain ⟨_, _, margin, _, order, pairs, _, witness, -, -, -, searched, best, rfl⟩ :=
      auxiliary_solution_iff.mp ⟨c, ended, kept⟩
    rcases keepAll_mem _ _ best with isNone | ⟨pair, member, rfl⟩
    · cases isNone
    · obtain ⟨inOrder, gives⟩ := searched.gives member
      obtain ⟨index, -, found⟩ := List.mem_filterMap.mp inOrder
      exact ⟨_, List.mem_of_getElem? found, _, gives, rfl, rfl⟩

end Results

end Solve
end RobustMargin
