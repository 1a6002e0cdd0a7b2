import RobustMargin.Proofs.Agreement
import RobustMargin.Proofs.Comparisons
import RobustMargin.Proofs.LifeCycle

/-! # Submissions

The programs that a solve gives to a solver, and what the replies decide. The first reply that is no
solution ends the solve; if there is none, the first solution with the least objective is kept, or
the first one that attains a margin. -/
namespace RobustMargin

namespace Solver

variable {α σ : Type}

/-- Optimal answers have a number for their objective. -/
def Numeric [Scalar α] (solver : Solver α σ) : Prop :=
  ∀ p state solution next, solver.solve p state = (.ok (.optimal solution), next) →
    Scalar.isNumber solution.objective = true

/-- The answers of a solver to programs that it is given in turn. -/
def replies (solver : Solver α σ) :
    List (MarginProgram α) → σ → List (MarginProgram α × Answer α)
  | [], _ => []
  | p :: rest, state =>
      let (answer, next) := solver.solve p.program state
      (p, answer) :: solver.replies rest next

theorem replies_programs (solver : Solver α σ) (programs : List (MarginProgram α)) (state : σ) :
    (solver.replies programs state).map Prod.fst = programs := by
  induction programs generalizing state with
  | nil => rfl
  | cons p rest ih => exact congrArg (p :: ·) (ih _)

theorem exists_of_replies_eq_cons {solver : Solver α σ} {programs : List (MarginProgram α)}
    {state : σ} {p : MarginProgram α} {answer : Answer α}
    {after : List (MarginProgram α × Answer α)}
    (same : solver.replies programs state = (p, answer) :: after) :
    ∃ rest next, programs = p :: rest ∧ solver.solve p.program state = (answer, next) := by
  cases programs with
  | nil => cases same
  | cons q rest =>
      obtain ⟨first, -⟩ := List.cons.inj same
      obtain ⟨rfl, rfl⟩ := Prod.mk.inj first
      exact ⟨rest, _, rfl, rfl⟩

theorem eq_nil_of_replies {solver : Solver α σ} {programs : List (MarginProgram α)} {state : σ}
    (none : solver.replies programs state = []) : programs = [] := by
  rw [← solver.replies_programs programs state, none]
  rfl

theorem Numeric.of_replies [Scalar α] {solver : Solver α σ} (numeric : solver.Numeric)
    {programs : List (MarginProgram α)} {state : σ} {p : MarginProgram α} {solution : Solution α}
    (member : (p, .ok (.optimal solution)) ∈ solver.replies programs state) :
    Scalar.isNumber solution.objective = true := by
  induction programs generalizing state with
  | nil => cases member
  | cons q rest ih =>
      rcases List.mem_cons.mp member with first | inRest
      · have answer : .ok (.optimal solution) = (solver.solve q.program state).1 :=
          congrArg Prod.snd first
        exact numeric _ _ _ _ (Prod.ext answer.symm rfl)
      · exact ih inRest

/-- Solves the first program that it is given, and finds all later ones unbounded. -/
def once : Solver Float Nat where
  name := "once"
  solve := fun p count => match count with
    | 0 => (.ok (.optimal ⟨Array.replicate p.vars.size 1, 1⟩), 1)
    | _ + 1 => (.ok .unbounded, count + 1)

theorem once_solution {p : Program Float} {state next : Nat} {solution : Solution Float}
    (answer : once.solve p state = (.ok (.optimal solution), next)) :
    solution = ⟨Array.replicate p.vars.size 1, 1⟩ := by
  cases state with
  | zero => exact (Outcome.optimal.inj (Except.ok.inj (Prod.mk.inj answer).1)).symm
  | succ count => cases (Prod.mk.inj answer).1

theorem once_numeric : once.Numeric := by
  intro p state solution next answer
  rw [once_solution answer]
  change Scalar.isNumber (1 : Float) = true
  decide

theorem once_fullLength : once.FullLength := by
  intro p state solution next answer
  rw [once_solution answer]
  exact Array.size_replicate

end Solver

theorem Model.BuiltFor.primal_ne_nil {α : Type} [Scalar α] {m : Model α} {inclusion : Inclusion α}
    {label : Nat} {formulation : Formulation} (model : m.BuiltFor inclusion label formulation) :
    m.primal ≠ [] := by
  obtain ⟨k, bound, other⟩ := exists_competitor label model.rivals
  have rival := (mem_competitors label _ k).mpr ⟨bound, other⟩
  rw [model.primal_eq]
  exact List.ne_nil_of_mem (List.mem_map_of_mem rival)

namespace Solve

variable {α σ : Type} [Scalar α] {solver : Solver α σ}

/-- What an answer that is no solution means for the whole solve. -/
inductive Failing (name : String) : Answer α → Failure → Prop
  | infeasible : Failing name (.ok .infeasible) .infeasible
  | unbounded : Failing name (.ok .unbounded)
      (.solverError (name ++ " reported an unbounded objective"))
  | error (e : Error α) : Failing name (.error e) (.solverError e.message)

omit [Scalar α] in
/-- Replies that are all solutions. -/
def solved (pairs : List (MarginProgram α × Solution α)) : List (MarginProgram α × Answer α) :=
  pairs.map fun q => (q.1, .ok (.optimal q.2))

/-- Where a search through replies comes to its end: after the last, at a solution that stops it, or
at a reply that is no solution. -/
inductive Ending (name : String) (stops : Solution α → Prop) :
    List (MarginProgram α × Answer α) → Prop
  | exhausted (pairs : List (MarginProgram α × Solution α)) :
      (∀ q ∈ pairs, ¬ stops q.2) → Ending name stops (solved pairs)
  | stopped (before : List (MarginProgram α × Solution α)) {p : MarginProgram α}
      {solution : Solution α} (after : List (MarginProgram α × Answer α)) :
      (∀ q ∈ before, ¬ stops q.2) → stops solution →
      Ending name stops (solved before ++ (p, .ok (.optimal solution)) :: after)
  | failed (before : List (MarginProgram α × Solution α)) {p : MarginProgram α}
      {answer : Answer α} {cause : Failure} (after : List (MarginProgram α × Answer α)) :
      (∀ q ∈ before, ¬ stops q.2) → Failing name answer cause →
      Ending name stops (solved before ++ (p, answer) :: after)

namespace Ending

variable {name : String} {stops : Solution α → Prop}

theorem cons {p : MarginProgram α} {solution : Solution α} (goesOn : ¬ stops solution)
    {replies : List (MarginProgram α × Answer α)} (later : Ending name stops replies) :
    Ending name stops ((p, .ok (.optimal solution)) :: replies) := by
  have goOn {pairs : List (MarginProgram α × Solution α)} (rest : ∀ q ∈ pairs, ¬ stops q.2) :
      ∀ q ∈ (p, solution) :: pairs, ¬ stops q.2 :=
    List.forall_mem_cons.mpr ⟨goesOn, rest⟩
  cases later with
  | exhausted pairs rest => exact .exhausted (_ :: pairs) (goOn rest)
  | stopped before after rest stop => exact .stopped (_ :: before) after (goOn rest) stop
  | failed before after rest failing => exact .failed (_ :: before) after (goOn rest) failing

theorem of_failing {p : MarginProgram α} {answer : Answer α} {cause : Failure}
    (failing : Failing name answer cause) (after : List (MarginProgram α × Answer α)) :
    Ending name stops ((p, answer) :: after) :=
  .failed [] after nofun failing

theorem exists_ending (name : String) (stops : Solution α → Prop)
    (replies : List (MarginProgram α × Answer α)) : Ending name stops replies := by
  induction replies with
  | nil => exact .exhausted [] nofun
  | cons reply rest ih =>
      obtain ⟨p, answer⟩ := reply
      match answer with
      | .error e => exact of_failing (.error e) rest
      | .ok .infeasible => exact of_failing .infeasible rest
      | .ok .unbounded => exact of_failing .unbounded rest
      | .ok (.optimal solution) =>
          by_cases stop : stops solution
          · exact .stopped [] rest nofun stop
          · exact ih.cons stop

end Ending

theorem Failing.solutionOf_eq {name : String} {answer : Answer α} {cause : Failure}
    (failing : Failing name answer cause) : solutionOf name answer = .error cause := by
  cases failing with
  | infeasible => rfl
  | unbounded => rfl
  | error e => rfl

omit [Scalar α] in
/-- Solutions among the first replies are answers to the first programs. -/
theorem exists_answered_of_replies {programs : List (MarginProgram α)} {state : σ}
    {before : List (MarginProgram α × Solution α)} {tail : List (MarginProgram α × Answer α)}
    (same : solver.replies programs state = solved before ++ tail) :
    ∃ rest next, programs = before.map Prod.fst ++ rest ∧
      Answered solver state (before.map Prod.fst) (before.map Prod.snd) next ∧
      solver.replies rest next = tail := by
  induction before generalizing programs state with
  | nil => exact ⟨programs, state, rfl, .nil state, same⟩
  | cons pair before ih =>
      cases programs with
      | nil => cases same
      | cons p rest =>
          obtain ⟨first, later⟩ := List.cons.inj same
          obtain ⟨rfl, answer⟩ := Prod.mk.inj first
          obtain ⟨rest, next, rfl, answered, ended⟩ := ih later
          exact ⟨rest, next, rfl, .cons (Prod.ext answer rfl) answered, ended⟩

/-- The loop over all programs goes past those that are solved, and keeps the best solution. -/
theorem eachCompetitor_append {before : List (MarginProgram α × Solution α)} {state next : σ}
    (answered : Answered solver state (before.map Prod.fst) (before.map Prod.snd) next)
    (best : Option (Optimum α)) (rest : List (MarginProgram α)) (log : List (Program α)) :
    eachCompetitor solver.recorded best (before.map Prod.fst ++ rest) (state, log) =
      eachCompetitor solver.recorded (keepAll best before) rest
        (next, log ++ before.map fun q => q.1.program) := by
  induction before generalizing state best log with
  | nil =>
      cases answered
      rw [List.map_nil, List.map_nil, List.append_nil]
      rfl
  | cons pair before ih =>
      cases answered with
      | cons answer later =>
          rw [List.map_cons, List.cons_append, eachCompetitor]
          simp only [Solver.recorded, answer, solutionOf]
          rw [← Solver.recorded, ih later, List.append_assoc]
          rfl

/-- The search for an attained limit goes past solutions that are above it. -/
theorem untilAttained_append {limit : α} {before : List (MarginProgram α × Solution α)}
    {state next : σ}
    (answered : Answered solver state (before.map Prod.fst) (before.map Prod.snd) next)
    (high : ∀ q ∈ before, ¬ q.2.objective ≤ limit) (best : Option (Optimum α))
    (rest : List (MarginProgram α)) (log : List (Program α)) :
    untilAttained solver.recorded limit best (before.map Prod.fst ++ rest) (state, log) =
      untilAttained solver.recorded limit (keepAll best before) rest
        (next, log ++ before.map fun q => q.1.program) := by
  induction before generalizing state best log with
  | nil =>
      cases answered
      rw [List.map_nil, List.map_nil, List.append_nil]
      rfl
  | cons pair before ih =>
      rw [List.forall_mem_cons] at high
      cases answered with
      | cons answer later =>
          rw [List.map_cons, List.cons_append, untilAttained]
          simp only [Solver.recorded, answer, solutionOf, if_neg high.1]
          rw [← Solver.recorded, ih later high.2, List.append_assoc]
          rfl

/-- Keeping the programs that are asked does not change the outcome of the loop. -/
theorem eachCompetitor_recorded (solver : Solver α σ) (best : Option (Optimum α))
    (programs : List (MarginProgram α)) (state : σ) (log : List (Program α)) :
    (eachCompetitor solver.recorded best programs (state, log)).1 =
      (eachCompetitor solver best programs state).1 := by
  induction programs generalizing best state log with
  | nil => rfl
  | cons p rest ih =>
      rw [eachCompetitor, eachCompetitor]
      rcases answer : solver.solve p.program state with ⟨reply, next⟩
      simp only [Solver.recorded, answer]
      cases solutionOf solver.name reply with
      | error cause => rfl
      | ok solution => exact ih _ _ _

theorem untilAttained_recorded (solver : Solver α σ) (limit : α) (best : Option (Optimum α))
    (programs : List (MarginProgram α)) (state : σ) (log : List (Program α)) :
    (untilAttained solver.recorded limit best programs (state, log)).1 =
      (untilAttained solver limit best programs state).1 := by
  induction programs generalizing best state log with
  | nil => rfl
  | cons p rest ih =>
      rw [untilAttained, untilAttained]
      rcases answer : solver.solve p.program state with ⟨reply, next⟩
      simp only [Solver.recorded, answer]
      cases solutionOf solver.name reply with
      | error cause => rfl
      | ok solution =>
          dsimp only
          split
          · rfl
          · exact ih _ _ _

/-- Keeping the programs that are asked does not change the conclusion of a solve. -/
theorem run_recorded (m : Model α) (solver : Solver α σ) (state : σ) (log : List (Program α)) :
    (run m solver.recorded (state, log)).1 = (run m solver state).1 := by
  rw [run, run]
  split
  · exact congrArg (fun best => some (conclude best))
      (eachCompetitor_recorded solver none m.programs state log)
  · rw [auxiliary, auxiliary]
    cases m.programs with
    | nil => rfl
    | cons robust rest =>
        rcases answer : solver.solve robust.program state with ⟨reply, next⟩
        simp only [Solver.recorded, answer]
        cases reply with
        | error e => rfl
        | ok outcome =>
            cases outcome with
            | infeasible => rfl
            | unbounded => rfl
            | optimal margin =>
                dsimp only
                cases bindingOrder m.certificates margin.values with
                | none => rfl
                | some order =>
                    exact congrArg (fun best => some (certify margin.objective best))
                      (untilAttained_recorded ..)

section Least

/-- What is kept of programs solved in turn, the status that is told, and the programs given to the
solver for them. The first reply that is no solution decides alone. Without one the first solution
with the least objective is kept. -/
inductive LeastOf (name : String) (replies : List (MarginProgram α × Answer α)) :
    Option (Optimum α) → Status α → List (MarginProgram α) → Prop
  | failed {before : List (MarginProgram α × Solution α)} {p : MarginProgram α}
      {answer : Answer α} {after : List (MarginProgram α × Answer α)} {cause : Failure} :
      replies = solved before ++ (p, answer) :: after → Failing name answer cause →
      LeastOf name replies none (.failed cause) (before.map Prod.fst ++ [p])
  | least {pairs : List (MarginProgram α × Solution α)} {pair : MarginProgram α × Solution α} :
      replies = solved pairs → Scalar.FirstLeast (·.2.objective) pairs pair →
      LeastOf name replies (some ⟨pair.2.values, pair.2.objective, pair.1.competitor⟩)
        (.optimal pair.2.objective) (pairs.map Prod.fst)

theorem isNumber_of_solved {solver : Solver α σ} (numeric : solver.Numeric)
    {programs : List (MarginProgram α)} {state : σ} {pairs : List (MarginProgram α × Solution α)}
    {tail : List (MarginProgram α × Answer α)}
    (same : solver.replies programs state = solved pairs ++ tail) :
    ∀ q ∈ pairs, Scalar.isNumber q.2.objective = true := by
  intro q member
  have reply : (q.1, .ok (.optimal q.2)) ∈ solved pairs := List.mem_map.mpr ⟨q, member, rfl⟩
  exact numeric.of_replies (same ▸ List.mem_append_left tail reply)

/-- The loop over programs does what their replies ask for. -/
theorem perCompetitor_leastOf [Scalar.Ordered α] {solver : Solver α σ} (numeric : solver.Numeric)
    {m : Model α} (some_program : m.programs ≠ []) (state : σ) :
    ∃ asked, (perCompetitor m solver.recorded (state, [])).2.2 = asked.map (·.program) ∧
      LeastOf solver.name (solver.replies m.programs state)
        (perCompetitor m solver.recorded (state, [])).1.solution
        (perCompetitor m solver.recorded (state, [])).1.status asked := by
  rw [perCompetitor]
  generalize found : solver.replies m.programs state = replies
  cases Ending.exists_ending solver.name (fun _ => False) replies with
  | @exhausted pairs =>
      have all : solver.replies m.programs state = solved pairs ++ [] := by simpa using found
      obtain ⟨rest, next, programs, answered, ended⟩ := exists_answered_of_replies all
      obtain rfl := Solver.eq_nil_of_replies ended
      have notEmpty : pairs ≠ [] := by
        rintro rfl
        exact some_program programs
      obtain ⟨pair, kept, first⟩ := exists_keepAll_first notEmpty (isNumber_of_solved numeric all)
      rw [programs, eachCompetitor_append answered, kept]
      exact ⟨pairs.map Prod.fst, List.map_map.symm, .least rfl first⟩
  | stopped _ _ _ stop => exact stop.elim
  | @failed before p answer cause after _ failing =>
      obtain ⟨rest, next, programs, answered, ended⟩ := exists_answered_of_replies found
      obtain ⟨later, last, rfl, reply⟩ := Solver.exists_of_replies_eq_cons ended
      rw [programs, eachCompetitor_append answered, eachCompetitor]
      simp only [Solver.recorded, reply, failing.solutionOf_eq]
      exact ⟨before.map Prod.fst ++ [p], by simp, .failed rfl failing⟩

/-- A model with a program for each competitor is solved in the order of its programs. The first
reply that is no solution decides alone, and no later program is given to the solver; otherwise the
first solution with the least objective is kept, and the status tells that objective. -/
theorem run_leastOf [Scalar.Ordered α] (inclusion : Inclusion α) (label : Nat)
    (formulation : Formulation) (m : Model α)
    (built : Model.build inclusion label formulation = .ok m)
    (each : formulation.perCompetitor = true) (solver : Solver α σ) (numeric : solver.Numeric)
    (state : σ) :
    let ended := run m solver.recorded (state, [])
    ended.1 = (run m solver state).1 ∧
      ∃ c asked, ended.1 = some c ∧ ended.2.2 = asked.map (·.program) ∧
        LeastOf solver.name (solver.replies m.programs state) c.solution c.status asked := by
  have model := Model.builtFor_of_build built
  have perProgram : m.formulation.perCompetitor = true := by rw [model.formulation_eq, each]
  have programs : m.primal = m.programs := by rw [Model.primal, if_pos perProgram]
  have inTurn := run_of_perCompetitor perProgram solver.recorded (state, [])
  obtain ⟨asked, log, least⟩ :=
    perCompetitor_leastOf numeric (programs ▸ model.primal_ne_nil) state
  exact ⟨run_recorded m solver state [], _, asked, congrArg Prod.fst inTurn,
    (congrArg (·.2.2) inTurn).trans log, least⟩

end Least

/-- One input, passed on to the first of three outputs. -/
def passOnToFirst : Network Float where
  layers := [⟨⟨1, [[1.0], [0.0], [0.0]], by decide⟩, [0.0, 0.0, 0.0], rfl, List.cons_ne_nil _ _,
    by decide, by decide⟩]
  layers_ne_nil := List.cons_ne_nil _ _
  chained := trivial

def passedOnToFirst : Inclusion Float :=
  let input := Model.aroundZero 0.5 (by decide)
  ⟨input, .identity, passOnToFirst, .postActivation,
    Network.bounds .identity .postActivation passOnToFirst.layers input.box⟩

/-- The second of two competitors fails, and the solution for the first one is not kept. -/
theorem run_leastOf_once :
    ∃ m, Model.build passedOnToFirst 0 .direct = .ok m ∧ Formulation.direct.perCompetitor = true ∧
      Solver.once.Numeric ∧
      let ended := run m Solver.once.recorded (0, [])
      ended.1 = (run m Solver.once 0).1 ∧
        ∃ c asked, ended.1 = some c ∧ ended.2.2 = asked.map (·.program) ∧
          LeastOf "once" (Solver.once.replies m.programs 0) c.solution c.status asked := by
  have accepted : (Model.build passedOnToFirst 0 .direct).isOk = true := by decide +kernel
  obtain ⟨m, built⟩ := exists_ok_of_isOk accepted
  exact ⟨m, built, rfl, Solver.once_numeric,
    run_leastOf passedOnToFirst 0 .direct m built rfl .once Solver.once_numeric 0⟩

section Attained

/-- The objective of a solution is above a margin by a millionth of it at the most, or where the
margin is small by a millionth. -/
def Attains (margin : α) (solution : Solution α) : Prop :=
  solution.objective ≤
    margin + 1 / Scalar.ofNat 1000000 * Scalar.greater (Scalar.abs margin) 1

/-- What is kept of a search among witnesses for one that attains a margin, the status that is told,
and the witnesses given to the solver for it. The first reply that is no solution or attains the
margin decides. Without one the first solution with the least objective is kept. The margin is the
objective in any case. -/
inductive AttainedOf (name : String) (margin : α) (replies : List (MarginProgram α × Answer α)) :
    Option (Optimum α) → Status α → List (MarginProgram α) → Prop
  | failed {before : List (MarginProgram α × Solution α)} {p : MarginProgram α}
      {answer : Answer α} {after : List (MarginProgram α × Answer α)} {cause : Failure} :
      replies = solved before ++ (p, answer) :: after → (∀ q ∈ before, ¬ Attains margin q.2) →
      Failing name answer cause →
      AttainedOf name margin replies none (.failed cause) (before.map Prod.fst ++ [p])
  | attained {before : List (MarginProgram α × Solution α)} {p : MarginProgram α}
      {solution : Solution α} {after : List (MarginProgram α × Answer α)} :
      replies = solved before ++ (p, .ok (.optimal solution)) :: after →
      (∀ q ∈ before, ¬ Attains margin q.2) → Attains margin solution →
      AttainedOf name margin replies (some ⟨solution.values, margin, p.competitor⟩)
        (.optimal margin) (before.map Prod.fst ++ [p])
  | least {pairs : List (MarginProgram α × Solution α)} {pair : MarginProgram α × Solution α} :
      replies = solved pairs → (∀ q ∈ pairs, ¬ Attains margin q.2) →
      Scalar.FirstLeast (·.2.objective) pairs pair →
      AttainedOf name margin replies (some ⟨pair.2.values, margin, pair.1.competitor⟩)
        (.optimal margin) (pairs.map Prod.fst)

variable [Scalar.Ordered α]

/-- The first solution that attains a limit has a lesser objective than all before it. -/
theorem keepLesser_of_attains {limit : α} {before : List (MarginProgram α × Solution α)}
    (numbers : ∀ q ∈ before, Scalar.isNumber q.2.objective = true)
    (high : ∀ q ∈ before, ¬ q.2.objective ≤ limit) (new : Optimum α)
    (low : new.objective ≤ limit) : keepLesser (keepAll none before) new = new := by
  cases kept : keepAll none before with
  | none => rfl
  | some old =>
      rcases keepAll_mem before none kept with isNone | ⟨pair, member, rfl⟩
      · cases isNone
      · exact if_pos (Scalar.Ordered.lt_of_le_of_not_le low (numbers pair member)
          (high pair member))

/-- The search among witnesses does what their replies ask for. -/
theorem untilAttained_attainedOf (numeric : solver.Numeric) {witnesses : List (MarginProgram α)}
    (some_witness : witnesses ≠ []) (margin : α) (state : σ) (log : List (Program α)) :
    let ended := untilAttained solver.recorded (margin + tolerance margin) none witnesses
      (state, log)
    ∃ asked, ended.2.2 = log ++ asked.map (·.program) ∧
      AttainedOf solver.name margin (solver.replies witnesses state)
        (certify margin ended.1).solution (certify margin ended.1).status asked := by
  dsimp only
  generalize found : solver.replies witnesses state = replies
  have above {pairs : List (MarginProgram α × Solution α)}
      (high : ∀ q ∈ pairs, ¬ Attains margin q.2) :
      ∀ q ∈ pairs, ¬ q.2.objective ≤ margin + tolerance margin := high
  cases Ending.exists_ending solver.name (Attains margin) replies with
  | @exhausted pairs high =>
      have all : solver.replies witnesses state = solved pairs ++ [] := by simpa using found
      obtain ⟨rest, next, rfl, answered, ended⟩ := exists_answered_of_replies all
      obtain rfl := Solver.eq_nil_of_replies ended
      have notEmpty : pairs ≠ [] := by
        rintro rfl
        exact some_witness rfl
      obtain ⟨pair, kept, first⟩ := exists_keepAll_first notEmpty (isNumber_of_solved numeric all)
      rw [untilAttained_append answered (above high), kept]
      exact ⟨pairs.map Prod.fst, congrArg (log ++ ·) List.map_map.symm, .least rfl high first⟩
  | @stopped before p solution after high low =>
      obtain ⟨rest, next, rfl, answered, ended⟩ := exists_answered_of_replies found
      obtain ⟨later, last, rfl, reply⟩ := Solver.exists_of_replies_eq_cons ended
      have new := keepLesser_of_attains (isNumber_of_solved numeric found) high
        (optimumOf p solution) low
      rw [untilAttained_append answered (above high), untilAttained]
      have below : solution.objective ≤ margin + tolerance margin := low
      simp only [Solver.recorded, reply, solutionOf, if_pos below, new]
      exact ⟨before.map Prod.fst ++ [p], by simp, .attained rfl high low⟩
  | @failed before p answer cause after high failing =>
      obtain ⟨rest, next, rfl, answered, ended⟩ := exists_answered_of_replies found
      obtain ⟨later, last, rfl, reply⟩ := Solver.exists_of_replies_eq_cons ended
      rw [untilAttained_append answered (above high), untilAttained]
      simp only [Solver.recorded, reply, failing.solutionOf_eq]
      exact ⟨before.map Prod.fst ++ [p], by simp, .failed rfl high failing⟩

end Attained

end Solve
end RobustMargin
