import RobustMargin.Proofs.Certification
import RobustMargin.Proofs.Readings

/-! # The life of a verification

The first request to solve a verification is granted and all later ones are refused. Whatever
solvers answer and in whatever order requests come, the verdict and the readings agree with the
status. -/
namespace RobustMargin

variable {α : Type} [Scalar α]

/-- What may be asked of a verification. Each solve comes with a solver of its own. -/
inductive Request (α : Type) : Type 1 where
  | solve {σ : Type} (solver : Solver α σ) (state : σ)
  | objective
  | competitor
  | report
  | verdict
  | x (layer k : Nat)
  | z (layer k : Nat)
  | residual (layer k : Nat)

inductive Reply (α : Type) where
  | status (status : Status α)
  | value (value : α)
  | competitor (k : Option Nat)
  | text (text : String)
  | verdict (verdict : Verdict α)

namespace Request

def isSolve : Request α → Bool
  | solve _ _ => true
  | _ => false

def FullLength : Request α → Prop
  | solve solver _ => solver.FullLength
  | _ => True

end Request

/-- A verification in use, with the programs that solvers have been given for it. -/
structure Session (α : Type) [Scalar α] where
  verification : Verification α
  asked : List (Program α)

namespace Session

def start (v : Verification α) : Session α := ⟨v, []⟩

/-- The answer to a request, and the session after it. There is none where the request ends the
program. -/
def step (s : Session α) : Request α → Option (Except (Error α) (Reply α) × Session α)
  | .solve solver state =>
      (s.verification.solve solver.recorded (state, s.asked)).map fun
        | .ok solved => (.ok (.status solved.status), ⟨solved.verification, solved.state.2⟩)
        | .error e => (.error e, s)
  | .objective => some (s.verification.objective.map .value, s)
  | .competitor => some (s.verification.worstCompetitor.map .competitor, s)
  | .report => some (s.verification.report.map .text, s)
  | .verdict => some (s.verification.verdict.map .verdict, s)
  | .x layer k => some ((s.verification.xValue layer k).map .value, s)
  | .z layer k => some ((s.verification.zValue layer k).map .value, s)
  | .residual layer k => some ((s.verification.residualValue layer k).map .value, s)

/-- The session after requests in turn. -/
def after (s : Session α) : List (Request α) → Option (Session α)
  | [] => some s
  | request :: rest => (s.step request).bind fun next => next.2.after rest

/-- Only a solve changes a session. -/
theorem step_reading (s : Session α) (request : Request α) (reading : request.isSolve = false) :
    ∃ reply, s.step request = some (reply, s) := by
  cases request with
  | solve solver state => cases reading
  | _ => exact ⟨_, rfl⟩

/-- A solved verification stays as it is, and no solver is asked again. -/
theorem step_solved (s : Session α) {status : Status α}
    (solved : s.verification.state = .solved status) (request : Request α) :
    ∃ reply, s.step request = some (reply, s) ∧
      (request.isSolve = true → reply = .error (.invalidState .alreadySolved)) := by
  cases request with
  | solve solver state =>
      rw [step, Verification.solve, solved]
      exact ⟨_, rfl, fun _ => rfl⟩
  | _ => exact ⟨_, rfl, Bool.noConfusion⟩

theorem after_solved (s : Session α) {status : Status α}
    (solved : s.verification.state = .solved status) (requests : List (Request α)) :
    s.after requests = some s := by
  induction requests with
  | nil => rfl
  | cons request rest ih =>
      obtain ⟨reply, same, -⟩ := s.step_solved solved request
      rw [after, same]
      exact ih

end Session

omit [Scalar α] in
theorem Solver.FullLength.recorded {σ : Type} {solver : Solver α σ} (full : solver.FullLength) :
    solver.recorded.FullLength := by
  intro p state solution next answer
  have reply : (solver.solve p state.1).1 = .ok (.optimal solution) := congrArg Prod.fst answer
  exact full p state.1 solution _ (Prod.ext reply rfl)

/-- A verification that a run over the programs of its model has solved. -/
inductive Verification.SolvedFrom (v : Verification α) : Verification α → Prop where
  | intro {σ : Type} (solver : Solver α σ) (state : σ) (c : Conclusion α) :
      (Solve.run v.model solver state).1 = some c →
      (∀ o, c.solution = some o → ∃ p ∈ v.model.primal,
        o.values.size = p.program.vars.size ∧ o.competitor = p.competitor) →
      SolvedFrom v { v with state := .solved c.status, solution := c.solution }

namespace Session

section Unsolved

variable {s : Session α} (unsolved : s.verification.state = .built) {inclusion : Inclusion α}
  {label : Nat} {formulation : Formulation}
  (model : s.verification.model = Model.ofRelaxation inclusion label formulation)
include unsolved model

/-- The first solve is granted, whatever its solver answers, if its run comes to a conclusion. -/
theorem step_solve {σ : Type} (solver : Solver α σ) (state : σ)
    (full : formulation.perCompetitor = true ∨ solver.FullLength) :
    ∃ c next, (Solve.run s.verification.model solver.recorded (state, s.asked)).1 = some c ∧
      s.step (.solve solver state) = some (.ok (.status c.status), next) ∧
      next.verification =
        { s.verification with state := .solved c.status, solution := c.solution } := by
  obtain ⟨c, ended⟩ := Solve.exists_conclusion inclusion label formulation
    (full.imp_right Solver.FullLength.recorded) (state, s.asked)
  rw [← model] at ended
  let run := Solve.run s.verification.model solver.recorded (state, s.asked)
  refine ⟨c, ⟨_, run.2.2⟩, ended, ?_, rfl⟩
  rw [step, Verification.solve_eq unsolved ended]
  rfl

/-- Readings leave an unsolved session as it is; otherwise a run of the first solver to be asked
has solved the verification. -/
theorem after_cases (requests : List (Request α))
    (full : ∀ request ∈ requests, request.FullLength) :
    requests.any Request.isSolve = false ∧ s.after requests = some s ∨
      requests.any Request.isSolve = true ∧ ∃ last, s.after requests = some last ∧
        s.verification.SolvedFrom last.verification := by
  induction requests with
  | nil => exact .inl ⟨rfl, rfl⟩
  | cons request rest ih =>
      rw [List.forall_mem_cons] at full
      rw [List.any_cons, after]
      cases isSolve : request.isSolve with
      | false =>
          obtain ⟨reply, same⟩ := s.step_reading request isSolve
          rw [same]
          exact ih full.2
      | true =>
          cases request with
          | solve solver state =>
              have fullLength : solver.FullLength := full.1
              obtain ⟨c, next, ended, granted, solved⟩ :=
                step_solve unsolved model solver state (.inr fullLength)
              refine .inr ⟨rfl, next, ?_, ?_⟩
              · rw [granted]
                exact next.after_solved (congrArg Verification.state solved) rest
              · rw [solved]
                refine .intro _ _ c ended fun o kept => ?_
                obtain ⟨p, member, solution, ⟨_, _, answer⟩, values, competitor⟩ :=
                  Solve.exists_solution_of_kept ended kept
                exact ⟨p, member, values ▸ fullLength.recorded _ _ _ _ answer, competitor⟩
          | _ => cases isSolve

end Unsolved

end Session

namespace Verification

/-- The verdict and the readings are those of a status. -/
inductive Agrees (v : Verification α) (network : Network α) : Option (Status α) → Prop
  | unsolved : v.verdict = .error (.invalidState .notSolved) → v.Refuses .notSolved →
      Agrees v network none
  | failed (cause : Failure) : v.verdict = .ok (.failed cause) →
      v.Refuses (.notOptimal (.failed cause)) → Agrees v network (some (.failed cause))
  | optimal (margin : α) : v.verdict = .ok (.ofStatus (.optimal margin)) →
      v.Serves network margin → Agrees v network (some (.optimal margin))

/-- An optimum is kept exactly if the state tells an optimal status, with its objective, and it
names a competitor of the label. -/
structure Coherent (v : Verification α) (network : Network α) : Prop where
  kept_iff : ∀ value, v.state = .solved (.optimal value) ↔
    ∃ o, v.solution = some o ∧ o.objective = value
  competitor : ∀ o, v.solution = some o →
    ∃ k < network.outputs, k ≠ v.label ∧ o.competitor = some k

theorem agrees_of_built {v : Verification α} (network : Network α) (built : v.state = .built) :
    v.status? = none ∧ v.Agrees network v.status? := by
  have status : v.status? = none := by rw [status?, built]
  refine ⟨status, ?_⟩
  rw [status]
  refine .unsolved ?_ (refuses_of_optimum ?_)
  · rw [verdict, status]
  · rw [optimum, built]

theorem status?_of_solved {v : Verification α} {status : Status α}
    (solved : v.state = .solved status) : v.status? = some status := by
  rw [status?, solved]

theorem agrees_of_settled {v : Verification α} {inclusion : Inclusion α} {label : Nat}
    {formulation : Formulation} (made : inclusion.Propagated)
    (model : v.model.BuiltFor inclusion label formulation) {status : Status α}
    (solved : v.state = .solved status) (settled : Solve.Settled v.solution status)
    (readable : ∀ o, v.solution = some o → Readable o inclusion label formulation) :
    v.Agrees inclusion.network v.status? := by
  have told := status?_of_solved solved
  have verdict : v.verdict = .ok (.ofStatus status) := by rw [verdict, told]
  rw [told]
  cases status with
  | optimal margin =>
      obtain ⟨o, kept, rfl⟩ := settled.solution_eq
      have found := (v.optimum_eq_ok_iff o).mpr ⟨⟨_, solved⟩, kept⟩
      exact .optimal _ verdict (serves_of_optimal made model found (readable o kept))
  | failed cause =>
      refine .failed cause verdict (refuses_of_optimum ?_)
      rw [optimum, solved]

theorem coherent_of_settled {v : Verification α} {network : Network α} {status : Status α}
    (solved : v.state = .solved status) (settled : Solve.Settled v.solution status)
    (competitor : ∀ o, v.solution = some o →
      ∃ k < network.outputs, k ≠ v.label ∧ o.competitor = some k) : v.Coherent network := by
  refine ⟨fun value => ⟨fun same => ?_, ?_⟩, competitor⟩
  · obtain rfl := ModelState.solved.inj (solved.symm.trans same)
    exact settled.solution_eq
  · rintro ⟨o, kept, rfl⟩
    rw [kept] at settled
    rw [solved, settled.status_eq]

/-- What a run keeps is settled and can be read. -/
theorem SolvedFrom.settled {v next : Verification α} {inclusion : Inclusion α} {label : Nat}
    {formulation : Formulation} (model : v.model.BuiltFor inclusion label formulation)
    (solved : v.SolvedFrom next) : next.model = v.model ∧ ∃ status,
      next.state = .solved status ∧ Solve.Settled next.solution status ∧
        ∀ o, next.solution = some o → Readable o inclusion label formulation := by
  obtain ⟨solver, state, c, ended, fromPrimal⟩ := solved
  refine ⟨rfl, c.status, rfl, Solve.run_settled ended, fun o kept => ?_⟩
  obtain ⟨p, member, size, competitor⟩ := fromPrimal o kept
  rw [model.primal_eq] at member
  obtain ⟨k, rival, rfl⟩ := List.mem_map.mp member
  obtain ⟨bound, other⟩ := (Model.mem_competitors label _ k).mp rival
  exact ⟨size, k, bound, other, competitor⟩

end Verification

/-- Over any scalars, with any solvers whose answers have full length and after any requests, an
optimum is kept exactly if the status is optimal, with its objective, and the verdict and the
readings agree with the status. No request ends the program. Without a request to solve the
verification is as it was, and the first such request will be granted; after one nothing changes
any more, and further ones are refused. -/
theorem readings_agree_with_status (input : InputBox α) (f : Activation α) (network : Network α)
    (point : Linearization) (inclusion : Inclusion α)
    (built : Inclusion.build input f network point = .ok inclusion) (label : Nat)
    (formulation : Formulation) (v : Verification α)
    (started : Verification.withLabel inclusion label formulation = .ok v)
    (requests : List (Request α)) (full : ∀ request ∈ requests, request.FullLength) :
    ∃ s, (Session.start v).after requests = some s ∧
      s.verification.label = label ∧ s.verification.formulation = formulation ∧
      s.verification.Coherent network ∧
      s.verification.Agrees network s.verification.status? ∧
      (requests.any Request.isSolve = false → s = .start v ∧ s.verification.status? = none ∧
        ∀ (σ : Type) (solver : Solver α σ) (state : σ),
          formulation.perCompetitor = true ∨ solver.FullLength → ∃ status next,
            s.step (.solve solver state) = some (.ok (.status status), next) ∧
              next.verification.status? = some status) ∧
      (requests.any Request.isSolve = true → (∃ status, s.verification.status? = some status) ∧
        ∀ request, ∃ reply, s.step request = some (reply, s) ∧ (request.isSolve = true →
          reply = .error (.invalidState .alreadySolved))) := by
  obtain ⟨made, -, -, rfl, -⟩ := (Inclusion.build_eq_ok_iff _ _ _ _ _).mp built
  obtain ⟨rfl, model⟩ := Verification.eq_of_withLabel started
  let v : Verification α :=
    ⟨inclusion, Model.ofRelaxation inclusion label formulation, .built, none⟩
  rcases Session.after_cases (s := .start v) rfl rfl requests full with
    ⟨readings, same⟩ | ⟨solves, s, last, from_run⟩
  · obtain ⟨status, agrees⟩ := Verification.agrees_of_built (v := v) inclusion.network rfl
    have coherent : v.Coherent inclusion.network := by
      refine ⟨fun value => ?_, nofun⟩
      change .built = ModelState.solved _ ↔ ∃ o, none = some o ∧ _
      simp
    rw [readings]
    refine ⟨.start v, same, model.label_eq, model.formulation_eq, coherent, agrees,
      fun _ => ⟨rfl, status, ?_⟩, Bool.noConfusion⟩
    intro σ solver state full
    obtain ⟨c, next, -, granted, solved⟩ :=
      Session.step_solve (s := .start v) rfl rfl solver state full
    refine ⟨c.status, next, granted, ?_⟩
    rw [solved]
    rfl
  · obtain ⟨sameModel, status, solved, settled, readable⟩ := from_run.settled model
    have sameModel : s.verification.model = v.model := sameModel
    have isLabel : s.verification.label = label := by
      rw [Verification.label, sameModel, model.label_eq]
    rw [solves]
    refine ⟨s, last, isLabel, ?_, ?_, ?_, Bool.noConfusion, fun _ => ⟨?_, s.step_solved solved⟩⟩
    · rw [Verification.formulation, sameModel, model.formulation_eq]
    · exact Verification.coherent_of_settled solved settled fun o kept =>
        isLabel.symm ▸ (readable o kept).competitor
    · exact Verification.agrees_of_settled made (sameModel ▸ model) solved settled readable
    · exact ⟨status, Verification.status?_of_solved solved⟩

omit [Scalar α] in
/-- What a solver answers is answered with a log as well. -/
theorem Solver.exists_recorded {σ : Type} {solver : Solver α σ} {p : Program α}
    (answers : ∀ state, ∃ solution next, solver.solve p state = (.ok (.optimal solution), next))
    (state : σ × List (Program α)) :
    ∃ solution next, solver.recorded.solve p state = (.ok (.optimal solution), next) := by
  obtain ⟨solution, next, answer⟩ := answers state.1
  refine ⟨solution, (next, state.2 ++ [p]), ?_⟩
  simp only [recorded, answer]

/-- A verdict asked for too early, two solves and a reading. -/
noncomputable def Session.visit : List (Request ℝ) :=
  [.verdict, .solve .choosing (), .solve .choosing (), .x 0 0]

theorem Session.visit_fullLength : ∀ request ∈ visit, request.FullLength := by
  intro request member
  fin_cases member
  · trivial
  · exact Solver.choosing_sound.fullLength
  · exact Solver.choosing_sound.fullLength
  · trivial

/-- The visit ends with an optimum for one of two competitors. -/
theorem readings_agree_with_status_crossing :
    ∃ inclusion v s margin k,
      Inclusion.build .segment .cube .crossing .preActivation = .ok inclusion ∧
      Verification.withLabel inclusion 0 .direct = .ok v ∧
      (∀ request ∈ Session.visit, request.FullLength) ∧
      (Session.start v).after Session.visit = some s ∧
      s.verification.status? = some (.optimal margin) ∧ s.verification.objective = .ok margin ∧
      s.verification.worstCompetitor = .ok (some k) ∧ (k = 1 ∨ k = 2) ∧
      ∀ request, ∃ reply, s.step request = some (reply, s) := by
  have built := Inclusion.build_eq .segment .cube .crossing .preActivation rfl
  obtain ⟨made, -, -, network, -⟩ := (Inclusion.build_eq_ok_iff _ _ _ _ _).mp built
  have rivals := Network.crossing_rivals
  rw [← network] at rivals
  have inRange := Nat.zero_lt_two.trans_le rivals
  obtain ⟨v, started⟩ : ∃ v, Verification.withLabel _ 0 .direct = .ok v :=
    ⟨_, Verification.withLabel_eq made inRange rivals .direct⟩
  obtain ⟨isStart, -⟩ := Verification.eq_of_withLabel started
  have relaxation : v.model = Model.ofRelaxation _ 0 .direct :=
    congrArg Verification.model isStart
  obtain ⟨s, visited, label, -, -, agrees, -, last⟩ := readings_agree_with_status .segment .cube
    .crossing .preActivation _ built 0 .direct _ started Session.visit Session.visit_fullLength
  -- The session is the one after its first solve, and that finds an optimum.
  obtain ⟨c, next, run, granted, solved⟩ := Session.step_solve (s := .start v)
    (congrArg Verification.state isStart) relaxation Solver.choosing () (.inl rfl)
  rw [show (Session.start v).verification.model = _ from relaxation] at run
  obtain ⟨_, margin, ended, optimal⟩ := Model.solves_of_answers (fun _ _ optimum =>
    Solver.exists_recorded (Solver.choosing_of_hasOptimum optimum)) made inRange rivals ((), [])
  obtain rfl := Option.some.inj (run.symm.trans ended)
  have visits : (Session.start v).after Session.visit = some next := by
    change ((Session.start v).step (.solve .choosing ())).bind _ = _
    rw [granted]
    exact next.after_solved (congrArg Verification.state solved) _
  obtain rfl := Option.some.inj (visited.symm.trans visits)
  have status := Verification.status?_of_solved (congrArg Verification.state solved)
  rw [optimal] at status
  rw [status] at agrees
  cases agrees with
  | optimal _ _ serves =>
      obtain ⟨k, bound, other, competitor⟩ := serves.competitor
      have either : k = 1 ∨ k = 2 := by
        change k < 3 at bound
        rw [label] at other
        omega
      refine ⟨_, v, s, margin, k, built, started, Session.visit_fullLength, visited, status,
        serves.objective, competitor, either, fun request => ?_⟩
      obtain ⟨reply, same, -⟩ := (last rfl).2 request
      exact ⟨reply, same⟩

end RobustMargin
