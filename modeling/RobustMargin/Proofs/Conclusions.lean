import RobustMargin.Verification

/-! # Conclusions

A run writes the optimum that it keeps and the status that it tells apart from each other, in each
of its ways to end. In all of them there is an optimum exactly if the status is optimal, and its
objective is the one that the status tells. -/
namespace RobustMargin

variable {α σ : Type}

/-- All of some values are there exactly if they are the values of a list. -/
theorem mapM_eq_some_iff {β γ : Type} (f : β → Option γ) (xs : List β) (ys : List γ) :
    xs.mapM f = some ys ↔ xs.map f = ys.map some := by
  induction xs generalizing ys with
  | nil => cases ys <;> simp
  | cons x rest ih =>
      rw [List.mapM_cons, List.map_cons]
      cases first : f x with
      | none => cases ys <;> simp
      | some y =>
          cases ys with
          | nil => cases rest.mapM f <;> simp
          | cons z zs =>
              rw [List.map_cons, List.cons.injEq, Option.some.injEq, ← ih]
              cases rest.mapM f <;> simp

namespace Solve

/-- An optimum beside the status that belongs to it. -/
inductive Settled : Option (Optimum α) → Status α → Prop
  | optimal (o : Optimum α) : Settled (some o) (.optimal o.objective)
  | failed (cause : Failure) : Settled none (.failed cause)

namespace Settled

variable {solution : Option (Optimum α)} {status : Status α}

theorem status_eq {o : Optimum α} (settled : Settled (some o) status) :
    status = .optimal o.objective := by
  cases settled
  rfl

theorem solution_eq {value : α} (settled : Settled solution (.optimal value)) :
    ∃ o, solution = some o ∧ o.objective = value := by
  cases settled with
  | optimal o => exact ⟨o, rfl, rfl⟩

end Settled

variable [Scalar α]

omit [Scalar α] in
theorem finish_settled (best : Option (Optimum α)) :
    Settled (finish best).solution (finish best).status := by
  cases best with
  | none => exact .failed _
  | some o => exact .optimal o

omit [Scalar α] in
theorem conclude_settled (best : Except Failure (Option (Optimum α))) :
    Settled (conclude best).solution (conclude best).status := by
  cases best with
  | error cause => exact .failed cause
  | ok best => exact finish_settled best

/-- The certified margin is written into the optimum and the status alike. -/
theorem certify_settled (margin : α) (best : Except Failure (Option (Optimum α))) :
    Settled (certify margin best).solution (certify margin best).status := by
  match best with
  | .ok (some witness) => exact .optimal { witness with objective := margin }
  | .ok none => exact finish_settled none
  | .error cause => exact .failed cause

variable {m : Model α} {solver : Solver α σ} {state : σ}

theorem perCompetitor_settled : Settled (perCompetitor m solver state).1.solution
    (perCompetitor m solver state).1.status :=
  conclude_settled _

/-- The witnesses in an order of their indices. -/
def witnessesIn (m : Model α) (order : List Nat) : List (MarginProgram α) :=
  order.filterMap fun index => m.witnesses[index]?

/-- After an optimum of the auxiliary program the witnesses are searched in the order of the bounds,
if these can be evaluated. -/
theorem auxiliary_of_solved {robust : MarginProgram α} {rest : List (MarginProgram α)}
    {margin : Solution α} {next : σ} (programs : m.programs = robust :: rest)
    (solved : solver.solve robust.program state = (.ok (.optimal margin), next)) :
    (auxiliary m solver state).1 = (bindingOrder m.certificates margin.values).map fun order =>
      certify margin.objective (untilAttained solver
        (margin.objective + tolerance margin.objective) none (witnessesIn m order) next).1 := by
  rw [auxiliary, programs]
  simp only [solved]
  cases bindingOrder m.certificates margin.values <;> rfl

/-- The auxiliary program fails, or its optimum is certified with what the search leaves. -/
theorem auxiliary_cases {c : Conclusion α} (ended : (auxiliary m solver state).1 = some c) :
    (∃ cause, c = failed cause) ∨ ∃ robust rest margin next order, m.programs = robust :: rest ∧
      solver.solve robust.program state = (.ok (.optimal margin), next) ∧
      bindingOrder m.certificates margin.values = some order ∧
      c = certify margin.objective (untilAttained solver
        (margin.objective + tolerance margin.objective) none (witnessesIn m order) next).1 := by
  cases programs : m.programs with
  | nil =>
      rw [auxiliary, programs] at ended
      cases ended
      exact .inl ⟨_, rfl⟩
  | cons robust rest =>
      rcases answer : solver.solve robust.program state with ⟨reply, next⟩
      match reply, answer with
      | .ok (.optimal margin), answer =>
          rw [auxiliary_of_solved programs answer, Option.map_eq_some_iff] at ended
          obtain ⟨order, ordered, rfl⟩ := ended
          exact .inr ⟨robust, rest, margin, next, order, rfl, answer, ordered, rfl⟩
      | .ok .unbounded, answer =>
          simp only [auxiliary, programs, answer] at ended
          exact .inl ⟨_, (Option.some.inj ended).symm⟩
      | .ok .infeasible, answer =>
          simp only [auxiliary, programs, answer] at ended
          exact .inl ⟨_, (Option.some.inj ended).symm⟩
      | .error e, answer =>
          simp only [auxiliary, programs, answer] at ended
          exact .inl ⟨_, (Option.some.inj ended).symm⟩

theorem auxiliary_settled {c : Conclusion α} (ended : (auxiliary m solver state).1 = some c) :
    Settled c.solution c.status := by
  rcases auxiliary_cases ended with ⟨cause, rfl⟩ | ⟨_, _, margin, _, _, -, -, -, rfl⟩
  · exact .failed cause
  · exact certify_settled margin.objective _

/-- Whatever a solver answers, a run that comes to a conclusion keeps an optimum exactly if it tells
an optimal status. -/
theorem run_settled {c : Conclusion α} (ended : (run m solver state).1 = some c) :
    Settled c.solution c.status := by
  unfold run at ended
  split at ended
  · cases ended
    exact perCompetitor_settled
  · exact auxiliary_settled ended

/-- A run comes to a conclusion and keeps an optimum. -/
def Keeps (m : Model α) (solver : Solver α σ) (state : σ) (o : Optimum α) : Prop :=
  ∃ c, (run m solver state).1 = some c ∧ c.solution = some o

/-- Programs of the competitors are always run to a conclusion. -/
theorem run_of_perCompetitor (each : m.formulation.perCompetitor = true) (solver : Solver α σ)
    (state : σ) : run m solver state =
      (some (perCompetitor m solver state).1, (perCompetitor m solver state).2) := by
  rw [run, if_pos each]

theorem run_of_common (common : m.formulation.perCompetitor = false) (solver : Solver α σ)
    (state : σ) : run m solver state = auxiliary m solver state := by
  rw [run, common]
  exact if_neg Bool.false_ne_true

/-- The certificates are ordered exactly where each of their bounds has its values. -/
theorem bindingOrder_eq_some_iff (certificates : List (Certificate α)) (values : Array α)
    (order : List Nat) : bindingOrder certificates values = some order ↔
      (∀ c ∈ certificates, c.bound.within values.size = true) ∧
        order = sortedIndices (certificates.map fun c => c.bound.eval values) := by
  rw [bindingOrder, Option.map_eq_some_iff]
  constructor
  · rintro ⟨bounds, evaluated, rfl⟩
    rw [mapM_eq_some_iff] at evaluated
    have inside : ∀ c ∈ certificates, c.bound.within values.size = true := by
      intro c member
      have value : c.bound.eval? values ∈ bounds.map some :=
        evaluated ▸ List.mem_map_of_mem member
      obtain ⟨y, -, isValue⟩ := List.mem_map.mp value
      unfold LinearExpr.eval? at isValue
      split at isValue
      · assumption
      · cases isValue
    refine ⟨inside, congrArg sortedIndices ?_⟩
    refine (List.map_inj_right fun _ _ => Option.some.inj).mp ?_
    rw [← evaluated, List.map_map]
    exact List.map_congr_left fun c member => c.bound.eval?_eq_some values (inside c member)
  · rintro ⟨inside, rfl⟩
    refine ⟨certificates.map fun c => c.bound.eval values, (mapM_eq_some_iff ..).mpr ?_, rfl⟩
    rw [List.map_map]
    exact List.map_congr_left fun c member => c.bound.eval?_eq_some values (inside c member)

/-- The auxiliary program is run to no conclusion only where its answer is an optimum at which the
bounds of the certificates cannot be evaluated. -/
theorem auxiliary_eq_none_iff : (auxiliary m solver state).1 = none ↔
    ∃ robust rest margin next, m.programs = robust :: rest ∧
      solver.solve robust.program state = (.ok (.optimal margin), next) ∧
      bindingOrder m.certificates margin.values = none := by
  unfold auxiliary
  cases programs : m.programs with
  | nil => simp
  | cons robust rest =>
      rcases answer : solver.solve robust.program state with ⟨reply, next⟩
      match reply with
      | .ok (.optimal margin) =>
          cases order : bindingOrder m.certificates margin.values <;> simp [answer, order]
      | .ok .unbounded => simp [answer]
      | .ok .infeasible => simp [answer]
      | .error e => simp [answer]

end Solve
end RobustMargin
