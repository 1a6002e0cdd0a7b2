import RobustMargin.Proofs.Handles
import RobustMargin.Proofs.Submissions

/-! # Objectives that are no numbers

A solver may report an objective that compares with nothing. In the first place it is kept as the
margin, and there is no robust verdict. In a later place it is passed over as if its competitor had
not been asked for. -/
namespace RobustMargin

namespace Solve

section Kept

variable {α : Type} [Scalar α] [Scalar.Ordered α]

/-- What is kept is zero or more exactly if the old objective is and the new one is not negative.
One that is no number is not negative. -/
theorem zero_le_keepLesser_iff (old new : Optimum α) :
    0 ≤ (keepLesser (some old) new).objective ↔
      0 ≤ old.objective ∧ ¬new.objective < 0 := by
  rw [keepLesser]
  split
  · rename_i less
    have le := Scalar.Ordered.le_of_lt less
    constructor
    · intro above
      have numbers := Scalar.Ordered.number_of_le above
      exact ⟨Scalar.Ordered.le_trans above le,
        fun negative => (Scalar.Ordered.lt_iff numbers.2 numbers.1).mp negative above⟩
    · rintro ⟨above, notNegative⟩
      exact Scalar.Ordered.le_of_not_lt (Scalar.Ordered.number_of_le le).1
        (Scalar.Ordered.number_of_le above).1 notNegative
  · rename_i notLess
    refine ⟨fun above => ⟨above, fun negative => ?_⟩, And.left⟩
    exact notLess (Scalar.Ordered.lt_of_lt_of_le negative above)

theorem zero_le_keepAll_iff (old : Optimum α) (pairs : List (MarginProgram α × Solution α))
    {optimum : Optimum α} (kept : keepAll (some old) pairs = some optimum) :
    0 ≤ optimum.objective ↔
      0 ≤ old.objective ∧ ∀ q ∈ pairs, ¬q.2.objective < 0 := by
  induction pairs generalizing old with
  | nil =>
      obtain rfl := Option.some.inj kept
      exact (and_iff_left (List.forall_mem_nil _)).symm
  | cons pair rest ih =>
      rw [ih _ kept, zero_le_keepLesser_iff, List.forall_mem_cons, and_assoc]
      rfl

end Kept

variable {α σ : Type} [Scalar α]

omit [Scalar α] in
theorem Answered.replies_eq {solver : Solver α σ} {state last : σ}
    {programs : List (MarginProgram α)} {solutions : List (Solution α)}
    (answered : Answered solver state programs solutions last) :
    solver.replies programs state = solved (programs.zip solutions) := by
  induction answered with
  | nil => rfl
  | cons answer _ ih =>
      rw [Solver.replies, answer]
      exact congrArg _ ih

/-- Programs that are solved in turn have an optimum exactly if all replies are solutions; the best
of them is kept. -/
theorem perCompetitor_optimal_iff {solver : Solver α σ} {m : Model α} {state : σ}
    {optimum : Optimum α} : (perCompetitor m solver state).1.solution = some optimum ↔
      ∃ pairs, solver.replies m.programs state = solved pairs ∧
        keepAll none pairs = some optimum := by
  rw [perCompetitor_solution_iff]
  constructor
  · rintro ⟨solutions, last, answered, kept⟩
    exact ⟨_, answered.replies_eq, kept⟩
  · rintro ⟨pairs, same, kept⟩
    rw [← List.append_nil (solved pairs)] at same
    obtain ⟨rest, next, programs, answered, ended⟩ := exists_answered_of_replies same
    obtain rfl := Solver.eq_nil_of_replies ended
    rw [List.append_nil] at programs
    refine ⟨_, _, programs ▸ answered, ?_⟩
    rwa [programs, ← List.zip_of_prod rfl rfl]

/-- All replies are solutions. The first objective is zero or more, and no later one is negative; a
later one may be no number. -/
def NoneNegative (replies : List (MarginProgram α × Answer α)) : Prop :=
  ∃ first rest, replies = solved (first :: rest) ∧ 0 ≤ first.2.objective ∧
    ∀ q ∈ rest, ¬q.2.objective < 0

section Robust

variable [Scalar.Ordered α]

/-- The verdict on programs solved in turn is robust exactly if none of the replies is negative. -/
theorem perCompetitor_robust_iff {solver : Solver α σ} {m : Model α} {state : σ} :
    (Verdict.ofStatus (perCompetitor m solver state).1.status).isRobust = true ↔
      NoneNegative (solver.replies m.programs state) := by
  rw [Verdict.isRobust_ofStatus_iff]
  constructor
  · rintro ⟨value, status, above⟩
    have settled : Settled (perCompetitor m solver state).1.solution
        (perCompetitor m solver state).1.status := perCompetitor_settled
    rw [status] at settled
    obtain ⟨optimum, ended, rfl⟩ := settled.solution_eq
    obtain ⟨pairs, same, kept⟩ := perCompetitor_optimal_iff.mp ended
    cases pairs with
    | nil => cases kept
    | cons first rest =>
        obtain ⟨positive, notNegative⟩ := (zero_le_keepAll_iff _ rest kept).mp above
        exact ⟨first, rest, same, positive, notNegative⟩
  · rintro ⟨first, rest, same, positive, notNegative⟩
    obtain ⟨optimum, kept⟩ := Option.isSome_iff_exists.mp
      (keepAll_isSome none (first :: rest) (.inr (List.cons_ne_nil _ _)))
    have optimal := perCompetitor_optimal_iff.mpr ⟨_, same, kept⟩
    refine ⟨optimum.objective, (optimal ▸ perCompetitor_settled).status_eq, ?_⟩
    exact (zero_le_keepAll_iff (optimumOf first.1 first.2) rest kept).mpr
      ⟨positive, notNegative⟩

/-- Every program was answered with a solution, and its objective is zero or more if it is a
number. -/
theorem NoneNegative.exists_solution {solver : Solver α σ} {programs : List (MarginProgram α)}
    {state : σ} (none : NoneNegative (solver.replies programs state)) {p : MarginProgram α}
    (member : p ∈ programs) : ∃ solution,
      (p, .ok (.optimal solution)) ∈ solver.replies programs state ∧
        (Scalar.isNumber solution.objective = true → 0 ≤ solution.objective) := by
  obtain ⟨first, rest, same, positive, notNegative⟩ := none
  have replied : p ∈ (solver.replies programs state).map Prod.fst := by
    rwa [solver.replies_programs]
  obtain ⟨reply, inReplies, rfl⟩ := List.mem_map.mp replied
  have inSolved := same ▸ inReplies
  obtain ⟨q, inPairs, rfl⟩ := List.mem_map.mp inSolved
  refine ⟨q.2, inReplies, fun number => ?_⟩
  rcases List.mem_cons.mp inPairs with rfl | later
  · exact positive
  · exact Scalar.Ordered.le_of_not_lt number (Scalar.Ordered.number_of_le positive).1
      (notNegative q later)

end Robust
end Solve

/-- The program of every competitor was answered with a solution, and its objective is good. -/
def Network.AnsweredFor {α : Type} [Scalar α] (network : Network α) (label : Nat)
    (replies : List (MarginProgram α × Answer α)) (good : α → Prop) : Prop :=
  ∀ k < network.outputs, k ≠ label → ∃ p solution,
    (p, .ok (.optimal solution)) ∈ replies ∧ p.competitor = some k ∧ good solution.objective

theorem Verification.isRobust_of_solve {α σ : Type} [Scalar α] {v : Verification α}
    (unsolved : v.state = .built) {solver : Solver α σ} {state : σ} {c : Conclusion α}
    (ended : (Solve.run v.model solver state).1 = some c) :
    ∃ s, v.solve solver state = some (.ok s) ∧
      ((∃ margin, s.verification.verdict = .ok (.robust margin)) ↔
        (Verdict.ofStatus c.status).isRobust = true) := by
  refine ⟨_, Verification.solve_eq unsolved ended, ?_⟩
  change (∃ margin, Except.ok (Verdict.ofStatus c.status) = .ok (.robust margin)) ↔ _
  cases Verdict.ofStatus c.status <;> simp [Verdict.isRobust]

/-- Over any scalars and whatever objectives a solver reports, the verdict on the competitors'
programs is robust exactly if all are answered with solutions, the first objective is zero or more
and no later one is negative. So an objective that is no number is passed over unless it comes
first, and the verdict vouches for the competitors whose objectives are numbers. -/
theorem robust_iff_noneNegative {α σ : Type} [Scalar α] [Scalar.Ordered α]
    (inclusion : Inclusion α) (label : Nat) (formulation : Formulation) (v : Verification α)
    (started : Verification.withLabel inclusion label formulation = .ok v)
    (each : formulation.perCompetitor = true) (solver : Solver α σ) (state : σ) :
    ∃ s, v.solve solver state = some (.ok s) ∧
      let replies := solver.replies v.model.programs state
      let robust := ∃ margin, s.verification.verdict = .ok (.robust margin)
      (robust ↔ Solve.NoneNegative replies) ∧
        (robust → inclusion.network.AnsweredFor label replies fun objective =>
          Scalar.isNumber objective = true → 0 ≤ objective) ∧
        (solver.Numeric → robust → inclusion.network.AnsweredFor label replies (0 ≤ ·)) := by
  obtain ⟨isStart, model⟩ := Verification.eq_of_withLabel started
  have unsolved : v.state = .built := by rw [isStart]
  have perProgram : v.model.formulation.perCompetitor = true := by rw [model.formulation_eq, each]
  have programs : v.model.primal = v.model.programs := by rw [Model.primal, if_pos perProgram]
  obtain ⟨s, solved, verdict⟩ := Verification.isRobust_of_solve unsolved
    (congrArg Prod.fst (Solve.run_of_perCompetitor perProgram solver state))
  have decided := verdict.trans Solve.perCompetitor_robust_iff
  have answered (robust : ∃ margin, s.verification.verdict = .ok (.robust margin)) :
      inclusion.network.AnsweredFor label (solver.replies v.model.programs state)
        fun objective => Scalar.isNumber objective = true → 0 ≤ objective := by
    intro k bound other
    have rival : some k ∈ v.model.programs.map (·.competitor) := by
      rw [← programs, model.primal_eq, Model.marginPrograms_competitors]
      exact List.mem_map_of_mem ((Model.mem_competitors label _ k).mpr ⟨bound, other⟩)
    obtain ⟨p, member, competitor⟩ := List.mem_map.mp rival
    obtain ⟨solution, reply, good⟩ := (decided.mp robust).exists_solution member
    exact ⟨p, solution, reply, competitor, good⟩
  refine ⟨s, solved, decided, answered, fun numeric robust k bound other => ?_⟩
  obtain ⟨p, solution, reply, competitor, good⟩ := answered robust k bound other
  exact ⟨p, solution, reply, competitor, good (numeric.of_replies reply)⟩

/-- Solves the first program that it is given with margin one, and has no number for any later
one. -/
def Solver.unordered : Solver Float Nat where
  name := "unordered"
  solve := fun p count =>
    (.ok (.optimal ⟨Array.replicate p.vars.size 0, if count = 0 then 1 else 0 / 0⟩), count + 1)

theorem Solver.unordered_noneNegative (p q : MarginProgram Float) :
    Solve.NoneNegative (unordered.replies [p, q] 0) := by
  refine ⟨(p, ⟨_, 1⟩), [(q, ⟨_, 0 / 0⟩)], rfl, ?_, ?_⟩
  · change (0 : Float) ≤ 1
    decide
  · rw [List.forall_mem_singleton]
    change ¬(0 / 0 : Float) < 0
    decide

/-- A model for the first of three outputs has programs for the other two. -/
theorem exists_passedOnToFirst : ∃ v p q,
    Verification.withLabel Solve.passedOnToFirst 0 .direct = .ok v ∧ v.state = .built ∧
      v.model.formulation = .direct ∧ v.model.programs = [p, q] ∧
      p.competitor = some 1 ∧ q.competitor = some 2 := by
  have accepted : (Verification.withLabel Solve.passedOnToFirst 0 .direct).isOk = true := by
    decide +kernel
  obtain ⟨v, started⟩ := exists_ok_of_isOk accepted
  obtain ⟨isStart, model⟩ := Verification.eq_of_withLabel started
  have unsolved : v.state = .built := by rw [isStart]
  have programs := model.primal_eq
  rw [Model.primal, if_pos (by rw [model.formulation_eq]; rfl)] at programs
  exact ⟨v, _, _, started, unsolved, model.formulation_eq, programs, rfl, rfl⟩

/-- A robust verdict although the objective of the second competitor is no number. -/
theorem robust_past_unordered : ∃ v s,
    Verification.withLabel Solve.passedOnToFirst 0 .direct = .ok v ∧
      Formulation.direct.perCompetitor = true ∧ v.solve .unordered 0 = some (.ok s) ∧
      (∃ margin, s.verification.verdict = .ok (.robust margin)) ∧
      ¬Solve.passedOnToFirst.network.AnsweredFor 0
        (Solver.unordered.replies v.model.programs 0) (0 ≤ ·) := by
  obtain ⟨v, p, q, started, unsolved, formulation, programs, first, second⟩ :=
    exists_passedOnToFirst
  have perProgram : v.model.formulation.perCompetitor = true := by
    rw [formulation]
    rfl
  obtain ⟨s, solved, verdict⟩ := Verification.isRobust_of_solve unsolved
    (congrArg Prod.fst (Solve.run_of_perCompetitor perProgram Solver.unordered 0))
  rw [Solve.perCompetitor_robust_iff, programs] at verdict
  refine ⟨v, s, started, rfl, solved, verdict.mpr (Solver.unordered_noneNegative p q),
    fun answered => ?_⟩
  obtain ⟨r, solution, reply, competitor, notNegative⟩ := answered 2 (by decide) (by decide)
  rw [programs] at reply
  rcases List.mem_pair.mp reply with isFirst | isSecond
  · obtain ⟨rfl, -⟩ := Prod.mk.inj isFirst
    cases first.symm.trans competitor
  · obtain rfl := Outcome.optimal.inj (Except.ok.inj (Prod.mk.inj isSecond).2)
    have unordered : ¬(0 : Float) ≤ 0 / 0 := by decide
    exact unordered notNegative

/-- The verdict for the first of three outputs vouches for one competitor only. -/
theorem robust_iff_noneNegative_unordered : ∃ v s,
    Verification.withLabel Solve.passedOnToFirst 0 .direct = .ok v ∧
      Formulation.direct.perCompetitor = true ∧ v.solve .unordered 0 = some (.ok s) ∧
      (∃ margin, s.verification.verdict = .ok (.robust margin)) ∧
      Solve.passedOnToFirst.network.AnsweredFor 0
        (Solver.unordered.replies v.model.programs 0) fun objective =>
          Scalar.isNumber objective = true → 0 ≤ objective := by
  obtain ⟨v, p, q, started, -, -, programs, -⟩ := exists_passedOnToFirst
  obtain ⟨s, solved, decided, answered, -⟩ :=
    robust_iff_noneNegative Solve.passedOnToFirst 0 .direct v started rfl .unordered 0
  rw [programs] at decided
  have robust := decided.mpr (Solver.unordered_noneNegative p q)
  exact ⟨v, s, started, rfl, solved, robust, answered robust⟩

end RobustMargin
