import RobustMargin.Proofs.Building
import RobustMargin.Program.Text

/-! # Programs under construction

A program comes from an empty one by calls that add a variable, add a row or set the objective. An
index is a plain number, so a call may be given one that another program gave out. Rows are checked
and always refer to variables of the program; the objective is taken as it is. -/
namespace RobustMargin

theorem LinearExpr.within_iff {α : Type} (e : LinearExpr α) (count : Nat) :
    e.within count = true ↔ ∀ t ∈ e.terms, t.1 < count := by
  simp [LinearExpr.within]

/-- A call on a program. -/
inductive Edit (α : Type) where
  | bounded (name : String) (lower upper : α)
  | free (name : String)
  | row (name : String) (expr : LinearExpr α) (sense : Sense) (rhs : α)
  | objective (direction : Direction) (expr : LinearExpr α)

variable {α : Type} [Scalar α]

/-- A variable that a call can add: a free one, or one with bounds that are numbers in order. -/
inductive Variable.Addable : Variable α → Prop where
  | free (name : String) : Addable (.free name)
  | bounded (name : String) {lower upper : α} (lowerNumber : Scalar.isNumber lower = true)
      (upperNumber : Scalar.isNumber upper = true) (ordered : ¬ upper < lower) :
      Addable ⟨name, .ofScalar lower, .ofScalar upper⟩

namespace Program

def tryEdit (p : Program α) : Edit α → Except (Error α) (Program α)
  | .bounded name lower upper => p.addVar name lower upper
  | .free name => .ok (p.push (.free name))
  | .row name expr sense rhs => p.addConstraint name expr sense rhs
  | .objective direction expr => .ok (p.setObjective direction expr)

/-- A call that is refused leaves the program as it was. -/
def edit (p : Program α) (e : Edit α) : Program α :=
  match p.tryEdit e with
  | .ok q => q
  | .error _ => p

/-- The program that calls in turn make of an empty one. -/
def construct (name : String) (edits : List (Edit α)) : Program α :=
  edits.foldl edit (empty name)

/-- What every call preserves: rows refer to variables of the program only, the numbers beside
coefficients are finite, and bounds are in order. -/
structure Kept (p : Program α) : Prop where
  inside : ∀ c ∈ p.constraints, c.expr.within p.vars.size = true
  finite : ∀ c ∈ p.constraints,
    Scalar.isFinite c.rhs = true ∧ Scalar.isFinite c.expr.constant = true
  addable : ∀ v ∈ p.vars, v.Addable

theorem kept_empty (name : String) : (empty name : Program α).Kept := by
  constructor <;> simp [empty]

theorem Kept.push {p : Program α} (kept : p.Kept) {v : Variable α} (addable : v.Addable) :
    (p.push v).Kept := by
  constructor
  · intro c member
    refine LinearExpr.within_mono _ (kept.inside c member) ?_
    simp [Program.push]
  · exact kept.finite
  · intro u member
    rcases Array.mem_push.mp member with before | rfl
    · exact kept.addable u before
    · exact addable

theorem Kept.addVar {p q : Program α} (kept : p.Kept) {name : String} {lower upper : α}
    (added : p.addVar name lower upper = .ok q) : q.Kept := by
  unfold Program.addVar at added
  split at added
  · cases added
  · rename_i accepted
    cases added
    simp only [Bool.or_eq_true, Bool.not_eq_true', not_or, Bool.not_eq_false,
      decide_eq_true_eq] at accepted
    exact kept.push (.bounded name accepted.1.1 accepted.1.2 accepted.2)

theorem Kept.addConstraint {p q : Program α} (kept : p.Kept) {name : String} {expr : LinearExpr α}
    {sense : Sense} {rhs : α} (added : p.addConstraint name expr sense rhs = .ok q) : q.Kept := by
  unfold Program.addConstraint at added
  split at added
  · cases added
  · rename_i known
    split at added
    · rename_i finite
      cases added
      constructor
      · intro c member
        rcases Array.mem_push.mp member with before | rfl
        · exact kept.inside c before
        · simpa [LinearExpr.within] using known
      · intro c member
        rcases Array.mem_push.mp member with before | rfl
        · exact kept.finite c before
        · exact Bool.and_eq_true_iff.mp finite
      · exact kept.addable
    · cases added

/-- A call preserves what is kept, whatever indices it is given. -/
theorem Kept.edit {p : Program α} (kept : p.Kept) (e : Edit α) : (p.edit e).Kept := by
  unfold Program.edit
  cases tried : p.tryEdit e with
  | error cause => exact kept
  | ok q =>
      cases e with
      | bounded name lower upper => exact kept.addVar tried
      | free name =>
          cases tried
          exact kept.push (.free name)
      | row name expr sense rhs => exact kept.addConstraint tried
      | objective direction expr =>
          cases tried
          exact ⟨kept.inside, kept.finite, kept.addable⟩

theorem Kept.foldl_edit {p : Program α} (kept : p.Kept) (edits : List (Edit α)) :
    (edits.foldl Program.edit p).Kept := by
  induction edits generalizing p with
  | nil => exact kept
  | cons e rest ih => exact ih (kept.edit e)

theorem kept_construct (name : String) (edits : List (Edit α)) : (construct name edits).Kept :=
  (kept_empty name).foldl_edit edits

/-- The objective after a call. -/
def objectiveAfter (last : Objective α) : Edit α → Objective α
  | .objective direction expr => ⟨direction, expr⟩
  | _ => last

/-- The objective of the last call that sets one. -/
def lastObjective (edits : List (Edit α)) : Objective α :=
  edits.foldl objectiveAfter ⟨.minimize, .zero⟩

theorem edit_objective (p : Program α) (e : Edit α) :
    (p.edit e).objective = objectiveAfter p.objective e := by
  unfold edit
  cases tried : p.tryEdit e with
  | error cause =>
      cases e with
      | objective direction expr => cases tried
      | _ => rfl
  | ok q =>
      cases e with
      | bounded name lower upper =>
          rw [addVar_eq_ok tried]
          rfl
      | row name expr sense rhs =>
          rw [addConstraint_eq_ok tried]
          rfl
      | _ =>
          cases tried
          rfl

theorem foldl_edit_objective (p : Program α) (edits : List (Edit α)) :
    (edits.foldl edit p).objective = edits.foldl objectiveAfter p.objective := by
  induction edits generalizing p with
  | nil => rfl
  | cons e rest ih => rw [List.foldl_cons, List.foldl_cons, ih, edit_objective]

theorem construct_objective (name : String) (edits : List (Edit α)) :
    (construct name edits).objective = lastObjective edits :=
  foldl_edit_objective _ edits

theorem allSatisfied?_eq (values : Array α) (tolerance : α) (rows : List (Constraint α))
    (inside : ∀ c ∈ rows, c.expr.within values.size = true) :
    allSatisfied? values tolerance rows = some (rows.all (·.isSatisfied values tolerance)) := by
  induction rows with
  | nil => rfl
  | cons c rest ih =>
      rw [List.forall_mem_cons] at inside
      have first : c.isSatisfied? values tolerance = some (c.isSatisfied values tolerance) := by
        rw [Constraint.isSatisfied?, c.expr.eval?_eq_some values inside.1]
        rfl
      rw [allSatisfied?, first, List.all_cons]
      cases c.isSatisfied values tolerance with
      | true => exact ih inside.2
      | false => rfl

/-- Rows that refer to variables of the program only can always be looked at. -/
theorem Kept.isFeasible?_eq {p : Program α} (kept : p.Kept) (values : Array α) (tolerance : α) :
    p.isFeasible? values tolerance = some (p.isFeasible values tolerance) := by
  unfold Program.isFeasible? Program.isFeasible
  by_cases full : values.size = p.vars.size
  · have rows := allSatisfied?_eq values tolerance p.constraints.toList fun c member => by
      rw [full]
      exact kept.inside c (Array.mem_toList_iff.mp member)
    cases p.withinBounds values tolerance with
    | true => simp [full, rows]
    | false => simp [full]
  · simp [full]

theorem Kept.isScoped_eq {p : Program α} (kept : p.Kept) :
    p.isScoped = p.objective.expr.within p.vars.size := by
  unfold isScoped
  rw [Array.all_eq_true_iff_forall_mem.mpr kept.inside, Bool.true_and]

/-- After any calls with any indices, the rows refer to variables of the program only, and the
feasibility of an assignment can be decided. The objective can be written and evaluated exactly if
the last call that sets one names variables that the program has in the end. -/
theorem rows_stay_inside (name : String) (edits : List (Edit Float)) :
    let p := construct name edits
    let known := ∀ t ∈ (lastObjective edits).expr.terms, t.1 < p.vars.size
    (∀ c ∈ p.constraints, ∀ t ∈ c.expr.terms, t.1 < p.vars.size) ∧
      (∀ values tolerance, ∃ verdict, p.isFeasible? values tolerance = some verdict) ∧
      ((∀ t ∈ p.objective.expr.terms, t.1 < p.vars.size) ↔ known) ∧
      ((∃ text, p.text? = some text) ↔ known) ∧
      ∀ values : Array Float, values.size = p.vars.size →
        ((∃ y, p.objective.expr.eval? values = some y) ↔ known) := by
  intro p known
  have kept : p.Kept := kept_construct name edits
  have objective : p.objective = lastObjective edits := construct_objective name edits
  have known_iff : p.objective.expr.within p.vars.size = true ↔ known := by
    rw [LinearExpr.within_iff, objective]
  refine ⟨?_, ?_, ?_, ?_, ?_⟩
  · intro c member
    exact (c.expr.within_iff _).mp (kept.inside c member)
  · intro values tolerance
    exact ⟨_, kept.isFeasible?_eq values tolerance⟩
  · rw [objective]
  · rw [← known_iff, text?, kept.isScoped_eq]
    cases p.objective.expr.within p.vars.size <;> simp
  · intro values full
    rw [← known_iff, LinearExpr.eval?, full]
    cases p.objective.expr.within p.vars.size <;> simp

/-- An objective that names a variable of another program is taken, and then the program has no
text and its objective no value. -/
theorem objective_outside :
    let p := construct "" [.free "x", .objective .minimize (.var 1)]
    (∃ t ∈ p.objective.expr.terms, ¬ t.1 < p.vars.size) ∧ p.text? = none ∧
      p.objective.expr.eval? #[(0.0 : Float)] = none := by
  decide +kernel

end Program
end RobustMargin
