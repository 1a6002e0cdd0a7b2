import RobustMargin.Verification

/-! # Queries

Self-contained verification queries, from the input and the network to the verdict. -/
namespace RobustMargin

/-- How a query is propagated and put to the solver. -/
structure Settings where
  formulation : Formulation
  linearization : Linearization
  deriving DecidableEq, Repr

instance : Inhabited Settings := ⟨⟨default, default⟩⟩

structure Query (α : Type) [Scalar α] where
  input : InputBox α
  activation : Activation α
  network : Network α

/-- What is told about a query that reached the solver. -/
structure QueryOutcome (α : Type) where
  label : Nat
  status : Status α
  verdict : Verdict α
  /-- The competitor that attains the margin. -/
  worstCompetitor : Option Nat
  deriving DecidableEq, Repr

namespace Query

variable {α σ : Type} [Scalar α]

def inclusion (q : Query α) (settings : Settings) : Except (Error α) (Inclusion α) :=
  Inclusion.build q.input q.activation q.network settings.linearization

/-- The query propagated and built, before anything is solved. -/
def verification (q : Query α) (settings : Settings) : Except (Error α) (Verification α) := do
  let inclusion ← q.inclusion settings
  Verification.build inclusion settings.formulation

def outcomeOf (solved : Solved α σ) : Except (Error α) (QueryOutcome α) := do
  let worst ← solved.worstCompetitor
  return ⟨solved.verification.label, solved.status, .ofStatus solved.status, worst⟩

/-- Propagates, builds and solves. Nothing is returned where the solve returns nothing. -/
def verify (q : Query α) (settings : Settings) (solver : Solver α σ) (state : σ) :
    Option (Except (Error α) (QueryOutcome α)) × σ :=
  match q.verification settings with
  | .error e => (some (.error e), state)
  | .ok v =>
      match v.solve solver state with
      | none => (none, state)
      | some (.error e) => (some (.error e), state)
      | some (.ok solved) => (some (outcomeOf solved), solved.state)

/-- The outcomes of several queries, in their order, if all of them return. -/
def verifyAll (settings : Settings) (solver : Solver α σ) :
    List (Query α) → σ → Option (List (Except (Error α) (QueryOutcome α))) × σ
  | [], state => (some [], state)
  | q :: rest, state =>
      match q.verify settings solver state with
      | (none, next) => (none, next)
      | (some outcome, next) =>
          let (outcomes, last) := verifyAll settings solver rest next
          (outcomes.map (outcome :: ·), last)

end Query
end RobustMargin
