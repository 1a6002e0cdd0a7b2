import RobustMargin.Network.Generate
import RobustMargin.Network.Widths
import RobustMargin.Query

/-! # Sweeps

The search for the first sample and seed whose generated network gives a model with an optimum. A
sample for which no network can be shaped ends the search with an error; a seed that fails does
not. -/
namespace RobustMargin

/-- The seeds from a first one up to before a last one. -/
structure SeedRange where
  first : Nat
  stop : Nat
  deriving DecidableEq, Repr

namespace SeedRange

def count (seeds : SeedRange) : Nat := seeds.stop - seeds.first

end SeedRange

structure SweepSettings (α : Type) where
  depth : Nat
  /-- The number of outputs; none picks one from the number of inputs and the depth. -/
  outputs : Option Nat
  seeds : SeedRange
  activation : Activation α
  query : Settings

instance : Inhabited (SweepSettings Float) := ⟨⟨1, none, ⟨0, 100⟩, .sigmoid, default⟩⟩

/-- A sample and a seed with the margin of their network. -/
structure Solvable (α : Type) where
  sample : Nat
  seed : Nat
  margin : α
  deriving DecidableEq, Repr

namespace Sweep

variable {α σ : Type} [Scalar α]

/-- The widths of the networks generated for a sample. -/
def widths (settings : SweepSettings α) (input : InputBox α) : Except (Error α) (List Nat) :=
  let outputs := settings.outputs.getD (suggestedOutputs input.size settings.depth)
  if outputs < 2 then .error (.invalidParams (.sweepOutputs outputs))
  else (layerWidths input.size outputs settings.depth).mapError .invalidParams

/-- How the network of a seed is generated. -/
abbrev Generator (α : Type) [Scalar α] :=
  (inputs : Nat) → (widths : List Nat) → (seed : Nat) → Except (Error α) (Network α)

/-- What the attempt at a seed comes to. -/
inductive Attempt (α : Type) where
  /-- The solve does not return, and with it the whole search. -/
  | ended
  | missed
  | hit (margin : α)

/-- Tells a network whose model has an optimum from one that has none or is refused. -/
def Attempt.ofVerify : Option (Except (Error α) (QueryOutcome α)) → Attempt α
  | none => .ended
  | some (.error _) => .missed
  | some (.ok outcome) =>
      match outcome.status with
      | .optimal value => .hit value
      | .failed _ => .missed

/-- The margin of a seed's network, if there is an optimum. -/
def trySeed (settings : SweepSettings α) (generate : Generator α) (solver : Solver α σ)
    (input : InputBox α) (widths : List Nat) (seed : Nat) (state : σ) : Attempt α × σ :=
  match generate input.size widths seed with
  | .error _ => (.missed, state)
  | .ok network =>
      let (outcome, next) :=
        Query.verify ⟨input, settings.activation, network⟩ settings.query solver state
      (.ofVerify outcome, next)

/-- The first of so many seeds that has a margin, if all attempts up to it return. -/
def trySeeds (attempt : Nat → σ → Attempt α × σ) :
    Nat → Nat → σ → Option (Option (Nat × α)) × σ
  | 0, _, state => (some none, state)
  | count + 1, seed, state =>
      match attempt seed state with
      | (.ended, next) => (none, next)
      | (.missed, next) => trySeeds attempt count (seed + 1) next
      | (.hit margin, next) => (some (some (seed, margin)), next)

/-- The first sample, counted from an index, with a seed that has a margin. -/
def find (settings : SweepSettings α) (generate : Generator α) (solver : Solver α σ) :
    Nat → List (InputBox α) → σ → Option (Except (Error α) (Option (Solvable α))) × σ
  | _, [], state => (some (.ok none), state)
  | index, input :: rest, state =>
      match widths settings input with
      | .error e => (some (.error e), state)
      | .ok shape =>
          let attempt := trySeed settings generate solver input shape
          match trySeeds attempt settings.seeds.count settings.seeds.first state with
          | (none, next) => (none, next)
          | (some none, next) => find settings generate solver (index + 1) rest next
          | (some (some (seed, margin)), next) => (some (.ok (some ⟨index, seed, margin⟩)), next)

/-- The search over all samples with seeded networks. -/
def findSolvable (settings : SweepSettings Float) (solver : Solver Float σ)
    (samples : List (InputBox Float)) (state : σ) :
    Option (Except (Error Float) (Option (Solvable Float))) × σ :=
  find settings Network.generate solver 0 samples state

end Sweep
end RobustMargin
