import RobustMargin.Sweep
import RobustMargin.Wire.Network

/-! # Queries as JSON

Settings, queries, sweeps, and what is found. -/
namespace RobustMargin.Wire

open Json

def encodePropagation (point : Linearization) : Json :=
  object [("linearization", encodeLinearization point)]

/-- A missing field keeps its default, also where settings are written as an array. -/
def decodePropagation : Decoder Linearization :=
  recordOf [field "linearization" decodeLinearization fun x _ => x] default .ok

def encodeFormulation (f : Formulation) : Json := string f.longName

def decodeFormulation : Decoder Formulation :=
  choiceOf (Formulation.all.map fun f => (f.longName, f))

def encodeSettings (settings : Settings) : Json :=
  object [("formulation", encodeFormulation settings.formulation),
    ("propagation", encodePropagation settings.linearization)]

def decodeSettings : Decoder Settings :=
  recordOf
    [field "formulation" decodeFormulation fun x s => { s with formulation := x },
      field "propagation" decodePropagation fun x s => { s with linearization := x }]
    default .ok

def encodeSeeds (seeds : SeedRange) : Json :=
  object [("start", ofNat seeds.first), ("end", ofNat seeds.stop)]

/-- A range has its two fields and no others. -/
def decodeSeeds : Decoder SeedRange := fun json => do
  let (s, _) ← record .refused
    [field "start" wordOf fun x s => (some x, s.2), field "end" wordOf fun x s => (s.1, some x)]
    ((none, none) : Option Nat × Option Nat) json
  return ⟨← DecodeError.require s.1, ← DecodeError.require s.2⟩

def encodeSweep (settings : SweepSettings Float) : Json :=
  object [("depth", ofNat settings.depth), ("out_features", ofOption ofNat settings.outputs),
    ("seeds", encodeSeeds settings.seeds), ("activation", encodeActivation settings.activation),
    ("verifier", encodeSettings settings.query)]

def decodeSweep : Decoder (SweepSettings Float) :=
  recordOf
    [field "depth" wordOf fun x s => { s with depth := x },
      field "out_features" (optionOf wordOf) fun x s => { s with outputs := x },
      field "seeds" decodeSeeds fun x s => { s with seeds := x },
      field "activation" decodeActivation fun x s => { s with activation := x },
      field "verifier" decodeSettings fun x s => { s with query := x }]
    default .ok

def encodeQuery (q : Query Float) : Json :=
  object [("input", encodeBox q.input), ("activation", encodeActivation q.activation),
    ("params", encodeNetwork q.network)]

structure QueryFields where
  input : Option (InputBox Float)
  activation : Activation Float
  network : Option (Network Float)

def decodeQuery : Decoder (Query Float) :=
  recordOf
    [field "input" decodeBox fun x s => { s with input := some x },
      field "activation" decodeActivation fun x s => { s with activation := x },
      field "params" decodeNetwork fun x s => { s with network := some x }]
    (⟨none, default, none⟩ : QueryFields)
    fun s => do
      return ⟨← DecodeError.require s.input, s.activation, ← DecodeError.require s.network⟩

def encodeStatus : Status Float → Json
  | .optimal value => object [("status", string "optimal"), ("value", real value)]
  | .failed .infeasible => object [("status", string "infeasible")]
  | .failed (.solverError message) =>
      object [("status", string "solver_error"), ("message", string message)]

def decodeStatus : Decoder (Status Float) := fun json => do
  let (status, rest) ← tagged "status" json
  match status with
  | "optimal" => oneField "value" floatOf .optimal rest
  | "infeasible" => unitVariant (.failed .infeasible) rest
  | "solver_error" => oneField "message" stringOf (fun m => .failed (.solverError m)) rest
  | _ => throw .unfit

def encodeVerdict : Verdict Float → Json
  | .robust margin => object [("verdict", string "robust"), ("margin", real margin)]
  | .inconclusive margin => object [("verdict", string "inconclusive"), ("margin", real margin)]
  | .failed .infeasible => object [("verdict", string "infeasible")]
  | .failed (.solverError message) =>
      object [("verdict", string "solver_error"), ("message", string message)]

def decodeVerdict : Decoder (Verdict Float) := fun json => do
  let (verdict, rest) ← tagged "verdict" json
  match verdict with
  | "robust" => oneField "margin" floatOf .robust rest
  | "inconclusive" => oneField "margin" floatOf .inconclusive rest
  | "infeasible" => unitVariant (.failed .infeasible) rest
  | "solver_error" => oneField "message" stringOf (fun m => .failed (.solverError m)) rest
  | _ => throw .unfit

def encodeOutcome (outcome : QueryOutcome Float) : Json :=
  object [("label", ofNat outcome.label), ("status", encodeStatus outcome.status),
    ("verdict", encodeVerdict outcome.verdict),
    ("worst_competitor", ofOption ofNat outcome.worstCompetitor)]

structure OutcomeFields where
  label : Option Nat
  status : Option (Status Float)
  verdict : Option (Verdict Float)
  worstCompetitor : Option (Option Nat)

/-- A competitor that is left out is none, unless the outcome is written as an array. -/
def decodeOutcome : Decoder (QueryOutcome Float) := fun json => do
  let (s, positional) ← record .ignored
    [field "label" wordOf fun x s => { s with label := some x },
      field "status" decodeStatus fun x s => { s with status := some x },
      field "verdict" decodeVerdict fun x s => { s with verdict := some x },
      field "worst_competitor" (optionOf wordOf) fun x s => { s with worstCompetitor := some x }]
    (⟨none, none, none, none⟩ : OutcomeFields) json
  let worst ← if positional then DecodeError.require s.worstCompetitor
    else .ok (s.worstCompetitor.getD none)
  return ⟨← DecodeError.require s.label, ← DecodeError.require s.status,
    ← DecodeError.require s.verdict, worst⟩

def encodeSolvable (found : Solvable Float) : Json :=
  object [("sample_index", ofNat found.sample), ("seed", ofNat found.seed),
    ("margin", real found.margin)]

structure SolvableFields where
  sample : Option Nat
  seed : Option Nat
  margin : Option Float

def decodeSolvable : Decoder (Solvable Float) :=
  recordOf
    [field "sample_index" wordOf fun x s => { s with sample := some x },
      field "seed" wordOf fun x s => { s with seed := some x },
      field "margin" floatOf fun x s => { s with margin := some x }]
    (⟨none, none, none⟩ : SolvableFields)
    fun s => do
      return ⟨← DecodeError.require s.sample, ← DecodeError.require s.seed,
        ← DecodeError.require s.margin⟩

end RobustMargin.Wire
