import RobustMargin.Json.Printer
import RobustMargin.Wire.Query

/-! # Instance files

A query in a file: the input, the activation, and the network either in full or as a recipe to
generate it. -/
namespace RobustMargin

/-- The reasons of a failure, the outermost first. -/
abbrev Reasons := List String

namespace Reasons

def ofError (e : Error Float) : Reasons := e.message :: e.sources

def text (reasons : Reasons) : String := ": ".intercalate reasons

end Reasons

/-- Puts a reason in front of those of a failure. -/
def because {β : Type} (reason : String) (result : Except Reasons β) : Except Reasons β :=
  result.mapError (reason :: ·)

def liftError {β : Type} (result : Except (Error Float) β) : Except Reasons β :=
  result.mapError Reasons.ofError

/-- A seeded network; its number of inputs comes from the values beside it. -/
structure Recipe where
  depth : Nat
  outputs : Nat
  seed : Nat
  deriving DecidableEq, Repr

namespace Recipe

def generate (recipe : Recipe) (inputs : Nat) : Except Reasons (Network Float) := do
  let widths ←
    because s!"cannot step {inputs} inputs down to {recipe.outputs} outputs in {recipe.depth} layers"
      (liftError ((layerWidths inputs recipe.outputs recipe.depth).mapError .invalidParams))
  liftError (Network.generate inputs widths recipe.seed)

end Recipe

structure InstanceFile where
  values : List Float
  uncertainties : List Float
  activation : Activation Float
  network : Option (Network Float)
  recipe : Option Recipe

namespace InstanceFile

/-- The query of a file. Exactly one of network and recipe has to be there. -/
def toQuery (file : InstanceFile) : Except Reasons (Query Float) := do
  let input ← because "invalid uncertain input"
    (liftError (InputBox.ofVectors file.values file.uncertainties))
  let network ← match file.network, file.recipe with
    | some network, none => .ok network
    | none, some recipe => recipe.generate input.size
    | some _, some _ => .error ["instance sets both `params` and `generator`"]
    | none, none => .error ["instance needs either `params` or `generator`"]
  return ⟨input, file.activation, network⟩

end InstanceFile

namespace Wire

open Json

def encodeRecipe (recipe : Recipe) : Json :=
  object [("depth", ofNat recipe.depth), ("out_features", ofNat recipe.outputs),
    ("seed", ofNat recipe.seed)]

structure RecipeFields where
  depth : Option Nat
  outputs : Option Nat
  seed : Option Nat

def decodeRecipe : Decoder Recipe :=
  recordOf
    [field "depth" wordOf fun x s => { s with depth := some x },
      field "out_features" wordOf fun x s => { s with outputs := some x },
      field "seed" wordOf fun x s => { s with seed := some x }]
    (⟨none, none, none⟩ : RecipeFields)
    fun s => do
      return ⟨← DecodeError.require s.depth, ← DecodeError.require s.outputs,
        ← DecodeError.require s.seed⟩

/-- A network or a recipe that is not there is left out. -/
def encodeInstance (file : InstanceFile) : Json :=
  object ([("values", ofList real file.values), ("uncertainties", ofList real file.uncertainties),
      ("activation", encodeActivation file.activation)] ++
    (file.network.map fun network => ("params", encodeNetwork network)).toList ++
    (file.recipe.map fun recipe => ("generator", encodeRecipe recipe)).toList)

structure InstanceFields where
  values : Option (List Float)
  uncertainties : Option (List Float)
  activation : Activation Float
  network : Option (Network Float)
  recipe : Option Recipe

def decodeInstance : Decoder InstanceFile :=
  recordOf
    [field "values" (listOf floatOf) fun x s => { s with values := some x },
      field "uncertainties" (listOf floatOf) fun x s => { s with uncertainties := some x },
      field "activation" decodeActivation fun x s => { s with activation := x },
      field "params" (optionOf decodeNetwork) fun x s => { s with network := x },
      field "generator" (optionOf decodeRecipe) fun x s => { s with recipe := x }]
    (⟨none, none, default, none, none⟩ : InstanceFields)
    fun s => do
      return ⟨← DecodeError.require s.values, ← DecodeError.require s.uncertainties, s.activation,
        s.network, s.recipe⟩

end Wire

namespace InstanceFile

def text (file : InstanceFile) : String := (Wire.encodeInstance file).pretty ++ "\n"

end InstanceFile
end RobustMargin
