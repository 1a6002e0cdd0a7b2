import RobustMargin.Formulation
import RobustMargin.Status

/-! # Errors

Every way in which an input, a network, a model or a file can be refused. The causes are data; the
wording is in `Error.message` alone. -/
namespace RobustMargin

/-- What is wrong with an input value. -/
inductive InputFault (α : Type) where
  | unorderedEndpoints (lo hi : α)
  | reversedEndpoints (lo hi : α)
  | badAlpha (alpha : α)
  | unreadableAlpha (text : String)
  | unknownActivation (text : String)
  | emptyInput
  | valueNotFinite (index : Nat) (value : α)
  | badUncertainty (index : Nat) (value : α)
  | badBounds (name : String) (lower upper : α)
  | unknownVariable (constraint : String) (index : Nat)
  | rowNotFinite (constraint : String)
  | labelOutOfRange (label outputs : Nat)
  | noVariable (name : String)
  | other (text : String)

/-- What is wrong with network parameters or with the shape of a network. -/
inductive ParamsFault where
  | emptyWeight (rows columns : Nat)
  | entryNotFinite
  | unequalCounts (biases weights : Nat)
  | noLayers
  | notPositive (depth outputs : Nat)
  | notWider (inputs outputs depth : Nat)
  | tooDeep (inputs outputs depth : Nat)
  | stoppedShrinking (width : Nat)
  | cannotGenerate (inputs : Nat) (widths : List Nat)
  | noOutputs
  | singleOutput
  | sweepOutputs (outputs : Nat)
  | other (text : String)

/-- Which step of a model's life does not allow a request. -/
inductive StateFault (α : Type) where
  | notSolved
  | alreadySolved
  | notOptimal (status : Status α)
  | noResiduals (formulation : Formulation)
  | other (text : String)

inductive Error (α : Type) where
  | shapeMismatch (expected got : List Nat)
  | invalidInput (fault : InputFault α)
  | invalidParams (fault : ParamsFault)
  | inLayer (index : Nat) (source : Error α)
  | invalidState (fault : StateFault α)
  | solver (text : String)
  | io (text : String)

/-- The numbers between brackets, as in `[2, 3]`. -/
def shapeText (shape : List Nat) : String :=
  "[" ++ ", ".intercalate (shape.map toString) ++ "]"

section Messages

variable {α : Type} [Scalar α]

def endpointsText (lo hi : α) : String :=
  "[" ++ Scalar.text lo ++ ", " ++ Scalar.text hi ++ "]"

def InputFault.message : InputFault α → String
  | .unorderedEndpoints lo hi =>
      "interval endpoints must not be NaN (got " ++ endpointsText lo hi ++ ")"
  | .reversedEndpoints lo hi =>
      "interval lower endpoint " ++ Scalar.text lo ++ " exceeds upper endpoint " ++ Scalar.text hi
  | .badAlpha alpha =>
      "QuadLU alpha must be positive and finite (got " ++ Scalar.text alpha ++ ")"
  | .unreadableAlpha text => "invalid QuadLU alpha '" ++ text ++ "'"
  | .unknownActivation text => "unknown activation '" ++ text ++ "'"
  | .emptyInput => "input vector must not be empty"
  | .valueNotFinite index value =>
      s!"input value {index} is not finite (" ++ Scalar.text value ++ ")"
  | .badUncertainty index value =>
      s!"uncertainty {index} must be finite and non-negative (got " ++ Scalar.text value ++ ")"
  | .badBounds name lower upper =>
      s!"variable {name} has invalid bounds " ++ endpointsText lower upper
  | .unknownVariable constraint index =>
      s!"constraint {constraint} references unknown variable {index}"
  | .rowNotFinite constraint => s!"constraint {constraint} has a non-finite right-hand side"
  | .labelOutOfRange label outputs => s!"label {label} out of range for {outputs} outputs"
  | .noVariable name => s!"no variable {name}"
  | .other text => text

def ParamsFault.message : ParamsFault → String
  | .emptyWeight rows columns =>
      "weight matrix has empty shape " ++ shapeText [rows, columns]
  | .entryNotFinite => "weights and biases must be finite"
  | .unequalCounts biases weights => s!"{biases} bias vectors but {weights} weight matrices"
  | .noLayers => "network must have at least one layer"
  | .notPositive depth outputs =>
      s!"depth and out_features must be positive (got depth={depth}, out_features={outputs})"
  | .notWider inputs outputs depth =>
      s!"in_features ({inputs}) must exceed out_features ({outputs}) for depth {depth}"
  | .tooDeep inputs outputs depth =>
      s!"cannot fit {depth} distinct layer widths between {inputs} and {outputs}"
  | .stoppedShrinking width => s!"layer widths stopped shrinking at {width}"
  | .cannotGenerate inputs widths =>
      s!"cannot generate a network {inputs} -> " ++ shapeText widths
  | .noOutputs => "network has no outputs to label"
  | .singleOutput => "robustness margin needs at least two output neurons"
  | .sweepOutputs outputs => s!"sweep needs at least two outputs, got {outputs}"
  | .other text => text

def StateFault.message : StateFault α → String
  | .notSolved => "model has not been solved"
  | .alreadySolved => "model has already been solved"
  | .notOptimal status => "no optimal solution available (" ++ status.details ++ ")"
  | .noResiduals formulation => s!"the {formulation.name} formulation has no residual variables"
  | .other text => text

def Error.message : Error α → String
  | .shapeMismatch expected got =>
      "Shape mismatch: expected " ++ shapeText expected ++ ", got " ++ shapeText got
  | .invalidInput fault => "Invalid input: " ++ fault.message
  | .invalidParams fault => "Invalid network parameters: " ++ fault.message
  | .inLayer index source => s!"Layer {index} failed: " ++ source.message
  | .invalidState fault => "Invalid model state: " ++ fault.message
  | .solver text => "Solver error: " ++ text
  | .io text => "IO error: " ++ text

/-- The messages of the causes below an error, outermost first. -/
def Error.sources : Error α → List String
  | .inLayer _ source => source.message :: source.sources
  | .io text => [text]
  | _ => []

end Messages

/-- The first of two computations that succeed together has a result, and the second one goes on
from it. -/
theorem exists_of_bind_eq_ok {ε β γ : Type} {first : Except ε β} {next : β → Except ε γ}
    {result : γ} (both : (first >>= next) = .ok result) :
    ∃ value, first = .ok value ∧ next value = .ok result := by
  cases first with
  | error e => cases both
  | ok value => exact ⟨value, rfl, both⟩

theorem exists_ok_of_isOk {ε β : Type} {result : Except ε β} (succeeded : result.isOk = true) :
    ∃ value, result = .ok value := by
  cases result with
  | error e => cases succeeded
  | ok value => exact ⟨value, rfl⟩

theorem exists_error_of_isOk {ε β : Type} {result : Except ε β} (failed : result.isOk = false) :
    ∃ e, result = .error e := by
  cases result with
  | error e => exact ⟨e, rfl⟩
  | ok value => cases failed

theorem mapError_eq_ok_iff {ε δ β : Type} {result : Except ε β} {f : ε → δ} {x : β} :
    result.mapError f = .ok x ↔ result = .ok x := by
  cases result with
  | error e => exact ⟨nofun, nofun⟩
  | ok y =>
      constructor
      · rintro ⟨⟩
        rfl
      · rintro ⟨⟩
        rfl

namespace Error

variable {α : Type}

/-- A mismatch of two shapes, which are known to differ where one is reported. -/
def mismatch? (expected got : List Nat) : Option (Error α) :=
  if expected = got then none else some (shapeMismatch expected got)

theorem mismatch?_eq_none_iff (expected got : List Nat) :
    mismatch? (α := α) expected got = none ↔ expected = got := by
  by_cases h : expected = got <;> simp [mismatch?, h]

/-- Attaches the index of the layer in which an error arose. -/
def atLayer {β : Type} (index : Nat) (result : Except (Error α) β) : Except (Error α) β :=
  result.mapError (inLayer index)

theorem atLayer_eq_ok_iff {β : Type} (index : Nat) (result : Except (Error α) β) (x : β) :
    atLayer index result = .ok x ↔ result = .ok x :=
  mapError_eq_ok_iff

end Error
end RobustMargin
