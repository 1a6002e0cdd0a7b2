import RobustMargin.Interval
import RobustMargin.Scalar.Double

/-! # Networks

Chains of dense layers. A layer is an affine map given by the rows of its weight matrix and one
bias per row. The types hold only networks whose shapes agree and whose entries are finite. -/
namespace RobustMargin

/-- Rows of equal length. The number of columns is kept also where there are no rows. -/
structure Matrix (α : Type) where
  columns : Nat
  rows : List (List α)
  rectangular : ∀ row ∈ rows, row.length = columns

namespace Matrix

variable {α : Type}

/-- Cuts a number of rows of one length from a list of entries. -/
def cutRows (columns : Nat) : Nat → List α → List (List α)
  | 0, _ => []
  | count + 1, entries => entries.take columns :: cutRows columns count (entries.drop columns)

theorem cutRows_rectangular (columns count : Nat) (entries : List α)
    (full : entries.length = count * columns) :
    ∀ row ∈ cutRows columns count entries, row.length = columns := by
  induction count generalizing entries with
  | zero => simp [cutRows]
  | succ count ih =>
      have split : (count + 1) * columns = count * columns + columns := Nat.succ_mul _ _
      intro row member
      rcases List.mem_cons.mp member with first | later
      · subst first
        rw [List.length_take]
        omega
      · exact ih _ (by rw [List.length_drop]; omega) row later

/-- The matrix with the given entries, row after row. -/
def ofRowMajor (rows columns : Nat) (entries : List α) : Option (Matrix α) :=
  if full : entries.length = rows * columns then
    some ⟨columns, cutRows columns rows entries, cutRows_rectangular columns rows entries full⟩
  else none

/-- The matrix with the given rows, which are all as long as the first one. -/
def ofRows (rows : List (List α)) : Except (Error α) (Matrix α) :=
  let columns := (rows.head?.map List.length).getD 0
  if same : ∀ row ∈ rows, row.length = columns then .ok ⟨columns, rows, same⟩
  else
    let other := (rows.find? fun row => row.length ≠ columns).getD []
    .error (.shapeMismatch [columns] [other.length])

end Matrix

structure Layer (α : Type) [Scalar α] where
  weight : Matrix α
  bias : List α
  bias_length : bias.length = weight.rows.length
  rows_ne_nil : weight.rows ≠ []
  columns_pos : 0 < weight.columns
  finite : (weight.rows.all (·.all Scalar.isFinite) && bias.all Scalar.isFinite) = true

namespace Layer

variable {α : Type} [Scalar α]

/-- Checks the length of the bias first, then that there are entries, then that they are finite. -/
def ofParts (weight : Matrix α) (bias : List α) : Except (Error α) (Layer α) :=
  if lengths : bias.length = weight.rows.length then
    if entries : weight.rows ≠ [] ∧ 0 < weight.columns then
      if finite : (weight.rows.all (·.all Scalar.isFinite) && bias.all Scalar.isFinite) = true then
        .ok ⟨weight, bias, lengths, entries.1, entries.2, finite⟩
      else .error (.invalidParams .entryNotFinite)
    else .error (.invalidParams (.emptyWeight weight.rows.length weight.columns))
  else .error (.shapeMismatch [weight.rows.length] [bias.length])

def inputs (layer : Layer α) : Nat := layer.weight.columns

def outputs (layer : Layer α) : Nat := layer.weight.rows.length

theorem outputs_pos (layer : Layer α) : 0 < layer.outputs :=
  List.length_pos_iff.mpr layer.rows_ne_nil

/-- Each row of weights with its bias. -/
def neurons (layer : Layer α) : List (List α × α) := layer.weight.rows.zip layer.bias

theorem neurons_length (layer : Layer α) : layer.neurons.length = layer.outputs := by
  simp [neurons, outputs, layer.bias_length]

end Layer

/-- Each layer takes as many inputs as the one before it has outputs. -/
def Chained {α : Type} [Scalar α] : List (Layer α) → Prop
  | first :: second :: rest => second.inputs = first.outputs ∧ Chained (second :: rest)
  | _ => True

structure Network (α : Type) [Scalar α] where
  layers : List (Layer α)
  layers_ne_nil : layers ≠ []
  chained : Chained layers

namespace Network

variable {α : Type} [Scalar α]

/-- A place where two layers do not fit: the index of the later one, the width it should take and
the width it takes. -/
structure Break where
  index : Nat
  expected : Nat
  got : Nat
  deriving DecidableEq, Repr

/-- The first place where two layers do not fit, counted from the index of the first layer. -/
def firstBreak : Nat → List (Layer α) → Option Break
  | index, first :: second :: rest =>
      if second.inputs = first.outputs then firstBreak (index + 1) (second :: rest)
      else some ⟨index + 1, first.outputs, second.inputs⟩
  | _, _ => none

theorem firstBreak_eq_none_iff (index : Nat) (layers : List (Layer α)) :
    firstBreak index layers = none ↔ Chained layers := by
  induction layers generalizing index with
  | nil => simp [firstBreak, Chained]
  | cons first rest ih =>
      cases rest with
      | nil => simp [firstBreak, Chained]
      | cons second rest =>
          by_cases fits : second.inputs = first.outputs
          · simp [firstBreak, Chained, fits, ih]
          · simp [firstBreak, Chained, fits]

def ofLayers (layers : List (Layer α)) : Except (Error α) (Network α) :=
  if empty : layers = [] then .error (.invalidParams .noLayers)
  else match fits : firstBreak 0 layers with
    | some b => .error (.inLayer b.index (.shapeMismatch [b.expected] [b.got]))
    | none => .ok ⟨layers, empty, (firstBreak_eq_none_iff 0 layers).mp fits⟩

/-- The layers of matching matrices and biases; the first fault is reported with its index. -/
def layersOf : Nat → List (Matrix α) → List (List α) → Except (Error α) (List (Layer α))
  | index, weight :: weights, bias :: biases => do
      let layer ← Error.atLayer index (Layer.ofParts weight bias)
      let rest ← layersOf (index + 1) weights biases
      return layer :: rest
  | _, _, _ => .ok []

def ofParts (biases : List (List α)) (weights : List (Matrix α)) : Except (Error α) (Network α) :=
  if biases.length = weights.length then do
    let layers ← layersOf 0 weights biases
    ofLayers layers
  else .error (.invalidParams (.unequalCounts biases.length weights.length))

def firstLayer (network : Network α) : Layer α := network.layers.head network.layers_ne_nil

def lastLayer (network : Network α) : Layer α := network.layers.getLast network.layers_ne_nil

def inputs (network : Network α) : Nat := network.firstLayer.inputs

def outputs (network : Network α) : Nat := network.lastLayer.outputs

theorem outputs_pos (network : Network α) : 0 < network.outputs := network.lastLayer.outputs_pos

def depth (network : Network α) : Nat := network.layers.length

/-- The width of the input followed by the width of each layer. -/
def widths (network : Network α) : List Nat :=
  network.inputs :: network.layers.map Layer.outputs

/-- The number of neurons, inputs not counted. -/
def neuronCount (network : Network α) : Nat := (network.layers.map Layer.outputs).foldr (· + ·) 0

/-- One layer that passes two inputs on unchanged. -/
def identityPair : Network Float where
  layers := [{
    weight := ⟨2, [[1.0, 0.0], [0.0, 1.0]], by simp⟩
    bias := [0.0, 0.0]
    bias_length := rfl
    rows_ne_nil := List.cons_ne_nil _ _
    columns_pos := Nat.zero_lt_succ _
    finite := by decide }]
  layers_ne_nil := List.cons_ne_nil _ _
  chained := trivial

instance : Inhabited (Network Float) := ⟨identityPair⟩

end Network

/-- Network parameters as nested lists, all biases beside all weights. -/
structure RawNetwork (α : Type) where
  biases : List (List α)
  weights : List (List (List α))
  deriving DecidableEq, Repr

namespace RawNetwork

variable {α : Type} [Scalar α]

/-- The matrices of nested lists; the first one with unequal rows is reported with its index. -/
def matrices : Nat → List (List (List α)) → Except (Error α) (List (Matrix α))
  | _, [] => .ok []
  | index, rows :: rest => do
      let weight ← Error.atLayer index (Matrix.ofRows rows)
      let later ← matrices (index + 1) rest
      return weight :: later

/-- All matrices are formed before any layer is checked. -/
def toNetwork (raw : RawNetwork α) : Except (Error α) (Network α) := do
  let weights ← matrices 0 raw.weights
  Network.ofParts raw.biases weights

def ofNetwork (network : Network α) : RawNetwork α where
  biases := network.layers.map (·.bias)
  weights := network.layers.map (·.weight.rows)

end RawNetwork
end RobustMargin
