import RobustMargin.Inclusion
import RobustMargin.Json.Decoder

/-! # Networks as JSON

Intervals, input boxes, activations, networks and layer bounds. -/
namespace RobustMargin.Wire

open Json

def encodeInterval (i : Interval Float) : Json :=
  object [("lo", real i.lo), ("hi", real i.hi)]

def decodeInterval : Decoder (Interval Float) :=
  recordOf
    [field "lo" floatOf fun x s => (some x, s.2), field "hi" floatOf fun x s => (s.1, some x)]
    ((none, none) : Option Float × Option Float)
    fun s => do return ⟨← DecodeError.require s.1, ← DecodeError.require s.2⟩

def encodeBox (input : InputBox Float) : Json :=
  object [("values", ofList real input.values), ("uncertainties", ofList real input.uncertainties)]

def decodeBox : Decoder (InputBox Float) :=
  recordOf
    [field "values" (listOf floatOf) fun x s => (some x, s.2),
      field "uncertainties" (listOf floatOf) fun x s => (s.1, some x)]
    ((none, none) : Option (List Float) × Option (List Float))
    fun s => do
      let values ← DecodeError.require s.1
      let uncertainties ← DecodeError.require s.2
      DecodeError.ofResult (InputBox.ofVectors values uncertainties)

def encodeRaw (raw : RawNetwork Float) : Json :=
  object [("biases", ofList (ofList real) raw.biases),
    ("weights", ofList (ofList (ofList real)) raw.weights)]

def encodeNetwork (network : Network Float) : Json := encodeRaw (RawNetwork.ofNetwork network)

def decodeNetwork : Decoder (Network Float) :=
  recordOf
    [field "biases" (listOf (listOf floatOf)) fun x s => (some x, s.2),
      field "weights" (listOf (listOf (listOf floatOf))) fun x s => (s.1, some x)]
    ((none, none) : Option (List (List Float)) × Option (List (List (List Float))))
    fun s => do
      let biases ← DecodeError.require s.1
      let weights ← DecodeError.require s.2
      DecodeError.ofResult (RawNetwork.toNetwork ⟨biases, weights⟩)

/-- A custom activation has no written form. -/
def encodeActivation? : Activation Float → Option Json
  | .quadlu alpha => some (object [("kind", string "quadlu"), ("alpha", real alpha)])
  | .custom _ _ _ => none
  | f => some (object [("kind", string f.name)])

def encodeActivation (f : Activation Float) : Json := (encodeActivation? f).getD null

/-- The parameter of `quadlu` is taken as it is written. -/
def decodeActivation : Decoder (Activation Float) := fun json => do
  let (kind, rest) ← tagged "kind" json
  match kind with
  | "identity" => unitVariant .identity rest
  | "sigmoid" => unitVariant .sigmoid rest
  | "tanh" => unitVariant .tanh rest
  | "quadlu" => oneField "alpha" floatOf .quadlu rest
  | _ => throw .unfit

def encodeLinearization (point : Linearization) : Json := string point.longName

def decodeLinearization : Decoder Linearization :=
  choiceOf (Linearization.all.map fun point => (point.longName, point))

/-- The bounds of a layer as columns, which are written side by side and need not be of equal
length. -/
structure LayerColumns where
  pre : List (Interval Float)
  post : List (Interval Float)
  centers : List Float
  residuals : List (Interval Float)

def LayerColumns.ofBounds (bounds : List (NeuronBounds Float)) : LayerColumns :=
  ⟨bounds.map (·.pre), bounds.map (·.post), bounds.map (·.center), bounds.map (·.residual)⟩

def encodeColumns (layer : LayerColumns) : Json :=
  object [("z", ofList encodeInterval layer.pre), ("theta", ofList encodeInterval layer.post),
    ("xi", ofList real layer.centers), ("r", ofList encodeInterval layer.residuals)]

structure ColumnFields where
  pre : Option (List (Interval Float))
  post : Option (List (Interval Float))
  centers : Option (List Float)
  residuals : Option (List (Interval Float))

def decodeColumns : Decoder LayerColumns :=
  recordOf
    [field "z" (listOf decodeInterval) fun x s => { s with pre := some x },
      field "theta" (listOf decodeInterval) fun x s => { s with post := some x },
      field "xi" (listOf floatOf) fun x s => { s with centers := some x },
      field "r" (listOf decodeInterval) fun x s => { s with residuals := some x }]
    (⟨none, none, none, none⟩ : ColumnFields)
    fun s => do
      return ⟨← DecodeError.require s.pre, ← DecodeError.require s.post,
        ← DecodeError.require s.centers, ← DecodeError.require s.residuals⟩

end RobustMargin.Wire
