import RobustMargin.Network.Forward

/-! # Linear inclusion

Interval bounds of every neuron, layer by layer, together with a linearization of its activation.
The residual of a neuron encloses the error of the linearization over all of its pre-activation
interval, also where the expansion point lies outside. -/
namespace RobustMargin

/-- Which midpoint of a neuron is its expansion point. Either one gives a sound relaxation. -/
inductive Linearization where
  | postActivation
  | preActivation
  deriving DecidableEq, Repr

namespace Linearization

instance : Inhabited Linearization := ⟨postActivation⟩

def all : List Linearization := [postActivation, preActivation]

theorem mem_all (point : Linearization) : point ∈ all := by cases point <;> decide

def shortName : Linearization → String
  | postActivation => "post"
  | preActivation => "pre"

def name : Linearization → String
  | postActivation => "post_activation"
  | preActivation => "pre_activation"

/-- The name in data files. -/
def longName : Linearization → String
  | postActivation => "post_activation_midpoint"
  | preActivation => "pre_activation_midpoint"

/-- Reads any of the names of a linearization, after normalization as an option. -/
def parse (text : String) : Except String Linearization :=
  let word := Text.optionWord text
  match all.find? fun p => word = p.shortName || word = p.name || word = p.longName with
  | some p => .ok p
  | none => .error s!"unknown linearization point '{word}'"

def select {α : Type} [Scalar α] : Linearization → Interval α → Interval α → α
  | postActivation, _, post => post.midpoint
  | preActivation, pre, _ => pre.midpoint

end Linearization

/-- The bounds and the linearization of one neuron. -/
structure NeuronBounds (α : Type) where
  pre : Interval α
  post : Interval α
  center : α
  residual : Interval α
  deriving DecidableEq, Repr

section Propagation

variable {α : Type} [Scalar α]

/-- The interval extension of a neuron's affine map: its bias plus each input interval scaled by
its weight. -/
def neuronInterval (box : List (Interval α)) (neuron : List α × α) : Interval α :=
  (neuron.1.zip box).foldl (fun total p => total.add (p.2.scale p.1)) (Interval.point neuron.2)

/-- The interval extension of a layer's affine map over a box of matching length. -/
def Layer.affineBox (layer : Layer α) (box : List (Interval α)) :
    Except (Error α) (List (Interval α)) :=
  if box.length = layer.inputs then .ok (layer.neurons.map (neuronInterval box))
  else .error (.shapeMismatch [layer.inputs] [box.length])

/-- The range of `t - f c - f' c * (s - c)` for `s` and `t` in two independent intervals. -/
def taylorResidual (f : Activation α) (center : α) (pre post : Interval α) : Interval α :=
  (post.shift (-f.eval center)).sub ((pre.shift (-center)).scale (f.deriv center))

def NeuronBounds.ofPre (f : Activation α) (point : Linearization) (pre : Interval α) :
    NeuronBounds α :=
  let post := f.image pre
  let center := point.select pre post
  ⟨pre, post, center, taylorResidual f center pre post⟩

/-- The bounds of every neuron of a layer over a box. -/
def Layer.propagate (layer : Layer α) (f : Activation α) (point : Linearization)
    (box : List (Interval α)) : Except (Error α) (List (NeuronBounds α)) :=
  (layer.affineBox box).map (·.map (NeuronBounds.ofPre f point))

/-- The greatest width of a residual, and zero where every activation is linear. -/
def maxResidualWidth (bounds : List (NeuronBounds α)) : α :=
  (bounds.map fun n => n.residual.width).foldl Scalar.greater 0

/-- The bounds of all layers, each over the post-activation box of the one before it. -/
def propagateLayers (f : Activation α) (point : Linearization) :
    Nat → List (Interval α) → List (Layer α) → Except (Error α) (List (List (NeuronBounds α)))
  | _, _, [] => .ok []
  | index, box, layer :: rest => do
      let bounds ← Error.atLayer index (layer.propagate f point box)
      let later ← propagateLayers f point (index + 1) (bounds.map (·.post)) rest
      return bounds :: later

end Propagation

/-- The bounds of one network over one input box. -/
structure Inclusion (α : Type) [Scalar α] where
  input : InputBox α
  activation : Activation α
  network : Network α
  linearization : Linearization
  layers : List (List (NeuronBounds α))

/-- What is worth telling about the construction of an inclusion. -/
inductive InclusionNote where
  | exactCoordinates (count : Nat)
  | notMonotone (layer neuron : Nat)
  deriving DecidableEq, Repr

namespace Inclusion

variable {α : Type} [Scalar α]

def build (input : InputBox α) (f : Activation α) (network : Network α) (point : Linearization) :
    Except (Error α) (Inclusion α) :=
  if input.size = network.inputs then do
    let layers ← propagateLayers f point 0 input.box network.layers
    return ⟨input, f, network, point, layers⟩
  else .error (.shapeMismatch [network.inputs] [input.size])

def depth (inclusion : Inclusion α) : Nat := inclusion.layers.length

/-- The bounds of a layer, counted from one. -/
def layer? (inclusion : Inclusion α) : Nat → Option (List (NeuronBounds α))
  | 0 => none
  | index + 1 => inclusion.layers[index]?

/-- The box after a layer; the box after layer zero is the input box. -/
def post? (inclusion : Inclusion α) : Nat → Option (List (Interval α))
  | 0 => some inclusion.input.box
  | index + 1 => (inclusion.layer? (index + 1)).map (·.map (·.post))

def pre? (inclusion : Inclusion α) (index : Nat) : Option (List (Interval α)) :=
  (inclusion.layer? index).map (·.map (·.pre))

def centers? (inclusion : Inclusion α) (index : Nat) : Option (List α) :=
  (inclusion.layer? index).map (·.map (·.center))

def residuals? (inclusion : Inclusion α) (index : Nat) : Option (List (Interval α)) :=
  (inclusion.layer? index).map (·.map (·.residual))

/-- The box of the outputs. -/
def outputBox (inclusion : Inclusion α) : List (Interval α) :=
  match inclusion.layers.getLast? with
  | some bounds => bounds.map (·.post)
  | none => inclusion.input.box

/-- The label of the nominal input. -/
def label (inclusion : Inclusion α) : Except (Error α) Nat :=
  nominalLabel inclusion.input inclusion.activation inclusion.network

/-- How many parts a pre-activation interval is cut into to look for a decrease. -/
def monotoneSamples : Nat := 16

/-- The neurons on whose pre-activation interval the activation is seen to decrease. -/
def notMonotone (f : Activation α) (bounds : List (NeuronBounds α)) : List Nat :=
  (bounds.zipIdx.filter fun p => !f.monotoneOn p.1.pre monotoneSamples).map (·.2)

/-- The notes on the input box, then those on each layer in order. -/
def notes (inclusion : Inclusion α) : List InclusionNote :=
  let exact := inclusion.input.exactCount
  let aboutInput := if 0 < exact then [.exactCoordinates exact] else []
  aboutInput ++ inclusion.layers.zipIdx.flatMap fun p =>
    (notMonotone inclusion.activation p.1).map (.notMonotone p.2)

end Inclusion
end RobustMargin
