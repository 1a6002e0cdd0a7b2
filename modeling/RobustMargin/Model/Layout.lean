/-! # Layout

Where the variables of a network stand in the programs of a model: first the inputs, then layer by
layer the post- and pre-activation of each neuron in turn, followed by the residuals of the layer
where these are variables. -/
namespace RobustMargin

structure Layout where
  inputs : Nat
  /-- The width of each layer. -/
  widths : List Nat
  /-- Whether residuals are variables. -/
  residuals : Bool
  /-- The variable of the common margin, in a program of its own. -/
  margin : Option Nat
  deriving DecidableEq, Repr

namespace Layout

/-- The number of variables of a layer. -/
def layerSize (l : Layout) (width : Nat) : Nat := if l.residuals then 3 * width else 2 * width

/-- The number of variables before a layer, counted from zero. -/
def offset (l : Layout) (layer : Nat) : Nat :=
  l.inputs + ((l.widths.take layer).map l.layerSize).foldr (· + ·) 0

/-- The number of variables. -/
def size (l : Layout) : Nat := l.offset l.widths.length

/-- The post-activation of a neuron of a layer, or an input where the layer is zero. -/
def post (l : Layout) : Nat → Nat → Nat
  | 0, k => k
  | layer + 1, k => l.offset layer + 2 * k

/-- The pre-activation of a neuron of a layer counted from zero. -/
def pre (l : Layout) (layer k : Nat) : Nat := l.offset layer + 2 * k + 1

/-- The residual of a neuron of a layer of the given width counted from zero. -/
def residual (l : Layout) (layer width k : Nat) : Nat := l.offset layer + 2 * width + k

/-- The number of variables `x` of a layer, where layer zero is the input. -/
def width? (l : Layout) : Nat → Option Nat
  | 0 => some l.inputs
  | layer + 1 => l.widths[layer]?

/-- The variable of a post-activation, if there is such a neuron. -/
def x? (l : Layout) (layer k : Nat) : Option Nat :=
  match l.width? layer with
  | some width => if k < width then some (l.post layer k) else none
  | none => none

/-- The variable of a pre-activation; inputs have none. -/
def z? (l : Layout) : Nat → Nat → Option Nat
  | 0, _ => none
  | layer + 1, k =>
      match l.widths[layer]? with
      | some width => if k < width then some (l.pre layer k) else none
      | none => none

/-- The variable of a residual, where residuals are variables. -/
def r? (l : Layout) : Nat → Nat → Option Nat
  | 0, _ => none
  | layer + 1, k =>
      if l.residuals then
        match l.widths[layer]? with
        | some width => if k < width then some (l.residual layer width k) else none
        | none => none
      else none

/-- The post-activation variables of each layer, the inputs first. -/
def posts (l : Layout) : List (List Nat) :=
  (l.inputs :: l.widths).zipIdx.map fun p => (List.range p.1).map (l.post p.2)

/-- The pre-activation variables of each layer. -/
def pres (l : Layout) : List (List Nat) :=
  l.widths.zipIdx.map fun p => (List.range p.1).map (l.pre p.2)

/-- The residual variables of each layer. -/
def residualVars? (l : Layout) : Option (List (List Nat)) :=
  if l.residuals then
    some (l.widths.zipIdx.map fun p => (List.range p.1).map (l.residual p.2 p.1))
  else none

end Layout
end RobustMargin
