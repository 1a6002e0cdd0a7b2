import RobustMargin.Inclusion
import RobustMargin.Model.Layout
import RobustMargin.Program

/-! # Blueprints

The variables and rows of a program as a list of pieces, in the order in which they are added. The
pieces of a network tie every neuron to its layer's inputs and hold it inside its relaxation. -/
namespace RobustMargin

inductive Piece (α : Type) where
  | declared (v : Variable α)
  /-- A variable over an interval that was computed, for a layer if there is one to blame. -/
  | bounded (layer : Option Nat) (name : String) (range : Interval α)
  | row (name : String) (expr : LinearExpr α) (sense : Sense) (rhs : α)

namespace Program

variable {α : Type} [Scalar α]

def addPiece (p : Program α) : Piece α → Except (Error α) (Program α)
  | .declared v => .ok (p.push v)
  | .bounded none name range => p.addVar name range.lo range.hi
  | .bounded (some layer) name range => Error.atLayer layer (p.addVar name range.lo range.hi)
  | .row name expr sense rhs => p.addConstraint name expr sense rhs

/-- Adds the pieces in order; the first one that is refused decides the error. -/
def addPieces (p : Program α) : List (Piece α) → Except (Error α) (Program α)
  | [] => .ok p
  | piece :: rest => do
      let next ← p.addPiece piece
      addPieces next rest

end Program

/-- A letter with the indices of a layer and a neuron. -/
def indexedName (letter : String) (layer neuron : Nat) : String := s!"{letter}_{layer}_{neuron}"

namespace Blueprint

variable {α : Type} [Scalar α]

/-- The variables of the input box. -/
def inputs (box : List (Interval α)) : List (Piece α) :=
  box.zipIdx.map fun p => .bounded none (indexedName "x" 0 p.2) p.1

/-- The post-activation variable of a neuron, and its pre-activation variable, which is free. -/
def neuron (layer : Nat) (p : NeuronBounds α × Nat) : List (Piece α) :=
  [.bounded (some layer) (indexedName "x" (layer + 1) p.2) p.1.post,
    .declared (.free (indexedName "z" (layer + 1) p.2))]

/-- The pre-activation less the weighted inputs of the neuron. -/
def affineExpr (l : Layout) (layer k : Nat) (weights : List α) : LinearExpr α :=
  weights.zipIdx.foldl (fun e w => e.addTerm (l.post layer w.2) (-w.1))
    (LinearExpr.var (l.pre layer k))

/-- The pre-activation is the affine value of the layer before. -/
def affine (l : Layout) (layer : Nat) (p : (List α × α) × Nat) : Piece α :=
  .row (indexedName "affine" (layer + 1) p.2) (affineExpr l layer p.2 p.1.1) .eq p.1.2

def slope (f : Activation α) (n : NeuronBounds α) : α := f.deriv n.center

/-- The constant part of the linearization. -/
def intercept (f : Activation α) (n : NeuronBounds α) : α :=
  f.eval n.center - slope f n * n.center

/-- The post-activation less the slope times the pre-activation. -/
def linearized (l : Layout) (f : Activation α) (layer : Nat) (p : NeuronBounds α × Nat) :
    LinearExpr α :=
  (LinearExpr.var (l.post (layer + 1) p.2)).addTerm (l.pre layer p.2) (-slope f p.1)

/-- The linearization error as a variable over the residual interval. -/
def exposedResidual (l : Layout) (f : Activation α) (layer width : Nat)
    (p : NeuronBounds α × Nat) : List (Piece α) :=
  [.bounded (some layer) (indexedName "r" (layer + 1) p.2) p.1.residual,
    .row (indexedName "taylor" (layer + 1) p.2)
      ((linearized l f layer p).addTerm (l.residual layer width p.2) (-1)) .eq (intercept f p.1)]

/-- The linearization error between the ends of the residual interval. -/
def bakedResidual (l : Layout) (f : Activation α) (layer : Nat) (p : NeuronBounds α × Nat) :
    List (Piece α) :=
  [.row (indexedName "taylor_lo" (layer + 1) p.2) (linearized l f layer p) .ge
      (intercept f p.1 + p.1.residual.lo),
    .row (indexedName "taylor_hi" (layer + 1) p.2) (linearized l f layer p) .le
      (intercept f p.1 + p.1.residual.hi)]

/-- The variables of a layer, its affine rows and its relaxation. -/
def layer (l : Layout) (f : Activation α) (index : Nat) (weights : Layer α)
    (bounds : List (NeuronBounds α)) : List (Piece α) :=
  bounds.zipIdx.flatMap (neuron index) ++
    weights.neurons.zipIdx.map (affine l index) ++
    bounds.zipIdx.flatMap fun p =>
      if l.residuals then exposedResidual l f index bounds.length p
      else bakedResidual l f index p

/-- The layout of the variables of an inclusion. -/
def layoutOf (inclusion : Inclusion α) (residuals : Bool) : Layout where
  inputs := inclusion.input.size
  widths := inclusion.layers.map List.length
  residuals := residuals
  margin := none

/-- All pieces of an inclusion, from the inputs to the last layer. -/
def relaxation (inclusion : Inclusion α) (l : Layout) : List (Piece α) :=
  inputs inclusion.input.box ++
    (inclusion.network.layers.zip inclusion.layers).zipIdx.flatMap fun p =>
      layer l inclusion.activation p.2 p.1.1 p.1.2

end Blueprint
end RobustMargin
