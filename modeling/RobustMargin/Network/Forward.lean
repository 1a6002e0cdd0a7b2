import RobustMargin.Activation
import RobustMargin.InputBox
import RobustMargin.Network
import RobustMargin.Scalar.Dot

/-! # Forward pass

The values that a network computes on one input, and the label it gives. -/
namespace RobustMargin

variable {α : Type} [Scalar α]

/-- The affine value of one neuron. -/
def neuronValue (x : List α) (neuron : List α × α) : α := Scalar.dot neuron.1 x + neuron.2

namespace Layer

/-- The values of the neurons before the activation. -/
def affine (layer : Layer α) (x : List α) : List α := layer.neurons.map (neuronValue x)

theorem affine_length (layer : Layer α) (x : List α) : (layer.affine x).length = layer.outputs := by
  simp [affine, neurons_length]

def forward (layer : Layer α) (f : Activation α) (x : List α) : List α :=
  (layer.affine x).map f.eval

end Layer

namespace Network

/-- The values after each layer in turn. -/
def run (f : Activation α) : List (Layer α) → List α → List α
  | [], x => x
  | layer :: rest, x => run f rest (layer.forward f x)

/-- The outputs on an input of matching length. -/
def forward (network : Network α) (f : Activation α) (x : List α) : Except (Error α) (List α) :=
  if x.length = network.inputs then .ok (run f network.layers x)
  else .error (.shapeMismatch [network.inputs] [x.length])

end Network

/-- The index of the best entry so far once the rest is seen. An entry replaces the best one if it
is greater, or if it is the first number. -/
def bestFrom : Nat → Nat × α → List α → Nat
  | _, best, [] => best.1
  | index, best, x :: rest =>
      if best.2 < x ∨ Scalar.isNumber best.2 = false ∧ Scalar.isNumber x = true then
        bestFrom (index + 1) (index, x) rest
      else bestFrom (index + 1) best rest

/-- The index of the largest entry; ties go to the lowest index. -/
def argmax : List α → Option Nat
  | [] => none
  | x :: rest => some (bestFrom 1 (0, x) rest)

theorem argmax_eq_none_iff (xs : List α) : argmax xs = none ↔ xs = [] := by
  cases xs <;> simp [argmax]

/-- The class that the network gives to the nominal input. -/
def nominalLabel (input : InputBox α) (f : Activation α) (network : Network α) :
    Except (Error α) Nat := do
  let outputs ← network.forward f input.values
  match argmax outputs with
  | some label => return label
  | none => throw (.invalidParams .noOutputs)

end RobustMargin
