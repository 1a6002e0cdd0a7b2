import RobustMargin.Interval

/-! # Activations

The functions applied to every neuron, each with a derivative, and their images of intervals. The
named ones do not decrease, save `quadlu` with a parameter that is not positive. -/
namespace RobustMargin

inductive Activation (α : Type) where
  | identity
  | sigmoid
  | tanh
  /-- Zero up to `-alpha`, the square of `x + alpha` up to `alpha`, then linear. -/
  | quadlu (alpha : α)
  /-- A function and its derivative under a name. -/
  | custom (name : String) (function derivative : α → α)

namespace Activation

instance {α : Type} : Inhabited (Activation α) := ⟨identity⟩

variable {α : Type} [Scalar α]

def defaultAlpha : α := 1 / Scalar.ofNat 4

/-- The parameter must be a positive finite number. -/
def quadluOf (alpha : α) : Except (Error α) (Activation α) :=
  if Scalar.isFinite alpha && decide (0 < alpha) then .ok (quadlu alpha)
  else .error (.invalidInput (.badAlpha alpha))

def name : Activation α → String
  | identity => "identity"
  | sigmoid => "sigmoid"
  | tanh => "tanh"
  | quadlu _ => "quadlu"
  | custom name _ _ => name

/-- The name together with the parameter. -/
def text : Activation α → String
  | quadlu alpha => "quadlu:" ++ Scalar.text alpha
  | f => f.name

/-- The logistic function; the exponential is taken of no positive number. -/
def logistic (x : α) : α :=
  if 0 ≤ x then 1 / (1 + Scalar.exp (-x))
  else Scalar.exp x / (1 + Scalar.exp x)

def quadluValue (x alpha : α) : α :=
  if x ≤ -alpha then 0
  else if alpha ≤ x then Scalar.ofNat 4 * alpha * x
  else (x + alpha) * (x + alpha)

def quadluSlope (x alpha : α) : α :=
  if x ≤ -alpha then 0
  else if alpha ≤ x then Scalar.ofNat 4 * alpha
  else Scalar.two * (x + alpha)

def eval : Activation α → α → α
  | identity, x => x
  | sigmoid, x => logistic x
  | tanh, x => Scalar.tanh x
  | quadlu alpha, x => quadluValue x alpha
  | custom _ function _, x => function x

def deriv : Activation α → α → α
  | identity, _ => 1
  | sigmoid, x => logistic x * (1 - logistic x)
  | tanh, x => 1 - Scalar.tanh x * Scalar.tanh x
  | quadlu alpha, x => quadluSlope x alpha
  | custom _ _ derivative, x => derivative x

/-- The values at the endpoints in increasing order: the exact image of a function that is monotone
on the interval. -/
def image (f : Activation α) (z : Interval α) : Interval α :=
  if f.eval z.lo ≤ f.eval z.hi then ⟨f.eval z.lo, f.eval z.hi⟩
  else ⟨f.eval z.hi, f.eval z.lo⟩

/-- The points that cut an interval into equal parts, the first endpoint left out. The last one is
the endpoint itself. -/
def samplePoints (z : Interval α) (count : Nat) : List α :=
  let step := z.width / Scalar.ofNat count
  (List.range count).map fun i =>
    if i + 1 = count then z.hi else z.lo + step * Scalar.ofNat (i + 1)

/-- No value is below its predecessor. -/
def nonDecreasing : α → List α → Bool
  | _, [] => true
  | previous, y :: rest => !decide (y < previous) && nonDecreasing y rest

/-- Whether the function does not decrease along the sample points of an interval. -/
def monotoneOn (f : Activation α) (z : Interval α) (samples : Nat) : Bool :=
  if z.isPoint || samples == 0 then true
  else nonDecreasing (f.eval z.lo) ((samplePoints z samples).map f.eval)

/-- Equality of functions as far as it can be told: custom functions are compared by name. -/
def same : Activation α → Activation α → Bool
  | identity, identity => true
  | sigmoid, sigmoid => true
  | tanh, tanh => true
  | quadlu alpha, quadlu beta => Scalar.same alpha beta
  | custom name _ _, custom other _ _ => name == other
  | _, _ => false

end Activation
end RobustMargin
