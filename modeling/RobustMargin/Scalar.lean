/-! # Scalars

The numbers that bounds, networks and programs are computed over. The operations ask nothing of
their arguments, so that a type with values that are not numbers and with infinite ends may be a
scalar type as well as an ordered field, where every value is a finite number. -/
namespace RobustMargin

/-- A number type with the functions that activations and tolerances need. -/
class Scalar (α : Type) extends Zero α, One α, Add α, Sub α, Mul α, Div α, Neg α, LE α, LT α where
  decideLE : (x y : α) → Decidable (x ≤ y)
  decideLT : (x y : α) → Decidable (x < y)
  ofNat : Nat → α
  /-- The minimum of no numbers. -/
  top : α
  /-- The maximum of no numbers. -/
  bottom : α
  isTop : α → Bool
  isBottom : α → Bool
  /-- A total order that refines `≤` and also places the values that are not numbers. -/
  totalLE : α → α → Bool
  abs : α → α
  exp : α → α
  tanh : α → α
  sqrt : α → α
  /-- The text of a value inside messages. -/
  text : α → String
  /-- The text of a value inside the text of data, where a whole number keeps its point. -/
  dataText : α → String

namespace Scalar

variable {α : Type} [Scalar α]

instance (x y : α) : Decidable (x ≤ y) := decideLE x y

instance (x y : α) : Decidable (x < y) := decideLT x y

/-- A value that is not a number compares with nothing, not even with itself. -/
def isNumber (x : α) : Bool := decide (x ≤ x)

def isFinite (x : α) : Bool := isNumber x && !isTop x && !isBottom x

def isInfinite (x : α) : Bool := isTop x || isBottom x

/-- Numerical equality: zeros of either sign are equal. -/
def same (x y : α) : Bool := decide (x ≤ y) && decide (y ≤ x)

/-- The lesser of two values; one that is not a number gives way to the other. -/
def lesser (x y : α) : α := if isNumber x then (if y < x then y else x) else y

/-- The greater of two values; one that is not a number gives way to the other. -/
def greater (x y : α) : α := if isNumber x then (if x < y then y else x) else y

/-- The least of the numbers in a list. -/
def least (xs : List α) : α :=
  match xs.filter isNumber with
  | [] => top
  | x :: rest => rest.foldl lesser x

/-- The greatest of the numbers in a list. -/
def greatest (xs : List α) : α :=
  match xs.filter isNumber with
  | [] => bottom
  | x :: rest => rest.foldl greater x

def two : α := ofNat 2

/-- The sum of the values in order, started from the negative zero that every first term leaves
unchanged. -/
def sum (xs : List α) : α := xs.foldl (· + ·) (-0)

end Scalar
end RobustMargin
