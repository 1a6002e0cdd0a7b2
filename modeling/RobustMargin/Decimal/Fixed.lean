import RobustMargin.Decimal.Shortest

/-! # Rounded decimals

The exact value of a double rounded to a number of decimal places or of significant digits. A
value halfway between two decimals goes to the even one. -/
namespace RobustMargin.Decimal

/-- The nearest natural number to a quotient, a half going to the even neighbour. -/
def roundDiv (numerator denominator : Nat) : Nat :=
  let quotient := numerator / denominator
  let rest := numerator % denominator
  if 2 * rest < denominator then quotient
  else if 2 * rest = denominator then quotient + quotient % 2
  else quotient + 1

namespace Dyadic

/-- The value in units of `10 ^ power`, rounded. -/
def roundTo (x : Dyadic) (power : Int) : Nat :=
  roundDiv (x.mantissa * Nat.pow 2 x.power.toNat * Nat.pow 10 (-power).toNat)
    (Nat.pow 2 (-x.power).toNat * Nat.pow 10 power.toNat)

/-- The value rounded to a number of decimal places. -/
def toPlaces (x : Dyadic) (places : Nat) : Digits := ⟨x.roundTo (-places), -places⟩

/-- The value rounded to a number of significant digits. -/
def toSignificant (x : Dyadic) (count : Nat) : Digits :=
  let power := x.leadingPower + 1 - count
  ⟨x.roundTo power, power⟩

end Dyadic

/-- The nearest double to a decimal. -/
def Digits.toFloat (d : Digits) : Float :=
  if d.power < 0 then Float.ofScientific d.significand true (-d.power).toNat
  else Float.ofScientific d.significand false d.power.toNat

/-- A decimal with the sign of a double; zero has no sign. -/
def withSignOf (x : Float) (d : Digits) : Float :=
  if d.significand = 0 then 0.0 else if x < 0.0 then -d.toFloat else d.toFloat

/-- A finite double rounded to a number of decimal places. -/
def roundPlaces (x : Float) (places : Nat) : Float :=
  withSignOf x ((Dyadic.ofFloat x).toPlaces places)

/-- A finite double rounded to a number of significant digits. -/
def roundSignificant (x : Float) (count : Nat) : Float :=
  withSignOf x ((Dyadic.ofFloat x).toSignificant count)

/-- The digits of a natural number of units of `10 ^ -places`, with all places written. -/
def placesDigits (units places : Nat) : List Char :=
  let digits := Nat.toDigits 10 units
  let padded := List.replicate (places + 1 - digits.length) '0' ++ digits
  let whole := padded.length - places
  padded.take whole ++ '.' :: padded.drop whole

/-- The text of a finite double with a number of decimal places; zero has no sign. -/
def placesText (x : Float) (places : Nat) : String :=
  let units := ((Dyadic.ofFloat x).toPlaces places).significand
  let digits := placesDigits units places
  String.ofList (if x < 0.0 ∧ units ≠ 0 then '-' :: digits else digits)

end RobustMargin.Decimal
