/-! # Decimal numerals

The digits of a written number and two ways to read them as a double: rounded once to the nearest
double, or scaled, where a 64-bit significand is multiplied or divided by a rounded power of ten. -/
namespace RobustMargin.Decimal

def natOfDigits (digits : List Nat) : Nat :=
  digits.foldl (fun value digit => 10 * value + digit) 0

theorem natOfDigits_concat (digits : List Nat) (digit : Nat) :
    natOfDigits (digits ++ [digit]) = 10 * natOfDigits digits + digit := by
  simp [natOfDigits]

/-- The longest prefix of decimal digits and the rest of the text. -/
def spanDigits : List Char → List Nat × List Char
  | [] => ([], [])
  | c :: rest =>
      if c.isDigit then
        let (digits, after) := spanDigits rest
        ((c.toNat - '0'.toNat) :: digits, after)
      else ([], c :: rest)

theorem spanDigits_length (text : List Char) :
    (spanDigits text).1.length + (spanDigits text).2.length = text.length := by
  induction text with
  | nil => rfl
  | cons c rest ih =>
      by_cases h : c.isDigit
      · simp only [spanDigits, h, ↓reduceIte, List.length_cons]
        omega
      · simp [spanDigits, h]

/-- The power of ten after its mark: an optional sign and at least one digit. -/
def spanExponent (text : List Char) : Option (Int × List Char) :=
  let (negative, unsigned) : Bool × List Char := match text with
    | '+' :: rest => (false, rest)
    | '-' :: rest => (true, rest)
    | rest => (false, rest)
  match spanDigits unsigned with
  | ([], _) => none
  | (digits, rest) =>
      let size : Int := natOfDigits digits
      some (if negative then -size else size, rest)

/-- A written number: a sign, the digits before and after the point, and a power of ten. -/
structure Numeral where
  negative : Bool
  whole : List Nat
  fraction : List Nat
  exponent : Int
  deriving DecidableEq, Repr

namespace Numeral

def infinity : Float := 1.0 / 0.0

def withSign (negative : Bool) (x : Float) : Float := if negative then -x else x

/-- The power of ten as a double, rounded to nearest. -/
def powerOfTen (power : Nat) : Float := Float.ofScientific 1 false power

/-- The nearest double. Numerals beyond every double or below half of the least one are told by
their number of digits, so that no large power is computed for them. -/
def nearest (n : Numeral) : Float :=
  let significand := natOfDigits (n.whole ++ n.fraction)
  let power := n.exponent - n.fraction.length
  let leading := power + (Nat.toDigits 10 significand).length
  let size : Float :=
    if significand = 0 then 0.0
    else if leading < -330 then 0.0
    else if 310 < leading then infinity
    else if power < 0 then Float.ofScientific significand true (-power).toNat
    else Float.ofScientific significand false power.toNat
  withSign n.negative size

/-- Appends digits to a value for as long as it stays below `2 ^ 64`; returns the digits left. -/
def fillWord : Nat → List Nat → Nat × List Nat
  | value, [] => (value, [])
  | value, digit :: rest =>
      if 10 * value + digit < Nat.pow 2 64 then fillWord (10 * value + digit) rest
      else (value, digit :: rest)

/-- Division by a power of ten in steps of at most `10 ^ 308`, until nothing is left. -/
def shrink (x : Float) (power : Nat) : Float :=
  if power ≤ 308 then x / powerOfTen power
  else if x == 0.0 then x
  else shrink (x / powerOfTen 308) (power - 308)
termination_by power

/-- Multiplication by a power of ten; beyond `10 ^ 308` only zero stays in range. -/
def stretch (x : Float) (power : Nat) : Float :=
  if power ≤ 308 then x * powerOfTen power
  else if x == 0.0 then x
  else infinity

def scaleByTen (x : Float) (power : Int) : Float :=
  if power < 0 then shrink x (-power).toNat else stretch x power.toNat

/-- The double found by scaling a significand of at most 64 bits. Digits of the whole part that no
longer fit count as powers of ten, those of the fraction are dropped, and the result is infinite
where the numeral is out of range. -/
def scaled (n : Numeral) : Float :=
  let (wholeValue, wholeRest) := fillWord 0 n.whole
  let (significand, fractionRest) := fillWord wholeValue n.fraction
  let taken := n.fraction.length - fractionRest.length
  let size : Float :=
    if n.exponent.natAbs < Nat.pow 2 31 then
      scaleByTen significand.toUInt64.toFloat (wholeRest.length - taken + n.exponent)
    else if significand ≠ 0 ∧ 0 < n.exponent then infinity
    else 0.0
  withSign n.negative size

end Numeral

/-- The numeral after an optional sign: digits on at least one side of the point, and an optional
power of ten that ends the text. -/
def unsignedNumeral? (negative : Bool) (text : List Char) : Option Numeral :=
  let (whole, afterWhole) := spanDigits text
  let (fraction, afterFraction) := match afterWhole with
    | '.' :: rest => spanDigits rest
    | rest => ([], rest)
  if whole.isEmpty && fraction.isEmpty then none
  else match afterFraction with
    | [] => some ⟨negative, whole, fraction, 0⟩
    | mark :: rest =>
        if mark = 'e' ∨ mark = 'E' then
          match spanExponent rest with
          | some (exponent, []) => some ⟨negative, whole, fraction, exponent⟩
          | _ => none
        else none

/-- Reads a whole text as a double: a numeral, or in any case of letters `inf`, `infinity` or
`nan`, after an optional sign. -/
def read? (text : String) : Option Float :=
  let (negative, unsigned) : Bool × List Char := match text.toList with
    | '+' :: rest => (false, rest)
    | '-' :: rest => (true, rest)
    | rest => (false, rest)
  let word := String.ofList (unsigned.map Char.toLower)
  if word = "inf" ∨ word = "infinity" then some (Numeral.withSign negative Numeral.infinity)
  else if word = "nan" then some (0.0 / 0.0)
  else (unsignedNumeral? negative unsigned).map Numeral.nearest

/-- Reads a natural number below `2 ^ 64`: digits after an optional plus sign. -/
def readWord? (text : String) : Option Nat :=
  let unsigned : List Char := match text.toList with
    | '+' :: rest => rest
    | rest => rest
  match spanDigits unsigned with
  | ([], _) => none
  | (digits, rest) =>
      let value := natOfDigits digits
      if rest.isEmpty && value < Nat.pow 2 64 then some value else none

end RobustMargin.Decimal
