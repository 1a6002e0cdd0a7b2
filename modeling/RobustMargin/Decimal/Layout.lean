import RobustMargin.Decimal.Shortest

/-! # Written doubles

A layout says which doubles are written by position, whether a whole number keeps its point, and
how the others carry a power of ten. -/
namespace RobustMargin.Decimal

/-- The decisions of a number format. `positional` is asked with the place of the point: a value
with point place `p` lies in `[10 ^ (p - 1), 10 ^ p)`. -/
structure Layout where
  positional : Int → Bool
  keepsPoint : Bool
  tie : Tie

namespace Layout

/-- The text of messages: always positional, whole numbers without a point. -/
def plain : Layout := ⟨fun _ => true, false, .up⟩

/-- The text of program files: positional from `1e-4` up to below `1e16`, with a point. -/
def numeric : Layout := ⟨fun place => -3 ≤ place ∧ place ≤ 16, true, .up⟩

/-- The text of data files: positional from `1e-5` up to below `1e16`, with a point. -/
def data : Layout := ⟨fun place => -4 ≤ place ∧ place ≤ 16, true, .toEven⟩

def zeros (count : Nat) : List Char := List.replicate count '0'

/-- The digits with the point at its place. -/
def positionalText (keepsPoint : Bool) (digits : List Char) (place : Int) : List Char :=
  if place ≤ 0 then '0' :: '.' :: zeros (-place).toNat ++ digits
  else
    let count := place.toNat
    if digits.length ≤ count then
      digits ++ zeros (count - digits.length) ++ (if keepsPoint then ['.', '0'] else [])
    else digits.take count ++ '.' :: digits.drop count

/-- The digits with the point after the first one and a power of ten. -/
def exponentText (digits : List Char) (place : Int) : List Char :=
  let power := (toString (place - 1)).toList
  match digits with
  | [] => []
  | [digit] => digit :: 'e' :: power
  | digit :: rest => digit :: '.' :: rest ++ 'e' :: power

/-- The text of a positive value given by its digits. -/
def digitsText (layout : Layout) (d : Digits) : List Char :=
  let digits := Nat.toDigits 10 d.significand
  let place := d.power + digits.length
  if layout.positional place then positionalText layout.keepsPoint digits place
  else exponentText digits place

/-- The text of a double in a layout. -/
def text (layout : Layout) (x : Float) : String :=
  if x.isNaN then "NaN"
  else
    let negative := x.toBits.toNat / Nat.pow 2 63 == 1
    let size : List Char :=
      if x.isInf then ['i', 'n', 'f']
      else if x == 0.0 then if layout.keepsPoint then ['0', '.', '0'] else ['0']
      else layout.digitsText ((Dyadic.ofFloat x).shortest layout.tie)
    String.ofList (if negative then '-' :: size else size)

end Layout
end RobustMargin.Decimal
