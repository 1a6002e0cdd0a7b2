import RobustMargin.Decimal.Layout
import RobustMargin.Scalar

/-! # Doubles

Double precision numbers as scalars. -/
namespace RobustMargin

/-- The place of a double in the total order: by sign, then by size, with the negative zero just
below zero. -/
def orderKey (x : Float) : Int :=
  let bits := x.toBits.toNat
  if bits < Nat.pow 2 63 then bits else Int.negSucc (bits - Nat.pow 2 63)

instance : Scalar Float where
  decideLE := fun x y => inferInstanceAs (Decidable (x ≤ y))
  decideLT := fun x y => inferInstanceAs (Decidable (x < y))
  ofNat := Float.ofNat
  top := 1.0 / 0.0
  bottom := -1.0 / 0.0
  isTop := fun x => x.isInf && decide (0.0 < x)
  isBottom := fun x => x.isInf && decide (x < 0.0)
  totalLE := fun x y => decide (orderKey x ≤ orderKey y)
  abs := Float.abs
  exp := Float.exp
  tanh := Float.tanh
  sqrt := Float.sqrt
  text := Decimal.Layout.plain.text
  dataText := Decimal.Layout.numeric.text

end RobustMargin
