/-! # Shortest decimals

The fewest decimal digits that a double can be read back from. A finite double is `m * 2 ^ q`; the
numbers that round to it form an interval, closed when `m` is even. For each digit count the two
neighbours of the value on that decimal grid are tried, and of two hits the nearer one is taken. -/
namespace RobustMargin.Decimal

/-- A positive finite double as `mantissa * 2 ^ power`. The gap below is half the gap above where
`narrow` holds, which is at the powers of two. -/
structure Dyadic where
  mantissa : Nat
  power : Int
  narrow : Bool
  deriving DecidableEq, Repr

/-- The dyadic value of the bits of a finite double, its sign left aside. -/
def Dyadic.ofBits (bits : Nat) : Dyadic :=
  let fraction := bits % Nat.pow 2 52
  let exponent := bits / Nat.pow 2 52 % Nat.pow 2 11
  if exponent = 0 then ⟨fraction, -1074, false⟩
  else ⟨Nat.pow 2 52 + fraction, Int.subNatNat exponent 1075, fraction == 0 && exponent != 1⟩

def Dyadic.ofFloat (x : Float) : Dyadic := .ofBits x.toBits.toNat

/-- A decimal significand with a power of ten. -/
structure Digits where
  significand : Nat
  power : Int
  deriving DecidableEq, Repr

/-- Moves trailing zeros of the significand into the power of ten. -/
def Digits.trim (significand : Nat) (power : Int) : Digits :=
  if h : significand ≠ 0 ∧ significand % 10 = 0 then trim (significand / 10) (power + 1)
  else ⟨significand, power⟩
termination_by significand
decreasing_by omega

/-- Which of two decimals is taken for a value halfway between them. -/
inductive Tie where
  | up
  | toEven
  deriving DecidableEq, Repr

def Tie.takesLower : Tie → Nat → Bool
  | .up, _ => false
  | .toEven, below => below % 2 == 0

namespace Dyadic

/-- A fraction `value / unit` of four times the double on the grid of a power of ten. -/
structure Grid where
  unit : Nat
  value : Nat
  low : Nat
  high : Nat

/-- The double and the ends of its interval in units of `10 ^ power`, all over one denominator. -/
def grid (x : Dyadic) (power : Int) : Grid :=
  let numerator := Nat.pow 2 (x.power - 2).toNat * Nat.pow 10 (-power).toNat
  let unit := Nat.pow 2 (2 - x.power).toNat * Nat.pow 10 power.toNat
  { unit
    value := 4 * x.mantissa * numerator
    low := (4 * x.mantissa - if x.narrow then 1 else 2) * numerator
    high := (4 * x.mantissa + 2) * numerator }

/-- Whether a point of the grid reads back as the double. -/
def admits (x : Dyadic) (g : Grid) (point : Nat) : Bool :=
  if x.mantissa % 2 = 0 then decide (g.low ≤ point * g.unit ∧ point * g.unit ≤ g.high)
  else decide (g.low < point * g.unit ∧ point * g.unit < g.high)

/-- The nearer of the two neighbours on the grid that read back. -/
def onGrid? (x : Dyadic) (tie : Tie) (power : Int) : Option Digits :=
  let g := x.grid power
  let below := g.value / g.unit
  match x.admits g below, x.admits g (below + 1) with
  | true, true =>
      let down := g.value - below * g.unit
      let up := (below + 1) * g.unit - g.value
      if down < up ∨ down = up ∧ tie.takesLower below then some ⟨below, power⟩
      else some ⟨below + 1, power⟩
  | true, false => some ⟨below, power⟩
  | false, true => some ⟨below + 1, power⟩
  | false, false => none

/-- A lower estimate, at most one too small, of the power of ten of the leading digit. -/
def leadingPower (x : Dyadic) : Int :=
  let estimate := (x.power + x.mantissa.log2) * 30103 / 100000
  let g := x.grid (estimate + 1)
  if g.unit ≤ g.value then estimate + 1 else estimate

/-- The shortest digits of a positive double; the seventeenth place always has a hit. -/
def shortest (x : Dyadic) (tie : Tie) : Digits :=
  let leading := x.leadingPower
  match (List.range 18).findSome? fun (places : Nat) => x.onGrid? tie (leading - places) with
  | some found => Digits.trim found.significand found.power
  | none => ⟨0, 0⟩

end Dyadic
end RobustMargin.Decimal
