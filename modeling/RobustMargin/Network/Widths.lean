import RobustMargin.Network

/-! # Layer widths

The widths of a network that narrows from its inputs to its outputs in nearly equal steps. The steps
are taken with 53-bit significands, and differences of widths with 64-bit words. -/
namespace RobustMargin

/-- The nearest integer, a half going to the even neighbour. -/
def roundHalfEven (x : Rat) : Int :=
  let below := x.floor
  let rest := x - below
  if rest < 1 / 2 then below
  else if rest = 1 / 2 then below + below % 2
  else below + 1

/-- The power of two that a positive number is at least as large as, and less than twice. -/
def binaryExponent (x : Rat) : Int :=
  let estimate := Int.subNatNat x.num.natAbs.log2 x.den.log2
  if (2 : Rat) ^ estimate ≤ x then estimate else estimate - 1

/-- The nearest number with a significand of 53 bits, a tie going to the even one. -/
def round53 (x : Rat) : Rat :=
  if x = 0 then 0
  else
    let size := if x < 0 then -x else x
    let unit := (2 : Rat) ^ (binaryExponent size - 52)
    let rounded := roundHalfEven (size / unit) * unit
    if x < 0 then -rounded else rounded

/-- The difference of two words, taken modulo `2 ^ 64`. -/
def wordSub (x y : Nat) : Nat := (x + Nat.pow 2 64 - y) % Nat.pow 2 64

theorem wordSub_of_le (x y : Nat) (h : y ≤ x) (small : x < Nat.pow 2 64) : wordSub x y = x - y := by
  rw [wordSub, Nat.sub_add_comm h, Nat.add_mod_right, Nat.mod_eq_of_lt (by omega)]

def roundNat (n : Nat) : Rat := round53 n

/-- The next width on the way from a current width to the outputs, one of so many equal steps
below it. -/
def nextWidth (outputs steps current : Nat) : Nat :=
  let step := round53 (roundNat (wordSub current outputs) / roundNat steps)
  (round53 (roundNat current - step)).ceil.toNat

/-- Inserts a width into a decreasing list, unless it is already there. -/
def insertWidth (width : Nat) : List Nat → List Nat
  | [] => [width]
  | first :: rest =>
      if first < width then width :: first :: rest
      else if first = width then first :: rest
      else first :: insertWidth width rest

/-- Adds widths below the current one until there are as many as layers. -/
def narrow (outputs depth current : Nat) (widths : List Nat) : Except ParamsFault (List Nat) :=
  if widths.length < depth then
    let next := nextWidth outputs (depth - widths.length + 1) current
    if next < current then narrow outputs depth next (insertWidth next widths)
    else .error (.stoppedShrinking current)
  else .ok widths
termination_by current

/-- Decreasing widths of a number of layers, ending in the number of outputs. -/
def layerWidths (inputs outputs depth : Nat) : Except ParamsFault (List Nat) :=
  if depth = 0 ∨ outputs = 0 then .error (.notPositive depth outputs)
  else if depth = 1 then .ok [outputs]
  else if inputs ≤ outputs then .error (.notWider inputs outputs depth)
  else if round53 (roundNat (inputs - outputs) / roundNat depth) < 1 then
    .error (.tooDeep inputs outputs depth)
  else narrow outputs depth inputs [outputs]

/-- The number of outputs that a sweep uses where none is given: a hundred or ten where there is
room for them, else all the room there is, and at least one. -/
def suggestedOutputs (inputs depth : Nat) : Nat :=
  let room := inputs - depth
  if 100 ≤ room then 100
  else if room < 10 then max room 1
  else 10

end RobustMargin
