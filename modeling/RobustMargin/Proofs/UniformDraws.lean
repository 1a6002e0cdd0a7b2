import RobustMargin.Network.KeyStream
import RobustMargin.Proofs.DoubleQuotients

/-! # Uniform draws

A number drawn from a key stream lies between its bound and the negative of it. A unit is stretched
to twice the bound and then moved down, and both results are rounded. As twice a double is a double
too, neither rounding passes the bound. -/
namespace RobustMargin.Double

open Float.Model (UnpackedFloat Format)
open Float.Model.UnpackedFloat (Sign)

section Steps

variable {x y z : Float}

theorem isFinite_unpacked (finite : Finite x) : (unpacked x).isFinite = true :=
  (isFinite_unpacked_iff x).mpr finite

/-- A number whose place lies between those of the infinities is finite. -/
theorem finite_of_rank (number : x.isNaN = false) (low : -(infinityPlace : Int) < rank (unpacked x))
    (high : rank (unpacked x) < infinityPlace) : Finite x := by
  rcases infinite_or_finite number with ⟨s, infinite⟩ | finite
  · change unpacked x = .infinity s at infinite
    rw [infinite] at low high
    cases s with
    | negative => exact absurd low (lt_irrefl _)
    | positive => exact absurd high (lt_irrefl _)
  · exact (isFinite_unpacked_iff x).mp finite

/-- A number with the place of a finite one stands for the same. -/
theorem steps_of_rank (number : x.isNaN = false) {v : UnpackedFloat} (range : InRange v)
    (finite : v.isFinite = true) (same : rank (unpacked x) = rank v) :
    Finite x ∧ steps (unpacked x) = steps v := by
  obtain ⟨low, high⟩ := rank_lt range finite
  rw [← same] at low high
  have finiteX := finite_of_rank number low high
  have first := isFinite_unpacked finiteX
  exact ⟨finiteX, le_antisymm
    (steps_le_of_rank_le (inRange_unpacked x) range first finite same.le)
    (steps_le_of_rank_le range (inRange_unpacked x) finite first same.ge)⟩

/-- Finite doubles are compared by what they stand for. -/
theorem le_iff_steps (finiteX : Finite x) (finiteY : Finite y) :
    x ≤ y ↔ steps (unpacked x) ≤ steps (unpacked y) := by
  have first := isFinite_unpacked finiteX
  have second := isFinite_unpacked finiteY
  rw [le_iff_rank]
  constructor
  · rintro ⟨-, -, places⟩
    exact steps_le_of_rank_le (inRange_unpacked x) (inRange_unpacked y) first second places
  · intro le
    refine ⟨isNaN_of_finite finiteX, isNaN_of_finite finiteY, ?_⟩
    rw [rank_eq_signedPlace (inRange_unpacked x) first,
      rank_eq_signedPlace (inRange_unpacked y) second]
    exact signedPlace_mono (mul_le_mul_of_nonneg_right le (by positivity))

/-- What lies between finite doubles is finite. -/
theorem finite_of_between (finiteX : Finite x) (finiteZ : Finite z) (low : x ≤ y) (high : y ≤ z) :
    Finite y := by
  obtain ⟨-, number, above⟩ := le_iff_rank.mp low
  obtain ⟨-, -, below⟩ := le_iff_rank.mp high
  have bottom := (rank_lt (inRange_unpacked x) (isFinite_unpacked finiteX)).1
  have top := (rank_lt (inRange_unpacked z) (isFinite_unpacked finiteZ)).2
  exact finite_of_rank number (bottom.trans_le above) (below.trans_lt top)

theorem steps_unpackedNeg (u : UnpackedFloat) : steps u.neg = -steps u := by
  cases u with
  | finite s m e positive => cases s <;> simp [UnpackedFloat.neg, steps, Sign.apply]
  | _ => rfl

theorem isFinite_unpackedNeg (u : UnpackedFloat) : u.neg.isFinite = u.isFinite := by
  cases u <;> rfl

theorem unpackedNeg_neg (u : UnpackedFloat) : u.neg.neg = u := by
  cases u with
  | notANumber => rfl
  | _ s => cases s <;> rfl

theorem isNaN_of_isFinite {u : UnpackedFloat} (finite : u.isFinite = true) : u.isNaN = false := by
  cases u <;> first | rfl | cases finite

theorem rank_unpackedNeg (u : UnpackedFloat) : rank u.neg = -rank u := by
  cases u with
  | infinity s => cases s <;> rfl
  | finite s m e positive => cases s <;> simp [UnpackedFloat.neg, rank, Sign.apply]
  | _ => rfl

/-- The opposite of a finite double. -/
theorem neg_finite (finite : Finite x) : Finite (-x) ∧
    steps (unpacked (-x)) = -steps (unpacked x) ∧ rank (unpacked (-x)) = -rank (unpacked x) := by
  have opposite : -x = packed (unpacked x).neg := rfl
  have range := inRange_neg (inRange_unpacked x)
  have finiteN : (unpacked x).neg.isFinite = true := by
    rw [isFinite_unpackedNeg]
    exact isFinite_unpacked finite
  have same : rank (unpacked (packed (unpacked x).neg)) = rank (unpacked x).neg := by
    rw [rank_packed_steps range finiteN, rank_eq_signedPlace range finiteN]
  have number := isNaN_packed (isNaN_of_isFinite finiteN)
  obtain ⟨finitePacked, value⟩ := steps_of_rank number range finiteN same
  rw [opposite, value, same, steps_unpackedNeg, rank_unpackedNeg]
  exact ⟨finitePacked, rfl, rfl⟩

theorem rank_abs (number : x.isNaN = false) : rank (unpacked x.abs) = |rank (unpacked x)| := by
  have plus : sign x.abs = .positive := by
    have small := bits_abs_lt number
    rw [sign, negative, Nat.div_eq_of_lt small]
    rfl
  rw [rank_unpacked (isNaN_abs number), rank_unpacked number, plus, exponent_abs number,
    fraction_abs number]
  cases sign x with
  | negative => exact ((abs_neg _).trans (Nat.abs_cast _)).symm
  | positive => exact (Nat.abs_cast _).symm

/-- What lies between a double and its negative is no larger in size. -/
theorem abs_le_of_between (finite : Finite y) (low : -y ≤ x) (high : x ≤ y) : x.abs ≤ y := by
  obtain ⟨-, number, above⟩ := le_iff_rank.mp low
  obtain ⟨-, -, below⟩ := le_iff_rank.mp high
  rw [(neg_finite finite).2.2] at above
  refine le_iff_rank.mpr ⟨isNaN_abs number, isNaN_of_finite finite, ?_⟩
  rw [rank_abs number]
  exact abs_le.mpr ⟨above, below⟩

theorem rank_add_steps (finiteX : Finite x) (finiteY : Finite y) :
    rank (unpacked (x + y)) =
      signedPlace ((steps (unpacked x) + steps (unpacked y)) * 2 ^ 1074) :=
  rank_add (inRange_unpacked x) (inRange_unpacked y) (isFinite_unpacked finiteX)
    (isFinite_unpacked finiteY)

theorem rank_mul_steps (finiteX : Finite x) (finiteY : Finite y) :
    rank (unpacked (x * y)) = signedPlace (steps (unpacked x) * steps (unpacked y)) :=
  rank_mul (inRange_unpacked x) (inRange_unpacked y) (isFinite_unpacked finiteX)
    (isFinite_unpacked finiteY)

theorem rank_sub_steps (finiteX : Finite x) (finiteY : Finite y) :
    rank (unpacked (x - y)) =
      signedPlace ((steps (unpacked x) - steps (unpacked y)) * 2 ^ 1074) := by
  have same : x - y = packed (UnpackedFloat.add .binary64 (unpacked x) (unpacked y).neg) :=
    congrArg packed (sub_eq_add_neg (unpacked x) (unpacked y))
  rw [same, rank_add (inRange_unpacked x) (inRange_neg (inRange_unpacked y))
    (isFinite_unpacked finiteX) ((isFinite_unpackedNeg _).trans (isFinite_unpacked finiteY)),
    steps_unpackedNeg, Int.sub_eq_add_neg]

theorem isNaN_add_unpacked {u v : UnpackedFloat} (finiteU : u.isFinite = true)
    (finiteV : v.isFinite = true) : (UnpackedFloat.add .binary64 u v).isNaN = false := by
  have number := isNaN_sub_unpacked finiteU ((isFinite_unpackedNeg v).trans finiteV)
  rwa [sub_eq_add_neg, unpackedNeg_neg] at number

/-- The sum of two finite doubles is a number; it may be infinite. -/
theorem isNaN_add (finiteX : Finite x) (finiteY : Finite y) : (x + y).isNaN = false :=
  isNaN_packed (isNaN_add_unpacked (isFinite_unpacked finiteX) (isFinite_unpacked finiteY))

/-- Twice a double up to one is a double. -/
theorem exists_twice {u : UnpackedFloat} (range : InRange u) (finite : u.isFinite = true)
    (above : 0 ≤ rank u) (below : rank u ≤ rank (unpacked 1)) :
    ∃ v, InRange v ∧ v.isFinite = true ∧ steps v = steps u + steps u := by
  have one : rank (unpacked 1) = 1023 * 2 ^ 52 := rfl
  rw [one] at below
  cases u with
  | notANumber => cases finite
  | infinity s => cases finite
  | zero s => exact ⟨.zero s, trivial, rfl, rfl⟩
  | finite s m e positive =>
      obtain ⟨⟨short, lowest, full⟩, high⟩ := range
      rw [rank_finite, size] at above below
      cases s with
      | negative =>
          change 0 ≤ -((e + 1074) * 2 ^ 52 + (m : Int)) at above
          omega
      | positive =>
          change (e + 1074) * 2 ^ 52 + (m : Int) ≤ 1023 * 2 ^ 52 at below
          by_cases normal : 2 ^ 52 ≤ m
          · have power : (e + 1 + 1074).toNat = (e + 1074).toNat + 1 := by omega
            refine ⟨.finite .positive m (e + 1) positive,
              ⟨⟨short, by omega, fun _ => normal⟩, by omega⟩, rfl, ?_⟩
            rw [steps, steps, power, Nat.pow_succ, ← Nat.mul_assoc, Nat.mul_two]
            exact Nat.cast_add _ _
          · have finest : e = -1074 := by
              by_contra coarse
              exact normal (full coarse)
            refine ⟨.finite .positive (m + m) e (by omega),
              ⟨⟨by omega, lowest, fun coarse => absurd finest coarse⟩, high⟩, rfl, ?_⟩
            rw [steps, steps, Nat.add_mul]
            exact Nat.cast_add _ _

theorem steps_zero : steps (unpacked 0) = 0 := rfl

theorem finite_one : Finite 1 := by
  rw [Finite]
  decide

theorem finite_zero : Finite 0 := isZero_zero.finite

/-- A double up to one and its negative are twice the double apart, and this difference is one of
the doubles. -/
theorem steps_width (above : 0 ≤ x) (below : x ≤ 1) :
    Finite (x - -x) ∧ steps (unpacked (x - -x)) = steps (unpacked x) + steps (unpacked x) := by
  have finite := finite_of_between finite_zero finite_one above below
  obtain ⟨finiteN, opposite, -⟩ := neg_finite finite
  obtain ⟨v, range, finiteV, twice⟩ := exists_twice (inRange_unpacked x) (isFinite_unpacked finite)
    (le_iff_rank.mp above).2.2 (le_iff_rank.mp below).2.2
  rw [← twice]
  refine steps_of_rank (isNaN_sub finite finiteN) range finiteV ?_
  rw [rank_sub_steps finite finiteN, opposite, sub_neg_eq_add, ← twice,
    rank_eq_signedPlace range finiteV]

/-- A unit that is stretched to the width between a bound and its negative, and moved down, stays
between the two. -/
theorem stretched_between {unit bound : Float} (notNegative : 0 ≤ unit) (atMost : unit ≤ 1)
    (above : 0 ≤ bound) (below : bound ≤ 1) :
    -bound ≤ unit * (bound - -bound) + -bound ∧ unit * (bound - -bound) + -bound ≤ bound := by
  have finiteU := finite_of_between finite_zero finite_one notNegative atMost
  have finiteB := finite_of_between finite_zero finite_one above below
  obtain ⟨finiteN, opposite, -⟩ := neg_finite finiteB
  obtain ⟨finiteW, width⟩ := steps_width above below
  have unitLow := (le_iff_steps finite_zero finiteU).mp notNegative
  have unitHigh := (le_iff_steps finiteU finite_one).mp atMost
  have boundLow := (le_iff_steps finite_zero finiteB).mp above
  rw [steps_zero] at unitLow boundLow
  rw [steps_one] at unitHigh
  have notNegativeW : 0 ≤ steps (unpacked (bound - -bound)) := by omega
  -- The stretched unit lies between zero and the width.
  have product := isNaN_mul finiteU finiteW
  have low : 0 ≤ unit * (bound - -bound) := by
    refine le_iff_rank.mpr ⟨rfl, product, ?_⟩
    have zero : rank (unpacked 0) = signedPlace 0 := signedPlace_zero.symm
    rw [rank_mul_steps finiteU finiteW, zero]
    exact signedPlace_mono (mul_nonneg unitLow notNegativeW)
  have high : unit * (bound - -bound) ≤ bound - -bound := by
    refine le_iff_rank.mpr ⟨product, isNaN_of_finite finiteW, ?_⟩
    rw [rank_mul_steps finiteU finiteW, rank_eq_signedPlace (inRange_unpacked _)
      (isFinite_unpacked finiteW), mul_comm]
    exact signedPlace_mono (mul_le_mul_of_nonneg_left unitHigh notNegativeW)
  have finiteP := finite_of_between finite_zero finiteW low high
  have stepsLow := (le_iff_steps finite_zero finiteP).mp low
  have stepsHigh := (le_iff_steps finiteP finiteW).mp high
  rw [steps_zero] at stepsLow
  rw [width] at stepsHigh
  -- So moving it down leaves it between the bound and its negative.
  have sum := isNaN_add finiteP finiteN
  have scale : (0 : Int) ≤ 2 ^ 1074 := by positivity
  rw [le_iff_rank, le_iff_rank, rank_add_steps finiteP finiteN, opposite,
    rank_eq_signedPlace (inRange_unpacked bound) (isFinite_unpacked finiteB),
    rank_eq_signedPlace (inRange_unpacked (-bound)) (isFinite_unpacked finiteN), opposite]
  refine ⟨⟨isNaN_of_finite finiteN, sum, ?_⟩, sum, isNaN_of_finite finiteB, ?_⟩
  · exact signedPlace_mono (mul_le_mul_of_nonneg_right (by omega) scale)
  · exact signedPlace_mono (mul_le_mul_of_nonneg_right (by omega) scale)

end Steps

section Units

/-- The bits of a number from one up to two, whose fraction is taken from a word. -/
def fractional (word : UInt64) : UInt64 := (word >>> 12) ||| 0x3FF0000000000000

theorem word_div_lt (word : UInt64) : word.toNat / 2 ^ 12 < 2 ^ 52 := by
  have bound := word.toNat_lt
  omega

theorem fractional_toNat (word : UInt64) :
    (fractional word).toNat = 2 ^ 52 * 1023 + word.toNat / 2 ^ 12 := by
  have small := word_div_lt word
  have top : (0x3FF0000000000000 : UInt64).toNat = 1023 <<< 52 := rfl
  have shift : (12 : UInt64).toNat % 64 = 12 := rfl
  rw [fractional, UInt64.toNat_or, UInt64.toNat_shiftRight, top, shift, Nat.shiftRight_eq_div_pow,
    Nat.or_comm, ← Nat.shiftLeft_add_eq_or_of_lt small, Nat.shiftLeft_eq, Nat.mul_comm]

theorem valid_fractional (word : UInt64) :
    Format.Valid .binary64 (fractional word).toBitVec := by
  have bits := fractional_toNat word
  have bound := word.toNat_lt
  refine ⟨fun full => ?_⟩
  have exponents : (@UnpackedFloat.unpackExponent .binary64 (fractional word).toBitVec).toNat =
      (fractional word).toNat / 2 ^ 52 % 2 ^ 11 := by
    simp [UnpackedFloat.unpackExponent, Nat.shiftRight_eq_div_pow]
  rw [full, bits] at exponents
  change 2047 = _ at exponents
  omega

/-- The double of such bits. -/
def fractionalDouble (word : UInt64) : Float := ⟨⟨fractional word, valid_fractional word⟩⟩

theorem bits_fractionalDouble (word : UInt64) : bits (fractionalDouble word) =
    2 ^ 63 * Sign.positive.toBitVec.toNat + 2 ^ 52 * 1023 + word.toNat / 2 ^ 12 :=
  (fractional_toNat word).trans (by rfl)

theorem finite_fractionalDouble (word : UInt64) : Finite (fractionalDouble word) := by
  obtain ⟨-, exponents, -⟩ :=
    fields_of_bits (by decide) (word_div_lt word) (bits_fractionalDouble word)
  rw [Finite, exponents]
  decide

theorem rank_fractionalDouble (word : UInt64) :
    rank (unpacked (fractionalDouble word)) = 2 ^ 52 * 1023 + word.toNat / 2 ^ 12 :=
  rank_of_bits (by decide) (word_div_lt word) (bits_fractionalDouble word)

theorem finite_two : Finite 2 := by
  rw [Finite]
  decide

theorem steps_two : steps (unpacked 2) = 2 ^ 1074 + 2 ^ 1074 := by
  decide +kernel

theorem ofBits_fractional_between (word : UInt64) :
    1 ≤ Float.ofBits (fractional word) ∧ Float.ofBits (fractional word) ≤ 2 := by
  have bound := word.toNat_lt
  have read : Float.ofBits (fractional word) = packed (unpacked (fractionalDouble word)) := rfl
  have range := inRange_unpacked (fractionalDouble word)
  have one : rank (unpacked 1) = 2 ^ 52 * 1023 := rfl
  have two : rank (unpacked 2) = 2 ^ 52 * 1024 := rfl
  have finite := isFinite_unpacked (finite_fractionalDouble word)
  have number := isNaN_packed (isNaN_of_isFinite finite)
  rw [read, le_iff_rank, le_iff_rank, rank_packed_steps range finite,
    ← rank_eq_signedPlace range finite, rank_fractionalDouble, one, two]
  exact ⟨⟨rfl, number, by omega⟩, number, rfl, by omega⟩

/-- A number from one up to two, diminished by one, lies between zero and one. -/
theorem unit_between (word : UInt64) : 0 ≤ Float.ofBits (fractional word) - 1.0 ∧
    Float.ofBits (fractional word) - 1.0 ≤ 1 := by
  have literal : (1.0 : Float) = 1 := rfl
  obtain ⟨low, high⟩ := ofBits_fractional_between word
  generalize Float.ofBits (fractional word) = x at *
  have finite := finite_of_between finite_one finite_two low high
  have stepsLow := (le_iff_steps finite_one finite).mp low
  have stepsHigh := (le_iff_steps finite finite_two).mp high
  rw [steps_one] at stepsLow
  rw [steps_two] at stepsHigh
  have number : (x - 1).isNaN = false := isNaN_sub finite finite_one
  have scale : (0 : Int) ≤ 2 ^ 1074 := by positivity
  have zero : rank (unpacked 0) = signedPlace (0 * 2 ^ 1074) := by
    rw [zero_mul, signedPlace_zero]
    rfl
  have one := rank_eq_signedPlace (inRange_unpacked 1) (isFinite_unpacked finite_one)
  rw [literal, le_iff_rank, le_iff_rank, rank_sub_steps finite finite_one, one, zero, steps_one]
  refine ⟨⟨rfl, number, ?_⟩, number, rfl, ?_⟩
  · exact signedPlace_mono (mul_le_mul_of_nonneg_right (by omega) scale)
  · exact signedPlace_mono (mul_le_mul_of_nonneg_right (by omega) scale)

end Units
end RobustMargin.Double

namespace RobustMargin.KeyStream

/-- A number drawn from a key stream lies between its bound and the negative of it. -/
theorem uniform_between {bound : Float} (above : 0 ≤ bound) (below : bound ≤ 1)
    (stream : KeyStream) :
    -bound ≤ (uniform bound stream).1 ∧ (uniform bound stream).1 ≤ bound := by
  obtain ⟨low, high⟩ := Double.unit_between stream.next.1
  exact Double.stretched_between low high above below

end RobustMargin.KeyStream
