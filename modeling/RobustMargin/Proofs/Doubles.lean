import RobustMargin.Proofs.Rounding
import RobustMargin.Scalar.Double

/-! # Doubles as bits

A double has a sign, an exponent and a fraction. These decide its comparisons, the double without
its sign, and that no difference of finite doubles fails to be a number. -/
namespace RobustMargin.Double

open Float.Model (UnpackedFloat)
open Float.Model.UnpackedFloat (Sign packComponents unpackMantissa unpackExponent unpackSign)
open Decimal (Dyadic)

section Fields

variable (x : Float)

def bits : Nat := x.toBits.toNat

def negative : Bool := bits x / 2 ^ 63 == 1

def exponent : Nat := bits x / 2 ^ 52 % 2 ^ 11

def fraction : Nat := bits x % 2 ^ 52

def sign : Sign := if negative x then .negative else .positive

/-- The double as an infinity, a zero, or a mantissa with a power of two. -/
def unpacked : UnpackedFloat := x.toModel.unpack

/-- The double is neither infinite nor something else than a number. -/
def Finite : Prop := exponent x ≠ 2047

theorem bits_lt : bits x < 2 ^ 64 := x.toBits.toNat_lt

theorem exponent_lt : exponent x < 2 ^ 11 := Nat.mod_lt _ (by decide)

theorem fraction_lt : fraction x < 2 ^ 52 := Nat.mod_lt _ (by decide)

theorem Finite.exponent_lt {x : Float} (finite : Finite x) : exponent x < 2047 := by
  have bound := Double.exponent_lt x
  rw [Finite] at finite
  omega

theorem bits_eq :
    bits x = 2 ^ 63 * (if negative x then 1 else 0) + 2 ^ 52 * exponent x + fraction x := by
  have bound := bits_lt x
  have top : bits x / 2 ^ 63 = if negative x then 1 else 0 := by
    rw [negative]
    by_cases one : bits x / 2 ^ 63 = 1
    · rw [one]
      rfl
    · rw [if_neg (by simpa using one)]
      omega
  have whole : 2 ^ 63 = 2 ^ 52 * 2 ^ 11 := rfl
  rw [← top, exponent, fraction, whole]
  generalize 2 ^ 52 = a
  generalize 2 ^ 11 = b
  rw [← Nat.div_div_eq_div_mul, Nat.mul_assoc, ← Nat.mul_add, Nat.div_add_mod, Nat.div_add_mod]

theorem ofFloat_eq : Dyadic.ofFloat x = Dyadic.ofFields (exponent x) (fraction x) :=
  Dyadic.ofBits_eq_ofFields (bits x)

theorem eq_of_bits {x y : Float} (same : bits x = bits y) : x = y := by
  obtain ⟨⟨a, _⟩⟩ := x
  obtain ⟨⟨b, _⟩⟩ := y
  have equal : a = b := UInt64.toNat_inj.mp same
  subst equal
  rfl

/-- A double is determined by its fields. -/
theorem eq_of_fields {x y : Float} (signs : negative x = negative y)
    (exponents : exponent x = exponent y) (fractions : fraction x = fraction y) : x = y := by
  refine eq_of_bits ?_
  rw [bits_eq x, bits_eq y, signs, exponents, fractions]

theorem negative_of_sign {x y : Float} (signs : sign x = sign y) : negative x = negative y := by
  rw [sign, sign] at signs
  cases first : negative x <;> cases second : negative y <;> simp_all

end Fields

section Unpacking

variable (x : Float)

/-- The bits of a double as a word of its format. -/
def word : BitVec (Float.Model.Format.numBits .binary64) := x.toModel.toBits.toBitVec

theorem unpackMantissa_word : (unpackMantissa (word x)).toNat = fraction x := by
  simp [unpackMantissa, fraction, bits, Float.toBits, word]

theorem unpackExponent_word : (unpackExponent (word x)).toNat = exponent x := by
  simp [unpackExponent, exponent, bits, Float.toBits, Nat.shiftRight_eq_div_pow, word]

theorem unpackSign_word : Sign.ofBitVec (unpackSign (word x)) = sign x := by
  have bound := bits_lt x
  have top : (unpackSign (word x)).toNat = bits x / 2 ^ 63 := by
    simp [unpackSign, bits, Float.toBits, Nat.shiftRight_eq_div_pow, word] at *
    omega
  rw [Sign.ofBitVec, sign, negative, ← top]
  generalize unpackSign (word x) = s
  by_cases positive : s = 0#1
  · subst positive
    rfl
  · have one : s.toNat = 1 := by
      have notZero : s.toNat ≠ 0 := fun zero => positive (BitVec.eq_of_toNat_eq zero)
      omega
    rw [if_neg positive, one]
    rfl

/-- The largest exponent belongs to infinities and to what is no number; otherwise the mantissa and
the power of two are those from which digits are found. -/
theorem unpacked_eq :
    unpacked x =
      if exponent x = 2047 then
        if fraction x = 0 then .infinity (sign x) else .notANumber
      else if zero : (Dyadic.ofFloat x).mantissa = 0 then .zero (sign x)
      else .finite (sign x) (Dyadic.ofFloat x).mantissa (Dyadic.ofFloat x).power
        (Nat.pos_of_ne_zero zero) := by
  have mantissa := unpackMantissa_word x
  have power := unpackExponent_word x
  have fields := ofFloat_eq x
  -- The tests of unpacking as tests of the fields.
  have full : unpackExponent (word x) = -1#_ ↔ exponent x = 2047 := by
    rw [← power, ← BitVec.toNat_inj]
    rfl
  have empty : unpackExponent (word x) = 0#_ ↔ exponent x = 0 := by
    rw [← power, ← BitVec.toNat_inj]
    rfl
  have whole : unpackMantissa (word x) = 0#_ ↔ fraction x = 0 := by
    rw [← mantissa, ← BitVec.toNat_inj]
    rfl
  have bias : (Float.Model.Format.binary64.exponentBias : Int) = 1023 := rfl
  change UnpackedFloat.unpack .binary64 (word x) = _
  rw [UnpackedFloat.unpack, unpackSign_word]
  simp only [full, empty, whole]
  split
  · rfl
  · by_cases subnormal : exponent x = 0
    · rw [subnormal] at fields power
      simp only [fields, subnormal, mantissa, power, if_true, bias]
      change (if zero : fraction x = 0 then _ else _) = if zero : fraction x = 0 then _ else _
      split
      · rfl
      · rfl
    · rw [Dyadic.ofFields_normal subnormal] at fields
      have implicit : (1#1 ++ unpackMantissa (word x)).toNat = 2 ^ 52 + fraction x := by
        have small := fraction_lt x
        rw [← mantissa] at small
        rw [BitVec.toNat_append, ← Nat.shiftLeft_add_eq_or_of_lt small, mantissa]
        rfl
      have shifted : (exponent x : Int) - (1023 + ((52 : Nat) : Int)) = exponent x - 1075 := by
        omega
      simp only [fields, subnormal, implicit, power, if_false, bias, shifted]
      rw [dif_neg]
      have positive : 0 < 2 ^ 52 := by decide
      omega

end Unpacking

section Kinds

variable (x : Float)

theorem isNaN_iff : x.isNaN = true ↔ exponent x = 2047 ∧ fraction x ≠ 0 := by
  change (unpacked x).isNaN = true ↔ _
  rw [unpacked_eq]
  split
  · split <;> simp_all [UnpackedFloat.isNaN]
  · split <;> simp_all [UnpackedFloat.isNaN]

theorem isInf_iff : x.isInf = true ↔ exponent x = 2047 ∧ fraction x = 0 := by
  change (unpacked x).isInf = true ↔ _
  rw [unpacked_eq]
  split
  · split <;> simp_all [UnpackedFloat.isInf]
  · split <;> simp_all [UnpackedFloat.isInf]

theorem isFinite_unpacked_iff : (unpacked x).isFinite = true ↔ Finite x := by
  rw [unpacked_eq]
  split
  · split <;> simp_all [UnpackedFloat.isFinite, Finite]
  · split <;> simp_all [UnpackedFloat.isFinite, Finite]

theorem isNaN_of_finite {x : Float} (finite : Finite x) : x.isNaN = false :=
  Bool.eq_false_iff.mpr fun nan => finite ((isNaN_iff x).mp nan).1

/-- A double that is a number is infinite or finite. -/
theorem isInf_or_finite {x : Float} (number : x.isNaN = false) : x.isInf = true ∨ Finite x := by
  by_cases finite : exponent x = 2047
  · left
    rw [isInf_iff]
    refine ⟨finite, ?_⟩
    by_contra fraction
    rw [(isNaN_iff x).mpr ⟨finite, fraction⟩] at number
    cases number
  · exact .inr finite

/-- The double is a zero of either sign. -/
def IsZero : Prop := exponent x = 0 ∧ fraction x = 0

instance : Decidable (IsZero x) := inferInstanceAs (Decidable (_ ∧ _))

theorem isZero_iff : IsZero x ↔ (Dyadic.ofFloat x).mantissa = 0 := by
  rw [ofFloat_eq, Dyadic.ofFields, IsZero]
  split
  · rename_i subnormal
    simp [subnormal]
  · rename_i normal
    have positive : 0 < 2 ^ 52 := by decide
    simp only [normal, false_and, false_iff]
    omega

theorem IsZero.finite {x : Float} (zero : IsZero x) : Finite x := by
  rw [Finite, zero.1]
  decide

theorem unpacked_of_zero {x : Float} (zero : IsZero x) : unpacked x = .zero (sign x) := by
  rw [unpacked_eq, if_neg zero.finite, dif_pos ((isZero_iff x).mp zero)]

theorem unpacked_of_finite {x : Float} (finite : Finite x) (nonzero : ¬ IsZero x) :
    unpacked x = .finite (sign x) (Dyadic.ofFloat x).mantissa (Dyadic.ofFloat x).power
      (Nat.pos_of_ne_zero ((isZero_iff x).not.mp nonzero)) := by
  rw [unpacked_eq, if_neg finite, dif_neg ((isZero_iff x).not.mp nonzero)]

theorem fits_ofFloat {x : Float} (nonzero : ¬ IsZero x) : (Dyadic.ofFloat x).Fits := by
  have positive := Nat.pos_of_ne_zero ((isZero_iff x).not.mp nonzero)
  rw [ofFloat_eq] at positive ⊢
  exact Dyadic.fits_ofFields (exponent_lt x) (fraction_lt x) positive

/-- The mantissa and the power of two tell the fields. -/
theorem fields_of_dyadic {x y : Float}
    (mantissas : (Dyadic.ofFloat x).mantissa = (Dyadic.ofFloat y).mantissa)
    (powers : (Dyadic.ofFloat x).power = (Dyadic.ofFloat y).power) :
    exponent x = exponent y ∧ fraction x = fraction y := by
  have small := fraction_lt x
  have smaller := fraction_lt y
  rw [ofFloat_eq, ofFloat_eq] at mantissas powers
  by_cases first : exponent x = 0 <;> by_cases second : exponent y = 0
  · rw [first, second] at mantissas
    exact ⟨first.trans second.symm, mantissas⟩
  · rw [first, Dyadic.ofFields_normal second] at mantissas
    change fraction x = 2 ^ 52 + fraction y at mantissas
    omega
  · rw [second, Dyadic.ofFields_normal first] at mantissas
    change 2 ^ 52 + fraction x = fraction y at mantissas
    omega
  · rw [Dyadic.ofFields_normal first, Dyadic.ofFields_normal second] at mantissas powers
    dsimp only at mantissas powers
    omega

end Kinds

section Comparisons

variable (x y : Float)

theorem le_iff : x ≤ y ↔ (unpacked x).le (unpacked y) = true := by
  change (decide (x.toModel.le y.toModel = true) = true) ↔ _
  rw [decide_eq_true_iff]
  rfl

theorem lt_iff : x < y ↔ (unpacked x).lt (unpacked y) = true := by
  change (decide (x.toModel.lt y.toModel = true) = true) ↔ _
  rw [decide_eq_true_iff]
  rfl

theorem unpacked_zero : unpacked 0.0 = .zero .positive := rfl

theorem beq_zero_iff : (x == 0.0) = true ↔ IsZero x := by
  change (unpacked x).beq (unpacked 0.0) = true ↔ _
  rw [unpacked_zero]
  by_cases zero : IsZero x
  · rw [unpacked_of_zero zero]
    exact iff_of_true rfl zero
  · refine iff_of_false ?_ zero
    rw [unpacked_eq]
    split
    · split
      · cases sign x <;> decide
      · decide
    · rw [dif_neg ((isZero_iff x).not.mp zero)]
      cases sign x <;> simp [UnpackedFloat.beq, UnpackedFloat.compare]

theorem isNumber_iff : Scalar.isNumber x = true ↔ x.isNaN = false := by
  change decide (x ≤ x) = true ↔ (unpacked x).isNaN = false
  rw [decide_eq_true_iff, le_iff]
  cases unpacked x with
  | infinity s => cases s <;> decide
  | notANumber => decide
  | zero s => exact iff_of_true rfl rfl
  | finite s m e positive =>
      cases s <;> simp [UnpackedFloat.le, UnpackedFloat.compare, UnpackedFloat.isNaN]

theorem isFinite_iff : Scalar.isFinite x = true ↔ Finite x := by
  have number := isNumber_iff x
  rw [← isFinite_unpacked_iff, Scalar.isFinite, Bool.and_eq_true, Bool.and_eq_true, number]
  change ((unpacked x).isNaN = false ∧
      (!((unpacked x).isInf && decide ((0.0 : Float) < x))) = true) ∧
    (!((unpacked x).isInf && decide (x < (0.0 : Float)))) = true ↔ _
  simp only [lt_iff, unpacked_zero]
  cases unpacked x with
  | infinity s => cases s <;> decide
  | notANumber => decide
  | zero s => exact iff_of_true ⟨⟨rfl, rfl⟩, rfl⟩ rfl
  | finite s m e positive =>
      simp [UnpackedFloat.isFinite, UnpackedFloat.isNaN, UnpackedFloat.isInf]

/-- A finite double other than zero is negative if its sign is. -/
theorem lt_zero_iff {x : Float} (finite : Finite x) (nonzero : ¬ IsZero x) :
    x < 0 ↔ negative x = true := by
  rw [lt_iff, unpacked_of_finite finite nonzero, sign]
  change UnpackedFloat.lt _ (.zero .positive) = true ↔ _
  cases negative x <;> simp [UnpackedFloat.lt, UnpackedFloat.compare]

theorem isBottom_iff : Scalar.isBottom x = true ↔ unpacked x = .infinity .negative := by
  change ((unpacked x).isInf && decide (x < (0.0 : Float))) = true ↔ _
  rw [Bool.and_eq_true, decide_eq_true_iff, lt_iff, unpacked_zero]
  cases unpacked x with
  | infinity s => cases s <;> simp [UnpackedFloat.isInf, UnpackedFloat.lt, UnpackedFloat.compare]
  | _ => simp [UnpackedFloat.isInf]

theorem isTop_iff : Scalar.isTop x = true ↔ unpacked x = .infinity .positive := by
  change ((unpacked x).isInf && decide ((0.0 : Float) < x)) = true ↔ _
  rw [Bool.and_eq_true, decide_eq_true_iff, lt_iff, unpacked_zero]
  cases unpacked x with
  | infinity s => cases s <;> simp [UnpackedFloat.isInf, UnpackedFloat.lt, UnpackedFloat.compare]
  | _ => simp [UnpackedFloat.isInf]

theorem lt_of_isBottom {x y : Float} (bottom : Scalar.isBottom x = true)
    (finite : Finite y) : x < y := by
  rw [← isFinite_unpacked_iff] at finite
  rw [lt_iff, (isBottom_iff x).mp bottom]
  cases second : unpacked y with
  | infinity s => simp [second, UnpackedFloat.isFinite] at finite
  | notANumber => simp [second, UnpackedFloat.isFinite] at finite
  | zero s => rfl
  | finite s m e positive => rfl

theorem lt_of_isTop {x y : Float} (finite : Finite x) (top : Scalar.isTop y = true) :
    x < y := by
  rw [← isFinite_unpacked_iff] at finite
  rw [lt_iff, (isTop_iff y).mp top]
  cases first : unpacked x with
  | infinity s => simp [first, UnpackedFloat.isFinite] at finite
  | notANumber => simp [first, UnpackedFloat.isFinite] at finite
  | zero s => cases s <;> rfl
  | finite s m e positive => cases s <;> rfl

/-- Two orders that are both not reversed are equal. -/
theorem compare_antisymm {e f : Int} {m n : Nat}
    (le : ((compare e f).then (compare m n)).isLE = true)
    (ge : ((compare f e).then (compare n m)).isLE = true) : e = f ∧ m = n := by
  rcases lt_trichotomy e f with below | rfl | above
  · rw [compare_gt_iff_gt.mpr below] at ge
    cases ge
  · rw [compare_eq_iff_eq.mpr rfl] at le ge
    rw [Ordering.eq_then, Nat.isLE_compare] at le ge
    exact ⟨rfl, le_antisymm le ge⟩
  · rw [compare_gt_iff_gt.mpr above] at le
    cases le

theorem compare_swap (e f : Int) (m n : Nat) :
    ((compare e f).then (compare m n)).swap = (compare f e).then (compare n m) := by
  rw [Ordering.swap_then, ← Std.OrientedCmp.eq_swap, ← Std.OrientedCmp.eq_swap]

/-- Finite doubles that are not below one another have equal signs and sizes. -/
theorem finite_antisymm {s t : Sign} {m n : Nat} {e f : Int} (positiveM : 0 < m) (positiveN : 0 < n)
    (le : (UnpackedFloat.finite s m e positiveM).le (.finite t n f positiveN) = true)
    (ge : (UnpackedFloat.finite t n f positiveN).le (.finite s m e positiveM) = true) :
    s = t ∧ e = f ∧ m = n := by
  cases s with
  | positive =>
      cases t with
      | positive => exact ⟨rfl, compare_antisymm le ge⟩
      | negative => cases le
  | negative =>
      cases t with
      | positive => cases ge
      | negative =>
          change ((compare e f).then (compare m n)).swap.isLE = true at le
          change ((compare f e).then (compare n m)).swap.isLE = true at ge
          rw [compare_swap] at le ge
          exact ⟨rfl, compare_antisymm ge le⟩

theorem zero_ne_finite {s t : Sign} {m : Nat} {e : Int} (positive : 0 < m) :
    ¬ ((UnpackedFloat.zero s).le (.finite t m e positive) = true ∧
      (UnpackedFloat.finite t m e positive).le (.zero s) = true) := by
  rintro ⟨le, ge⟩
  cases t with
  | positive => cases ge
  | negative => cases le

/-- Finite doubles are numerically equal if they are the same or both zero. -/
theorem same_iff {x y : Float} (finiteX : Finite x) (finiteY : Finite y) :
    Scalar.same x y = true ↔ x = y ∨ IsZero x ∧ IsZero y := by
  rw [Scalar.same, Bool.and_eq_true, decide_eq_true_iff, decide_eq_true_iff]
  constructor
  · rw [le_iff, le_iff]
    rintro ⟨le, ge⟩
    by_cases zeroX : IsZero x <;> by_cases zeroY : IsZero y
    · exact .inr ⟨zeroX, zeroY⟩
    · rw [unpacked_of_zero zeroX, unpacked_of_finite finiteY zeroY] at le ge
      exact absurd ⟨le, ge⟩ (zero_ne_finite _)
    · rw [unpacked_of_zero zeroY, unpacked_of_finite finiteX zeroX] at le ge
      exact absurd ⟨ge, le⟩ (zero_ne_finite _)
    · rw [unpacked_of_finite finiteX zeroX, unpacked_of_finite finiteY zeroY] at le ge
      obtain ⟨signs, powers, mantissas⟩ := finite_antisymm _ _ le ge
      obtain ⟨exponents, fractions⟩ := fields_of_dyadic mantissas powers
      exact .inl (eq_of_fields (negative_of_sign signs) exponents fractions)
  · rintro (rfl | ⟨zeroX, zeroY⟩)
    · have reflexive := of_decide_eq_true ((isNumber_iff x).mpr (isNaN_of_finite finiteX))
      exact ⟨reflexive, reflexive⟩
    · rw [le_iff, le_iff, unpacked_of_zero zeroX, unpacked_of_zero zeroY]
      exact ⟨rfl, rfl⟩

theorem isZero_zero : IsZero 0 := by decide

theorem same_zero_iff {x : Float} (finite : Finite x) :
    Scalar.same x 0 = true ↔ IsZero x := by
  rw [same_iff finite isZero_zero.finite]
  constructor
  · rintro (rfl | ⟨zero, -⟩)
    · exact isZero_zero
    · exact zero
  · exact fun zero => .inr ⟨zero, isZero_zero⟩

theorem same_trans {x y z : Float} (finiteX : Finite x) (finiteY : Finite y)
    (finiteZ : Finite z) (first : Scalar.same x y = true)
    (second : Scalar.same y z = true) : Scalar.same x z = true := by
  rw [same_iff finiteX finiteY] at first
  rw [same_iff finiteY finiteZ] at second
  rw [same_iff finiteX finiteZ]
  rcases first with rfl | ⟨zeroX, zeroY⟩
  · exact second
  · rcases second with rfl | ⟨-, zeroZ⟩
    · exact .inr ⟨zeroX, zeroY⟩
    · exact .inr ⟨zeroX, zeroZ⟩

theorem same_comm (x y : Float) : Scalar.same x y = Scalar.same y x := Bool.and_comm _ _

theorem same_self {x : Float} (number : x.isNaN = false) : Scalar.same x x = true := by
  have reflexive := (isNumber_iff x).mpr number
  exact Bool.and_eq_true_iff.mpr ⟨reflexive, reflexive⟩

end Comparisons

section Packing

variable (s : Sign)

theorem packComponents_toNat (e : BitVec 11) (m : BitVec 52) :
    (packComponents .binary64 s e m).toNat =
      2 ^ 63 * s.toBitVec.toNat + 2 ^ 52 * e.toNat + m.toNat := by
  have exponents := e.isLt
  have mantissas := m.isLt
  rw [packComponents, BitVec.toNat_append, BitVec.toNat_append,
    ← Nat.shiftLeft_add_eq_or_of_lt exponents, ← Nat.shiftLeft_add_eq_or_of_lt mantissas,
    Nat.shiftLeft_eq, Nat.shiftLeft_eq]
  change (s.toBitVec.toNat * 2 ^ 11 + e.toNat) * 2 ^ 52 + m.toNat = _
  omega

theorem pack_subnormal {m : Nat} (positive : 0 < m) (small : m < 2 ^ 52) :
    UnpackedFloat.pack .binary64 (.finite s m (-1074) positive) =
      packComponents .binary64 s 0 (BitVec.ofNat 52 m) := by
  have log : m.log2 < 52 := (Nat.log2_lt positive.ne').mpr small
  have short : m.log2 + 1 ≠ Float.Model.Format.binary64.mantissaBits := by
    change m.log2 + 1 ≠ 53
    omega
  rw [UnpackedFloat.pack]
  dsimp only
  rw [if_neg (by decide), if_neg short]
  rfl

theorem pack_normal {e f : Nat} (high : e < 2047) (small : f < 2 ^ 52)
    (positive : 0 < 2 ^ 52 + f) :
    UnpackedFloat.pack .binary64 (.finite s (2 ^ 52 + f) (e - 1075) positive) =
      packComponents .binary64 s (BitVec.ofNat 11 e) (BitVec.ofNat 52 f) := by
  have log : (2 ^ 52 + f).log2 = 52 := by
    rw [Nat.log2_eq_iff positive.ne']
    omega
  have biased : ((e : Int) - 1075 + (1023 : Nat) + (52 : Nat)).toNat = e := by omega
  rw [UnpackedFloat.pack]
  dsimp only
  change (if 2 ^ 11 ≤ ((e : Int) - 1075 + (1023 : Nat) + (52 : Nat)).toNat + 1 then _ else
    if (2 ^ 52 + f).log2 + 1 = 53 then packComponents .binary64 s
      (BitVec.ofNat 11 ((e : Int) - 1075 + (1023 : Nat) + (52 : Nat)).toNat)
      (BitVec.ofNat 52 (2 ^ 52 + f)) else _) = _
  rw [biased, log, if_neg (by omega), if_pos rfl]
  congr 1
  apply BitVec.eq_of_toNat_eq
  simp

theorem isNaN_packedInfinity :
    (UnpackedFloat.unpack .binary64 (UnpackedFloat.packedInfinity .binary64 s)).isNaN = false := by
  cases s <;> rfl

theorem isNaN_unpack {b : BitVec (Float.Model.Format.numBits .binary64)}
    (notAll : unpackExponent b ≠ -1#_) : (UnpackedFloat.unpack .binary64 b).isNaN = false := by
  rw [UnpackedFloat.unpack]
  dsimp only
  rw [if_neg notAll]
  split
  · split <;> rfl
  · rfl

/-- A number is packed as a number. -/
theorem isNaN_pack {u : UnpackedFloat} (number : u.isNaN = false) :
    (UnpackedFloat.unpack .binary64 (UnpackedFloat.pack .binary64 u)).isNaN = false := by
  cases u with
  | notANumber => cases number
  | infinity s => exact isNaN_packedInfinity s
  | zero s => cases s <;> rfl
  | finite s m e positive =>
      rw [UnpackedFloat.pack]
      dsimp only
      split
      · exact isNaN_packedInfinity s
      · rename_i inRange
        -- The exponent stays below that of the infinities.
        split
        · refine isNaN_unpack ?_
          rw [UnpackedFloat.unpackExponent_packComponents]
          intro all
          have same := congrArg BitVec.toNat all
          rw [BitVec.toNat_ofNat] at same
          change _ % 2 ^ 11 = 2047 at same
          change ¬ 2 ^ 11 ≤ _ at inRange
          omega
        · refine isNaN_unpack ?_
          rw [UnpackedFloat.unpackExponent_packComponents]
          decide

end Packing

section Absolute

variable {x y : Float}

/-- Without its sign a number keeps its exponent and its fraction. -/
theorem bits_abs (number : x.isNaN = false) :
    bits x.abs = 2 ^ 52 * exponent x + fraction x := by
  have small := fraction_lt x
  have fields := ofFloat_eq x
  have plain : Sign.positive.toBitVec.toNat = 0 := rfl
  change (UnpackedFloat.pack .binary64 (unpacked x).abs).toNat = _
  -- Packing takes a mantissa of 53 bits for a normal number, and a shorter one for a subnormal one.
  rcases isInf_or_finite number with infinite | finite
  · obtain ⟨full, whole⟩ := (isInf_iff x).mp infinite
    rw [unpacked_eq, if_pos full, if_pos whole, full, whole]
    rfl
  · by_cases zero : IsZero x
    · rw [unpacked_of_zero zero, zero.1, zero.2]
      rfl
    · have bound := exponent_lt x
      rw [unpacked_of_finite finite zero, UnpackedFloat.abs]
      by_cases subnormal : exponent x = 0
      · have positive : 0 < fraction x := Nat.pos_of_ne_zero fun none => zero ⟨subnormal, none⟩
        rw [subnormal] at fields
        simp only [fields]
        change (UnpackedFloat.pack .binary64
          (.finite .positive (fraction x) (-1074) positive)).toNat = _
        rw [pack_subnormal _ _ small, packComponents_toNat, plain, subnormal, BitVec.toNat_ofNat,
          Nat.mod_eq_of_lt small]
        rfl
      · rw [Dyadic.ofFields_normal subnormal] at fields
        simp only [fields]
        rw [pack_normal _ finite.exponent_lt small, packComponents_toNat, plain, BitVec.toNat_ofNat,
          BitVec.toNat_ofNat, Nat.mod_eq_of_lt small, Nat.mod_eq_of_lt bound, Nat.mul_zero,
          Nat.zero_add]

theorem exponent_abs (number : x.isNaN = false) : exponent x.abs = exponent x := by
  rw [exponent, bits_abs number, Nat.mul_add_div (by decide), Nat.div_eq_of_lt (fraction_lt x),
    Nat.add_zero, Nat.mod_eq_of_lt (exponent_lt x)]

theorem fraction_abs (number : x.isNaN = false) : fraction x.abs = fraction x := by
  rw [fraction, bits_abs number, Nat.mul_add_mod, Nat.mod_eq_of_lt (fraction_lt x)]

theorem isNaN_abs (number : x.isNaN = false) : x.abs.isNaN = false := by
  have fields := isNaN_iff x
  rw [Bool.eq_false_iff, Ne, isNaN_iff, exponent_abs number, fraction_abs number, ← fields, number]
  exact Bool.false_ne_true

theorem bits_abs_lt (number : x.isNaN = false) : bits x.abs < 2 ^ 63 := by
  have small := fraction_lt x
  have bound := exponent_lt x
  rw [bits_abs number]
  omega

theorem ofFloat_abs (number : x.isNaN = false) : Dyadic.ofFloat x.abs = Dyadic.ofFloat x := by
  rw [ofFloat_eq, exponent_abs number, fraction_abs number, ofFloat_eq]

theorem abs_eq_of_fields (numberX : x.isNaN = false) (numberY : y.isNaN = false)
    (exponents : exponent x = exponent y) (fractions : fraction x = fraction y) :
    x.abs = y.abs := by
  refine eq_of_bits ?_
  rw [bits_abs numberX, bits_abs numberY, exponents, fractions]

/-- A number without a minus sign is its own absolute value. -/
theorem abs_eq_self (number : x.isNaN = false) (plus : negative x = false) : x.abs = x := by
  refine eq_of_bits ?_
  rw [bits_abs number, bits_eq x, plus, if_neg Bool.false_ne_true, Nat.mul_zero, Nat.zero_add]

/-- A number is determined by its sign and its absolute value. -/
theorem eq_of_abs (numberX : x.isNaN = false) (numberY : y.isNaN = false)
    (signs : negative x = negative y) (sizes : x.abs = y.abs) : x = y := by
  refine eq_of_fields signs ?_ ?_
  · rw [← exponent_abs numberX, ← exponent_abs numberY, sizes]
  · rw [← fraction_abs numberX, ← fraction_abs numberY, sizes]

end Absolute

section Subtraction

theorem isNaN_normalize (m e : Int) (s : Sign) :
    (UnpackedFloat.normalize .binary64 m e s).isNaN = false := by
  rw [UnpackedFloat.normalize]
  cases compare m 0 with
  | eq => rfl
  | lt =>
      dsimp only [UnpackedFloat.round, UnpackedFloat.roundWithAccuracy]
      split <;> rfl
  | gt =>
      dsimp only [UnpackedFloat.round, UnpackedFloat.roundWithAccuracy]
      split <;> rfl

theorem isNaN_sub_unpacked {u v : UnpackedFloat} (finiteU : u.isFinite = true)
    (finiteV : v.isFinite = true) : (UnpackedFloat.sub .binary64 u v).isNaN = false := by
  cases u with
  | infinity s => cases finiteU
  | notANumber => cases finiteU
  | zero s =>
      cases v with
      | infinity t => cases finiteV
      | notANumber => cases finiteV
      | zero t =>
          rw [UnpackedFloat.sub]
          split <;> rfl
      | finite t n f positive => rfl
  | finite s m e positive =>
      cases v with
      | infinity t => cases finiteV
      | notANumber => cases finiteV
      | zero t => rfl
      | finite t n f positive =>
          rw [UnpackedFloat.sub]
          exact isNaN_normalize _ _ _

/-- The difference of two finite doubles is a number; it may be infinite. -/
theorem isNaN_sub {x y : Float} (finiteX : Finite x) (finiteY : Finite y) :
    (x - y).isNaN = false := by
  refine isNaN_pack (isNaN_sub_unpacked ?_ ?_)
  · exact (isFinite_unpacked_iff x).mpr finiteX
  · exact (isFinite_unpacked_iff y).mpr finiteY

end Subtraction

end RobustMargin.Double
