import RobustMargin.Proofs.DoubleOrder

/-! # Quotients and roots of doubles

A quotient or a root is cut off to a whole number of units, with a note of what was lost. Rounding
it is rounding a whole number of quarters of the units, in which the note is counted. So the root of
a double from one on is at least one, and the inverse of such a double lies between zero and one. -/
namespace RobustMargin.Double

open Float.Model (UnpackedFloat Format)
open Float.Model.UnpackedFloat (Sign Accuracy ExtendedMantissa)

/-- The power of two that is one in units. -/
@[irreducible] def unitPower : Nat := 2148

theorem unitPower_eq : unitPower = 2148 := by rw [unitPower]

section Quarters

/-- The quarters of a unit that stand for what was lost: none, less than a half, a half, or more. -/
def quarters : Accuracy → Nat
  | .exact => 0
  | .inexact .lt => 1
  | .inexact .eq => 2
  | .inexact .gt => 3

theorem quarters_le (accuracy : Accuracy) : quarters accuracy ≤ 3 := by
  rcases accuracy with _ | _ | _ | _ <;> decide

theorem shiftRight_add (mantissa : ExtendedMantissa) (a b : Nat) :
    mantissa >>> (a + b) = mantissa >>> a >>> b := by
  induction b with
  | zero => rfl
  | succ b ih => exact congrArg ExtendedMantissa.shiftRightOne ih

/-- A note of what was lost is what remains of quarters after a shift by two bits. -/
theorem ofMantissaAndAccuracy_eq (m : Nat) (accuracy : Accuracy) :
    ExtendedMantissa.ofMantissaAndAccuracy m accuracy =
      ExtendedMantissa.ofMantissaAndAccuracy (4 * m + quarters accuracy) .exact >>> 2 := by
  rw [shifted_eq]
  rcases accuracy with _ | _ | _ | _
  all_goals
    simp only [ExtendedMantissa.ofMantissaAndAccuracy, quarters]
    congr 1
    · omega
    · symm
      simp
    · symm
      simp

theorem log2_quarters {m : Nat} (positive : 0 < m) (accuracy : Accuracy) :
    (4 * m + quarters accuracy).log2 = m.log2 + 2 := by
  have few := quarters_le accuracy
  have low := Nat.log2_self_le positive.ne'
  have high := Nat.lt_log2_self (n := m)
  have four : 2 ^ (m.log2 + 2) = 4 * 2 ^ m.log2 := by ring
  have eight : 2 ^ (m.log2 + 2 + 1) = 8 * 2 ^ m.log2 := by ring
  rw [Nat.pow_succ] at high
  rw [Nat.log2_eq_iff (by omega), four, eight]
  omega

/-- Rounding what was cut off is rounding quarters, if the grid is no finer than the units. -/
theorem roundWithAccuracy_eq_quarters (s : Sign) {m : Nat} (positive : 0 < m) {e : Int}
    (accuracy : Accuracy)
    (coarse : e ≤ Format.targetExponent .binary64 (Float.Model.totalExponent m e)) :
    UnpackedFloat.roundWithAccuracy .binary64 s m e accuracy =
      UnpackedFloat.roundWithAccuracy .binary64 s (4 * m + quarters accuracy) (e - 2) .exact := by
  have total : Float.Model.totalExponent (4 * m + quarters accuracy) (e - 2) =
      Float.Model.totalExponent m e := by
    rw [Float.Model.totalExponent, Float.Model.totalExponent, log2_quarters positive]
    push_cast
    ring
  have shifted : UnpackedFloat.shiftToTargetExponent .binary64 (4 * m + quarters accuracy) (e - 2)
      .exact = UnpackedFloat.shiftToTargetExponent .binary64 m e accuracy := by
    unfold UnpackedFloat.shiftToTargetExponent UnpackedFloat.shiftToExponent
    rw [total]
    generalize Format.targetExponent .binary64 (Float.Model.totalExponent m e) = target at coarse
    have count : (target - (e - 2)).toNat = 2 + (target - e).toNat := by omega
    dsimp only
    rw [count, shiftRight_add, ← ofMantissaAndAccuracy_eq]
    congr 1
    omega
  unfold UnpackedFloat.roundWithAccuracy
  rw [shifted]

/-- The place of what was cut off to a full mantissa or to the finest units. -/
theorem rank_cutOff (s : Sign) {m : Nat} (positive : 0 < m) {e : Int} (low : -1074 ≤ e)
    (full : 2 ^ 52 ≤ m ∨ e = -1074) (accuracy : Accuracy) :
    rank (unpacked (packed (UnpackedFloat.roundWithAccuracy .binary64 s m e accuracy))) =
      s.apply (place ((4 * m + quarters accuracy) * 2 ^ (e + 2146).toNat)) := by
  have log : 52 ≤ m.log2 ∨ e = -1074 := full.imp_left (Nat.le_log2 positive.ne').mpr
  have coarse : e ≤ Format.targetExponent .binary64 (Float.Model.totalExponent m e) := by
    rw [targetExponent_eq positive (by omega), grid, log2_mul_two_pow positive]
    omega
  have units : (e - 2 + 2148).toNat = (e + 2146).toNat := by omega
  rw [roundWithAccuracy_eq_quarters s positive accuracy coarse]
  refine rank_roundWithAccuracy s (by omega) (by omega) (by rw [units]) ?_
  rw [grid, log2_mul_two_pow (by omega), log2_quarters positive]
  omega

end Quarters

theorem isNaN_roundWithAccuracy (s : Sign) (m : Nat) (e : Int) (accuracy : Accuracy) :
    (UnpackedFloat.roundWithAccuracy .binary64 s m e accuracy).isNaN = false := by
  dsimp only [UnpackedFloat.roundWithAccuracy]
  split <;> rfl

section Inverses

variable {x : Float}

theorem unpacked_one : unpacked 1 = .finite .positive (2 ^ 52) (-52) (by decide) := rfl

theorem rank_one : rank (unpacked 1) = place (2 ^ unitPower) := by
  rw [unitPower]
  decide +kernel

/-- A double from one on is infinite, or it has a full mantissa and is counted in units that are not
too fine. -/
theorem exists_of_one_le (le : 1 ≤ x) : unpacked x = .infinity .positive ∨
    ∃ m e positive, unpacked x = .finite .positive m e positive ∧
      2 ^ 52 ≤ m ∧ m < 2 ^ 53 ∧ -52 ≤ e ∧ e ≤ 971 := by
  obtain ⟨-, number, places⟩ := le_iff_rank.mp le
  have one : rank (unpacked 1) = 1023 * 2 ^ 52 := rfl
  have range := inRange_unpacked x
  change (unpacked x).isNaN = false at number
  rw [one] at places
  generalize unpacked x = u at *
  cases u with
  | notANumber => cases number
  | infinity s =>
      cases s with
      | negative => exact absurd places (by decide)
      | positive => exact .inl rfl
  | zero s =>
      change (1023 * 2 ^ 52 : Int) ≤ 0 at places
      exact absurd places (by decide)
  | finite s m e positive =>
      obtain ⟨⟨short, lowest, full⟩, high⟩ := range
      rw [rank_finite, size] at places
      cases s with
      | negative =>
          change 1023 * 2 ^ 52 ≤ -((e + 1074) * 2 ^ 52 + m) at places
          omega
      | positive =>
          change 1023 * 2 ^ 52 ≤ (e + 1074) * 2 ^ 52 + m at places
          exact .inr ⟨m, e, positive, rfl, full (by omega), short, by omega, high⟩

theorem targetExponent_binary64 (total : Int) :
    Format.targetExponent .binary64 total = max (total - 53) (-1074) := by
  change max (total - (1 + 52 : Nat)) (3 - 2 ^ (11 - 1) - (1 + 52 : Nat)) = _
  norm_num

theorem log2_full {m : Nat} (full : 2 ^ 52 ≤ m) (short : m < 2 ^ 53) : m.log2 = 52 :=
  (Nat.log2_eq_iff (by omega)).mpr ⟨full, short⟩

/-- The root is cut off to a full mantissa, whose units are not too fine. -/
theorem le_rank_sqrt {m : Nat} {e : Int} (positive : 0 < m) (full : 2 ^ 52 ≤ m)
    (short : m < 2 ^ 53) (low : -52 ≤ e) :
    (place (2 ^ unitPower) : Int) ≤
      rank (unpacked (packed (UnpackedFloat.sqrt .binary64 (.finite .positive m e positive)))) := by
  have target : min (e.ediv 2) (Format.targetExponent .binary64
      ((Float.Model.totalExponent m e + 1).ediv 2)) = e / 2 - 26 := by
    rw [targetExponent_binary64, Float.Model.totalExponent, log2_full full short]
    change min (e / 2) (max ((52 + 1 + e + 1) / 2 - 53) (-1074)) = _
    omega
  rw [UnpackedFloat.sqrt]
  dsimp only [UnpackedFloat.sqrtCore]
  rw [target, Nat.shiftLeft_eq]
  obtain ⟨count, amount⟩ : ∃ count, count = (e - 2 * (e / 2 - 26)).toNat := ⟨_, rfl⟩
  have wide : 2 ^ 52 ≤ 2 ^ count := Nat.pow_le_pow_right two_pos (by omega)
  have root : 2 ^ 52 ≤ (m * 2 ^ count).sqrt := by
    rw [Nat.le_sqrt]
    exact Nat.mul_le_mul full wide
  rw [← amount, rank_cutOff .positive (by omega) (by omega) (.inl root)]
  refine Int.ofNat_le.mpr (place_mono ?_)
  have power := unitPower_eq
  have units : unitPower = 54 + (unitPower - 54) := by omega
  rw [units, Nat.pow_add]
  exact Nat.mul_le_mul (by omega) (Nat.pow_le_pow_right two_pos (by omega))

theorem isNaN_packed {u : UnpackedFloat} (number : u.isNaN = false) : (packed u).isNaN = false :=
  isNaN_pack number

/-- The root of a double from one on is at least one. -/
theorem one_le_sqrt (le : 1 ≤ x) : 1 ≤ x.sqrt := by
  have root : x.sqrt = packed (UnpackedFloat.sqrt .binary64 (unpacked x)) := rfl
  rw [le_iff_rank, rank_one, root]
  rcases exists_of_one_le le with infinite | ⟨m, e, positive, finite, full, short, low, -⟩
  · have top : UnpackedFloat.sqrt .binary64 (.infinity .positive) = .infinity .positive := rfl
    rw [infinite, top, unpacked_packed_infinity]
    exact ⟨rfl, isNaN_packed rfl, Int.ofNat_le.mpr (min_le_left _ _)⟩
  · rw [finite]
    exact ⟨rfl, isNaN_packed (isNaN_roundWithAccuracy ..), le_rank_sqrt positive full short low⟩

/-- A quotient that is cut off, with the quarters of what was lost, is no greater than a bound on
the whole quotient. -/
theorem quarters_quotient_le {n d bound : Nat} (positive : 0 < d) (le : n ≤ bound * d) :
    4 * (n / d) + quarters (UnpackedFloat.accuracyOfFraction (n % d) d) ≤ 4 * bound := by
  have whole := Nat.div_add_mod n d
  have few := quarters_le (UnpackedFloat.accuracyOfFraction (n % d) d)
  rcases Nat.eq_zero_or_pos (n % d) with none | some
  · have exact : quarters (UnpackedFloat.accuracyOfFraction (n % d) d) = 0 := by
      rw [UnpackedFloat.accuracyOfFraction, if_pos none]
      rfl
    have quotient : n / d ≤ bound := (Nat.div_le_iff_le_mul_add_pred positive).mpr (by
      rw [Nat.mul_comm]
      omega)
    omega
  · have quotient : n / d < bound := by
      refine Nat.lt_of_mul_lt_mul_left (a := d) ?_
      rw [Nat.mul_comm d bound]
      omega
    omega

/-- The inverse is cut off to a full mantissa, or to the finest units. -/
theorem rank_inverse_le {m : Nat} {e : Int} (positive : 0 < m) (full : 2 ^ 52 ≤ m)
    (short : m < 2 ^ 53) (low : -52 ≤ e) (high : e ≤ 971) :
    ∃ n ≤ 2 ^ unitPower, rank (unpacked (packed (UnpackedFloat.div .binary64 (unpacked 1)
      (.finite .positive m e positive)))) = place n := by
  have target : min (-52 - e) (Format.targetExponent .binary64
      (Float.Model.totalExponent (2 ^ 52) (-52) - Float.Model.totalExponent m e)) =
      max (-105 - e) (-1074) := by
    rw [targetExponent_binary64, Float.Model.totalExponent, Float.Model.totalExponent,
      log2_full full short, Nat.log2_two_pow]
    omega
  rw [unpacked_one, UnpackedFloat.div]
  dsimp only [UnpackedFloat.divCore]
  rw [target, Nat.shiftLeft_eq, ← Nat.pow_add]
  obtain ⟨k, units⟩ : ∃ k : Nat, max (-105 - e) (-1074) = -(k : Int) :=
    ⟨(-max (-105 - e) (-1074)).toNat, by omega⟩
  obtain ⟨count, amount⟩ : ∃ count, count = 52 + (-52 - e - -(k : Int)).toNat := ⟨_, rfl⟩
  rw [units, ← amount]
  have wide : 2 ^ 53 ≤ 2 ^ count := Nat.pow_le_pow_right two_pos (by omega)
  have quotient : 2 ^ 52 ≤ 2 ^ count / m ∨ -(k : Int) = -1074 := by
    by_cases finest : k = 1074
    · exact .inr (by omega)
    · left
      have bits : count = 52 + 53 := by omega
      rw [Nat.le_div_iff_mul_le positive, bits, Nat.pow_add]
      exact Nat.mul_le_mul_left _ short.le
  have bound : 2 ^ count ≤ 2 ^ k * m := by
    calc 2 ^ count ≤ 2 ^ (k + 52) := Nat.pow_le_pow_right two_pos (by omega)
      _ = 2 ^ k * 2 ^ 52 := Nat.pow_add ..
      _ ≤ 2 ^ k * m := Nat.mul_le_mul_left _ full
  refine ⟨_, ?_, rank_cutOff .positive (Nat.div_pos (by omega) positive) (by omega) quotient _⟩
  have power := unitPower_eq
  have units : unitPower = 2 + k + (-(k : Int) + 2146).toNat := by omega
  rw [units, Nat.pow_add, Nat.pow_add]
  exact Nat.mul_le_mul_right _ (quarters_quotient_le positive bound)

/-- The inverse of a double from one on lies between zero and one. -/
theorem inverse_le_one (le : 1 ≤ x) : 0 ≤ 1 / x ∧ 1 / x ≤ 1 := by
  have inverse : 1 / x = packed (UnpackedFloat.div .binary64 (unpacked 1) (unpacked x)) := rfl
  have zero : rank (unpacked 0) = 0 := rfl
  rw [le_iff_rank, le_iff_rank, rank_one, zero, inverse]
  rcases exists_of_one_le le with infinite | ⟨m, e, positive, finite, full, short, low, high⟩
  · have none : UnpackedFloat.div .binary64 (unpacked 1) (.infinity .positive) = .zero .positive :=
      rfl
    rw [infinite, none, unpacked_packed_zero]
    exact ⟨⟨rfl, isNaN_packed rfl, le_rfl⟩, isNaN_packed rfl, rfl, Int.natCast_nonneg _⟩
  · have number : (packed (UnpackedFloat.div .binary64 (unpacked 1)
        (.finite .positive m e positive))).isNaN = false :=
      isNaN_packed (isNaN_roundWithAccuracy ..)
    obtain ⟨n, small, place_eq⟩ := rank_inverse_le positive full short low high
    rw [finite, place_eq]
    exact ⟨⟨rfl, number, Int.natCast_nonneg _⟩, number, rfl, Int.ofNat_le.mpr (place_mono small)⟩

end Inverses

section Counts

variable {x : Float}

/-- A finite double in range is the one nearest to itself. -/
theorem rank_eq_signedPlace {u : UnpackedFloat} (range : InRange u) (finite : u.isFinite = true) :
    rank u = signedPlace (steps u * 2 ^ 1074) := by
  rw [← rank_packed_steps range finite]
  cases u with
  | notANumber => cases finite
  | infinity s => cases finite
  | zero s => rw [unpacked_packed_zero]
  | finite s m e positive =>
      have bound := size_lt range.1 range.2
      rw [rank_packed s positive range.1, ← size, min_eq_right bound.le, rank_finite]

theorem steps_one : steps (unpacked 1) = 2 ^ 1074 := by
  decide +kernel

theorem ofNat_of_lt {n : Nat} (small : n < 2 ^ 53) :
    Float.ofNat n = packed (UnpackedFloat.ofInt .binary64 n) * 1 := by
  have exactly : n < 2 ^ 53 ∧ 0 ≤ 22 := ⟨small, by decide⟩
  have word : n.toUInt64.toNat = n := Nat.mod_eq_of_lt (by omega)
  have power : Float.exactlyRepresentablePowersOfTen[0] = (1 : Float) := rfl
  have count : n.toUInt64.toFloat = packed (UnpackedFloat.ofInt .binary64 n.toUInt64.toNat) := rfl
  change Float.ofScientific n false 0 = _
  rw [Float.ofScientific, dif_pos exactly]
  dsimp only
  rw [power, count, word]
  rfl

theorem ofNat_of_le {n : Nat} (large : 2 ^ 53 ≤ n) :
    ∃ positive, Float.ofNat n = packed (UnpackedFloat.mul .binary64
      (.finite .positive (n <<< 53) (-53) positive) (.finite .positive 1 0 one_pos)) := by
  have rounded : ¬(n < 2 ^ 53 ∧ 0 ≤ 22) := fun exactly => by omega
  have some : n ≠ 0 := by omega
  have positive : 0 < n <<< 53 := by
    rw [Nat.shiftLeft_eq]
    exact Nat.mul_pos (by omega) (Nat.two_pow_pos 53)
  refine ⟨positive, ?_⟩
  change Float.ofScientific n false 0 = _
  rw [Float.ofScientific, dif_neg rounded]
  change packed (UnpackedFloat.ofScientific .binary64 n 0) = _
  have range : ¬(0 : Int) < -(2 ^ 11 + n.log2) := by omega
  rw [UnpackedFloat.ofScientific, dif_neg some, if_neg (by decide), if_neg range, if_pos le_rfl]
  rfl

theorem isNaN_mul_unpacked {u v : UnpackedFloat} (finiteU : u.isFinite = true)
    (finiteV : v.isFinite = true) : (UnpackedFloat.mul .binary64 u v).isNaN = false := by
  cases u with
  | infinity s => cases finiteU
  | notANumber => cases finiteU
  | zero s =>
      cases v with
      | infinity t => cases finiteV
      | notANumber => cases finiteV
      | _ => rfl
  | finite s m e positive =>
      cases v with
      | infinity t => cases finiteV
      | notANumber => cases finiteV
      | zero t => rfl
      | finite t n f positive => exact isNaN_roundWithAccuracy ..

/-- The product of two finite doubles is a number; it may be infinite. -/
theorem isNaN_mul {x y : Float} (finiteX : Finite x) (finiteY : Finite y) :
    (x * y).isNaN = false := by
  refine isNaN_pack (isNaN_mul_unpacked ?_ ?_)
  · exact (isFinite_unpacked_iff x).mpr finiteX
  · exact (isFinite_unpacked_iff y).mpr finiteY

/-- A number keeps its place when it is multiplied by one. -/
theorem rank_mul_one (number : x.isNaN = false) :
    (x * 1).isNaN = false ∧ rank (unpacked (x * 1)) = rank (unpacked x) := by
  have product : x * 1 = packed (UnpackedFloat.mul .binary64 (unpacked x) (unpacked 1)) := rfl
  rw [product]
  rcases infinite_or_finite number with ⟨s, infinite⟩ | finite
  · change unpacked x = .infinity s at infinite
    rw [infinite]
    cases s <;> exact ⟨rfl, rfl⟩
  · refine ⟨isNaN_packed (isNaN_mul_unpacked finite rfl), ?_⟩
    rw [rank_mul (inRange_unpacked x) (inRange_unpacked 1) finite rfl, steps_one,
      ← rank_eq_signedPlace (inRange_unpacked x) finite]

/-- A count is rounded once. -/
theorem rank_ofNat {n : Nat} (positive : 0 < n) :
    rank (unpacked (Float.ofNat n)) = place (n * 2 ^ unitPower) ∧
      (Float.ofNat n).isNaN = false := by
  rcases Nat.lt_or_ge n (2 ^ 53) with small | large
  · have number : (packed (UnpackedFloat.ofInt .binary64 n)).isNaN = false :=
      isNaN_packed (isNaN_normalize ..)
    obtain ⟨product, place_eq⟩ := rank_mul_one number
    have units : (0 + 2148 : Int).toNat = unitPower := unitPower_eq.symm
    rw [ofNat_of_lt small, place_eq, UnpackedFloat.ofInt, rank_normalize n (by decide), units]
    exact ⟨signedPlace_apply .positive (n * 2 ^ unitPower), product⟩
  · obtain ⟨shifted, same⟩ := ofNat_of_le large
    have units : unitPower = 53 + (-53 + 0 + 2148 : Int).toNat := unitPower_eq
    have counted : n <<< 53 * 1 * 2 ^ (-53 + 0 + 2148 : Int).toNat = n * 2 ^ unitPower := by
      rw [Nat.shiftLeft_eq, Nat.mul_one, units, Nat.pow_add, Nat.mul_assoc]
    have fine : (-53 + 0 : Int) ≤ grid (n * 2 ^ unitPower) - 2148 := by
      rw [grid, log2_mul_two_pow positive, unitPower_eq]
      omega
    rw [same, UnpackedFloat.mul]
    exact ⟨rank_roundWithAccuracy .positive (by omega) (by decide) counted fine,
      isNaN_packed (isNaN_roundWithAccuracy ..)⟩

theorem one_le_ofNat {n : Nat} (positive : 0 < n) : 1 ≤ Float.ofNat n := by
  obtain ⟨place_eq, number⟩ := rank_ofNat positive
  rw [le_iff_rank, rank_one, place_eq]
  exact ⟨rfl, number, Int.ofNat_le.mpr (place_mono (Nat.le_mul_of_pos_left _ positive))⟩

end Counts
end RobustMargin.Double
