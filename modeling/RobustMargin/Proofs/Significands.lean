import Mathlib
import RobustMargin.Network.Widths

/-! # Rounding to significands

Rounding to a significand of 53 bits gives the nearest of all numbers that have such a significand.
It therefore keeps these numbers as they are and never moves a value across one of them. -/
namespace RobustMargin

/-- A number with a significand of 53 bits: a multiple of a power of two by so small an integer. -/
def HasSignificand (y : ℚ) : Prop := ∃ m e : ℤ, |m| ≤ 2 ^ 53 ∧ y = m * 2 ^ e

theorem HasSignificand.neg {y : ℚ} (short : HasSignificand y) : HasSignificand (-y) := by
  obtain ⟨m, e, bound, rfl⟩ := short
  exact ⟨-m, e, (abs_neg m).trans_le bound, by rw [Int.cast_neg, neg_mul]⟩

theorem hasSignificand_natCast {n : ℕ} (small : n ≤ 2 ^ 53) : HasSignificand n := by
  refine ⟨n, 0, ?_, by rw [zpow_zero, mul_one, Int.cast_natCast]⟩
  rw [Nat.abs_cast]
  exact_mod_cast small

/-- The number just below one. -/
theorem hasSignificand_belowOne : HasSignificand (1 - 1 / 2 ^ 53) :=
  ⟨2 ^ 53 - 1, -53, by norm_num, by norm_num⟩

theorem abs_roundHalfEven_sub_le (x : ℚ) : |roundHalfEven x - x| ≤ 1 / 2 := by
  have low : (x.floor : ℚ) ≤ x := Rat.floor_le x
  have high : x < x.floor + 1 := by exact_mod_cast Rat.lt_floor_add_one x
  have bit : x.floor % 2 = 0 ∨ x.floor % 2 = 1 := Int.emod_two_eq_zero_or_one _
  rw [roundHalfEven]
  split
  · rw [abs_le]
    constructor <;> linarith
  · split
    · rename_i tie
      rw [abs_le]
      rcases bit with even | odd
      · rw [even]
        constructor <;> push_cast <;> linarith
      · rw [odd]
        constructor <;> push_cast <;> linarith
    · rename_i notLess notTie
      have more : 1 / 2 < x - x.floor := lt_of_le_of_ne (not_lt.mp notLess) (Ne.symm notTie)
      rw [abs_le]
      constructor <;> push_cast <;> linarith

/-- No integer is nearer. -/
theorem abs_roundHalfEven_sub_le_of_int (x : ℚ) (z : ℤ) : |roundHalfEven x - x| ≤ |z - x| := by
  have near := abs_roundHalfEven_sub_le x
  rcases eq_or_ne (roundHalfEven x) z with same | other
  · rw [same]
  · have apart : (1 : ℚ) ≤ |(roundHalfEven x : ℚ) - z| := by
      exact_mod_cast Int.one_le_abs (sub_ne_zero.mpr other)
    have path := abs_sub_le (roundHalfEven x : ℚ) x z
    rw [abs_sub_comm x] at path
    linarith

/-- The exponent of a positive number tells between which powers of two it lies. -/
theorem binaryExponent_bounds {x : ℚ} (positive : 0 < x) :
    (2 : ℚ) ^ binaryExponent x ≤ x ∧ x < 2 ^ (binaryExponent x + 1) := by
  let p := x.num.natAbs.log2
  let q := x.den.log2
  have estimate : Int.subNatNat p q = (p : ℤ) - q := Int.subNatNat_eq_coe
  have numPositive : 0 < x.num := Rat.num_pos.mpr positive
  have num : (x.num.natAbs : ℚ) = x * x.den := by
    rw [Rat.mul_den_eq_num, ← Int.cast_natCast, Int.natAbs_of_nonneg numPositive.le]
  have denPositive : (0 : ℚ) < x.den := by exact_mod_cast x.den_pos
  have numLow : (2 : ℚ) ^ (p : ℤ) ≤ x * x.den := by
    rw [← num, zpow_natCast]
    exact_mod_cast Nat.log2_self_le (Int.natAbs_ne_zero.mpr numPositive.ne')
  have numHigh : x * x.den < 2 ^ ((p : ℤ) + 1) := by
    rw [← num, ← Nat.cast_succ, zpow_natCast]
    exact_mod_cast Nat.lt_log2_self
  have denLow : (2 : ℚ) ^ (q : ℤ) ≤ x.den := by
    rw [zpow_natCast]
    exact_mod_cast Nat.log2_self_le x.den_nz
  have denHigh : (x.den : ℚ) < 2 ^ ((q : ℤ) + 1) := by
    rw [← Nat.cast_succ, zpow_natCast]
    exact_mod_cast Nat.lt_log2_self
  -- The estimate from the lengths of numerator and denominator may be one too large.
  have above : x < 2 ^ ((p : ℤ) - q + 1) := by
    rw [show (p : ℤ) - q + 1 = p + 1 - q by ring, zpow_sub₀ two_ne_zero, lt_div_iff₀ (by positivity)]
    exact (mul_le_mul_of_nonneg_left denLow positive.le).trans_lt numHigh
  have below : (2 : ℚ) ^ ((p : ℤ) - q - 1) ≤ x := by
    rw [show (p : ℤ) - q - 1 = p - (q + 1) by ring, zpow_sub₀ two_ne_zero,
      div_le_iff₀ (by positivity)]
    exact numLow.trans (mul_le_mul_of_nonneg_left denHigh.le positive.le)
  rw [binaryExponent, estimate]
  split
  · rename_i reached
    exact ⟨reached, above⟩
  · rename_i missed
    rw [sub_add_cancel]
    exact ⟨below, not_le.mp missed⟩

/-- The distance of the last places of a positive number. -/
def lastPlace (x : ℚ) : ℚ := 2 ^ (binaryExponent x - 52)

theorem lastPlace_pos (x : ℚ) : 0 < lastPlace x := zpow_pos two_pos _

theorem round53_of_pos {x : ℚ} (positive : 0 < x) :
    round53 x = roundHalfEven (x / lastPlace x) * lastPlace x := by
  rw [round53, if_neg positive.ne', if_neg (not_lt.mpr positive.le),
    if_neg (not_lt.mpr positive.le), lastPlace]

theorem round53_neg (x : ℚ) : round53 (-x) = -round53 x := by
  rcases lt_trichotomy x 0 with negative | rfl | positive
  · have positive := neg_pos.mpr negative
    simp only [round53, if_neg negative.ne, if_neg positive.ne', if_pos negative,
      if_neg (not_lt.mpr positive.le), neg_neg]
  · simp [round53]
  · have negative := neg_lt_zero.mpr positive
    simp only [round53, if_neg negative.ne, if_neg positive.ne', if_pos negative,
      if_neg (not_lt.mpr positive.le), neg_neg]

/-- A number with a significand is a multiple of the last place of a positive number, or it does not
exceed the power of two below that number. -/
theorem HasSignificand.multiple_or_le {y : ℚ} (short : HasSignificand y) (x : ℚ) :
    (∃ z : ℤ, y = z * lastPlace x) ∨ y ≤ 2 ^ binaryExponent x := by
  obtain ⟨m, e, bound, rfl⟩ := short
  by_cases fine : binaryExponent x - 52 ≤ e
  · obtain ⟨count, places⟩ := Int.eq_ofNat_of_zero_le (sub_nonneg.mpr fine)
    refine .inl ⟨m * 2 ^ count, ?_⟩
    rw [lastPlace, show e = count + (binaryExponent x - 52) by omega, zpow_add₀ two_ne_zero]
    push_cast
    rw [zpow_natCast, mul_assoc]
  · right
    have size : (m : ℚ) ≤ 2 ^ (53 : ℤ) := by exact_mod_cast (le_abs_self m).trans bound
    calc (m : ℚ) * 2 ^ e ≤ 2 ^ (53 : ℤ) * 2 ^ e :=
          mul_le_mul_of_nonneg_right size (zpow_nonneg two_pos.le e)
      _ = 2 ^ (53 + e) := (zpow_add₀ two_ne_zero _ _).symm
      _ ≤ 2 ^ binaryExponent x := zpow_le_zpow_right₀ one_le_two (by omega)

theorem round53_nearest_of_pos {x y : ℚ} (positive : 0 < x) (short : HasSignificand y) :
    |round53 x - x| ≤ |y - x| := by
  let u := lastPlace x
  have place : 0 < u := lastPlace_pos x
  have steps : x = x / u * u := (div_mul_cancel₀ x place.ne').symm
  -- Distances between multiples of the last place are distances between integers.
  have distance (z : ℤ) : |(z : ℚ) * u - x| = |(z : ℚ) - x / u| * u := by
    conv_lhs => rw [steps, ← sub_mul, abs_mul, abs_of_pos place]
  have nearest (z : ℤ) : |round53 x - x| ≤ |(z : ℚ) * u - x| := by
    rw [round53_of_pos positive, distance, distance]
    exact mul_le_mul_of_nonneg_right (abs_roundHalfEven_sub_le_of_int _ z) place.le
  rcases short.multiple_or_le x with ⟨z, rfl⟩ | small
  · exact nearest z
  · have power : (2 : ℚ) ^ binaryExponent x = ((2 ^ 52 : ℤ) : ℚ) * u := by
      rw [show u = 2 ^ (binaryExponent x - 52) from rfl, Int.cast_pow, Int.cast_ofNat,
        ← zpow_natCast, ← zpow_add₀ two_ne_zero, Nat.cast_ofNat, add_sub_cancel]
    have low := (binaryExponent_bounds positive).1
    refine (nearest (2 ^ 52)).trans ?_
    rw [← power, abs_of_nonpos (sub_nonpos.mpr low), abs_of_nonpos (sub_nonpos.mpr (small.trans low))]
    linarith

/-- No number with a significand is nearer than the rounded value. -/
theorem round53_nearest (x : ℚ) {y : ℚ} (short : HasSignificand y) :
    |round53 x - x| ≤ |y - x| := by
  rcases lt_trichotomy x 0 with negative | rfl | positive
  · have mirrored := round53_nearest_of_pos (neg_pos.mpr negative) short.neg
    rwa [round53_neg, neg_sub_neg, neg_sub_neg, abs_sub_comm, abs_sub_comm x] at mirrored
  · simp [round53]
  · exact round53_nearest_of_pos positive short

theorem round53_of_hasSignificand {x : ℚ} (short : HasSignificand x) : round53 x = x := by
  have nearest := round53_nearest x short
  rw [sub_self, abs_zero] at nearest
  exact sub_eq_zero.mp (abs_nonpos_iff.mp nearest)

theorem round53_le {x y : ℚ} (short : HasSignificand y) (le : x ≤ y) : round53 x ≤ y := by
  by_contra greater
  have nearest := round53_nearest x short
  rw [abs_of_nonneg (sub_nonneg.mpr le), abs_of_nonneg (by linarith)] at nearest
  linarith

theorem le_round53 {x y : ℚ} (short : HasSignificand y) (le : y ≤ x) : y ≤ round53 x := by
  by_contra less
  have nearest := round53_nearest x short
  rw [abs_of_nonpos (sub_nonpos.mpr le), abs_of_nonpos (by linarith)] at nearest
  linarith

theorem roundNat_eq {n : ℕ} (small : n ≤ 2 ^ 53) : roundNat n = n :=
  round53_of_hasSignificand (hasSignificand_natCast small)

end RobustMargin
