import Mathlib
import RobustMargin.Decimal.Shortest

/-! # Rounding intervals

The numbers that round to a double form an interval, which ends where the interval of the next
double begins. Different doubles share no number, and the shortest digits of a double lie in its
interval. -/
namespace RobustMargin.Decimal

/-- The number that the digits stand for. -/
def Digits.value (d : Digits) : ℚ := d.significand * 10 ^ d.power

theorem Digits.value_trim (significand : Nat) (power : Int) :
    (Digits.trim significand power).value = (⟨significand, power⟩ : Digits).value := by
  induction significand, power using Digits.trim.induct with
  | case1 significand power more ih =>
      have whole : 10 * (significand / 10) = significand :=
        Nat.mul_div_cancel' (Nat.dvd_of_mod_eq_zero more.2)
      rw [trim, dif_pos more, ih, value, value, zpow_add₀ (by norm_num), zpow_one]
      conv_rhs => rw [← whole]
      push_cast
      ring
  | case2 significand power done => rw [trim, dif_neg done]

namespace Dyadic

/-- A quarter of the gap above the double. -/
def quarter (x : Dyadic) : ℚ := 2 ^ (x.power - 2)

/-- The distance to the lower end of the interval, in quarters. -/
def below (x : Dyadic) : Nat := if x.narrow then 1 else 2

def value (x : Dyadic) : ℚ := 4 * x.mantissa * x.quarter

/-- The lower end of the numbers that round to the double. -/
def lower (x : Dyadic) : ℚ := (4 * x.mantissa - x.below) * x.quarter

/-- The upper end. -/
def upper (x : Dyadic) : ℚ := (4 * x.mantissa + 2) * x.quarter

/-- A number rounds to the double: it is nearer to it than to any other double, or halfway to
another one where the mantissa is even. -/
def RoundsTo (x : Dyadic) (y : ℚ) : Prop :=
  if x.mantissa % 2 = 0 then x.lower ≤ y ∧ y ≤ x.upper else x.lower < y ∧ y < x.upper

theorem quarter_pos (x : Dyadic) : 0 < x.quarter := zpow_pos (by norm_num) _

theorem below_pos (x : Dyadic) : 0 < x.below := by
  unfold below
  split <;> decide

theorem below_le (x : Dyadic) : x.below ≤ 2 := by
  unfold below
  split <;> decide

theorem lower_lt_value (x : Dyadic) : x.lower < x.value := by
  have pos : (0 : ℚ) < x.below := Nat.cast_pos.mpr x.below_pos
  unfold lower value
  nlinarith [x.quarter_pos]

theorem value_lt_upper (x : Dyadic) : x.value < x.upper := by
  unfold upper value
  nlinarith [x.quarter_pos]

theorem lower_lt_upper (x : Dyadic) : x.lower < x.upper := x.lower_lt_value.trans x.value_lt_upper

theorem RoundsTo.bounds {x : Dyadic} {y : ℚ} (rounds : x.RoundsTo y) :
    x.lower ≤ y ∧ y ≤ x.upper := by
  unfold RoundsTo at rounds
  split at rounds
  · exact rounds
  · exact ⟨rounds.1.le, rounds.2.le⟩

theorem roundsTo_of_between {x : Dyadic} {y : ℚ} (above : x.lower < y) (under : y < x.upper) :
    x.RoundsTo y := by
  unfold RoundsTo
  split
  · exact ⟨above.le, under.le⟩
  · exact ⟨above, under⟩

/-- What rounds to a positive double is positive. -/
theorem RoundsTo.pos {x : Dyadic} {y : ℚ} (rounds : x.RoundsTo y) (positive : 0 < x.mantissa) :
    0 < y := by
  have atLeast : (1 : ℚ) ≤ x.mantissa := by exact_mod_cast positive
  have atMost : (x.below : ℚ) ≤ 2 := by exact_mod_cast x.below_le
  have low : 0 < x.lower := mul_pos (by linarith) x.quarter_pos
  exact low.trans_le rounds.bounds.1

section Grid

variable (x : Dyadic) (power : Int)

theorem pow_toNat (b : ℚ) (pos : 0 < b) (z : Int) : b ^ z.toNat = b ^ z * b ^ (-z).toNat := by
  rw [← zpow_natCast, ← zpow_natCast, ← zpow_add₀ pos.ne']
  congr 1
  omega

theorem grid_unit_pos : 0 < (x.grid power).unit :=
  Nat.mul_pos (Nat.pow_pos Nat.two_pos) (Nat.pow_pos (by decide))

/-- A quarter of the gap, over the unit of the grid. -/
def numerator : Nat := Nat.pow 2 (x.power - 2).toNat * Nat.pow 10 (-power).toNat

theorem numerator_eq :
    (x.numerator power : ℚ) * 10 ^ power = x.quarter * (x.grid power).unit := by
  have two := pow_toNat 2 two_pos (x.power - 2)
  have ten := pow_toNat 10 (by norm_num) (-power)
  have swap : (2 - x.power) = -(x.power - 2) := by ring
  have ne : (10 : ℚ) ^ power ≠ 0 := zpow_ne_zero _ (by norm_num)
  change ((2 ^ (x.power - 2).toNat * 10 ^ (-power).toNat : Nat) : ℚ) * 10 ^ power =
    x.quarter * ((2 ^ (2 - x.power).toNat * 10 ^ power.toNat : Nat) : ℚ)
  push_cast
  rw [two, ten, neg_neg, zpow_neg, swap, quarter]
  field_simp

/-- Comparisons on the grid are comparisons of numbers. -/
theorem le_point_iff (a point : Nat) :
    a * x.numerator power ≤ point * (x.grid power).unit ↔ a * x.quarter ≤ point * 10 ^ power := by
  have ten : (0 : ℚ) < 10 ^ power := zpow_pos (by norm_num) _
  have unit : (0 : ℚ) < (x.grid power).unit := Nat.cast_pos.mpr (x.grid_unit_pos power)
  rw [← Nat.cast_le (α := ℚ), ← mul_le_mul_iff_left₀ ten, Nat.cast_mul, Nat.cast_mul, mul_assoc,
    x.numerator_eq, mul_right_comm, ← mul_assoc, mul_le_mul_iff_left₀ unit]

theorem point_le_iff (a point : Nat) :
    point * (x.grid power).unit ≤ a * x.numerator power ↔ point * 10 ^ power ≤ a * x.quarter := by
  have ten : (0 : ℚ) < 10 ^ power := zpow_pos (by norm_num) _
  have unit : (0 : ℚ) < (x.grid power).unit := Nat.cast_pos.mpr (x.grid_unit_pos power)
  rw [← Nat.cast_le (α := ℚ), ← mul_le_mul_iff_left₀ ten, Nat.cast_mul, Nat.cast_mul,
    mul_assoc (a : ℚ), x.numerator_eq, mul_right_comm, ← mul_assoc, mul_le_mul_iff_left₀ unit]

theorem admits_iff (positive : 0 < x.mantissa) (point : Nat) :
    x.admits (x.grid power) point = true ↔ x.RoundsTo (point * 10 ^ power) := by
  have low : ((4 * x.mantissa - x.below : Nat) : ℚ) = 4 * x.mantissa - x.below := by
    have le := x.below_le
    rw [Nat.cast_sub (by omega)]
    push_cast
    ring
  have high : ((4 * x.mantissa + 2 : Nat) : ℚ) = 4 * x.mantissa + 2 := by push_cast; ring
  rw [admits, RoundsTo, lower, upper, ← low, ← high]
  split
  · rw [decide_eq_true_iff, ← le_point_iff, ← point_le_iff]
    rfl
  · rw [decide_eq_true_iff, ← not_le, ← not_le, ← not_le, ← not_le, ← le_point_iff, ← point_le_iff]
    rfl

theorem roundsTo_of_onGrid? (positive : 0 < x.mantissa) {tie : Tie} {d : Digits}
    (found : x.onGrid? tie power = some d) : x.RoundsTo d.value := by
  have reads (point : Nat) (hit : x.admits (x.grid power) point = true) :
      x.RoundsTo (⟨point, power⟩ : Digits).value := (x.admits_iff power positive point).mp hit
  unfold onGrid? at found
  dsimp only at found
  split at found
  · rename_i first second
    split at found
    · obtain rfl := Option.some.inj found
      exact reads _ first
    · obtain rfl := Option.some.inj found
      exact reads _ second
  · rename_i first _
    obtain rfl := Option.some.inj found
    exact reads _ first
  · rename_i _ second
    obtain rfl := Option.some.inj found
    exact reads _ second
  · cases found

/-- A grid that is finer than half of the gap above the double has a hit. -/
theorem onGrid?_ne_none (positive : 0 < x.mantissa) (tie : Tie)
    (fine : 10 ^ power < 2 * x.quarter) : x.onGrid? tie power ≠ none := by
  have unit := x.grid_unit_pos power
  let point := (x.grid power).value / (x.grid power).unit
  -- The first point of the grid above the value is less than half the gap away.
  have hit : x.admits (x.grid power) (point + 1) = true := by
    have floor : point * (x.grid power).unit ≤ 4 * x.mantissa * x.numerator power :=
      Nat.div_mul_le_self _ _
    have ceil : ¬ (point + 1) * (x.grid power).unit ≤ 4 * x.mantissa * x.numerator power := by
      rw [not_le, Nat.add_mul, Nat.one_mul]
      exact Nat.lt_div_mul_add unit
    rw [x.point_le_iff] at floor ceil
    have room : x.upper = x.value + 2 * x.quarter := by
      unfold upper value
      ring
    rw [x.admits_iff power positive]
    push_cast at floor ceil ⊢
    rw [← value] at floor ceil
    refine roundsTo_of_between (x.lower_lt_value.trans (not_le.mp ceil)) ?_
    rw [room]
    linarith
  intro none
  unfold onGrid? at none
  dsimp only at none
  rw [hit] at none
  split at none
  · split at none <;> cases none
  all_goals simp_all

end Grid

/-- The power of two of the leading bit. -/
def leadingBit (x : Dyadic) : Int := x.power + x.mantissa.log2

/-- A power of ten in place of a power of two, by a fraction `p / q` close to the logarithm of
two. -/
theorem ten_zpow_ediv_le {p q : Nat} (above : 10 ^ p ≤ 2 ^ (q + 1)) (below : 2 ^ q ≤ 10 ^ p)
    (positive : 0 < q) {e : Int} (small : e ≤ q) : (10 : ℚ) ^ (e * p / q) ≤ 2 ^ (e + 1) := by
  have above : (10 : ℚ) ^ p ≤ 2 ^ (q + 1) := by exact_mod_cast above
  have below : (2 : ℚ) ^ q ≤ 10 ^ p := by exact_mod_cast below
  have floor : e * p / q * q ≤ e * p := Int.ediv_mul_le _ (by exact_mod_cast positive.ne')
  have power : ((10 : ℚ) ^ p) ^ e ≤ (2 ^ (e + 1)) ^ q := by
    rw [← zpow_natCast (2 ^ (e + 1)), ← zpow_mul]
    rcases le_total 0 e with up | down
    · calc ((10 : ℚ) ^ p) ^ e ≤ (2 ^ (q + 1)) ^ e := zpow_le_zpow_left₀ up (by positivity) above
        _ = 2 ^ ((q + 1) * e) := by rw [← zpow_natCast, ← zpow_mul]; push_cast; rfl
        _ ≤ 2 ^ ((e + 1) * q) := zpow_le_zpow_right₀ (by norm_num) (by linarith)
    · have swapped : ((10 : ℚ) ^ p) ^ e ≤ (2 ^ q) ^ e := by
        obtain ⟨n, rfl⟩ := Int.exists_eq_neg_ofNat down
        rw [zpow_neg, zpow_neg, zpow_natCast, zpow_natCast]
        exact inv_anti₀ (by positivity) (pow_le_pow_left₀ (by positivity) below n)
      calc ((10 : ℚ) ^ p) ^ e ≤ (2 ^ q) ^ e := swapped
        _ = 2 ^ (q * e) := by rw [← zpow_natCast, ← zpow_mul]
        _ ≤ 2 ^ ((e + 1) * q) := zpow_le_zpow_right₀ (by norm_num) (by nlinarith)
  refine (pow_le_pow_iff_left₀ (by positivity) (by positivity) positive.ne').mp ?_
  calc ((10 : ℚ) ^ (e * p / q)) ^ q = 10 ^ (e * p / q * q) := by rw [← zpow_natCast, ← zpow_mul]
    _ ≤ 10 ^ (e * p) := zpow_le_zpow_right₀ (by norm_num) floor
    _ = (10 ^ p) ^ e := by rw [mul_comm, zpow_mul, zpow_natCast]
    _ ≤ _ := power

theorem ten_zpow_estimate_le {e : Int} (small : e ≤ 100000) :
    (10 : ℚ) ^ (e * 30103 / 100000) ≤ 2 ^ (e + 1) :=
  ten_zpow_ediv_le (p := 30103) (q := 100000) (by decide +kernel) (by decide +kernel) (by decide)
    (by exact_mod_cast small)

theorem two_zpow_leadingBit_le (x : Dyadic) (positive : 0 < x.mantissa) :
    (2 : ℚ) ^ x.leadingBit ≤ x.value := by
  have log : (2 : ℚ) ^ x.mantissa.log2 ≤ x.mantissa := by
    exact_mod_cast Nat.log2_self_le positive.ne'
  have four : (4 : ℚ) * x.quarter = 2 ^ x.power := by
    rw [quarter, zpow_sub₀ (by norm_num)]
    norm_num
    ring
  have value : x.value = x.mantissa * 2 ^ x.power := by
    rw [value, ← four]
    ring
  rw [value, leadingBit, zpow_add₀ (by norm_num), mul_comm, zpow_natCast]
  exact mul_le_mul_of_nonneg_right log (by positivity)

theorem ten_zpow_leadingPower_le (x : Dyadic) (positive : 0 < x.mantissa)
    (small : x.leadingBit ≤ 100000) : (10 : ℚ) ^ x.leadingPower ≤ 2 * x.value := by
  have bit := x.two_zpow_leadingBit_le positive
  have estimate := ten_zpow_estimate_le small
  rw [zpow_add₀ (by norm_num), zpow_one] at estimate
  unfold leadingPower
  dsimp only
  split
  · rename_i reached
    have le : 1 * (x.grid (x.leadingBit * 30103 / 100000 + 1)).unit ≤
        4 * x.mantissa * x.numerator (x.leadingBit * 30103 / 100000 + 1) := by
      rw [Nat.one_mul]
      exact reached
    rw [point_le_iff] at le
    push_cast at le
    rw [one_mul, ← value] at le
    have nonneg : 0 ≤ x.value := (zpow_nonneg (by norm_num) _).trans bit
    refine le.trans ?_
    linarith
  · change (10 : ℚ) ^ (x.leadingBit * 30103 / 100000) ≤ _
    linarith

/-- The mantissa of a positive double has at most 53 bits, and the power of two is limited. -/
structure Fits (x : Dyadic) : Prop where
  positive : 0 < x.mantissa
  mantissa_lt : x.mantissa < 2 ^ 53
  power_le : x.power ≤ 1000

theorem Fits.leadingBit_le {x : Dyadic} (fits : x.Fits) : x.leadingBit ≤ 100000 := by
  have log : x.mantissa.log2 < 53 := (Nat.log2_lt fits.positive.ne').mpr fits.mantissa_lt
  have power := fits.power_le
  unfold leadingBit
  omega

/-- The seventeenth place after the leading one always has a hit. -/
theorem Fits.onGrid?_ne_none {x : Dyadic} (fits : x.Fits) (tie : Tie) :
    x.onGrid? tie (x.leadingPower - 17) ≠ none := by
  refine x.onGrid?_ne_none _ fits.positive tie ?_
  have leading := x.ten_zpow_leadingPower_le fits.positive fits.leadingBit_le
  have mantissa : (x.mantissa : ℚ) < 2 ^ 53 := by exact_mod_cast fits.mantissa_lt
  rw [value] at leading
  rw [zpow_sub₀ (by norm_num), div_lt_iff₀ (by positivity)]
  have quarter := x.quarter_pos
  calc (10 : ℚ) ^ x.leadingPower ≤ 2 * (4 * x.mantissa * x.quarter) := leading
    _ ≤ 2 * (4 * 2 ^ 53 * x.quarter) := by gcongr
    _ < 2 * x.quarter * 10 ^ (17 : Int) := by
      norm_num
      linarith

/-- The shortest digits of a double round to it. -/
theorem Fits.roundsTo_shortest {x : Dyadic} (fits : x.Fits) (tie : Tie) :
    x.RoundsTo (x.shortest tie).value := by
  unfold shortest
  dsimp only
  split
  · rename_i d found
    obtain ⟨places, -, hit⟩ := List.exists_of_findSome?_eq_some found
    rw [Digits.value_trim]
    exact x.roundsTo_of_onGrid? _ fits.positive hit
  · rename_i missed
    rw [List.findSome?_eq_none_iff] at missed
    exact absurd (missed 17 (List.mem_range.mpr (by decide))) (fits.onGrid?_ne_none tie)

section Neighbours

/-- The double of an exponent and a fraction. -/
def ofFields (exponent fraction : Nat) : Dyadic :=
  if exponent = 0 then ⟨fraction, -1074, false⟩
  else ⟨2 ^ 52 + fraction, exponent - 1075, fraction == 0 && exponent != 1⟩

theorem ofBits_eq_ofFields (bits : Nat) :
    ofBits bits = ofFields (bits / 2 ^ 52 % 2 ^ 11) (bits % 2 ^ 52) := by
  unfold ofBits ofFields
  dsimp only
  rw [Int.subNatNat_eq_coe]
  rfl

theorem ofFields_normal {exponent : Nat} (normal : exponent ≠ 0) (fraction : Nat) :
    ofFields exponent fraction =
      ⟨2 ^ 52 + fraction, exponent - 1075, fraction == 0 && exponent != 1⟩ :=
  if_neg normal

theorem fits_ofFields {exponent fraction : Nat} (exponent_lt : exponent < 2 ^ 11)
    (fraction_lt : fraction < 2 ^ 52) (positive : 0 < (ofFields exponent fraction).mantissa) :
    (ofFields exponent fraction).Fits := by
  refine ⟨positive, ?_, ?_⟩
  · unfold ofFields
    split
    · exact fraction_lt.trans (by decide)
    · dsimp only
      omega
  · unfold ofFields
    split
    · exact (by decide : (-1074 : Int) ≤ 1000)
    · dsimp only
      omega

theorem quarter_ofFields (exponent fraction : Nat) :
    (ofFields exponent fraction).quarter = 2 ^ ((max exponent 1 : Nat) - 1077 : Int) := by
  unfold ofFields quarter
  split
  · subst exponent
    rfl
  · rename_i normal
    congr 1
    dsimp only
    rw [max_eq_left (Nat.one_le_iff_ne_zero.mpr normal)]
    ring

/-- The numbers that round to a double end where those that round to the next one begin. -/
theorem upper_ofFields_succ (exponent fraction : Nat) :
    (ofFields exponent fraction).upper = (ofFields exponent (fraction + 1)).lower := by
  rw [upper, lower, quarter_ofFields, quarter_ofFields]
  congr 1
  unfold ofFields below
  split <;> simp <;> ring

theorem upper_ofFields_last (exponent : Nat) :
    (ofFields exponent (2 ^ 52 - 1)).upper = (ofFields (exponent + 1) 0).lower := by
  rw [upper, lower, quarter_ofFields, quarter_ofFields]
  cases exponent with
  | zero =>
      simp [ofFields, below]
      norm_num
  | succ e =>
      have double : (2 : ℚ) ^ (((e + 1 + 1 : Nat) : Int) - 1077) =
          2 * 2 ^ (((e + 1 : Nat) : Int) - 1077) := by
        rw [← zpow_one_add₀ (by norm_num)]
        congr 1
        push_cast
        ring
      rw [max_eq_left (Nat.le_add_left 1 (e + 1)), max_eq_left (Nat.le_add_left 1 e), double]
      simp [ofFields, below]
      ring

theorem ofBits_parity (bits : Nat) : (ofBits bits).mantissa % 2 = bits % 2 := by
  rw [ofBits_eq_ofFields, ofFields]
  split
  · dsimp only
    omega
  · dsimp only
    omega

theorem upper_ofBits {bits : Nat} (bound : bits + 1 < 2 ^ 63) :
    (ofBits bits).upper = (ofBits (bits + 1)).lower := by
  rw [ofBits_eq_ofFields, ofBits_eq_ofFields]
  by_cases last : bits % 2 ^ 52 = 2 ^ 52 - 1
  · have fraction : (bits + 1) % 2 ^ 52 = 0 := by omega
    have exponent : (bits + 1) / 2 ^ 52 % 2 ^ 11 = bits / 2 ^ 52 % 2 ^ 11 + 1 := by omega
    rw [fraction, exponent, last, upper_ofFields_last]
  · have fraction : (bits + 1) % 2 ^ 52 = bits % 2 ^ 52 + 1 := by omega
    have exponent : (bits + 1) / 2 ^ 52 % 2 ^ 11 = bits / 2 ^ 52 % 2 ^ 11 := by omega
    rw [fraction, exponent, upper_ofFields_succ]

theorem upper_le_lower {first second : Nat} (less : first < second) (bound : second < 2 ^ 63) :
    (ofBits first).upper ≤ (ofBits second).lower := by
  induction second, less using Nat.le_induction with
  | base => exact (upper_ofBits bound).le
  | succ second _ ih =>
      rw [← upper_ofBits bound]
      exact (ih (by omega)).trans (lower_lt_upper _).le

theorem not_roundsTo_of_lt {first second : Nat} (less : first < second) (bound : second < 2 ^ 63)
    {y : ℚ} (rounds : (ofBits first).RoundsTo y) : ¬ (ofBits second).RoundsTo y := by
  intro other
  rcases (Nat.add_one_le_iff.mpr less).eq_or_lt with next | later
  · subst next
    have shared := upper_ofBits bound
    have parity := ofBits_parity first
    have parity' := ofBits_parity (first + 1)
    -- Of two neighbours one has an odd mantissa, and its interval lacks the shared end.
    unfold RoundsTo at rounds other
    split at rounds <;> split at other
    · omega
    · linarith
    · linarith
    · linarith
  · have apart : (ofBits first).upper < (ofBits second).lower := by
      rw [upper_ofBits (by omega)]
      exact (lower_lt_upper _).trans_le (upper_le_lower later bound)
    linarith [rounds.bounds, other.bounds]

/-- A number rounds to at most one double of a sign. -/
theorem eq_of_roundsTo {first second : Nat} (firstBound : first < 2 ^ 63)
    (secondBound : second < 2 ^ 63) {y : ℚ} (rounds : (ofBits first).RoundsTo y)
    (other : (ofBits second).RoundsTo y) : first = second := by
  rcases lt_trichotomy first second with less | same | more
  · exact absurd other (not_roundsTo_of_lt less secondBound rounds)
  · exact same
  · exact absurd rounds (not_roundsTo_of_lt more firstBound other)

end Neighbours

end Dyadic
end RobustMargin.Decimal
