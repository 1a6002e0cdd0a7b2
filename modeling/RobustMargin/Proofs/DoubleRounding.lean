import RobustMargin.Proofs.Doubles

/-! # Rounding to doubles

A number is rounded to a multiple of a power of two that depends on its leading bit. Numbers are
counted in units of `2 ^ -2148`, the least product of two positive doubles, so that sums and
products of doubles are whole. The place of a rounded number among all doubles never decreases with
the number. -/
namespace RobustMargin.Double

open Float.Model (UnpackedFloat Format)
open Float.Model.UnpackedFloat (Sign ExtendedMantissa packComponents)
open Decimal (Dyadic)

section Nearest

/-- The number of units nearest to a number, a tie going to the even one. -/
def nearest (n unit : Nat) : Nat :=
  if 2 * (n % unit) < unit then n / unit
  else if 2 * (n % unit) = unit then n / unit + n / unit % 2
  else n / unit + 1

theorem le_nearest (n unit : Nat) : n / unit ≤ nearest n unit := by
  unfold nearest
  split
  · exact le_rfl
  · split <;> omega

theorem nearest_le (n unit : Nat) : nearest n unit ≤ n / unit + 1 := by
  unfold nearest
  split
  · omega
  · split <;> omega

theorem nearest_mono {unit m n : Nat} (le : m ≤ n) : nearest m unit ≤ nearest n unit := by
  rcases (Nat.div_le_div_right le : m / unit ≤ n / unit).lt_or_eq with below | same
  · exact (nearest_le m unit).trans (below.trans_le (le_nearest n unit))
  · -- Both lie between the same multiples, and there the remainders decide.
    have first := Nat.div_add_mod m unit
    have second := Nat.div_add_mod n unit
    rw [same] at first
    have rest : m % unit ≤ n % unit := by omega
    unfold nearest
    rw [same]
    split <;> split <;> (try split) <;> (try split) <;> omega

theorem nearest_mul (n unit : Nat) {c : Nat} (positive : 0 < c) :
    nearest (n * c) (unit * c) = nearest n unit := by
  have double : 2 * (n % unit * c) = 2 * (n % unit) * c := (Nat.mul_assoc _ _ _).symm
  unfold nearest
  simp only [Nat.mul_mod_mul_right, Nat.mul_div_mul_right _ _ positive, double,
    Nat.mul_lt_mul_right positive, Nat.mul_left_inj positive.ne']

theorem nearest_mul_self (n : Nat) {unit : Nat} (positive : 0 < unit) :
    nearest (n * unit) unit = n := by
  rw [nearest, Nat.mul_mod_left, if_pos (by omega), Nat.mul_div_cancel _ positive]

end Nearest

section Shifts

/-- A mantissa that is shifted keeps of what it loses whether this is at least one half, and whether
it differs from nothing and one half. -/
theorem shifted_eq (m count : Nat) :
    ExtendedMantissa.ofMantissaAndAccuracy m .exact >>> count =
      ⟨m / 2 ^ count, decide (2 ^ count ≤ 2 * (m % 2 ^ count)),
        decide (2 * (m % 2 ^ count) % 2 ^ count ≠ 0)⟩ := by
  change count.repeat ExtendedMantissa.shiftRightOne ⟨m, false, false⟩ = _
  induction count with
  | zero => simp [Nat.repeat, Nat.mod_one]
  | succ count ih =>
      have small := Nat.mod_lt m (Nat.two_pow_pos count)
      have rest : m % 2 ^ (count + 1) = m % 2 ^ count + 2 ^ count * (m / 2 ^ count % 2) := by
        rw [Nat.pow_succ, Nat.mod_mul]
      have half : m / 2 ^ count / 2 = m / 2 ^ (count + 1) := by
        rw [Nat.div_div_eq_div_mul, Nat.pow_succ]
      rw [Nat.repeat, ih, ExtendedMantissa.shiftRightOne, half, rest, Nat.pow_succ]
      -- The bit that is lost last decides whether one half is reached.
      have bit := Nat.mod_two_eq_zero_or_one (m / 2 ^ count)
      have twice : 2 * (m % 2 ^ count + 2 ^ count * (m / 2 ^ count % 2)) % (2 ^ count * 2) =
          2 * (m % 2 ^ count) := by
        rw [Nat.mul_comm (2 ^ count) 2, Nat.mul_mod_mul_left, Nat.add_mul_mod_self_left,
          Nat.mod_eq_of_lt small]
      have lost : 2 ^ count ≤ 2 * (m % 2 ^ count) ∨ 2 * (m % 2 ^ count) % 2 ^ count ≠ 0 ↔
          2 * (m % 2 ^ count) ≠ 0 := by
        by_cases reached : 2 ^ count ≤ 2 * (m % 2 ^ count)
        · exact iff_of_true (.inl reached) (by have := Nat.two_pow_pos count; omega)
        · rw [Nat.mod_eq_of_lt (not_le.mp reached)]
          exact or_iff_right reached
      congr 1
      · rw [bne, Bool.not_eq_eq_eq_not]
        rcases bit with zero | one
        · simp [zero]; omega
        · simp [one]; omega
      · rw [twice, ← Bool.decide_or]
        exact decide_eq_decide.mpr lost

theorem roundedMantissa_shifted (m count : Nat) :
    (ExtendedMantissa.ofMantissaAndAccuracy m .exact >>> count).roundedMantissa =
      nearest m (2 ^ count) := by
  have small := Nat.mod_lt m (Nat.two_pow_pos count)
  rw [shifted_eq, nearest]
  generalize 2 ^ count = unit at *
  by_cases less : 2 * (m % unit) < unit
  · rw [if_pos less, Nat.mod_eq_of_lt less, decide_eq_false (not_le.mpr less)]
    cases decide (2 * (m % unit) ≠ 0) <;> rfl
  · have past : 2 * (m % unit) % unit = 2 * (m % unit) - unit := by
      rw [Nat.mod_eq_sub_mod (not_lt.mp less), Nat.mod_eq_of_lt (by omega)]
    rw [if_neg less, past, decide_eq_true (not_lt.mp less)]
    by_cases half : 2 * (m % unit) = unit
    · rw [if_pos half, decide_eq_false (by omega)]
      rfl
    · rw [if_neg half, decide_eq_true (by omega)]
      rfl

end Shifts

section Places

/-- The power of two of which a number is rounded to a multiple. -/
def grid (n : Nat) : Nat := max (n.log2 - 52) 1074

/-- The number of doubles from zero on that come before the infinite one. -/
def infinityPlace : Nat := 2047 * 2 ^ 52

/-- The number of doubles from zero on that come before the nearest one. -/
def place (n : Nat) : Nat :=
  min infinityPlace ((grid n - 1074) * 2 ^ 52 + nearest n (2 ^ grid n))

theorem grid_mono {m n : Nat} (le : m ≤ n) : grid m ≤ grid n := by
  have logs : m.log2 ≤ n.log2 := by
    rw [Nat.log2_eq_log_two, Nat.log2_eq_log_two]
    exact Nat.log_mono_right le
  unfold grid
  omega

theorem lt_two_pow_grid (n : Nat) : n < 2 ^ (grid n + 53) := by
  refine Nat.lt_log2_self.trans_le (Nat.pow_le_pow_right two_pos ?_)
  unfold grid
  omega

/-- On a grid that is not the finest one, a number has 53 bits. -/
theorem two_pow_grid_le {n : Nat} (coarse : grid n ≠ 1074) : 2 ^ (grid n + 52) ≤ n := by
  have log : grid n + 52 = n.log2 := by
    unfold grid at *
    omega
  rw [log]
  refine Nat.log2_self_le ?_
  rintro rfl
  exact coarse rfl

theorem nearest_grid_le (n : Nat) : nearest n (2 ^ grid n) ≤ 2 ^ 53 := by
  have below : n / 2 ^ grid n < 2 ^ 53 := by
    rw [Nat.div_lt_iff_lt_mul (Nat.two_pow_pos _), ← Nat.pow_add, Nat.add_comm]
    exact lt_two_pow_grid n
  exact (nearest_le n _).trans below

theorem le_nearest_grid {n : Nat} (coarse : grid n ≠ 1074) : 2 ^ 52 ≤ nearest n (2 ^ grid n) := by
  have above : 2 ^ 52 ≤ n / 2 ^ grid n := by
    rw [Nat.le_div_iff_mul_le (Nat.two_pow_pos _), ← Nat.pow_add, Nat.add_comm]
    exact two_pow_grid_le coarse
  exact above.trans (le_nearest n _)

/-- A greater number has no earlier place. -/
theorem place_mono {m n : Nat} (le : m ≤ n) : place m ≤ place n := by
  refine min_le_min_left _ ?_
  rcases (grid_mono le).lt_or_eq with finer | same
  · -- The last place of a grid is the first one of the next.
    have low := nearest_grid_le m
    have least : 1074 ≤ grid m := le_max_right _ _
    have high := le_nearest_grid (n := n) (by omega)
    omega
  · rw [same]
    exact Nat.add_le_add_left (nearest_mono le) _

end Places

section Ranks

/-- The place of a double among all, those below zero counted downwards. -/
def rank : UnpackedFloat → Int
  | .infinity s => s.apply infinityPlace
  | .notANumber => 0
  | .zero _ => 0
  | .finite s m e _ => s.apply ((e + 1074) * 2 ^ 52 + m)

/-- The double of an unpacked number. -/
def packed (u : UnpackedFloat) : Float := .ofModel (.pack u)

theorem apply_zero (s : Sign) : s.apply 0 = 0 := by cases s <;> rfl

/-- The place of a double is told by its bits. -/
theorem rank_unpacked {x : Float} (number : x.isNaN = false) :
    rank (unpacked x) = (sign x).apply (2 ^ 52 * exponent x + fraction x) := by
  have fields := ofFloat_eq x
  rw [unpacked_eq]
  split
  · rename_i full
    by_cases whole : fraction x = 0
    · rw [if_pos whole, full, whole]
      rfl
    · rw [(isNaN_iff x).mpr ⟨full, whole⟩] at number
      cases number
  · split
    · rename_i zero
      obtain ⟨exponents, fractions⟩ := (isZero_iff x).mpr zero
      rw [exponents, fractions]
      exact (apply_zero _).symm
    · rw [rank]
      congr 1
      by_cases subnormal : exponent x = 0
      · rw [subnormal] at fields
        rw [fields, subnormal]
        rfl
      · rw [Dyadic.ofFields_normal subnormal] at fields
        rw [fields]
        push_cast
        ring

theorem fields_of_bits {x : Float} {s : Sign} {e f : Nat} (exponent_lt : e < 2 ^ 11)
    (fraction_lt : f < 2 ^ 52)
    (same : bits x = 2 ^ 63 * s.toBitVec.toNat + 2 ^ 52 * e + f) :
    sign x = s ∧ exponent x = e ∧ fraction x = f := by
  refine ⟨?_, ?_, ?_⟩
  · have zero : Sign.positive.toBitVec.toNat = 0 := rfl
    have one : Sign.negative.toBitVec.toNat = 1 := rfl
    rw [sign, negative, same]
    cases s with
    | positive =>
        have top : (2 ^ 63 * Sign.positive.toBitVec.toNat + 2 ^ 52 * e + f) / 2 ^ 63 = 0 := by omega
        rw [top]
        rfl
    | negative =>
        have top : (2 ^ 63 * Sign.negative.toBitVec.toNat + 2 ^ 52 * e + f) / 2 ^ 63 = 1 := by omega
        rw [top]
        rfl
  · have bit := s.toBitVec.isLt
    rw [exponent, same]
    omega
  · rw [fraction, same]
    omega

/-- The place of a double whose fields stand in its bits. -/
theorem rank_of_bits {x : Float} {s : Sign} {e f : Nat} (exponent_lt : e < 2047)
    (fraction_lt : f < 2 ^ 52)
    (same : bits x = 2 ^ 63 * s.toBitVec.toNat + 2 ^ 52 * e + f) :
    rank (unpacked x) = s.apply (2 ^ 52 * e + f) := by
  obtain ⟨signs, exponents, fractions⟩ := fields_of_bits (by omega) fraction_lt same
  have number : x.isNaN = false := isNaN_of_finite (by rw [Finite, exponents]; omega)
  rw [rank_unpacked number, signs, exponents, fractions]

theorem unpacked_packed_infinity (s : Sign) : unpacked (packed (.infinity s)) = .infinity s := by
  cases s <;> rfl

theorem unpacked_packed_zero (s : Sign) : unpacked (packed (.zero s)) = .zero s := by
  cases s <;> rfl

/-- A mantissa has 53 bits, or fewer on the finest grid. -/
structure Canonical (m : Nat) (e : Int) : Prop where
  short : m < 2 ^ 53
  lowest : -1074 ≤ e
  full : e ≠ -1074 → 2 ^ 52 ≤ m

/-- A number that is packed keeps its place, or becomes infinite. -/
theorem rank_packed {m : Nat} {e : Int} (s : Sign) (positive : 0 < m) (canonical : Canonical m e) :
    rank (unpacked (packed (.finite s m e positive))) =
      s.apply (min (infinityPlace : Int) ((e + 1074) * 2 ^ 52 + m)) := by
  obtain ⟨short, lowest, full⟩ := canonical
  have edge : (infinityPlace : Int) = 2047 * 2 ^ 52 := rfl
  by_cases small : m < 2 ^ 52
  · have finest : e = -1074 := by
      by_contra coarse
      exact absurd (full coarse) (not_le.mpr small)
    subst finest
    have same : bits (packed (.finite s m (-1074) positive)) =
        2 ^ 63 * s.toBitVec.toNat + 2 ^ 52 * 0 + m := by
      change (UnpackedFloat.pack .binary64 _).toNat = _
      rw [pack_subnormal s positive small, packComponents_toNat, BitVec.toNat_ofNat,
        Nat.mod_eq_of_lt small]
      rfl
    rw [rank_of_bits (by decide) small same]
    congr 1
    omega
  · obtain ⟨f, rfl⟩ := Nat.exists_eq_add_of_le (not_lt.mp small)
    obtain ⟨E, rfl⟩ : ∃ E : Nat, e = E - 1075 := ⟨(e + 1075).toNat, by omega⟩
    by_cases high : E < 2047
    · have bound : E < 2 ^ 11 := by omega
      have rest : f < 2 ^ 52 := by omega
      have same : bits (packed (.finite s (2 ^ 52 + f) (E - 1075) positive)) =
          2 ^ 63 * s.toBitVec.toNat + 2 ^ 52 * E + f := by
        change (UnpackedFloat.pack .binary64 _).toNat = _
        rw [pack_normal s high rest positive, packComponents_toNat, BitVec.toNat_ofNat,
          BitVec.toNat_ofNat, Nat.mod_eq_of_lt rest, Nat.mod_eq_of_lt bound]
      rw [rank_of_bits high rest same]
      congr 1
      omega
    · have large : UnpackedFloat.pack .binary64 (.finite s (2 ^ 52 + f) (E - 1075) positive) =
          UnpackedFloat.pack .binary64 (.infinity s) := by
        rw [UnpackedFloat.pack]
        refine if_pos ?_
        change 2 ^ 11 ≤ ((E : Int) - 1075 + (1023 : Nat) + (52 : Nat)).toNat + 1
        omega
      have same : packed (.finite s (2 ^ 52 + f) (E - 1075) positive) = packed (.infinity s) :=
        eq_of_bits (congrArg BitVec.toNat large)
      rw [same, unpacked_packed_infinity, rank]
      congr 1
      omega

/-- A number whose mantissa may be zero. -/
def ofMantissa (s : Sign) (m : Nat) (e : Int) : UnpackedFloat :=
  if zero : m = 0 then .zero s else .finite s m e (Nat.pos_of_ne_zero zero)

theorem rank_packed_ofMantissa {m : Nat} {e : Int} (s : Sign) (canonical : Canonical m e) :
    rank (unpacked (packed (ofMantissa s m e))) =
      s.apply (min (infinityPlace : Int) ((e + 1074) * 2 ^ 52 + m)) := by
  unfold ofMantissa
  split
  · rename_i zero
    subst zero
    have finest : e = -1074 := by
      by_contra coarse
      exact absurd (canonical.full coarse) (by decide)
    rw [unpacked_packed_zero, finest]
    exact (apply_zero s).symm
  · exact rank_packed s _ canonical

end Ranks

section Rounding

theorem log2_mul_two_pow {m : Nat} (positive : 0 < m) (count : Nat) :
    (m * 2 ^ count).log2 = m.log2 + count := by
  induction count with
  | zero => rw [Nat.pow_zero, Nat.mul_one, Nat.add_zero]
  | succ count ih =>
      have nonzero : m * 2 ^ count ≠ 0 := (Nat.mul_pos positive (Nat.two_pow_pos count)).ne'
      have twice : m * 2 ^ (count + 1) = 2 * (m * 2 ^ count) := by ring
      rw [twice, Nat.log2_two_mul nonzero, ih, Nat.add_assoc]

/-- The power of two that a number is shifted to. -/
theorem targetExponent_eq {m : Nat} (positive : 0 < m) {e : Int} (low : -2148 ≤ e) :
    Format.targetExponent .binary64 (Float.Model.totalExponent m e) =
      grid (m * 2 ^ (e + 2148).toNat) - 2148 := by
  rw [grid, log2_mul_two_pow positive]
  change max ((m.log2 + 1 + e : Int) - (1 + 52 : Nat)) (3 - 2 ^ (11 - 1) - (1 + 52 : Nat)) = _
  norm_num
  omega

/-- A rounded mantissa is shifted only if the carry has given it one more bit. -/
theorem shiftToTargetExponent_rounded {q : Nat} {t : Int} (bound : q ≤ 2 ^ 53)
    (low : -1074 ≤ t) :
    UnpackedFloat.shiftToTargetExponent .binary64 q t .exact =
      if q = 2 ^ 53 then (⟨2 ^ 52, false, false⟩, t + 1) else (⟨q, false, false⟩, t) := by
  have target : Format.targetExponent .binary64 (Float.Model.totalExponent q t) =
      max (q.log2 + t - 52) (-1074) := by
    change max ((q.log2 + 1 + t : Int) - (1 + 52 : Nat)) (3 - 2 ^ (11 - 1) - (1 + 52 : Nat)) = _
    norm_num
    omega
  rw [UnpackedFloat.shiftToTargetExponent, target, UnpackedFloat.shiftToExponent]
  split
  · rename_i carried
    have one : (max ((q.log2 : Int) + t - 52) (-1074) - t).toNat = 1 := by
      rw [carried, Nat.log2_two_pow]
      omega
    rw [one, carried]
    rfl
  · have log : q.log2 < 53 := by
      rcases Nat.eq_zero_or_pos q with rfl | positive
      · decide
      · exact (Nat.log2_lt positive.ne').mpr (by omega)
    have none : (max ((q.log2 : Int) + t - 52) (-1074) - t).toNat = 0 := by omega
    rw [none, Nat.cast_zero, add_zero]
    rfl

/-- Rounding a number that is counted in units no coarser than its grid. -/
theorem rank_roundWithAccuracy (s : Sign) {m n : Nat} (positive : 0 < m) {e : Int}
    (low : -2148 ≤ e) (counted : m * 2 ^ (e + 2148).toNat = n) (fine : e ≤ grid n - 2148) :
    rank (unpacked (packed (UnpackedFloat.roundWithAccuracy .binary64 s m e .exact))) =
      s.apply (place n) := by
  have coarsest : 1074 ≤ grid n := le_max_right _ _
  have target := targetExponent_eq positive low
  rw [counted] at target
  have rounded : (ExtendedMantissa.ofMantissaAndAccuracy m .exact >>>
      ((grid n : Int) - 2148 - e).toNat).roundedMantissa = nearest n (2 ^ grid n) := by
    have units : 2 ^ grid n =
        2 ^ ((grid n : Int) - 2148 - e).toNat * 2 ^ (e + 2148).toNat := by
      rw [← Nat.pow_add]
      congr 1
      omega
    rw [roundedMantissa_shifted, units, ← counted, nearest_mul m _ (Nat.two_pow_pos _)]
  have power : e + (((grid n : Int) - 2148 - e).toNat : Int) = grid n - 2148 := by omega
  have bound := nearest_grid_le n
  have shape : UnpackedFloat.roundWithAccuracy .binary64 s m e .exact =
      if nearest n (2 ^ grid n) = 2 ^ 53 then ofMantissa s (2 ^ 52) (grid n - 2148 + 1)
      else ofMantissa s (nearest n (2 ^ grid n)) (grid n - 2148) := by
    unfold UnpackedFloat.roundWithAccuracy
    rw [UnpackedFloat.shiftToTargetExponent, target, UnpackedFloat.shiftToExponent]
    dsimp only
    rw [rounded, power, shiftToTargetExponent_rounded bound (by omega)]
    split <;> rfl
  obtain ⟨k, level⟩ := Nat.exists_eq_add_of_le coarsest
  rw [shape, place, Nat.cast_min]
  split
  · rename_i carried
    have value : ((grid n : Int) - 2148 + 1 + 1074) * 2 ^ 52 + (2 ^ 52 : Nat) =
        ((grid n - 1074) * 2 ^ 52 + 2 ^ 53 : Nat) := by
      rw [level, Nat.add_sub_cancel_left]
      push_cast
      ring
    rw [carried, rank_packed_ofMantissa s ⟨by decide, by omega, fun _ => le_rfl⟩, value]
  · rename_i whole
    have full : (grid n : Int) - 2148 ≠ -1074 → 2 ^ 52 ≤ nearest n (2 ^ grid n) := fun coarse =>
      le_nearest_grid (by omega)
    have value : ((grid n : Int) - 2148 + 1074) * 2 ^ 52 + nearest n (2 ^ grid n) =
        ((grid n - 1074) * 2 ^ 52 + nearest n (2 ^ grid n) : Nat) := by
      rw [level, Nat.add_sub_cancel_left]
      push_cast
      ring
    rw [rank_packed_ofMantissa s ⟨by omega, by omega, full⟩, value]

/-- Rounding a number that is counted in any units. -/
theorem rank_round (s : Sign) {m n : Nat} (positive : 0 < m) {e : Int} (low : -2148 ≤ e)
    (counted : m * 2 ^ (e + 2148).toNat = n) :
    rank (unpacked (packed (UnpackedFloat.round .binary64 s m e))) = s.apply (place n) := by
  have target := targetExponent_eq positive low
  have coarsest : 1074 ≤ grid n := le_max_right _ _
  rw [counted] at target
  unfold UnpackedFloat.round UnpackedFloat.decreaseExponent
  rw [target]
  dsimp only
  obtain ⟨shift, amount⟩ : ∃ shift, shift = (e - ((grid n : Int) - 2148)).toNat := ⟨_, rfl⟩
  rw [← amount, Nat.shiftLeft_eq]
  have units : 2 ^ (e + 2148).toNat = 2 ^ shift * 2 ^ (e - shift + 2148).toNat := by
    rw [← Nat.pow_add]
    congr 1
    omega
  refine rank_roundWithAccuracy s (Nat.mul_pos positive (Nat.two_pow_pos _)) ?_ ?_ ?_
  · omega
  · rw [Nat.mul_assoc, ← units, counted]
  · omega

end Rounding

end RobustMargin.Double
