import RobustMargin.Proofs.DoubleRounding

/-! # The places of doubles

Numbers are compared by their places among all doubles. The place of a sum or of a product of finite
doubles is that of the exact value, rounded once. -/
namespace RobustMargin.Double

open Float.Model (UnpackedFloat Format)
open Float.Model.UnpackedFloat (Sign)
open Decimal (Dyadic)

section Places

/-- A double's mantissa and power of two, and its place, lie in range. -/
def InRange : UnpackedFloat → Prop
  | .finite _ m e _ => Canonical m e ∧ e ≤ 971
  | _ => True

theorem inRange_unpacked (x : Float) : InRange (unpacked x) := by
  have small := fraction_lt x
  have fields := ofFloat_eq x
  rw [unpacked_eq]
  split
  · split <;> trivial
  · rename_i finite
    split
    · trivial
    · have bound := Finite.exponent_lt finite
      rw [InRange]
      by_cases subnormal : exponent x = 0
      · rw [subnormal] at fields
        rw [fields]
        have low : (-1074 : Int) ≤ 971 := by decide
        exact ⟨⟨small.trans (by decide), le_rfl, fun coarse => absurd rfl coarse⟩, low⟩
      · rw [Dyadic.ofFields_normal subnormal] at fields
        rw [fields]
        refine ⟨⟨?_, ?_, fun _ => Nat.le_add_right _ _⟩, ?_⟩
        all_goals
          dsimp only
          omega

/-- The place of a positive double. -/
def size (m : Nat) (e : Int) : Int := (e + 1074) * 2 ^ 52 + m

theorem rank_finite (s : Sign) (m : Nat) (e : Int) (positive : 0 < m) :
    rank (.finite s m e positive) = s.apply (size m e) := rfl

theorem size_pos {m : Nat} {e : Int} (positive : 0 < m) (canonical : Canonical m e) :
    0 < size m e := by
  have lowest := canonical.lowest
  rw [size]
  omega

theorem size_lt {m : Nat} {e : Int} (canonical : Canonical m e) (high : e ≤ 971) :
    size m e < infinityPlace := by
  have short := canonical.short
  rw [size, infinityPlace]
  push_cast
  omega

/-- Powers of two are compared first, then mantissas. -/
theorem compare_then_eq {m n : Nat} {e f : Int} (first : Canonical m e) (second : Canonical n f) :
    (compare e f).then (compare m n) = compare (size m e) (size n f) := by
  obtain ⟨shortM, lowestM, fullM⟩ := first
  obtain ⟨shortN, lowestN, fullN⟩ := second
  rw [size, size]
  rcases lt_trichotomy e f with below | rfl | above
  · have full := fullN (by omega)
    rw [compare_lt_iff_lt.mpr below]
    exact (compare_lt_iff_lt.mpr (by omega)).symm
  · rw [compare_eq_iff_eq.mpr rfl]
    change compare m n = _
    rcases lt_trichotomy m n with less | rfl | more
    · rw [compare_lt_iff_lt.mpr less]
      exact (compare_lt_iff_lt.mpr (by omega)).symm
    · rw [compare_eq_iff_eq.mpr rfl, compare_eq_iff_eq.mpr rfl]
    · rw [compare_gt_iff_gt.mpr more]
      exact (compare_gt_iff_gt.mpr (by omega)).symm
  · have full := fullM (by omega)
    rw [compare_gt_iff_gt.mpr above]
    exact (compare_gt_iff_gt.mpr (by omega)).symm

theorem compare_neg (a b : Int) : compare (-a) (-b) = (compare a b).swap := by
  rw [← Std.OrientedCmp.eq_swap]
  rcases lt_trichotomy a b with less | rfl | more
  · rw [compare_gt_iff_gt.mpr less, compare_gt_iff_gt.mpr (neg_lt_neg less)]
  · rw [compare_eq_iff_eq.mpr rfl, compare_eq_iff_eq.mpr rfl]
  · rw [compare_lt_iff_lt.mpr more, compare_lt_iff_lt.mpr (neg_lt_neg more)]

theorem rank_lt {u : UnpackedFloat} (range : InRange u) (finite : u.isFinite = true) :
    -(infinityPlace : Int) < rank u ∧ rank u < infinityPlace := by
  cases u with
  | notANumber => cases finite
  | infinity s => cases finite
  | zero s => exact (by decide : -(infinityPlace : Int) < 0 ∧ (0 : Int) < infinityPlace)
  | finite s m e positive =>
      have low := size_pos positive range.1
      have high := size_lt range.1 range.2
      rw [rank_finite]
      cases s <;> simp only [Sign.apply] <;> omega

/-- A number is infinite or finite. -/
theorem infinite_or_finite {u : UnpackedFloat} (number : u.isNaN = false) :
    (∃ s, u = .infinity s) ∨ u.isFinite = true := by
  cases u with
  | notANumber => cases number
  | infinity s => exact .inl ⟨s, rfl⟩
  | zero s => exact .inr rfl
  | finite s m e positive => exact .inr rfl

theorem compare_infinity_left {v : UnpackedFloat} (range : InRange v) (finite : v.isFinite = true)
    (s : Sign) : (UnpackedFloat.infinity s).compare v =
      some (compare (rank (.infinity s)) (rank v)) := by
  obtain ⟨low, high⟩ := rank_lt range finite
  cases s with
  | positive =>
      have greater : (UnpackedFloat.infinity .positive).compare v = some .gt := by
        cases v <;> first | rfl | cases finite
      rw [greater]
      exact congrArg some (compare_gt_iff_gt.mpr high).symm
  | negative =>
      have less : (UnpackedFloat.infinity .negative).compare v = some .lt := by
        cases v <;> first | rfl | cases finite
      rw [less]
      exact congrArg some (compare_lt_iff_lt.mpr low).symm

theorem compare_infinity_right {u : UnpackedFloat} (range : InRange u) (finite : u.isFinite = true)
    (s : Sign) : u.compare (.infinity s) = some (compare (rank u) (rank (.infinity s))) := by
  obtain ⟨low, high⟩ := rank_lt range finite
  cases s with
  | positive =>
      have less : u.compare (.infinity .positive) = some .lt := by
        cases u with
        | notANumber => cases finite
        | infinity t => cases finite
        | zero t => rfl
        | finite t m e positive => cases t <;> rfl
      rw [less]
      exact congrArg some (compare_lt_iff_lt.mpr high).symm
  | negative =>
      have greater : u.compare (.infinity .negative) = some .gt := by
        cases u with
        | notANumber => cases finite
        | infinity t => cases finite
        | zero t => rfl
        | finite t m e positive => cases t <;> rfl
      rw [greater]
      exact congrArg some (compare_gt_iff_gt.mpr low).symm

/-- Finite numbers of one sign are compared by their sizes, others by their signs. -/
theorem compare_finite {u v : UnpackedFloat} (rangeU : InRange u) (rangeV : InRange v)
    (finiteU : u.isFinite = true) (finiteV : v.isFinite = true) :
    u.compare v = some (compare (rank u) (rank v)) := by
  cases u with
  | notANumber => cases finiteU
  | infinity s => cases finiteU
  | zero s =>
      cases v with
      | notANumber => cases finiteV
      | infinity t => cases finiteV
      | zero t => rfl
      | finite t n f positive =>
          have low := size_pos positive rangeV.1
          rw [rank_finite]
          cases t with
          | positive => exact congrArg some (compare_lt_iff_lt.mpr low).symm
          | negative => exact congrArg some (compare_gt_iff_gt.mpr (neg_neg_of_pos low)).symm
  | finite s m e positive =>
      have low := size_pos positive rangeU.1
      rw [rank_finite]
      cases v with
      | notANumber => cases finiteV
      | infinity t => cases finiteV
      | zero t =>
          cases s with
          | positive => exact congrArg some (compare_gt_iff_gt.mpr low).symm
          | negative => exact congrArg some (compare_lt_iff_lt.mpr (neg_neg_of_pos low)).symm
      | finite t n f positive' =>
          have low' := size_pos positive' rangeV.1
          have sides : -size m e < size n f ∧ -size n f < size m e := by omega
          rw [rank_finite]
          cases s <;> cases t
          · change some ((compare e f).then (compare m n)).swap = _
            rw [compare_then_eq rangeU.1 rangeV.1]
            exact congrArg some (compare_neg _ _).symm
          · exact congrArg some (compare_lt_iff_lt.mpr sides.1).symm
          · exact congrArg some (compare_gt_iff_gt.mpr sides.2).symm
          · exact congrArg some (compare_then_eq rangeU.1 rangeV.1)

/-- Numbers are compared by their places. -/
theorem compare_eq_rank {u v : UnpackedFloat} (rangeU : InRange u) (rangeV : InRange v)
    (numberU : u.isNaN = false) (numberV : v.isNaN = false) :
    u.compare v = some (compare (rank u) (rank v)) := by
  rcases infinite_or_finite numberU with ⟨s, rfl⟩ | finiteU
  · rcases infinite_or_finite numberV with ⟨t, rfl⟩ | finiteV
    · cases s <;> cases t <;> rfl
    · exact compare_infinity_left rangeV finiteV s
  · rcases infinite_or_finite numberV with ⟨t, rfl⟩ | finiteV
    · exact compare_infinity_right rangeU finiteU t
    · exact compare_finite rangeU rangeV finiteU finiteV

end Places

section Exact

/-- A finite double in units of the least positive one. -/
def steps : UnpackedFloat → Int
  | .finite s m e _ => s.apply (m * 2 ^ (e + 1074).toNat : Nat)
  | _ => 0

/-- The place of the double nearest to a number of either sign. -/
def signedPlace (n : Int) : Int := if n < 0 then -place (-n).toNat else place n.toNat

theorem place_zero : place 0 = 0 := by
  have level : grid 0 = 1074 := rfl
  have none := nearest_mul_self 0 (Nat.two_pow_pos (grid 0))
  rw [Nat.zero_mul] at none
  rw [place, none, level]
  rfl

theorem signedPlace_zero : signedPlace 0 = 0 := by
  rw [signedPlace, if_neg (lt_irrefl 0), Int.toNat_zero, place_zero, Nat.cast_zero]

theorem signedPlace_apply (s : Sign) (n : Nat) : signedPlace (s.apply n) = s.apply (place n) := by
  cases s with
  | positive =>
      change signedPlace (n : Int) = place n
      rw [signedPlace, if_neg (by omega), Int.toNat_natCast]
  | negative =>
      change signedPlace (-(n : Int)) = -place n
      rcases Nat.eq_zero_or_pos n with rfl | positive
      · rw [Nat.cast_zero, neg_zero, signedPlace_zero, place_zero, Nat.cast_zero, neg_zero]
      · rw [signedPlace, if_pos (by omega), neg_neg, Int.toNat_natCast]

theorem signedPlace_mono {m n : Int} (le : m ≤ n) : signedPlace m ≤ signedPlace n := by
  unfold signedPlace
  split <;> split
  · have shrunk : place (-n).toNat ≤ place (-m).toNat := place_mono (by omega)
    omega
  · omega
  · omega
  · have grown : place m.toNat ≤ place n.toNat := place_mono (by omega)
    omega

theorem signedPlace_bounds (n : Int) :
    -(infinityPlace : Int) ≤ signedPlace n ∧ signedPlace n ≤ infinityPlace := by
  have bound (k : Nat) : place k ≤ infinityPlace := min_le_left _ _
  have first := bound (-n).toNat
  have second := bound n.toNat
  unfold signedPlace
  split <;> omega

theorem rank_normalize (n : Int) {e : Int} (low : -2148 ≤ e) (s : Sign) :
    rank (unpacked (packed (UnpackedFloat.normalize .binary64 n e s))) =
      signedPlace (n * 2 ^ (e + 2148).toNat) := by
  rw [UnpackedFloat.normalize]
  rcases lt_trichotomy n 0 with negative | rfl | positive
  · obtain ⟨k, rfl⟩ := Int.exists_eq_neg_ofNat negative.le
    rw [compare_lt_iff_lt.mpr negative]
    dsimp only
    rw [neg_neg, Int.toNat_natCast, rank_round .negative (by omega) low rfl, ← signedPlace_apply]
    change signedPlace (-((k * 2 ^ (e + 2148).toNat : Nat) : Int)) = _
    push_cast
    rw [neg_mul]
  · rw [compare_eq_iff_eq.mpr rfl, zero_mul, signedPlace_zero]
    exact congrArg rank (unpacked_packed_zero s)
  · obtain ⟨k, rfl⟩ := Int.eq_ofNat_of_zero_le positive.le
    rw [compare_gt_iff_gt.mpr positive]
    dsimp only
    rw [Int.toNat_natCast, rank_round .positive (by omega) low rfl, ← signedPlace_apply]
    change signedPlace ((k * 2 ^ (e + 2148).toNat : Nat) : Int) = _
    push_cast
    rfl

/-- The place of a number that need not be rounded. -/
theorem place_canonical {m : Nat} {e : Int} (positive : 0 < m) (canonical : Canonical m e) :
    (place (m * 2 ^ (e + 2148).toNat) : Int) = min (infinityPlace : Int) (size m e) := by
  obtain ⟨short, lowest, full⟩ := canonical
  have level : grid (m * 2 ^ (e + 2148).toNat) = (e + 2148).toNat := by
    have log : m.log2 < 53 := (Nat.log2_lt positive.ne').mpr short
    rw [grid, log2_mul_two_pow positive]
    by_cases finest : e = -1074
    · omega
    · have high : 52 ≤ m.log2 := (Nat.le_log2 positive.ne').mpr (full finest)
      omega
  rw [place, level, nearest_mul_self m (Nat.two_pow_pos _), Nat.cast_min, size]
  congr 1
  obtain ⟨k, hk⟩ : ∃ k : Nat, e = k - 1074 := ⟨(e + 1074).toNat, by omega⟩
  subst hk
  have down : ((k : Int) - 1074 + 2148).toNat - 1074 = k := by omega
  rw [down]
  push_cast
  ring

theorem apply_mul (s : Sign) (a b : Int) : s.apply a * b = s.apply (a * b) := by
  cases s with
  | positive => rfl
  | negative => exact neg_mul a b

theorem apply_mul_apply (s t : Sign) (a b : Int) :
    s.apply a * t.apply b = (s * t).apply (a * b) := by
  cases s <;> cases t
  · exact neg_mul_neg a b
  · exact neg_mul a b
  · exact mul_neg a b
  · rfl

theorem cast_mul_two_pow (m a b : Nat) :
    ((m * 2 ^ a : Nat) : Int) * 2 ^ b = (m * 2 ^ (a + b) : Nat) := by
  push_cast
  rw [pow_add, mul_assoc]

/-- A finite double in finer units. -/
theorem steps_mul_two_pow (s : Sign) {m : Nat} {e : Int} (positive : 0 < m) (lowest : -1074 ≤ e)
    (b : Nat) : steps (.finite s m e positive) * 2 ^ b =
      s.apply (m * 2 ^ (e + 1074 + b).toNat : Nat) := by
  have exponent : (e + 1074).toNat + b = (e + 1074 + b).toNat := by omega
  rw [steps, apply_mul, cast_mul_two_pow, exponent]

/-- A finite double in range keeps its place when it is packed. -/
theorem rank_packed_steps {u : UnpackedFloat} (range : InRange u) (finite : u.isFinite = true) :
    rank (unpacked (packed u)) = signedPlace (steps u * 2 ^ 1074) := by
  cases u with
  | notANumber => cases finite
  | infinity s => cases finite
  | zero s =>
      have none : steps (.zero s) = 0 := rfl
      rw [unpacked_packed_zero, none, zero_mul, signedPlace_zero]
      rfl
  | finite s m e positive =>
      have counted := steps_mul_two_pow s positive range.1.lowest 1074
      have exponent : (e + 1074 + (1074 : Nat)).toNat = (e + 2148).toNat := by omega
      rw [exponent] at counted
      rw [rank_packed s positive range.1, counted, signedPlace_apply,
        place_canonical positive range.1, size]

/-- The sum of finite doubles is rounded once. -/
theorem rank_add {u v : UnpackedFloat} (rangeU : InRange u) (rangeV : InRange v)
    (finiteU : u.isFinite = true) (finiteV : v.isFinite = true) :
    rank (unpacked (packed (UnpackedFloat.add .binary64 u v))) =
      signedPlace ((steps u + steps v) * 2 ^ 1074) := by
  cases u with
  | notANumber => cases finiteU
  | infinity s => cases finiteU
  | zero s =>
      have none : steps (.zero s) = 0 := rfl
      rw [none, zero_add, ← rank_packed_steps rangeV finiteV]
      cases v with
      | notANumber => cases finiteV
      | infinity t => cases finiteV
      | zero t => cases s <;> cases t <;> rfl
      | finite t n f positive => rfl
  | finite s m e positive =>
      cases v with
      | notANumber => cases finiteV
      | infinity t => cases finiteV
      | zero t =>
          have none : steps (.zero t) = 0 := rfl
          rw [none, add_zero, ← rank_packed_steps rangeU finiteU]
          rfl
      | finite t n f positive' =>
          have lowE := rangeU.1.lowest
          have lowF := rangeV.1.lowest
          -- Both are counted in the units of the smaller power of two, and then in those of places.
          have first := steps_mul_two_pow s positive lowE 1074
          have second := steps_mul_two_pow t positive' lowF 1074
          have unitsE : (e - min e f).toNat + (min e f + 2148).toNat =
              (e + 1074 + (1074 : Nat)).toNat := by omega
          have unitsF : (f - min e f).toNat + (min e f + 2148).toNat =
              (f + 1074 + (1074 : Nat)).toNat := by omega
          rw [UnpackedFloat.add, UnpackedFloat.decreaseExponent, UnpackedFloat.decreaseExponent]
          dsimp only
          rw [rank_normalize _ (by omega), Nat.shiftLeft_eq, Nat.shiftLeft_eq, add_mul, add_mul,
            first, second, apply_mul, apply_mul, cast_mul_two_pow, cast_mul_two_pow, unitsE, unitsF]

/-- The product of a full mantissa has enough bits; two others are on the finest grid. -/
theorem le_grid_mul {m n : Nat} {e f : Int} (canonicalM : Canonical m e)
    (canonicalN : Canonical n f) (positive : 0 < m) (positive' : 0 < n) :
    e + f ≤ grid (m * n * 2 ^ (e + f + 2148).toNat) - 2148 := by
  have lowE := canonicalM.lowest
  have lowF := canonicalN.lowest
  have product := Nat.mul_pos positive positive'
  rw [grid, log2_mul_two_pow product]
  by_cases finest : e = -1074 ∧ f = -1074
  · omega
  · have high : 2 ^ 52 ≤ m * n := by
      by_cases coarse : e = -1074
      · exact (canonicalN.full fun h => finest ⟨coarse, h⟩).trans
          (Nat.le_mul_of_pos_left n positive)
      · exact (canonicalM.full coarse).trans (Nat.le_mul_of_pos_right m positive')
    have log : 52 ≤ (m * n).log2 := (Nat.le_log2 product.ne').mpr high
    omega

/-- The product of finite doubles is rounded once. -/
theorem rank_mul {u v : UnpackedFloat} (rangeU : InRange u) (rangeV : InRange v)
    (finiteU : u.isFinite = true) (finiteV : v.isFinite = true) :
    rank (unpacked (packed (UnpackedFloat.mul .binary64 u v))) =
      signedPlace (steps u * steps v) := by
  have zero (s : Sign) : rank (unpacked (packed (.zero s))) = signedPlace 0 := by
    rw [unpacked_packed_zero, signedPlace_zero]
    rfl
  cases u with
  | notANumber => cases finiteU
  | infinity s => cases finiteU
  | zero s =>
      have none : steps (.zero s) = 0 := rfl
      rw [none, zero_mul]
      cases v with
      | notANumber => cases finiteV
      | infinity t => cases finiteV
      | zero t => exact zero (s * t)
      | finite t n f positive => exact zero (s * t)
  | finite s m e positive =>
      cases v with
      | notANumber => cases finiteV
      | infinity t => cases finiteV
      | zero t =>
          have none : steps (.zero t) = 0 := rfl
          rw [none, mul_zero]
          exact zero (s * t)
      | finite t n f positive' =>
          have lowE := rangeU.1.lowest
          have lowF := rangeV.1.lowest
          have units : (e + f + 2148).toNat = (e + 1074).toNat + (f + 1074).toNat := by omega
          have counted : m * 2 ^ (e + 1074).toNat * (n * 2 ^ (f + 1074).toNat) =
              m * n * 2 ^ (e + f + 2148).toNat := by
            rw [units, Nat.pow_add]
            ring
          have fine := le_grid_mul rangeU.1 rangeV.1 positive positive'
          rw [UnpackedFloat.mul, rank_roundWithAccuracy (s * t) (Nat.mul_pos positive positive')
            (by omega) rfl fine, ← signedPlace_apply, steps, steps, apply_mul_apply, ← counted,
            Nat.cast_mul (m * 2 ^ (e + 1074).toNat)]

end Exact

end RobustMargin.Double
