import RobustMargin.Proofs.DoublePlaces

/-! # The order of doubles

Sums, differences and products respect the order of doubles although they are rounded and may become
infinite: the place of a result never decreases with the exact value. A result that is no number is
not compared at all. -/
namespace RobustMargin.Double

open Float.Model (UnpackedFloat Format)
open Float.Model.UnpackedFloat (Sign)

section Extended

/-- A number in units of the least positive double. -/
noncomputable def extended : UnpackedFloat → EReal
  | .infinity .positive => ⊤
  | .infinity .negative => ⊥
  | u => ((steps u : ℝ) : EReal)

/-- The place of the double nearest to a number, in units of which the least positive double has a
power of two. -/
noncomputable def roundedRank (power : Nat) (x : EReal) : Int :=
  if x = ⊤ then infinityPlace
  else if x = ⊥ then -infinityPlace
  else signedPlace (⌊x.toReal⌋ * 2 ^ power)

theorem roundedRank_top (power : Nat) : roundedRank power ⊤ = infinityPlace := if_pos rfl

theorem roundedRank_bot (power : Nat) : roundedRank power ⊥ = -infinityPlace := by
  rw [roundedRank, if_neg bot_ne_top, if_pos rfl]

theorem roundedRank_coe (power : Nat) (n : Int) :
    roundedRank power ((n : ℝ) : EReal) = signedPlace (n * 2 ^ power) := by
  rw [roundedRank, if_neg (EReal.coe_ne_top _), if_neg (EReal.coe_ne_bot _), EReal.toReal_coe,
    Int.floor_intCast]

theorem roundedRank_bounds (power : Nat) (x : EReal) :
    -(infinityPlace : Int) ≤ roundedRank power x ∧ roundedRank power x ≤ infinityPlace := by
  have positive : 0 < (infinityPlace : Int) := by decide
  unfold roundedRank
  split
  · omega
  · split
    · omega
    · exact signedPlace_bounds _

theorem roundedRank_mono (power : Nat) : Monotone (roundedRank power) := by
  intro x y le
  by_cases top : y = ⊤
  · rw [top, roundedRank_top]
    exact (roundedRank_bounds power x).2
  by_cases bottom : x = ⊥
  · rw [bottom, roundedRank_bot]
    exact (roundedRank_bounds power y).1
  have below : x ≠ ⊤ := fun h => top (top_le_iff.mp (h ▸ le))
  have above : y ≠ ⊥ := fun h => bottom (le_bot_iff.mp (h ▸ le))
  rw [roundedRank, roundedRank, if_neg below, if_neg bottom, if_neg top, if_neg above]
  have floors := Int.floor_le_floor (EReal.toReal_le_toReal le bottom top)
  exact signedPlace_mono (mul_le_mul_of_nonneg_right floors (by positivity))

/-- Greater places belong to greater numbers. -/
theorem scaled_le_of_size_le {m n : Nat} {e f : Int} (first : Canonical m e)
    (second : Canonical n f) (le : size m e ≤ size n f) :
    m * 2 ^ (e + 1074).toNat ≤ n * 2 ^ (f + 1074).toNat := by
  obtain ⟨shortM, lowestM, fullM⟩ := first
  obtain ⟨shortN, lowestN, fullN⟩ := second
  rw [size, size] at le
  rcases lt_trichotomy e f with below | rfl | above
  · have full := fullN (by omega)
    calc m * 2 ^ (e + 1074).toNat ≤ 2 ^ 53 * 2 ^ (e + 1074).toNat :=
          Nat.mul_le_mul_right _ shortM.le
      _ = 2 ^ (53 + (e + 1074).toNat) := (Nat.pow_add ..).symm
      _ ≤ 2 ^ (52 + (f + 1074).toNat) := Nat.pow_le_pow_right two_pos (by omega)
      _ = 2 ^ 52 * 2 ^ (f + 1074).toNat := Nat.pow_add ..
      _ ≤ n * 2 ^ (f + 1074).toNat := Nat.mul_le_mul_right _ full
  · exact Nat.mul_le_mul_right _ (by omega)
  · have full := fullM (by omega)
    omega

theorem steps_le_of_rank_le {u v : UnpackedFloat} (rangeU : InRange u) (rangeV : InRange v)
    (finiteU : u.isFinite = true) (finiteV : v.isFinite = true) (le : rank u ≤ rank v) :
    steps u ≤ steps v := by
  cases u with
  | notANumber => cases finiteU
  | infinity s => cases finiteU
  | zero s =>
      cases v with
      | notANumber => cases finiteV
      | infinity t => cases finiteV
      | zero t => exact le_rfl
      | finite t n f positive =>
          have low := size_pos positive rangeV.1
          cases t with
          | positive => exact Int.natCast_nonneg _
          | negative => exact absurd le (not_le.mpr (neg_neg_of_pos low))
  | finite s m e positive =>
      have low := size_pos positive rangeU.1
      cases v with
      | notANumber => cases finiteV
      | infinity t => cases finiteV
      | zero t =>
          cases s with
          | positive => exact absurd le (not_le.mpr low)
          | negative => exact neg_nonpos.mpr (Int.natCast_nonneg _)
      | finite t n f positive' =>
          have low' := size_pos positive' rangeV.1
          rw [rank_finite, rank_finite] at le
          cases s <;> cases t
          · exact neg_le_neg (Int.ofNat_le.mpr
              (scaled_le_of_size_le rangeV.1 rangeU.1 (neg_le_neg_iff.mp le)))
          · exact (neg_nonpos.mpr (Int.natCast_nonneg _)).trans (Int.natCast_nonneg _)
          · exact absurd le (not_le.mpr ((neg_neg_of_pos low').trans low))
          · exact Int.ofNat_le.mpr (scaled_le_of_size_le rangeU.1 rangeV.1 le)

theorem extended_finite {u : UnpackedFloat} (finite : u.isFinite = true) :
    extended u = ((steps u : ℝ) : EReal) := by
  cases u with
  | notANumber => cases finite
  | infinity s => cases finite
  | zero s => rfl
  | finite s m e positive => rfl

/-- A number of no earlier place is no smaller. -/
theorem extended_le_of_rank_le {u v : UnpackedFloat} (rangeU : InRange u) (rangeV : InRange v)
    (numberU : u.isNaN = false) (numberV : v.isNaN = false) (le : rank u ≤ rank v) :
    extended u ≤ extended v := by
  rcases infinite_or_finite numberU with ⟨s, rfl⟩ | finiteU
  · cases s with
    | negative => exact bot_le
    | positive =>
        rcases infinite_or_finite numberV with ⟨t, rfl⟩ | finiteV
        · cases t with
          | negative => exact absurd le (by decide)
          | positive => exact le_rfl
        · exact absurd le (not_le.mpr (rank_lt rangeV finiteV).2)
  · rcases infinite_or_finite numberV with ⟨t, rfl⟩ | finiteV
    · cases t with
      | negative => exact absurd le (not_le.mpr (rank_lt rangeU finiteU).1)
      | positive => exact le_top
    · have whole := steps_le_of_rank_le rangeU rangeV finiteU finiteV le
      rw [extended_finite finiteU, extended_finite finiteV, EReal.coe_le_coe_iff]
      exact_mod_cast whole

theorem isNaN_of_add_unpacked {u v : UnpackedFloat}
    (number : (UnpackedFloat.add .binary64 u v).isNaN = false) :
    u.isNaN = false ∧ v.isNaN = false := by
  cases u with
  | notANumber => cases number
  | _ =>
      cases v with
      | notANumber => cases number
      | _ => exact ⟨rfl, rfl⟩

theorem isNaN_of_mul_unpacked {u v : UnpackedFloat}
    (number : (UnpackedFloat.mul .binary64 u v).isNaN = false) :
    u.isNaN = false ∧ v.isNaN = false := by
  cases u with
  | notANumber => cases number
  | _ =>
      cases v with
      | notANumber => cases number
      | _ => exact ⟨rfl, rfl⟩

/-- A sum that is a number is the rounded sum of what its parts stand for. -/
theorem rank_add_extended {u v : UnpackedFloat} (rangeU : InRange u) (rangeV : InRange v)
    (number : (UnpackedFloat.add .binary64 u v).isNaN = false) :
    rank (unpacked (packed (UnpackedFloat.add .binary64 u v))) =
      roundedRank 1074 (extended u + extended v) := by
  have top : rank (.infinity .positive) = roundedRank 1074 ⊤ := (roundedRank_top _).symm
  have bottom : rank (.infinity .negative) = roundedRank 1074 ⊥ := (roundedRank_bot _).symm
  obtain ⟨numberU, numberV⟩ := isNaN_of_add_unpacked number
  rcases infinite_or_finite numberU with ⟨s, rfl⟩ | finiteU
  · have absorbs (finiteV : v.isFinite = true) :
        UnpackedFloat.add .binary64 (.infinity s) v = .infinity s := by
      cases v with
      | notANumber => cases finiteV
      | infinity t => cases finiteV
      | zero t => rfl
      | finite t n f positive => rfl
    rcases infinite_or_finite numberV with ⟨t, rfl⟩ | finiteV
    · cases s <;> cases t
      · exact bottom
      · cases number
      · cases number
      · exact top
    · rw [absorbs finiteV, unpacked_packed_infinity, extended_finite finiteV]
      cases s with
      | negative => exact bottom.trans (congrArg _ (EReal.bot_add _).symm)
      | positive => exact top.trans (congrArg _ (EReal.top_add_coe _).symm)
  · rcases infinite_or_finite numberV with ⟨t, rfl⟩ | finiteV
    · have absorbs : UnpackedFloat.add .binary64 u (.infinity t) = .infinity t := by
        cases u with
        | notANumber => cases finiteU
        | infinity s => cases finiteU
        | zero s => rfl
        | finite s m e positive => rfl
      rw [absorbs, unpacked_packed_infinity, extended_finite finiteU]
      cases t with
      | negative => exact bottom.trans (congrArg _ (EReal.add_bot _).symm)
      | positive => exact top.trans (congrArg _ (EReal.coe_add_top _).symm)
    · rw [rank_add rangeU rangeV finiteU finiteV, extended_finite finiteU,
        extended_finite finiteV, ← EReal.coe_add, ← Int.cast_add, roundedRank_coe]

theorem extended_positive {m : Nat} {e : Int} (positive : 0 < m) :
    0 < extended (.finite .positive m e positive) := by
  have whole : 0 < steps (.finite .positive m e positive) :=
    Int.natCast_pos.mpr (Nat.mul_pos positive (Nat.two_pow_pos _))
  exact EReal.coe_pos.mpr (Int.cast_pos.mpr whole)

theorem extended_negative {m : Nat} {e : Int} (positive : 0 < m) :
    extended (.finite .negative m e positive) < 0 := by
  have whole : steps (.finite .negative m e positive) < 0 :=
    neg_neg_of_pos (Int.natCast_pos.mpr (Nat.mul_pos positive (Nat.two_pow_pos _)))
  exact EReal.coe_neg'.mpr (Int.cast_lt_zero.mpr whole)

/-- A product that is a number is the rounded product of what its factors stand for. -/
theorem rank_mul_extended {u v : UnpackedFloat} (rangeU : InRange u) (rangeV : InRange v)
    (number : (UnpackedFloat.mul .binary64 u v).isNaN = false) :
    rank (unpacked (packed (UnpackedFloat.mul .binary64 u v))) =
      roundedRank 0 (extended u * extended v) := by
  have top : rank (unpacked (packed (.infinity .positive))) = roundedRank 0 ⊤ :=
    (roundedRank_top _).symm
  have bottom : rank (unpacked (packed (.infinity .negative))) = roundedRank 0 ⊥ :=
    (roundedRank_bot _).symm
  obtain ⟨numberU, numberV⟩ := isNaN_of_mul_unpacked number
  rcases infinite_or_finite numberU with ⟨s, rfl⟩ | finiteU
  · cases v with
    | notANumber => cases numberV
    | zero t => cases number
    | infinity t =>
        cases s <;> cases t
        · exact top
        · exact bottom
        · exact bottom
        · exact top
    | finite t n f positive =>
        have above := extended_positive (e := f) positive
        have below := extended_negative (e := f) positive
        cases s <;> cases t
        · exact top.trans (congrArg _ (EReal.bot_mul_of_neg below).symm)
        · exact bottom.trans (congrArg _ (EReal.bot_mul_of_pos above).symm)
        · exact bottom.trans (congrArg _ (EReal.top_mul_of_neg below).symm)
        · exact top.trans (congrArg _ (EReal.top_mul_of_pos above).symm)
  · rcases infinite_or_finite numberV with ⟨t, rfl⟩ | finiteV
    · cases u with
      | notANumber => cases numberU
      | infinity s => cases finiteU
      | zero s => cases number
      | finite s m e positive =>
          have above := extended_positive (e := e) positive
          have below := extended_negative (e := e) positive
          cases s <;> cases t
          · exact top.trans (congrArg _ (EReal.mul_bot_of_neg below).symm)
          · exact bottom.trans (congrArg _ (EReal.mul_top_of_neg below).symm)
          · exact bottom.trans (congrArg _ (EReal.mul_bot_of_pos above).symm)
          · exact top.trans (congrArg _ (EReal.mul_top_of_pos above).symm)
    · rw [rank_mul rangeU rangeV finiteU finiteV, extended_finite finiteU,
        extended_finite finiteV, ← EReal.coe_mul, ← Int.cast_mul, roundedRank_coe, pow_zero,
        mul_one]

theorem sub_eq_add_neg (u v : UnpackedFloat) :
    UnpackedFloat.sub .binary64 u v = UnpackedFloat.add .binary64 u v.neg := by
  cases u with
  | notANumber => rfl
  | infinity s => cases v <;> rfl
  | zero s => cases v <;> rfl
  | finite s m e positive =>
      cases v with
      | finite t n f positive' =>
          have opposite (k : Int) : (-t).apply k = -t.apply k := by
            cases t with
            | negative => exact (neg_neg k).symm
            | positive => rfl
          rw [UnpackedFloat.sub, UnpackedFloat.neg, UnpackedFloat.add]
          dsimp only
          rw [opposite, Int.sub_eq_add_neg]
      | _ => rfl

theorem extended_neg (u : UnpackedFloat) : extended u.neg = -extended u := by
  cases u with
  | notANumber => simp [UnpackedFloat.neg, extended, steps]
  | infinity s => cases s <;> rfl
  | zero s => simp [UnpackedFloat.neg, extended, steps]
  | finite s m e positive => cases s <;> simp [UnpackedFloat.neg, extended, steps, Sign.apply]

theorem inRange_neg {u : UnpackedFloat} (range : InRange u) : InRange u.neg := by
  cases u <;> exact range

end Extended

section Doubles

variable {a b c d k : Float}

theorem isNaN_of_packed {u : UnpackedFloat} (number : (packed u).isNaN = false) :
    u.isNaN = false := by
  cases u with
  | notANumber => cases number
  | _ => rfl

/-- A comparison is one of places, and there is none with what is no number. -/
theorem compare_unpacked_eq_some_iff (order : Ordering) :
    (unpacked a).compare (unpacked b) = some order ↔ a.isNaN = false ∧ b.isNaN = false ∧
      compare (rank (unpacked a)) (rank (unpacked b)) = order := by
  change _ ↔ (unpacked a).isNaN = false ∧ (unpacked b).isNaN = false ∧ _
  cases numberA : (unpacked a).isNaN with
  | true =>
      refine iff_of_false ?_ fun both => Bool.noConfusion both.1
      cases first : unpacked a <;> rw [first] at numberA <;> cases numberA
      simp [UnpackedFloat.compare]
  | false =>
      cases numberB : (unpacked b).isNaN with
      | true =>
          refine iff_of_false ?_ fun both => Bool.noConfusion both.2.1
          cases second : unpacked b <;> rw [second] at numberB <;> cases numberB
          cases unpacked a <;> simp [UnpackedFloat.compare]
      | false =>
          rw [compare_eq_rank (inRange_unpacked a) (inRange_unpacked b) numberA numberB,
            Option.some_inj]
          exact ⟨fun same => ⟨rfl, rfl, same⟩, fun both => both.2.2⟩

theorem lt_iff_rank : a < b ↔ a.isNaN = false ∧ b.isNaN = false ∧
    rank (unpacked a) < rank (unpacked b) := by
  rw [lt_iff, UnpackedFloat.lt, beq_iff_eq, compare_unpacked_eq_some_iff, compare_lt_iff_lt]

theorem le_iff_rank : a ≤ b ↔ a.isNaN = false ∧ b.isNaN = false ∧
    rank (unpacked a) ≤ rank (unpacked b) := by
  rw [le_iff, UnpackedFloat.le, Option.any_eq_true]
  constructor
  · rintro ⟨order, compared, le⟩
    obtain ⟨numberA, numberB, rfl⟩ := (compare_unpacked_eq_some_iff order).mp compared
    exact ⟨numberA, numberB, Std.isLE_compare.mp le⟩
  · rintro ⟨numberA, numberB, le⟩
    exact ⟨_, (compare_unpacked_eq_some_iff _).mpr ⟨numberA, numberB, rfl⟩,
      Std.isLE_compare.mpr le⟩

theorem not_lt_self (a : Float) : ¬ a < a := by
  intro less
  exact absurd (lt_iff_rank.mp less).2.2 (lt_irrefl _)

theorem not_lt_of_le (le : a ≤ b) : ¬ b < a := by
  intro less
  exact not_le.mpr (lt_iff_rank.mp less).2.2 (le_iff_rank.mp le).2.2

theorem le_of_lt (less : a < b) : a ≤ b := by
  obtain ⟨numberA, numberB, places⟩ := lt_iff_rank.mp less
  exact le_iff_rank.mpr ⟨numberA, numberB, places.le⟩

theorem extended_le (numberA : a.isNaN = false) (numberB : b.isNaN = false) (le : ¬ b < a) :
    extended (unpacked a) ≤ extended (unpacked b) := by
  refine extended_le_of_rank_le (inRange_unpacked a) (inRange_unpacked b) numberA numberB ?_
  exact not_lt.mp fun less => le (lt_iff_rank.mpr ⟨numberB, numberA, less⟩)

theorem extended_zero : extended (unpacked 0) = 0 := by
  have zero : unpacked 0 = .zero .positive := rfl
  rw [zero, extended_finite rfl]
  simp [steps]

theorem isNaN_of_add (number : (a + b).isNaN = false) : a.isNaN = false ∧ b.isNaN = false := by
  have sum : (UnpackedFloat.add .binary64 (unpacked a) (unpacked b)).isNaN = false :=
    isNaN_of_packed number
  exact isNaN_of_add_unpacked sum

theorem isNaN_of_sub (number : (a - b).isNaN = false) : a.isNaN = false ∧ b.isNaN = false := by
  have same : a - b = packed (UnpackedFloat.add .binary64 (unpacked a) (unpacked b).neg) :=
    congrArg packed (sub_eq_add_neg (unpacked a) (unpacked b))
  rw [same] at number
  obtain ⟨numberA, numberB⟩ := isNaN_of_add_unpacked (isNaN_of_packed number)
  refine ⟨numberA, ?_⟩
  change (unpacked b).isNaN = false
  cases second : unpacked b <;> first | rfl | (rw [second] at numberB; cases numberB)

theorem isNaN_of_mul (number : (a * b).isNaN = false) : a.isNaN = false ∧ b.isNaN = false := by
  have product : (UnpackedFloat.mul .binary64 (unpacked a) (unpacked b)).isNaN = false :=
    isNaN_of_packed number
  exact isNaN_of_mul_unpacked product

theorem rank_add_float (number : (a + b).isNaN = false) :
    rank (unpacked (a + b)) = roundedRank 1074 (extended (unpacked a) + extended (unpacked b)) :=
  rank_add_extended (inRange_unpacked a) (inRange_unpacked b) (isNaN_of_packed number)

theorem rank_mul_float (number : (a * b).isNaN = false) :
    rank (unpacked (a * b)) = roundedRank 0 (extended (unpacked a) * extended (unpacked b)) :=
  rank_mul_extended (inRange_unpacked a) (inRange_unpacked b) (isNaN_of_packed number)

/-- A difference is ranked like a sum with the opposite number. -/
theorem rank_sub_float (number : (a - b).isNaN = false) :
    rank (unpacked (a - b)) =
      roundedRank 1074 (extended (unpacked a) + -extended (unpacked b)) := by
  have same : a - b = packed (UnpackedFloat.add .binary64 (unpacked a) (unpacked b).neg) :=
    congrArg packed (sub_eq_add_neg (unpacked a) (unpacked b))
  rw [same] at number ⊢
  rw [← extended_neg]
  exact rank_add_extended (inRange_unpacked a) (inRange_neg (inRange_unpacked b))
    (isNaN_of_packed number)

/-- Sums keep the order of their parts. -/
theorem add_not_lt (first : ¬ b < a) (second : ¬ d < c) : ¬ b + d < a + c := by
  intro less
  obtain ⟨numberR, numberL, below⟩ := lt_iff_rank.mp less
  obtain ⟨numberA, numberC⟩ := isNaN_of_add numberL
  obtain ⟨numberB, numberD⟩ := isNaN_of_add numberR
  rw [rank_add_float numberR, rank_add_float numberL] at below
  exact not_le.mpr below (roundedRank_mono _
    (add_le_add (extended_le numberA numberB first) (extended_le numberC numberD second)))

/-- Differences keep the order of what is diminished and change that of what is taken away. -/
theorem sub_not_lt (first : ¬ b < a) (second : ¬ d < c) : ¬ b - c < a - d := by
  intro less
  obtain ⟨numberR, numberL, below⟩ := lt_iff_rank.mp less
  obtain ⟨numberA, numberD⟩ := isNaN_of_sub numberL
  obtain ⟨numberB, numberC⟩ := isNaN_of_sub numberR
  rw [rank_sub_float numberR, rank_sub_float numberL] at below
  have opposite := EReal.neg_le_neg_iff.mpr (extended_le numberC numberD second)
  exact not_le.mpr below (roundedRank_mono _
    (add_le_add (extended_le numberA numberB first) opposite))

/-- Multiples by a positive factor keep their order. -/
theorem mul_not_lt (positive : 0 < k) (first : ¬ b < a) : ¬ k * b < k * a := by
  intro less
  obtain ⟨numberR, numberL, below⟩ := lt_iff_rank.mp less
  obtain ⟨numberK, numberA⟩ := isNaN_of_mul numberL
  obtain ⟨-, numberB⟩ := isNaN_of_mul numberR
  rw [rank_mul_float numberR, rank_mul_float numberL] at below
  have factor : extended (unpacked 0) ≤ extended (unpacked k) :=
    extended_le rfl numberK fun negative => by
      have first := (lt_iff_rank.mp positive).2.2
      have second := (lt_iff_rank.mp negative).2.2
      omega
  rw [extended_zero] at factor
  exact not_le.mpr below (roundedRank_mono _
    (mul_le_mul_of_nonneg_left (extended_le numberA numberB first) factor))

/-- Multiples by a factor that is not positive change their order. -/
theorem mul_not_lt_of_not_pos (factor : ¬ 0 < k) (first : ¬ b < a) : ¬ k * a < k * b := by
  intro less
  obtain ⟨numberL, numberR, below⟩ := lt_iff_rank.mp less
  obtain ⟨numberK, numberA⟩ := isNaN_of_mul numberL
  obtain ⟨-, numberB⟩ := isNaN_of_mul numberR
  rw [rank_mul_float numberR, rank_mul_float numberL] at below
  have nonpositive : extended (unpacked k) ≤ extended (unpacked 0) := extended_le numberK rfl factor
  rw [extended_zero] at nonpositive
  refine not_le.mpr below (roundedRank_mono _ ?_)
  rw [mul_comm (extended (unpacked k)), mul_comm (extended (unpacked k))]
  exact EReal.mul_le_mul_of_nonpos_right (extended_le numberA numberB first) nonpositive

theorem isFinite_of_packed {u : UnpackedFloat} (finite : (unpacked (packed u)).isFinite = true) :
    u.isFinite = true := by
  cases u with
  | notANumber => cases finite
  | infinity s =>
      rw [unpacked_packed_infinity] at finite
      cases finite
  | _ => rfl

theorem isFinite_of_add_unpacked {u v : UnpackedFloat}
    (finite : (UnpackedFloat.add .binary64 u v).isFinite = true) :
    u.isFinite = true ∧ v.isFinite = true := by
  cases u with
  | notANumber => cases finite
  | infinity s =>
      cases v with
      | infinity t => cases s <;> cases t <;> cases finite
      | _ => cases finite
  | _ =>
      cases v with
      | notANumber => cases finite
      | infinity t => cases finite
      | _ => exact ⟨rfl, rfl⟩

/-- A sum is finite only if its parts are. -/
theorem finite_of_add (finite : Finite (a + b)) : Finite a ∧ Finite b := by
  rw [← isFinite_unpacked_iff] at finite ⊢
  rw [← isFinite_unpacked_iff]
  exact isFinite_of_add_unpacked (isFinite_of_packed finite)

/-- The key of a number is its place among the doubles, one less where it has a negative sign. -/
theorem orderKey_eq (number : a.isNaN = false) :
    orderKey a = rank (unpacked a) - if negative a then 1 else 0 := by
  have fields := bits_eq a
  have small : 2 ^ 52 * exponent a + fraction a < 2 ^ 63 := by
    have exponents := exponent_lt a
    have fractions := fraction_lt a
    omega
  rw [rank_unpacked number, sign]
  change (if bits a < 2 ^ 63 then (bits a : Int) else Int.negSucc (bits a - 2 ^ 63)) = _
  cases signed : negative a with
  | false =>
      rw [signed, if_neg Bool.false_ne_true] at fields
      rw [if_pos (by omega), fields, if_neg Bool.false_ne_true, if_neg Bool.false_ne_true]
      change _ = (2 ^ 52 * exponent a + fraction a : Int) - 0
      push_cast
      ring
  | true =>
      rw [signed, if_pos rfl] at fields
      rw [if_neg (by omega), if_pos rfl, if_pos rfl, Int.negSucc_eq]
      change _ = -(2 ^ 52 * exponent a + fraction a : Int) - 1
      omega

/-- The place of a number has its sign. -/
theorem rank_sign (number : a.isNaN = false) :
    (negative a = true → rank (unpacked a) ≤ 0) ∧
      (negative a = false → 0 ≤ rank (unpacked a)) := by
  have size : (0 : Int) ≤ 2 ^ 52 * exponent a + fraction a := by positivity
  rw [rank_unpacked number, sign]
  constructor
  · intro signed
    rw [signed, if_pos rfl]
    exact neg_nonpos.mpr size
  · intro signed
    rw [signed, if_neg Bool.false_ne_true]
    exact size

/-- The total order of doubles goes by their values where these are numbers, and of two zeros it
takes the negative one first. -/
theorem totalLE_iff (numberA : a.isNaN = false) (numberB : b.isNaN = false) :
    Scalar.totalLE a b = true ↔
      a < b ∨ a ≤ b ∧ (negative b = true → negative a = true) := by
  have signA := rank_sign numberA
  have signB := rank_sign numberB
  change decide (orderKey a ≤ orderKey b) = true ↔ _
  rw [decide_eq_true_eq, orderKey_eq numberA, orderKey_eq numberB, lt_iff_rank, le_iff_rank]
  simp only [numberA, numberB, true_and]
  generalize rank (unpacked a) = m at *
  generalize rank (unpacked b) = n at *
  -- Places of opposite signs are apart, unless both are zero and only the signs differ.
  cases signedA : negative a with
  | false =>
      have low := signA.2 signedA
      cases signedB : negative b with
      | false =>
          simp only [Bool.false_eq_true, if_false, false_implies, and_true, sub_zero]
          omega
      | true =>
          have high := signB.1 signedB
          simp only [Bool.false_eq_true, if_false, if_true, imp_false, not_true, and_false, or_false]
          omega
  | true =>
      cases signedB : negative b with
      | false =>
          have high := signB.2 signedB
          have low := signA.1 signedA
          simp only [Bool.false_eq_true, if_false, if_true, false_implies, and_true]
          omega
      | true =>
          simp only [if_true, implies_true, and_true]
          omega

end Doubles
end RobustMargin.Double
