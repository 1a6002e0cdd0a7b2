import RobustMargin.Proofs.ExactRanges
import RobustMargin.Proofs.Nesting

/-! # Interval operations on sets

Over the reals every operation on intervals is the operation on the sets of their points: nothing is
left out and nothing is added, whatever the signs of the endpoints. -/
namespace RobustMargin

namespace Scalar

theorem lesser_real (x y : ℝ) : lesser x y = min x y := by
  rw [lesser, isNumber_real, if_pos rfl]
  split
  · rename_i less
    exact (min_eq_right less.le).symm
  · rename_i notLess
    exact (min_eq_left (not_lt.mp notLess)).symm

theorem greater_real (x y : ℝ) : greater x y = max x y := by
  rw [greater, isNumber_real, if_pos rfl]
  split
  · rename_i less
    exact (max_eq_right less.le).symm
  · rename_i notLess
    exact (max_eq_left (not_lt.mp notLess)).symm

theorem filter_isNumber_real (xs : List ℝ) : xs.filter isNumber = xs :=
  List.filter_eq_self.mpr fun x _ => isNumber_real x

theorem min?_eq_least {xs : List ℝ} (notEmpty : xs ≠ []) : xs.min? = some (least xs) := by
  rw [least, filter_isNumber_real]
  cases xs with
  | nil => exact absurd rfl notEmpty
  | cons x rest =>
      have choice : (lesser : ℝ → ℝ → ℝ) = min := funext₂ lesser_real
      rw [choice, List.min?_cons']

theorem max?_eq_greatest {xs : List ℝ} (notEmpty : xs ≠ []) : xs.max? = some (greatest xs) := by
  rw [greatest, filter_isNumber_real]
  cases xs with
  | nil => exact absurd rfl notEmpty
  | cons x rest =>
      have choice : (greater : ℝ → ℝ → ℝ) = max := funext₂ greater_real
      rw [choice, List.max?_cons']

theorem least_isLeast {xs : List ℝ} (notEmpty : xs ≠ []) : IsLeast { x | x ∈ xs } (least xs) :=
  List.min?_eq_some_iff.mp (min?_eq_least notEmpty)

theorem greatest_isGreatest {xs : List ℝ} (notEmpty : xs ≠ []) :
    IsGreatest { x | x ∈ xs } (greatest xs) :=
  List.max?_eq_some_iff.mp (max?_eq_greatest notEmpty)

end Scalar

namespace Interval

def points (i : Interval ℝ) : Set ℝ := { x | x ∈ i }

theorem points_eq_Icc (i : Interval ℝ) : i.points = Set.Icc i.lo i.hi := rfl

theorem isPreconnected_points (i : Interval ℝ) : IsPreconnected i.points := isPreconnected_Icc

/-- The endpoints are in order, they are the least and the greatest of some values, and all between
them are values too. -/
structure IsRange (i : Interval ℝ) (values : Set ℝ) : Prop where
  ordered : i.Ordered
  spans : i.Spans values
  points_eq : i.points = values

namespace Spans

variable {i j : Interval ℝ} {A B : Set ℝ}

/-- Values without gaps fill the interval that they span. -/
theorem isRange (spans : i.Spans A) (connected : IsPreconnected A) : i.IsRange A where
  ordered := spans.ordered
  spans := spans
  points_eq := Set.Subset.antisymm (connected.Icc_subset spans.least.1 spans.greatest.1)
    fun _ member => spans.mem member

theorem neg (spans : i.Spans A) : i.neg.Spans ((fun x => -x) '' A) :=
  spans.antitone fun _ _ le => neg_le_neg le

end Spans

section Products

variable {i j : Interval ℝ} {x y : ℝ}

theorem absorbingProduct_real (x y : ℝ) : absorbingProduct x y = x * y := by
  unfold absorbingProduct
  split
  · rename_i zero
    rw [Bool.or_eq_true, Scalar.same_real_iff, Scalar.same_real_iff] at zero
    exact (mul_eq_zero.mpr zero).symm
  · rfl

theorem mem_cornerProducts_iff (i j : Interval ℝ) (p : ℝ) : p ∈ cornerProducts i j ↔
    ∃ a ∈ [i.lo, i.hi], ∃ b ∈ [j.lo, j.hi], p = a * b := by
  simp [cornerProducts, absorbingProduct_real, or_assoc]

/-- The multiples of a point lie between those of the endpoints, in the order that the sign of the
factor gives them. -/
theorem mul_between_endpoints (inside : x ∈ i) (factor : ℝ) : ∃ low ∈ [i.lo, i.hi],
    ∃ high ∈ [i.lo, i.hi], low * factor ≤ x * factor ∧ x * factor ≤ high * factor := by
  rcases le_total 0 factor with notNegative | notPositive
  · exact ⟨i.lo, by simp, i.hi, by simp, mul_le_mul_of_nonneg_right inside.1 notNegative,
      mul_le_mul_of_nonneg_right inside.2 notNegative⟩
  · exact ⟨i.hi, by simp, i.lo, by simp, mul_le_mul_of_nonpos_right inside.2 notPositive,
      mul_le_mul_of_nonpos_right inside.1 notPositive⟩

/-- A product of points lies between products of endpoints: one factor is moved to an endpoint after
the other. -/
theorem mul_between_corners (first : x ∈ i) (second : y ∈ j) :
    (∃ p ∈ cornerProducts i j, p ≤ x * y) ∧ ∃ p ∈ cornerProducts i j, x * y ≤ p := by
  have corner (a : ℝ) (endpoint : a ∈ [i.lo, i.hi]) : ∃ low ∈ cornerProducts i j,
      ∃ high ∈ cornerProducts i j, low ≤ a * y ∧ a * y ≤ high := by
    obtain ⟨b, bEnd, c, cEnd, low, high⟩ := mul_between_endpoints second a
    rw [mul_comm b, mul_comm y] at low
    rw [mul_comm c, mul_comm y] at high
    exact ⟨_, (mem_cornerProducts_iff i j _).mpr ⟨a, endpoint, b, bEnd, rfl⟩,
      _, (mem_cornerProducts_iff i j _).mpr ⟨a, endpoint, c, cEnd, rfl⟩, low, high⟩
  obtain ⟨a, aEnd, b, bEnd, low, high⟩ := mul_between_endpoints first y
  obtain ⟨p, pCorner, -, -, below, -⟩ := corner a aEnd
  obtain ⟨-, -, q, qCorner, -, above⟩ := corner b bEnd
  exact ⟨⟨p, pCorner, below.trans low⟩, ⟨q, qCorner, high.trans above⟩⟩

theorem mul_spans (first : i.Ordered) (second : j.Ordered) :
    (i.mul j).Spans (Set.image2 (· * ·) i.points j.points) := by
  have least := Scalar.least_isLeast (List.cons_ne_nil _ _ : cornerProducts i j ≠ [])
  have greatest := Scalar.greatest_isGreatest (List.cons_ne_nil _ _ : cornerProducts i j ≠ [])
  have endpoint {k : Interval ℝ} (ordered : k.Ordered) {a : ℝ} (isEnd : a ∈ [k.lo, k.hi]) :
      a ∈ k.points := by
    rcases List.mem_pair.mp isEnd with rfl | rfl
    · exact ordered.lo_mem
    · exact ordered.hi_mem
  have product {p : ℝ} (corner : p ∈ cornerProducts i j) :
      p ∈ Set.image2 (· * ·) i.points j.points := by
    obtain ⟨a, aEnd, b, bEnd, rfl⟩ := (mem_cornerProducts_iff i j p).mp corner
    exact ⟨a, endpoint first aEnd, b, endpoint second bEnd, rfl⟩
  constructor
  · refine ⟨product least.1, ?_⟩
    rintro _ ⟨x, hx, y, hy, rfl⟩
    obtain ⟨⟨p, corner, below⟩, -⟩ := mul_between_corners hx hy
    exact (least.2 corner).trans below
  · refine ⟨product greatest.1, ?_⟩
    rintro _ ⟨x, hx, y, hy, rfl⟩
    obtain ⟨-, ⟨p, corner, above⟩⟩ := mul_between_corners hx hy
    exact above.trans (greatest.2 corner)

end Products

section Sets

variable (i j : Interval ℝ)

theorem intersect_real : i.intersect j =
    if max i.lo j.lo ≤ min i.hi j.hi then some ⟨max i.lo j.lo, min i.hi j.hi⟩ else none := by
  rw [intersect, Scalar.greater_real, Scalar.lesser_real]

theorem points_inter : i.points ∩ j.points = Set.Icc (max i.lo j.lo) (min i.hi j.hi) :=
  Set.Icc_inter_Icc

theorem intersect_eq_none_iff : i.intersect j = none ↔ i.points ∩ j.points = ∅ := by
  rw [points_inter, Set.Icc_eq_empty_iff, intersect_real, ite_eq_right_iff]
  simp

theorem points_of_intersect {k : Interval ℝ} (common : i.intersect j = some k) :
    k.points = i.points ∩ j.points := by
  rw [intersect_real] at common
  split at common
  · obtain rfl := Option.some.inj common
    exact (points_inter i j).symm
  · cases common

theorem hull_encloses_iff (k : Interval ℝ) :
    k.encloses (i.hull j) = true ↔ k.encloses i = true ∧ k.encloses j = true := by
  rw [hull, Scalar.lesser_real, Scalar.greater_real]
  simp only [encloses_iff, le_min_iff, max_le_iff]
  exact and_and_and_comm

end Sets

theorem encloses_iff_points {i j : Interval ℝ} (ordered : j.Ordered) :
    i.encloses j = true ↔ j.points ⊆ i.points := by
  rw [encloses_iff, points_eq_Icc, points_eq_Icc, Set.Icc_subset_Icc_iff ordered]

/-- The operations on intervals are exact on the sets of their points. The results of arithmetic are
ordered, contain what it gives on points and nothing else, and attain both of their endpoints. The
intersection consists of the common points and is missing only if there are none, the hull is the
least interval that encloses both operands, and enclosing is inclusion of the points. -/
theorem operations_exact (i j : Interval ℝ) (first : i.Ordered) (second : j.Ordered) (c : ℝ) :
    (i.add j).IsRange (Set.image2 (· + ·) i.points j.points) ∧
      (i.sub j).IsRange (Set.image2 (· - ·) i.points j.points) ∧
      (i.mul j).IsRange (Set.image2 (· * ·) i.points j.points) ∧
      i.neg.IsRange ((fun x => -x) '' i.points) ∧
      (i.shift c).IsRange ((· + c) '' i.points) ∧
      (i.scale c).IsRange ((c * ·) '' i.points) ∧
      (i.intersect j = none ↔ ¬∃ x, x ∈ i ∧ x ∈ j) ∧
      (∀ k, i.intersect j = some k → ∀ x, x ∈ k ↔ x ∈ i ∧ x ∈ j) ∧
      (i.hull j).encloses i = true ∧ (i.hull j).encloses j = true ∧
      (∀ k : Interval ℝ, k.encloses i = true → k.encloses j = true →
        k.encloses (i.hull j) = true) ∧
      (i.encloses j = true ↔ ∀ x ∈ j, x ∈ i) := by
  have single {f : ℝ → ℝ} (continuous : Continuous f) : IsPreconnected (f '' i.points) :=
    i.isPreconnected_points.image f continuous.continuousOn
  have double {f : ℝ → ℝ → ℝ} (continuous : Continuous fun p : ℝ × ℝ => f p.1 p.2) :
      IsPreconnected (Set.image2 f i.points j.points) := by
    rw [← Set.image_prod]
    exact (i.isPreconnected_points.prod j.isPreconnected_points).image _ continuous.continuousOn
  obtain ⟨left, right⟩ := (hull_encloses_iff i j _).mp (encloses_refl _)
  refine ⟨(first.spans.add second.spans).isRange (double continuous_add),
    (first.spans.sub second.spans).isRange (double continuous_sub),
    (mul_spans first second).isRange (double continuous_mul),
    first.spans.neg.isRange (single continuous_neg),
    (first.spans.shift c).isRange (single (continuous_add_const c)),
    (first.spans.scale c).isRange (single (continuous_const_mul c)),
    ?_, fun k common x => ?_, left, right,
    fun k inK inK' => (hull_encloses_iff i j k).mpr ⟨inK, inK'⟩, encloses_iff_points second⟩
  · rw [intersect_eq_none_iff, Set.eq_empty_iff_forall_notMem, ← not_exists]
    rfl
  · exact Set.ext_iff.mp (points_of_intersect i j common) x

/-- Endpoints of both signs, and a negative factor. -/
theorem operations_exact_signs :
    let i : Interval ℝ := ⟨-1, 2⟩
    let j : Interval ℝ := ⟨-3, 1⟩
    i.Ordered ∧ j.Ordered ∧ (i.mul j).Ordered ∧ (2 * -3 : ℝ) ∈ i.mul j ∧
      (-2 * 2 : ℝ) ∈ i.scale (-2) ∧ i.intersect j ≠ none ∧ i.encloses j ≠ true := by
  intro i j
  have first : i.Ordered := by
    change (-1 : ℝ) ≤ 2
    norm_num
  have second : j.Ordered := by
    change (-3 : ℝ) ≤ 1
    norm_num
  obtain ⟨-, -, product, -, -, multiples, common, -, -, -, -, inclusion⟩ :=
    operations_exact i j first second (-2)
  have zero : (0 : ℝ) ∈ i ∧ (0 : ℝ) ∈ j := by
    refine ⟨⟨?_, ?_⟩, ?_, ?_⟩ <;> norm_num [i, j]
  refine ⟨first, second, product.ordered,
    product.spans.mem ⟨2, first.hi_mem, -3, second.lo_mem, rfl⟩,
    multiples.spans.mem ⟨2, first.hi_mem, rfl⟩, fun none => common.mp none ⟨0, zero⟩,
    fun encloses => ?_⟩
  have below := (inclusion.mp encloses (-3) second.lo_mem).1
  norm_num [i] at below

end Interval
end RobustMargin
