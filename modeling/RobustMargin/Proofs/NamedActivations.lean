import RobustMargin.Proofs.Enclosure

/-! # Named activations

The named activations over the reals: each does not change direction on the line, whatever its
parameter, and where the parameter is positive the slope is the derivative at every point. -/
namespace RobustMargin

namespace Scalar

@[simp]
theorem ofNat_real (n : Nat) : (ofNat n : ℝ) = n := rfl

@[simp]
theorem two_real : (two : ℝ) = 2 := Nat.cast_ofNat

/-- The real numbers with another function in the place of the exponential. -/
noncomputable abbrev withExp (exponential : ℝ → ℝ) : Scalar ℝ :=
  { (inferInstance : Scalar ℝ) with exp := exponential }

end Scalar

namespace Activation

/-- One of the named functions, whatever its parameter. -/
def IsNamed : Activation ℝ → Prop
  | custom _ _ _ => False
  | _ => True

/-- One of the named functions, with a positive parameter where it has one. -/
def IsRegular : Activation ℝ → Prop
  | quadlu alpha => 0 < alpha
  | custom _ _ _ => False
  | _ => True

section Logistic

/-- The two branches are one function. The exponential is asked for no positive number, so that its
values there do not matter. -/
theorem logistic_withExp {exponential : ℝ → ℝ} (agrees : ∀ y ≤ 0, exponential y = Real.exp y)
    (x : ℝ) : @logistic ℝ (Scalar.withExp exponential) x = 1 / (1 + Real.exp (-x)) := by
  by_cases notNegative : 0 ≤ x
  · have value : @logistic ℝ (Scalar.withExp exponential) x = 1 / (1 + exponential (-x)) :=
      if_pos notNegative
    rw [value, agrees (-x) (neg_nonpos.mpr notNegative)]
  · have negative : x < 0 := not_le.mp notNegative
    have value : @logistic ℝ (Scalar.withExp exponential) x =
        exponential x / (1 + exponential x) := if_neg notNegative
    rw [value, agrees x negative.le, Real.exp_neg]
    have positive := Real.exp_pos x
    field_simp
    ring

theorem logistic_real (x : ℝ) : logistic x = Real.sigmoid x := by
  rw [Real.sigmoid_def, ← one_div]
  exact logistic_withExp (fun _ _ => rfl) x

end Logistic

section Quadlu

/-- The square of the positive part has a derivative at every point, zero included. -/
theorem hasDerivAt_sq_max (x : ℝ) :
    HasDerivAt (fun y : ℝ => max y 0 ^ 2) (2 * max x 0) x := by
  refine hasDerivAt_of_hasDerivAt_of_ne' (f := fun y : ℝ => max y 0 ^ 2)
    (g := fun y : ℝ => 2 * max y 0) (x := 0) (fun y different => ?_) ?_ ?_ x
  · rcases lt_or_gt_of_ne different with negative | positive
    · have near : (fun y : ℝ => max y 0 ^ 2) =ᶠ[nhds y] fun _ => 0 := by
        filter_upwards [Iio_mem_nhds negative] with z below
        rw [max_eq_right (le_of_lt below), zero_pow two_ne_zero]
      simpa [max_eq_right negative.le] using (hasDerivAt_const y (0 : ℝ)).congr_of_eventuallyEq near
    · have near : (fun y : ℝ => max y 0 ^ 2) =ᶠ[nhds y] fun z => z ^ 2 := by
        filter_upwards [Ioi_mem_nhds positive] with z above
        rw [max_eq_left (le_of_lt above)]
      simpa [max_eq_left positive.le] using (hasDerivAt_pow 2 y).congr_of_eventuallyEq near
  · fun_prop
  · fun_prop

variable {alpha : ℝ}

theorem quadluValue_eq (positive : 0 < alpha) (x : ℝ) :
    quadluValue x alpha = max (x + alpha) 0 ^ 2 - max (x - alpha) 0 ^ 2 := by
  unfold quadluValue
  split_ifs with low high
  · have low : x ≤ -alpha := low
    rw [max_eq_right (by linarith), max_eq_right (by linarith), sub_self]
  · have high : alpha ≤ x := high
    rw [max_eq_left (by linarith), max_eq_left (by linarith), Scalar.ofNat_real]
    push_cast
    ring
  · have low : -alpha < x := not_le.mp low
    have high : x < alpha := not_le.mp high
    rw [max_eq_left (by linarith), max_eq_right (by linarith)]
    ring

theorem quadluSlope_eq (positive : 0 < alpha) (x : ℝ) :
    quadluSlope x alpha = 2 * max (x + alpha) 0 - 2 * max (x - alpha) 0 := by
  unfold quadluSlope
  split_ifs with low high
  · have low : x ≤ -alpha := low
    rw [max_eq_right (by linarith), max_eq_right (by linarith), sub_self]
  · have high : alpha ≤ x := high
    rw [max_eq_left (by linarith), max_eq_left (by linarith), Scalar.ofNat_real]
    push_cast
    ring
  · have low : -alpha < x := not_le.mp low
    have high : x < alpha := not_le.mp high
    rw [max_eq_left (by linarith), max_eq_right (by linarith), Scalar.two_real]
    ring

theorem hasDerivAt_quadluValue (positive : 0 < alpha) (x : ℝ) :
    HasDerivAt (fun y => quadluValue y alpha) (quadluSlope x alpha) x := by
  simp only [quadluValue_eq positive]
  rw [quadluSlope_eq positive]
  exact ((hasDerivAt_sq_max (x + alpha)).comp_add_const x alpha).sub
    ((hasDerivAt_sq_max (x - alpha)).comp_sub_const x alpha)

theorem quadluSlope_nonneg (positive : 0 < alpha) (x : ℝ) : 0 ≤ quadluSlope x alpha := by
  rw [quadluSlope_eq positive, sub_nonneg]
  have shifted : x - alpha ≤ x + alpha := by linarith
  exact mul_le_mul_of_nonneg_left (max_le_max shifted le_rfl) zero_le_two

/-- Without a positive parameter the middle piece is empty, and the function steps down at the end
of its first piece. -/
theorem quadluValue_of_nonpos (notPositive : alpha ≤ 0) (x : ℝ) :
    quadluValue x alpha = if x ≤ -alpha then 0 else 4 * alpha * x := by
  unfold quadluValue
  split_ifs with low high
  · rfl
  · rw [Scalar.ofNat_real]
    norm_num
  · have above : -alpha < x := not_le.mp low
    have below : x < alpha := not_le.mp high
    linarith

theorem quadluValue_antitone (notPositive : alpha ≤ 0) :
    Antitone fun x => quadluValue x alpha := by
  intro x y le
  simp only [quadluValue_of_nonpos notPositive]
  split_ifs with yLow xLow xLow
  · exact le_rfl
  · exact absurd (le.trans yLow) xLow
  · exact mul_nonpos_of_nonpos_of_nonneg (by linarith) (by linarith)
  · exact mul_le_mul_of_nonpos_left le (by linarith)

end Quadlu

theorem hasDerivAt_tanh (x : ℝ) : HasDerivAt Real.tanh (1 - Real.tanh x * Real.tanh x) x := by
  have positive := Real.cosh_pos x
  have quotient : Real.tanh = fun y => Real.sinh y / Real.cosh y :=
    funext Real.tanh_eq_sinh_div_cosh
  rw [quotient]
  refine ((Real.hasDerivAt_sinh x).div (Real.hasDerivAt_cosh x) positive.ne').congr_deriv ?_
  field_simp

/-- The slope of a named function is its derivative everywhere. -/
theorem IsRegular.hasDerivAt {f : Activation ℝ} (regular : f.IsRegular) (x : ℝ) :
    HasDerivAt f.eval (f.deriv x) x := by
  cases f with
  | identity => exact hasDerivAt_id x
  | sigmoid =>
      have value : eval (.sigmoid : Activation ℝ) = Real.sigmoid := funext logistic_real
      rw [value, deriv, logistic_real]
      exact Real.hasDerivAt_sigmoid x
  | tanh => exact hasDerivAt_tanh x
  | quadlu alpha => exact hasDerivAt_quadluValue regular x
  | custom _ _ _ => exact regular.elim

theorem IsRegular.deriv_nonneg {f : Activation ℝ} (regular : f.IsRegular) (x : ℝ) :
    0 ≤ f.deriv x := by
  cases f with
  | identity => exact zero_le_one
  | sigmoid =>
      rw [deriv, logistic_real]
      exact mul_nonneg (Real.sigmoid_nonneg x) (sub_nonneg.mpr (Real.sigmoid_le_one x))
  | tanh =>
      change 0 ≤ 1 - Real.tanh x * Real.tanh x
      rw [← sq]
      exact sub_nonneg.mpr (Real.tanh_sq_lt_one x).le
  | quadlu alpha => exact quadluSlope_nonneg regular x
  | custom _ _ _ => exact regular.elim

theorem IsRegular.monotone {f : Activation ℝ} (regular : f.IsRegular) : Monotone f.eval :=
  monotone_of_hasDerivAt_nonneg regular.hasDerivAt regular.deriv_nonneg

/-- A named function does not change direction, whatever its parameter. -/
theorem IsNamed.monotonic {f : Activation ℝ} (named : f.IsNamed) : f.Monotonic := by
  cases f with
  | identity => exact .inl (IsRegular.monotone trivial)
  | sigmoid => exact .inl (IsRegular.monotone trivial)
  | tanh => exact .inl (IsRegular.monotone trivial)
  | quadlu alpha =>
      rcases lt_or_ge 0 alpha with positive | notPositive
      · exact .inl (IsRegular.monotone positive)
      · exact .inr (quadluValue_antitone notPositive)
  | custom _ _ _ => exact named.elim

/-- The image of an interval under a named function lies between the values at its endpoints,
whatever the parameter. With a positive parameter the functions do not decrease, and their slopes
are the derivatives at every point. The logistic function has one formula on both branches, although
its exponential is taken of no positive number. -/
theorem named_images_and_slopes :
    (∀ f : Activation ℝ, f.IsNamed → ∀ z : Interval ℝ, z.Ordered →
      (f.image z).Ordered ∧ (∀ x ∈ z, f.eval x ∈ f.image z) ∧
        (f.image z = ⟨f.eval z.lo, f.eval z.hi⟩ ∨ f.image z = ⟨f.eval z.hi, f.eval z.lo⟩)) ∧
      (∀ f : Activation ℝ, f.IsRegular →
        Monotone f.eval ∧ ∀ x, HasDerivAt f.eval (f.deriv x) x) ∧
      (∀ x : ℝ, eval .sigmoid x = 1 / (1 + Real.exp (-x))) ∧
      ∀ exponential : ℝ → ℝ, (∀ y ≤ 0, exponential y = Real.exp y) → ∀ x,
        @logistic ℝ (Scalar.withExp exponential) x = 1 / (1 + Real.exp (-x)) := by
  refine ⟨fun f named z _ => ⟨f.ordered_image z, fun x => mem_image named.monotonic, ?_⟩,
    fun f regular => ⟨regular.monotone, regular.hasDerivAt⟩,
    logistic_withExp fun _ _ => rfl, fun _ => logistic_withExp⟩
  unfold image
  split
  · exact .inl rfl
  · exact .inr rfl

/-- A parameter below zero, the breakpoints of a positive one, and an exponential that is cut off
above zero. -/
theorem named_images_and_slopes_breakpoints :
    let falling : Activation ℝ := .quadlu (-1)
    let rising : Activation ℝ := .quadlu (1 / 4)
    let cut : ℝ → ℝ := fun y => min (Real.exp y) 1
    falling.IsNamed ∧ Interval.Ordered (⟨-2, 2⟩ : Interval ℝ) ∧
      falling.eval 1 ∈ falling.image ⟨-2, 2⟩ ∧ rising.IsRegular ∧
      HasDerivAt rising.eval 0 (-1 / 4) ∧ HasDerivAt rising.eval 1 (1 / 4) ∧
      (∀ y ≤ 0, cut y = Real.exp y) ∧
      @logistic ℝ (Scalar.withExp cut) (-1) = 1 / (1 + Real.exp 1) := by
  intro falling rising cut
  obtain ⟨images, slopes, -, capped⟩ := named_images_and_slopes
  have named : falling.IsNamed := trivial
  have ordered : Interval.Ordered (⟨-2, 2⟩ : Interval ℝ) := by
    change (-2 : ℝ) ≤ 2
    norm_num
  have positive : (0 : ℝ) < 1 / 4 := by norm_num
  have inside : (1 : ℝ) ∈ (⟨-2, 2⟩ : Interval ℝ) := by
    constructor <;> norm_num
  have agrees : ∀ y ≤ 0, cut y = Real.exp y := fun y notPositive =>
    min_eq_left (Real.exp_le_one_iff.mpr notPositive)
  have low : rising.deriv (-1 / 4) = 0 := by
    change quadluSlope (-1 / 4) (1 / 4) = (0 : ℝ)
    rw [quadluSlope_eq positive]
    norm_num
  have high : rising.deriv (1 / 4) = 1 := by
    change quadluSlope (1 / 4) (1 / 4) = (1 : ℝ)
    rw [quadluSlope_eq positive]
    norm_num
  have slope := (slopes rising positive).2
  refine ⟨named, ordered, (images falling named _ ordered).2.1 1 inside, positive,
    (slope (-1 / 4)).congr_deriv low, (slope (1 / 4)).congr_deriv high, agrees, ?_⟩
  rw [capped cut agrees (-1), neg_neg]

end Activation
end RobustMargin
