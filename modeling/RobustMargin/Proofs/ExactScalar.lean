import Mathlib
import RobustMargin.Scalar.Dot

/-! # Exact scalars

The real numbers as scalars. Every value is a finite number, so the tests for missing and infinite
values are constant, and sums and dot products do not depend on the order of their terms. -/
namespace RobustMargin

/-- No real is infinite: the extremes of an empty list are left at zero. -/
noncomputable instance : Scalar ℝ where
  decideLE := fun x y => Classical.dec (x ≤ y)
  decideLT := fun x y => Classical.dec (x < y)
  ofNat := fun n => (n : ℝ)
  top := 0
  bottom := 0
  isTop := fun _ => false
  isBottom := fun _ => false
  totalLE := fun x y => @decide (x ≤ y) (Classical.dec _)
  abs := fun x => |x|
  exp := Real.exp
  tanh := Real.tanh
  sqrt := Real.sqrt
  text := fun _ => "real"
  dataText := fun _ => "real"

namespace Scalar

@[simp]
theorem isNumber_real (x : ℝ) : isNumber x = true := by simp [isNumber]

@[simp]
theorem isFinite_real (x : ℝ) : isFinite x = true := by
  simp [isFinite, isTop, isBottom]

@[simp]
theorem same_real_iff (x y : ℝ) : same x y = true ↔ x = y := by
  rw [same, Bool.and_eq_true, decide_eq_true_iff, decide_eq_true_iff]
  exact le_antisymm_iff.symm

theorem foldl_add_real (start : ℝ) (xs : List ℝ) : xs.foldl (· + ·) start = start + xs.sum := by
  induction xs generalizing start with
  | nil => simp
  | cons x xs ih => rw [List.foldl_cons, ih, List.sum_cons, add_assoc]

theorem sum_real (xs : List ℝ) : sum xs = xs.sum := by
  have total : sum xs = -0 + xs.sum := foldl_add_real (-0) xs
  rw [total, neg_zero, zero_add]

theorem joinLanes_real (lanes : List ℝ) (full : lanes.length = laneCount) :
    joinLanes lanes = lanes.sum := by
  match lanes, full with
  | [a, b, c, d, e, f, g, h], _ =>
      simp only [joinLanes, laneCount, List.take, List.drop, List.zipWith, List.foldl,
        List.sum_cons, List.sum_nil, Nat.reduceDiv]
      ring

theorem sum_zipWith_add (xs ys : List ℝ) (fits : xs.length ≤ ys.length) :
    (xs.zipWith (· + ·) ys).sum = xs.sum + (ys.take xs.length).sum := by
  induction xs generalizing ys with
  | nil => simp
  | cons x xs ih =>
      cases ys with
      | nil => simp at fits
      | cons y ys =>
          have tails := ih ys (Nat.le_of_succ_le_succ fits)
          simp only [List.zipWith_cons_cons, List.sum_cons, List.length_cons, List.take_succ_cons,
            tails]
          ring

theorem sumLanes_real (lanes products : List ℝ) (full : lanes.length = laneCount) :
    sumLanes lanes products = lanes.sum + products.sum := by
  induction lanes, products using sumLanes.induct with
  | case1 lanes products enough ih =>
      have fits : lanes.length ≤ products.length := full ▸ enough
      have next := ih (by rw [List.length_zipWith, Nat.min_eq_left fits, full])
      rw [sumLanes, if_pos enough, next, sum_zipWith_add lanes products fits, full, add_assoc,
        List.sum_take_add_sum_drop]
  | case2 lanes products few =>
      rw [sumLanes, if_neg few, joinLanes_real lanes full]
      exact foldl_add_real lanes.sum products

/-- The dot product is the sum of the products, whatever the lanes. -/
theorem dot_real (xs ys : List ℝ) : dot xs ys = (xs.zipWith (· * ·) ys).sum := by
  rw [dot, sumLanes_real _ _ (List.length_replicate ..)]
  simp

end Scalar
end RobustMargin
