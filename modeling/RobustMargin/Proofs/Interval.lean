import RobustMargin.Proofs.ExactScalar
import RobustMargin.Interval

/-! # Interval arithmetic over the reals

Each operation keeps ordered endpoints and encloses the results of its pointwise counterpart. -/
namespace RobustMargin

namespace Interval

theorem Ordered.lo_mem {i : Interval ℝ} (ordered : i.Ordered) : i.lo ∈ i :=
  ⟨le_refl i.lo, ordered⟩

theorem Ordered.hi_mem {i : Interval ℝ} (ordered : i.Ordered) : i.hi ∈ i :=
  ⟨ordered, le_refl i.hi⟩

theorem ordered_of_mem {i : Interval ℝ} {x : ℝ} (inside : x ∈ i) : i.Ordered :=
  le_trans inside.1 inside.2

theorem ordered_point (x : ℝ) : (point x).Ordered := le_refl x

theorem mem_point (x : ℝ) : x ∈ point x := ⟨le_refl x, le_refl x⟩

theorem ordered_around (center radius : ℝ) (notNegative : 0 ≤ radius) :
    (around center radius).Ordered := by
  change center - radius ≤ center + radius
  linarith

theorem mem_add {i j : Interval ℝ} {x y : ℝ} (hx : x ∈ i) (hy : y ∈ j) : x + y ∈ i.add j :=
  ⟨add_le_add hx.1 hy.1, add_le_add hx.2 hy.2⟩

theorem ordered_add {i j : Interval ℝ} (hi : i.Ordered) (hj : j.Ordered) : (i.add j).Ordered :=
  add_le_add hi hj

theorem mem_sub {i j : Interval ℝ} {x y : ℝ} (hx : x ∈ i) (hy : y ∈ j) : x - y ∈ i.sub j :=
  ⟨sub_le_sub hx.1 hy.2, sub_le_sub hx.2 hy.1⟩

theorem ordered_sub {i j : Interval ℝ} (hi : i.Ordered) (hj : j.Ordered) : (i.sub j).Ordered :=
  sub_le_sub hi hj

theorem mem_shift {i : Interval ℝ} {x : ℝ} (offset : ℝ) (hx : x ∈ i) :
    x + offset ∈ i.shift offset :=
  ⟨add_le_add_left hx.1 offset, add_le_add_left hx.2 offset⟩

theorem ordered_shift {i : Interval ℝ} (offset : ℝ) (hi : i.Ordered) : (i.shift offset).Ordered :=
  add_le_add_left hi offset

theorem scale_zero (i : Interval ℝ) : i.scale 0 = point 0 :=
  if_pos ((Scalar.same_real_iff 0 0).mpr rfl)

theorem scale_of_pos (i : Interval ℝ) {factor : ℝ} (positive : 0 < factor) :
    i.scale factor = ⟨factor * i.lo, factor * i.hi⟩ := by
  rw [scale, if_neg (mt (Scalar.same_real_iff factor 0).mp positive.ne'), if_pos positive]

theorem scale_of_neg (i : Interval ℝ) {factor : ℝ} (negative : factor < 0) :
    i.scale factor = ⟨factor * i.hi, factor * i.lo⟩ := by
  rw [scale, if_neg (mt (Scalar.same_real_iff factor 0).mp negative.ne), if_neg negative.not_gt]

theorem mem_scale {i : Interval ℝ} {x : ℝ} (factor : ℝ) (hx : x ∈ i) :
    factor * x ∈ i.scale factor := by
  rcases lt_trichotomy factor 0 with negative | zero | positive
  · rw [scale_of_neg i negative]
    exact ⟨mul_le_mul_of_nonpos_left hx.2 negative.le, mul_le_mul_of_nonpos_left hx.1 negative.le⟩
  · rw [zero, scale_zero, zero_mul]
    exact mem_point 0
  · rw [scale_of_pos i positive]
    exact ⟨mul_le_mul_of_nonneg_left hx.1 positive.le, mul_le_mul_of_nonneg_left hx.2 positive.le⟩

theorem ordered_scale {i : Interval ℝ} (factor : ℝ) (hi : i.Ordered) : (i.scale factor).Ordered :=
  ordered_of_mem (mem_scale factor hi.lo_mem)

end Interval

/-- Every interval of a box has its endpoints in order. -/
def OrderedBox (box : List (Interval ℝ)) : Prop := ∀ i ∈ box, i.Ordered

/-- A point of a box has one coordinate in each of its intervals. -/
def InBox (x : List ℝ) (box : List (Interval ℝ)) : Prop := List.Forall₂ (· ∈ ·) x box

namespace InBox

theorem length_eq {x : List ℝ} {box : List (Interval ℝ)} (inside : InBox x box) :
    x.length = box.length :=
  List.Forall₂.length_eq inside

theorem map {β : Type} (f : β → ℝ) (g : β → Interval ℝ) (xs : List β)
    (inside : ∀ x ∈ xs, f x ∈ g x) : InBox (xs.map f) (xs.map g) := by
  rw [InBox, List.forall₂_map_left_iff, List.forall₂_map_right_iff, List.forall₂_same]
  exact inside

theorem mem {x : List ℝ} {box : List (Interval ℝ)} (inside : InBox x box) {k : Nat} {i : Interval ℝ}
    (found : box[k]? = some i) : ∃ v, x[k]? = some v ∧ v ∈ i := by
  induction inside generalizing k with
  | nil => simp at found
  | cons first rest ih =>
      cases k with
      | zero =>
          obtain rfl := Option.some.inj found
          exact ⟨_, rfl, first⟩
      | succ k => exact ih found

end InBox

theorem OrderedBox.lows_inBox {box : List (Interval ℝ)} (ordered : OrderedBox box) :
    InBox (box.map (·.lo)) box := by
  have inside := InBox.map (·.lo) id box fun i member => (ordered i member).lo_mem
  rwa [List.map_id] at inside

end RobustMargin
