import RobustMargin.Proofs.Optimum

/-! # Sampled monotonicity

Whether an activation decreases on an interval is looked for at sample points, each compared with
the one before it only. The points stand in order, so that no decrease from one to the next means
that the activation is monotone on all of them. Both endpoints are among the points: an image with
exchanged endpoints is always noticed. All points lie in the interval: a decrease that is noticed is
one on the interval. -/
namespace RobustMargin

/-- Values at points in order are in order themselves exactly if the function is monotone on the
points. -/
theorem pairwise_map_iff_monotoneOn {points : List ℝ} (sorted : points.Pairwise (· ≤ ·))
    (g : ℝ → ℝ) : (points.map g).Pairwise (· ≤ ·) ↔ MonotoneOn g {x | x ∈ points} := by
  rw [List.pairwise_map]
  induction sorted with
  | nil => simp [MonotoneOn]
  | @cons x rest below _ ih =>
      rw [List.pairwise_cons, ih]
      constructor
      · rintro ⟨first, later⟩ y hy y' hy' le
        rcases List.mem_cons.mp hy with rfl | inRest
        · rcases List.mem_cons.mp hy' with rfl | inRest'
          · exact le_rfl
          · exact first y' inRest'
        · rcases List.mem_cons.mp hy' with rfl | inRest'
          · -- A later point lies above the first one, unless the two are equal.
            exact (congrArg g (le_antisymm le (below y inRest))).le
          · exact later inRest inRest' le
      · intro monotone
        exact ⟨fun y member => monotone List.mem_cons_self (.tail x member) (below y member),
          monotone.mono fun y member => .tail x member⟩

namespace Activation

theorem nonDecreasing_iff (previous : ℝ) (values : List ℝ) :
    nonDecreasing previous values = true ↔ (previous :: values).Pairwise (· ≤ ·) := by
  rw [← List.isChain_iff_pairwise]
  induction values generalizing previous with
  | nil => simp [nonDecreasing]
  | cons y rest ih => simp [nonDecreasing, ih]

section Visited

/-- The points at which a function is evaluated: the lower endpoint before those that cut the
interval. -/
noncomputable def visited (z : Interval ℝ) (samples : Nat) : List ℝ :=
  z.lo :: samplePoints z samples

variable (z : Interval ℝ) {samples : Nat}

/-- The points cut the interval evenly; that the last one is given as the endpoint changes
nothing. -/
theorem visited_eq (samples : Nat) : visited z samples =
    (List.range (samples + 1)).map fun i : Nat => z.lo + z.width / samples * i := by
  rw [visited, samplePoints, List.range_succ_eq_map, List.map_cons, List.map_map, Nat.cast_zero,
    mul_zero, add_zero]
  refine congrArg _ (List.map_congr_left fun i _ => ?_)
  split
  · rename_i last
    have positive : (samples : ℝ) ≠ 0 := Nat.cast_ne_zero.mpr (last ▸ i.succ_ne_zero)
    rw [Function.comp_apply, Nat.succ_eq_add_one, last, div_mul_cancel₀ _ positive]
    exact (add_sub_cancel z.lo z.hi).symm
  · rfl

theorem lo_mem_visited (samples : Nat) : z.lo ∈ visited z samples := List.mem_cons_self

theorem hi_mem_visited (positive : 1 ≤ samples) : z.hi ∈ visited z samples := by
  refine List.mem_cons_of_mem _ (List.mem_map.mpr ⟨samples - 1, ?_, ?_⟩)
  · exact List.mem_range.mpr (Nat.sub_one_lt_of_lt positive)
  · exact if_pos (Nat.sub_add_cancel positive)

variable {z} (ordered : z.Ordered)
include ordered

theorem visited_pairwise (samples : Nat) : (visited z samples).Pairwise (· ≤ ·) := by
  have step : 0 ≤ z.width / samples := div_nonneg (sub_nonneg.mpr ordered) samples.cast_nonneg
  rw [visited_eq, List.pairwise_map]
  refine List.pairwise_le_range.imp fun le => add_le_add_right ?_ _
  exact mul_le_mul_of_nonneg_left (Nat.cast_le.mpr le) step

theorem mem_of_visited {x : ℝ} (member : x ∈ visited z samples) : x ∈ z := by
  rw [visited_eq] at member
  obtain ⟨i, bound, rfl⟩ := List.mem_map.mp member
  have width : 0 ≤ z.width := sub_nonneg.mpr ordered
  have part : (i : ℝ) / samples ≤ 1 := div_le_one_of_le₀
    (Nat.cast_le.mpr (Nat.le_of_lt_succ (List.mem_range.mp bound))) samples.cast_nonneg
  constructor
  · exact le_add_of_nonneg_right
      (mul_nonneg (div_nonneg width samples.cast_nonneg) i.cast_nonneg)
  · calc z.lo + z.width / samples * i = z.lo + z.width * (i / samples) := by ring
      _ ≤ z.lo + z.width * 1 := add_le_add_right (mul_le_mul_of_nonneg_left part width) _
      _ = z.hi := by rw [mul_one]; exact add_sub_cancel z.lo z.hi

/-- Without a second point to compare with there is only one. -/
theorem visited_subsingleton (degenerate : (z.isPoint || samples == 0) = true) :
    {x | x ∈ visited z samples}.Subsingleton := by
  rcases (Bool.or_eq_true _ _).mp degenerate with isPoint | none
  · have same : z.lo = z.hi := (Scalar.same_real_iff _ _).mp isPoint
    have isLow {x : ℝ} (member : x ∈ visited z samples) : x = z.lo := by
      have inside := mem_of_visited ordered member
      exact le_antisymm (same ▸ inside.2) inside.1
    exact fun x hx y hy => (isLow hx).trans (isLow hy).symm
  · obtain rfl := beq_iff_eq.mp none
    exact fun x hx y hy => (List.mem_singleton.mp hx).trans (List.mem_singleton.mp hy).symm

end Visited

section Judgement

variable (f : Activation ℝ) {z : Interval ℝ} (ordered : z.Ordered)
include ordered

/-- Comparing neighbours tells whether the function is monotone on all of the points. -/
theorem monotoneOn_iff (samples : Nat) :
    f.monotoneOn z samples = true ↔ MonotoneOn f.eval {x | x ∈ visited z samples} := by
  unfold monotoneOn
  split
  · rename_i degenerate
    exact iff_of_true rfl ((visited_subsingleton ordered degenerate).monotoneOn _)
  · rw [nonDecreasing_iff]
    exact pairwise_map_iff_monotoneOn (visited_pairwise ordered samples) f.eval

theorem monotoneOn_of_monotone (monotone : MonotoneOn f.eval {x | x ∈ z}) (samples : Nat) :
    f.monotoneOn z samples = true :=
  (f.monotoneOn_iff ordered samples).mpr (monotone.mono fun _ => mem_of_visited ordered)

/-- Values that are exchanged in the image are seen to decrease. -/
theorem monotoneOn_of_exchanged (exchanged : f.eval z.hi < f.eval z.lo) {samples : Nat}
    (positive : 1 ≤ samples) : f.monotoneOn z samples = false := by
  refine Bool.eq_false_iff.mpr fun passed => ?_
  have monotone := (f.monotoneOn_iff ordered samples).mp passed
  exact exchanged.not_ge
    (monotone (lo_mem_visited z samples) (hi_mem_visited z positive) ordered)

/-- A decrease that is seen is one between two points of the interval. -/
theorem exists_decrease {samples : Nat} (seen : f.monotoneOn z samples = false) :
    ∃ x ∈ z, ∃ y ∈ z, x < y ∧ f.eval y < f.eval x := by
  have notMonotone : ¬MonotoneOn f.eval {x | x ∈ visited z samples} := by
    rw [← f.monotoneOn_iff ordered, seen]
    exact Bool.false_ne_true
  simp only [MonotoneOn, Set.mem_ofPred_eq, not_forall, not_le] at notMonotone
  obtain ⟨x, hx, y, hy, le, falls⟩ := notMonotone
  have differ : x ≠ y := fun same => falls.ne' (congrArg f.eval same)
  exact ⟨x, mem_of_visited ordered hx, y, mem_of_visited ordered hy, lt_of_le_of_ne le differ,
    falls⟩

end Judgement

/-- The image has its endpoints exchanged exactly if the values at the endpoints decrease. -/
theorem image_exchanged_iff (f : Activation ℝ) (z : Interval ℝ) :
    f.image z ≠ ⟨f.eval z.lo, f.eval z.hi⟩ ↔ f.eval z.hi < f.eval z.lo := by
  unfold image
  split
  · rename_i le
    exact iff_of_false (fun differ => differ rfl) le.not_gt
  · rename_i above
    have less := not_le.mp above
    exact iff_of_true (fun same => less.ne (congrArg Interval.lo same)) less

end Activation

namespace Inclusion

section Notes

variable {α : Type} [Scalar α]

theorem mem_notMonotone_iff (f : Activation α) (bounds : List (NeuronBounds α)) (k : Nat) :
    k ∈ notMonotone f bounds ↔
      ∃ n, bounds[k]? = some n ∧ f.monotoneOn n.pre monotoneSamples = false := by
  simp [notMonotone, List.mem_zipIdx_iff_getElem?]

/-- The notes on the layers name the neurons that are listed for each. -/
theorem mem_notes_iff (inclusion : Inclusion α) (i k : Nat) :
    .notMonotone i k ∈ inclusion.notes ↔ ∃ bounds, inclusion.layers[i]? = some bounds ∧
      k ∈ notMonotone inclusion.activation bounds := by
  simp [notes, List.mem_zipIdx_iff_getElem?]

end Notes

/-- Over the reals and for any activation a neuron is not listed, however many samples are taken, if
the activation does not decrease on its interval. It is listed, and any number of samples but zero
shows it, if the image of the interval has exchanged endpoints. Samples that show a decrease never
err. The notes of an inclusion name the neurons that are listed. -/
theorem notMonotone_justified (f : Activation ℝ) (bounds : List (NeuronBounds ℝ)) (k : Nat)
    {n : NeuronBounds ℝ} (found : bounds[k]? = some n) (ordered : n.pre.Ordered) :
    let z := n.pre
    let listed := k ∈ notMonotone f bounds
    (MonotoneOn f.eval {x | x ∈ z} →
      (∀ samples, f.monotoneOn z samples = true) ∧ ¬listed) ∧
    (f.image z ≠ ⟨f.eval z.lo, f.eval z.hi⟩ ↔ f.eval z.hi < f.eval z.lo) ∧
    (f.eval z.hi < f.eval z.lo →
      listed ∧ ∀ samples, 1 ≤ samples → f.monotoneOn z samples = false) ∧
    (∀ samples, f.monotoneOn z samples = false →
      ∃ x ∈ z, ∃ y ∈ z, x < y ∧ f.eval y < f.eval x) ∧
    ∀ (inclusion : Inclusion ℝ) i, inclusion.activation = f → inclusion.layers[i]? = some bounds →
      (.notMonotone i k ∈ inclusion.notes ↔ listed) := by
  intro z listed
  have listed_iff : listed ↔ f.monotoneOn z monotoneSamples = false := by
    change k ∈ notMonotone f bounds ↔ _
    rw [mem_notMonotone_iff, found]
    simp [z]
  refine ⟨fun monotone => ?_, f.image_exchanged_iff z, fun exchanged => ?_,
    fun samples => f.exists_decrease ordered, ?_⟩
  · have passes := f.monotoneOn_of_monotone ordered monotone
    refine ⟨passes, fun isListed => ?_⟩
    exact Bool.false_ne_true ((listed_iff.mp isListed).symm.trans (passes monotoneSamples))
  · have fails : ∀ samples, 1 ≤ samples → f.monotoneOn z samples = false :=
      fun _ => f.monotoneOn_of_exchanged ordered exchanged
    exact ⟨listed_iff.mpr (fails monotoneSamples (by decide)), fails⟩
  · rintro inclusion i rfl layer
    rw [mem_notes_iff, layer]
    simp [listed]

/-- The second power rises on the interval of the first neuron, and falls further than it rises on
that of the second. -/
theorem notMonotone_justified_square :
    let rising : Interval ℝ := ⟨0, 2⟩
    let falling : Interval ℝ := ⟨-2, 1⟩
    let bounds := [rising, falling].map (NeuronBounds.ofPre .square .preActivation)
    let inclusion : Inclusion ℝ := ⟨.segment, .square, .crossing, .preActivation, [bounds]⟩
    rising.Ordered ∧ falling.Ordered ∧ 0 ∉ notMonotone .square bounds ∧
      1 ∈ notMonotone .square bounds ∧ .notMonotone 0 1 ∈ inclusion.notes ∧
      ∃ x ∈ falling, ∃ y ∈ falling, x < y ∧ y * y < x * x := by
  intro rising falling bounds inclusion
  have risingOrdered : rising.Ordered := by
    change (0 : ℝ) ≤ 2
    norm_num
  have fallingOrdered : falling.Ordered := by
    change (-2 : ℝ) ≤ 1
    norm_num
  have rises : MonotoneOn Activation.square.eval {x | x ∈ rising} := fun x hx y _ le =>
    mul_self_le_mul_self hx.1 le
  have exchanged : Activation.square.eval falling.hi < Activation.square.eval falling.lo := by
    change (1 : ℝ) * 1 < -2 * -2
    norm_num
  obtain ⟨quiet, -⟩ := notMonotone_justified .square bounds 0 rfl risingOrdered
  obtain ⟨-, -, warned, seen, noted⟩ :=
    notMonotone_justified .square bounds 1 rfl fallingOrdered
  have falls := warned exchanged
  exact ⟨risingOrdered, fallingOrdered, (quiet rises).2, falls.1,
    (noted inclusion 0 rfl rfl).mpr falls.1, seen 1 (falls.2 1 le_rfl)⟩

end Inclusion
end RobustMargin
