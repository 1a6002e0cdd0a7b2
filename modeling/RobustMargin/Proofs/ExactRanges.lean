import RobustMargin.Proofs.Enclosure

/-! # Exact ranges

The endpoints of an interval may be the least and the greatest of some values, and not only bounds
of them. Sums, differences and multiples keep this, and so does a monotone function. The bounds of a
neuron and its residual are exact in this sense. -/
namespace RobustMargin

namespace Interval

/-- The endpoints are the least and the greatest of some values. -/
structure Spans (i : Interval ℝ) (values : Set ℝ) : Prop where
  least : IsLeast values i.lo
  greatest : IsGreatest values i.hi

theorem Ordered.spans {i : Interval ℝ} (ordered : i.Ordered) : i.Spans {x | x ∈ i} :=
  ⟨⟨ordered.lo_mem, fun _ inside => inside.1⟩, ⟨ordered.hi_mem, fun _ inside => inside.2⟩⟩

theorem spans_point (x : ℝ) : (point x).Spans {x} := ⟨isLeast_singleton, isGreatest_singleton⟩

namespace Spans

variable {i j : Interval ℝ} {A B : Set ℝ}

theorem ordered (spans : i.Spans A) : i.Ordered := spans.least.2 spans.greatest.1

theorem mem (spans : i.Spans A) {x : ℝ} (member : x ∈ A) : x ∈ i :=
  ⟨spans.least.2 member, spans.greatest.2 member⟩

theorem monotone {f : ℝ → ℝ} (up : Monotone f) (spans : i.Spans A) :
    Spans ⟨f i.lo, f i.hi⟩ (f '' A) :=
  ⟨up.map_isLeast spans.least, up.map_isGreatest spans.greatest⟩

theorem antitone {f : ℝ → ℝ} (down : Antitone f) (spans : i.Spans A) :
    Spans ⟨f i.hi, f i.lo⟩ (f '' A) :=
  ⟨down.map_isGreatest spans.greatest, down.map_isLeast spans.least⟩

theorem add (first : i.Spans A) (second : j.Spans B) :
    (i.add j).Spans (Set.image2 (· + ·) A B) := by
  have left (y : ℝ) : Monotone fun x => x + y := fun _ _ le => add_le_add_left le y
  have right (x : ℝ) : Monotone fun y => x + y := fun _ _ le => add_le_add_right le x
  exact ⟨first.least.image2 left right second.least,
    first.greatest.image2 left right second.greatest⟩

theorem sub (first : i.Spans A) (second : j.Spans B) :
    (i.sub j).Spans (Set.image2 (· - ·) A B) := by
  have left (y : ℝ) : Monotone fun x => x - y := fun _ _ le => sub_le_sub_right le y
  have right (x : ℝ) : Antitone fun y => x - y := fun _ _ le => sub_le_sub_left le x
  exact ⟨first.least.isLeast_image2_of_isGreatest left right second.greatest,
    first.greatest.isGreatest_image2_of_isLeast left right second.least⟩

theorem shift (offset : ℝ) (spans : i.Spans A) : (i.shift offset).Spans ((· + offset) '' A) :=
  spans.monotone fun _ _ le => add_le_add_left le offset

theorem scale (factor : ℝ) (spans : i.Spans A) : (i.scale factor).Spans ((factor * ·) '' A) := by
  rcases lt_trichotomy factor 0 with negative | rfl | positive
  · rw [scale_of_neg i negative]
    exact spans.antitone fun _ _ le => mul_le_mul_of_nonpos_left le negative.le
  · have zero : (fun x : ℝ => 0 * x) '' A = {0} := by
      simp only [zero_mul]
      exact Set.Nonempty.image_const ⟨_, spans.least.1⟩ 0
    rw [scale_zero, zero]
    exact spans_point 0
  · rw [scale_of_pos i positive]
    exact spans.monotone fun _ _ le => mul_le_mul_of_nonneg_left le positive.le

end Spans

section Width

variable (i j : Interval ℝ)

theorem width_shift (offset : ℝ) : (i.shift offset).width = i.width :=
  add_sub_add_right_eq_sub i.hi i.lo offset

theorem width_sub : (i.sub j).width = i.width + j.width := by
  change i.hi - j.lo - (i.lo - j.hi) = i.hi - i.lo + (j.hi - j.lo)
  ring

theorem width_scale (factor : ℝ) : (i.scale factor).width = |factor| * i.width := by
  rcases lt_trichotomy factor 0 with negative | rfl | positive
  · rw [scale_of_neg i negative, abs_of_neg negative]
    change factor * i.lo - factor * i.hi = -factor * (i.hi - i.lo)
    ring
  · rw [scale_zero, abs_zero, zero_mul]
    exact sub_self 0
  · rw [scale_of_pos i positive, abs_of_pos positive]
    exact (mul_sub factor i.hi i.lo).symm

end Width

end Interval

theorem Activation.image_spans (f : Activation ℝ) (monotone : f.Monotonic) {i : Interval ℝ}
    {values : Set ℝ} (spans : i.Spans values) : (f.image i).Spans (f.eval '' values) := by
  unfold image
  rcases monotone with up | down
  · rw [if_pos (up spans.ordered)]
    exact spans.monotone up
  · have reversed := spans.antitone down
    split
    · -- A function that falls and does not fall over the interval has one value at both ends.
      rename_i level
      rwa [le_antisymm level (down spans.ordered)] at reversed ⊢
    · exact reversed

section Neurons

/-- The affine values of a neuron over a box. -/
def affineValues (box : List (Interval ℝ)) (weights : List ℝ) (bias : ℝ) : Set ℝ :=
  { v | ∃ p, InBox p box ∧ v = bias + (weights.zipWith (· * ·) p).sum }

/-- The values of a set, each with the weighted coordinates of a point of a box added. -/
def weightedSums (values : Set ℝ) (weights : List ℝ) (box : List (Interval ℝ)) : Set ℝ :=
  { y | ∃ v ∈ values, ∃ p, InBox p box ∧ y = v + (weights.zipWith (· * ·) p).sum }

theorem weightedSums_singleton (bias : ℝ) (weights : List ℝ) (box : List (Interval ℝ)) :
    weightedSums {bias} weights box = affineValues box weights bias := by
  ext y
  exact exists_eq_left

theorem weightedSums_nil (values : Set ℝ) {box : List (Interval ℝ)} (ordered : OrderedBox box) :
    weightedSums values [] box = values := by
  ext y
  constructor
  · rintro ⟨v, member, p, -, rfl⟩
    simpa using member
  · intro member
    exact ⟨y, member, _, ordered.lows_inBox, by simp⟩

/-- One more weight adds the multiples of one more interval. -/
theorem weightedSums_cons (values : Set ℝ) (w : ℝ) (weights : List ℝ) (i : Interval ℝ)
    (box : List (Interval ℝ)) : weightedSums values (w :: weights) (i :: box) =
      weightedSums (Set.image2 (· + ·) values ((w * ·) '' { x | x ∈ i })) weights box := by
  ext y
  constructor
  · rintro ⟨v, member, _, inside, rfl⟩
    cases inside with
    | cons hx hp =>
        refine ⟨_, ⟨v, member, _, ⟨_, hx, rfl⟩, rfl⟩, _, hp, ?_⟩
        rw [List.zipWith_cons_cons, List.sum_cons, add_assoc]
  · rintro ⟨_, ⟨v, member, _, ⟨x, hx, rfl⟩, rfl⟩, p, hp, rfl⟩
    refine ⟨v, member, x :: p, .cons hx hp, ?_⟩
    rw [List.zipWith_cons_cons, List.sum_cons, add_assoc]

theorem foldl_scaled_spans {box : List (Interval ℝ)} (ordered : OrderedBox box)
    (weights : List ℝ) {total : Interval ℝ} {values : Set ℝ} (start : total.Spans values) :
    ((weights.zip box).foldl (fun total p => total.add (p.2.scale p.1)) total).Spans
      (weightedSums values weights box) := by
  -- The total is generalized with its values, as every weight adds to both.
  induction weights generalizing box total values with
  | nil => rwa [weightedSums_nil values ordered]
  | cons w weights ih =>
      cases box with
      | nil => simpa [weightedSums, InBox] using start
      | cons i rest =>
          have later : OrderedBox rest := fun j member => ordered j (.tail i member)
          have scaled := (ordered i List.mem_cons_self).spans.scale w
          rw [weightedSums_cons]
          exact ih later (start.add scaled)

/-- The interval of a neuron has its extreme affine values over a box as endpoints. -/
theorem neuronInterval_spans {box : List (Interval ℝ)} (ordered : OrderedBox box)
    (weights : List ℝ) (bias : ℝ) :
    (neuronInterval box (weights, bias)).Spans (affineValues box weights bias) := by
  rw [← weightedSums_singleton]
  exact foldl_scaled_spans ordered weights (Interval.spans_point bias)

end Neurons

/-- The residual has the extreme linearization errors over two independent sets as endpoints. -/
theorem taylorResidual_spans (f : Activation ℝ) (center : ℝ) {pre post : Interval ℝ}
    {inputs outputs : Set ℝ} (preSpans : pre.Spans inputs) (postSpans : post.Spans outputs) :
    (taylorResidual f center pre post).Spans
      (Set.image2 (fun t s => f.linearizationError center s t) outputs inputs) := by
  have range := (postSpans.shift (-f.eval center)).sub
    ((preSpans.shift (-center)).scale (f.deriv center))
  rwa [Set.image_image, Set.image2_image_left, Set.image2_image_right] at range

/-- Over a box of matching length the bounds of every neuron of a layer are the least and the
greatest of its affine values, and of the activations of these if the activation is monotone. A box
of another length is rejected. -/
theorem layer_bounds_attained (layer : Layer ℝ) (f : Activation ℝ) (point : Linearization)
    (box : List (Interval ℝ)) :
    (box.length ≠ layer.inputs →
      layer.propagate f point box = .error (.shapeMismatch [layer.inputs] [box.length])) ∧
    (box.length = layer.inputs → OrderedBox box →
      ∃ bounds, layer.propagate f point box = .ok bounds ∧ bounds.length = layer.outputs ∧
        ∀ k < layer.outputs, ∃ weights bias n, layer.weight.rows[k]? = some weights ∧
          layer.bias[k]? = some bias ∧ bounds[k]? = some n ∧ n.pre.Ordered ∧ n.post.Ordered ∧
          n.pre.Spans (affineValues box weights bias) ∧
          (f.Monotonic → n.post.Spans (f.eval '' affineValues box weights bias))) := by
  constructor
  · intro differs
    rw [Layer.propagate, Layer.affineBox, if_neg differs]
    rfl
  · intro fits ordered
    refine ⟨_, layer.propagate_eq f point box fits, layer.bounds_length f point box,
      fun k bound => ?_⟩
    obtain ⟨neuron, found⟩ : ∃ neuron, layer.neurons[k]? = some neuron :=
      ⟨_, List.getElem?_eq_getElem (layer.neurons_length ▸ bound)⟩
    obtain ⟨row, entry⟩ := List.getElem?_zip_eq_some.mp found
    have pre := neuronInterval_spans ordered neuron.1 neuron.2
    refine ⟨neuron.1, neuron.2, NeuronBounds.ofPre f point (neuronInterval box neuron), row, entry,
      ?_, pre.ordered, f.ordered_image _, pre, fun monotone => f.image_spans monotone pre⟩
    rw [Layer.bounds, List.getElem?_map, found]
    rfl

theorem layer_bounds_attained_crossing :
    let layer := Network.crossing.firstLayer
    let box := InputBox.segment.box
    box.length = layer.inputs ∧ OrderedBox box ∧ Activation.cube.Monotonic ∧
      (∃ bounds n, layer.propagate .cube .postActivation box = .ok bounds ∧
        bounds[0]? = some n ∧ n.pre.Spans (affineValues box [1, -1] 0) ∧
        n.post.Spans (Activation.cube.eval '' affineValues box [1, -1] 0)) ∧
      layer.propagate .cube .postActivation [] = .error (.shapeMismatch [2] [0]) := by
  intro layer box
  have ordered : OrderedBox box := InputBox.segment.ordered_box
  have accepts := (layer_bounds_attained layer .cube .postActivation box).2
  have rejects := (layer_bounds_attained layer .cube .postActivation []).1
  obtain ⟨bounds, propagated, -, attained⟩ := accepts rfl ordered
  obtain ⟨weights, bias, n, row, entry, found, -, -, pre, post⟩ := attained 0 Nat.zero_lt_two
  obtain rfl := Option.some.inj row
  obtain rfl := Option.some.inj entry
  exact ⟨rfl, ordered, Activation.cube_monotonic,
    ⟨bounds, n, propagated, found, pre, post Activation.cube_monotonic⟩,
    rejects (Nat.zero_ne_add_one 1)⟩

/-- The residual of a neuron is the exact range of the linearization errors over its two intervals,
whatever the activation and its center. -/
theorem residual_range_attained (f : Activation ℝ) (center : ℝ) {pre post : Interval ℝ}
    (preOrdered : pre.Ordered) (postOrdered : post.Ordered) :
    let residual := taylorResidual f center pre post
    (∀ s ∈ pre, ∀ t ∈ post, t - f.eval center - f.deriv center * (s - center) ∈ residual) ∧
      (∃ s ∈ pre, ∃ t ∈ post,
        t - f.eval center - f.deriv center * (s - center) = residual.lo) ∧
      (∃ s ∈ pre, ∃ t ∈ post,
        t - f.eval center - f.deriv center * (s - center) = residual.hi) ∧
      residual.Ordered ∧ residual.width = post.width + |f.deriv center| * pre.width := by
  intro residual
  have spans := taylorResidual_spans f center preOrdered.spans postOrdered.spans
  obtain ⟨t, ht, s, hs, low⟩ := spans.least.1
  obtain ⟨t', ht', s', hs', high⟩ := spans.greatest.1
  refine ⟨fun s hs t ht => spans.mem ⟨t, ht, s, hs, rfl⟩, ⟨s, hs, t, ht, low⟩,
    ⟨s', hs', t', ht', high⟩, spans.ordered, ?_⟩
  change ((post.shift _).sub ((pre.shift _).scale _)).width = _
  rw [Interval.width_sub, Interval.width_scale, Interval.width_shift, Interval.width_shift]

/-- The slope is that at a center outside of the interval. -/
theorem residual_range_attained_outside :
    let pre : Interval ℝ := ⟨-1, 2⟩
    let post : Interval ℝ := ⟨-1, 8⟩
    pre.Ordered ∧ post.Ordered ∧ (4 : ℝ) ∉ pre ∧
      (taylorResidual .cube 4 pre post).Ordered ∧
      (taylorResidual .cube 4 pre post).width = 9 + 48 * 3 := by
  intro pre post
  have preOrdered : pre.Ordered := by
    change (-1 : ℝ) ≤ 2
    norm_num
  have postOrdered : post.Ordered := by
    change (-1 : ℝ) ≤ 8
    norm_num
  obtain ⟨-, -, -, ordered, width⟩ := residual_range_attained .cube 4 preOrdered postOrdered
  refine ⟨preOrdered, postOrdered, fun inside => ?_, ordered, width.trans ?_⟩
  · exact absurd inside.2 (by norm_num)
  · change (8 : ℝ) - -1 + |3 * 4 ^ 2| * (2 - -1) = 9 + 48 * 3
    norm_num

end RobustMargin
