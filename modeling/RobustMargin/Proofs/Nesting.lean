import RobustMargin.Proofs.Optimum

/-! # Nested inputs

A network that is monotone in its activation keeps nested boxes nested, layer by layer. A smaller
input box can only enlarge the margins, although its linearizations need not be nested in those of
the larger one. -/
namespace RobustMargin

namespace Interval

theorem encloses_iff (outer inner : Interval ℝ) :
    outer.encloses inner = true ↔ outer.lo ≤ inner.lo ∧ inner.hi ≤ outer.hi := by
  rw [encloses, Bool.and_eq_true, decide_eq_true_iff, decide_eq_true_iff]

variable {i j k l : Interval ℝ}

theorem encloses_refl (i : Interval ℝ) : i.encloses i = true :=
  (encloses_iff i i).mpr ⟨le_rfl, le_rfl⟩

theorem mem_of_encloses (nested : j.encloses i = true) {x : ℝ} (inside : x ∈ i) : x ∈ j := by
  obtain ⟨low, high⟩ := (encloses_iff j i).mp nested
  exact ⟨low.trans inside.1, inside.2.trans high⟩

theorem encloses_add (first : j.encloses i = true) (second : l.encloses k = true) :
    (j.add l).encloses (i.add k) = true := by
  rw [encloses_iff] at first second ⊢
  exact ⟨add_le_add first.1 second.1, add_le_add first.2 second.2⟩

/-- Multiples of nested intervals are nested, also where their endpoints are out of order. -/
theorem encloses_scale (factor : ℝ) (nested : j.encloses i = true) :
    (j.scale factor).encloses (i.scale factor) = true := by
  obtain ⟨low, high⟩ := (encloses_iff j i).mp nested
  rcases lt_trichotomy factor 0 with negative | rfl | positive
  · rw [scale_of_neg i negative, scale_of_neg j negative, encloses_iff]
    exact ⟨mul_le_mul_of_nonpos_left high negative.le, mul_le_mul_of_nonpos_left low negative.le⟩
  · rw [scale_zero, scale_zero]
    exact encloses_refl _
  · rw [scale_of_pos i positive, scale_of_pos j positive, encloses_iff]
    exact ⟨mul_le_mul_of_nonneg_left low positive.le, mul_le_mul_of_nonneg_left high positive.le⟩

end Interval

/-- Every interval of the first box lies in that of the second one. -/
def NestedBoxes (inner outer : List (Interval ℝ)) : Prop :=
  List.Forall₂ (fun i j => j.encloses i = true) inner outer

/-- The pre- and post-activations of the first neurons lie in those of the second ones. -/
def NestedNeurons (inner outer : List (NeuronBounds ℝ)) : Prop :=
  List.Forall₂ (fun m n => n.pre.encloses m.pre = true ∧ n.post.encloses m.post = true) inner outer

theorem NestedBoxes.found {inner outer : List (Interval ℝ)} (nested : NestedBoxes inner outer)
    {k : Nat} {i : Interval ℝ} (place : inner[k]? = some i) :
    ∃ j, outer[k]? = some j ∧ j.encloses i = true := by
  induction nested generalizing k with
  | nil => cases place
  | cons first _ ih =>
      cases k with
      | zero =>
          obtain rfl := Option.some.inj place
          exact ⟨_, rfl, first⟩
      | succ k => exact ih place

theorem NestedNeurons.posts {inner outer : List (NeuronBounds ℝ)}
    (nested : NestedNeurons inner outer) :
    NestedBoxes (inner.map (·.post)) (outer.map (·.post)) :=
  List.forall₂_map_left_iff.mpr (List.forall₂_map_right_iff.mpr (nested.imp fun _ _ both => both.2))

theorem foldl_scaled_nested {inner outer : List (Interval ℝ)} (nested : NestedBoxes inner outer)
    (weights : List ℝ) {i j : Interval ℝ} (start : j.encloses i = true) :
    ((weights.zip outer).foldl (fun total p => total.add (p.2.scale p.1)) j).encloses
      ((weights.zip inner).foldl (fun total p => total.add (p.2.scale p.1)) i) = true := by
  -- Both totals are generalized, since every weight adds to each of them.
  induction nested generalizing weights i j with
  | nil => simpa using start
  | cons first _ ih =>
      cases weights with
      | nil => exact start
      | cons w weights =>
          exact ih weights (Interval.encloses_add start (Interval.encloses_scale w first))

theorem neuronInterval_nested {inner outer : List (Interval ℝ)} (nested : NestedBoxes inner outer)
    (neuron : List ℝ × ℝ) :
    (neuronInterval outer neuron).encloses (neuronInterval inner neuron) = true :=
  foldl_scaled_nested nested neuron.1 (Interval.encloses_refl _)

/-- The image of an interval has its endpoints at those of the interval. -/
theorem Activation.image_nested {f : Activation ℝ} (monotone : f.Monotonic) {i j : Interval ℝ}
    (ordered : i.Ordered) (nested : j.encloses i = true) :
    (f.image j).encloses (f.image i) = true := by
  have low := mem_image monotone (Interval.mem_of_encloses nested ordered.lo_mem)
  have high := mem_image monotone (Interval.mem_of_encloses nested ordered.hi_mem)
  rw [Interval.encloses_iff, image.eq_def f i]
  split
  · exact ⟨low.1, high.2⟩
  · exact ⟨high.1, low.2⟩

section Layers

variable {f : Activation ℝ} (monotone : f.Monotonic) {inner outer : List (Interval ℝ)}
  (ordered : OrderedBox inner) (nested : NestedBoxes inner outer)
include monotone ordered nested

theorem Layer.bounds_nested (layer : Layer ℝ) (point other : Linearization) :
    NestedNeurons (layer.bounds f point inner) (layer.bounds f other outer) := by
  refine List.forall₂_map_left_iff.mpr (List.forall₂_map_right_iff.mpr (List.forall₂_same.mpr ?_))
  intro neuron _
  have pre := neuronInterval_nested nested neuron
  exact ⟨pre, f.image_nested monotone (ordered_neuronInterval ordered neuron) pre⟩

theorem Layer.postBox_nested (layer : Layer ℝ) :
    NestedBoxes (layer.postBox f inner) (layer.postBox f outer) := by
  have posts := (layer.bounds_nested monotone ordered nested .postActivation .postActivation).posts
  rwa [layer.map_post_bounds, layer.map_post_bounds] at posts

theorem Network.bounds_nested (layers : List (Layer ℝ)) (point other : Linearization) :
    List.Forall₂ NestedNeurons (bounds f point layers inner) (bounds f other layers outer) := by
  induction layers generalizing inner outer with
  | nil => exact .nil
  | cons layer rest ih =>
      exact .cons (layer.bounds_nested monotone ordered nested point other)
        (ih (layer.ordered_postBox f inner) (layer.postBox_nested monotone ordered nested))

theorem Network.runBox_nested (layers : List (Layer ℝ)) :
    NestedBoxes (runBox f layers inner) (runBox f layers outer) := by
  induction layers generalizing inner outer with
  | nil => exact nested
  | cons layer rest ih =>
      exact ih (layer.ordered_postBox f inner) (layer.postBox_nested monotone ordered nested)

end Layers

/-- Every difference over the smaller output box has one over the larger box below it. -/
theorem Inclusion.boxMargins_nested {a b : Inclusion ℝ} (network : a.network = b.network)
    (nested : NestedBoxes a.outputBox b.outputBox) (label : Nat) {y : ℝ}
    (member : y ∈ a.boxMargins label) : ∃ x ∈ b.boxMargins label, x ≤ y := by
  obtain ⟨k, i, j, bound, other, iFound, jFound, rfl⟩ := member
  obtain ⟨i', iOuter, iNested⟩ := nested.found iFound
  obtain ⟨j', jOuter, jNested⟩ := nested.found jFound
  rw [Interval.encloses_iff] at iNested jNested
  exact ⟨_, ⟨k, i', j', network ▸ bound, other, iOuter, jOuter, rfl⟩,
    sub_le_sub iNested.1 jNested.2⟩

/-- Shrinking the input box loosens nothing, whatever the expansion points and formulations: the
bounds of every neuron stay within the earlier ones, and the margin of no label becomes lesser. -/
theorem tighter_inputs_tighten (f : Activation ℝ) (monotone : f.Monotonic) (network : Network ℝ)
    (A B : InputBox ℝ) (sizes : A.size = network.inputs) (nested : NestedBoxes A.box B.box)
    (pointA pointB : Linearization) :
    ∃ a b, Inclusion.build A f network pointA = .ok a ∧
      Inclusion.build B f network pointB = .ok b ∧
      List.Forall₂ NestedNeurons a.layers b.layers ∧
      ∀ label < network.outputs, 2 ≤ network.outputs → ∀ formulationA formulationB,
        ∃ m n marginA marginB, Model.build a label formulationA = .ok m ∧
          Model.build b label formulationB = .ok n ∧ m.HasMargin marginA ∧
          n.HasMargin marginB ∧ marginB ≤ marginA := by
  have sizesB : B.size = network.inputs := by
    rw [← sizes, ← A.box_length, ← B.box_length, List.Forall₂.length_eq nested]
  obtain ⟨a, builtA⟩ : ∃ a, Inclusion.build A f network pointA = .ok a :=
    ⟨_, Inclusion.build_eq A f network pointA sizes⟩
  obtain ⟨b, builtB⟩ : ∃ b, Inclusion.build B f network pointB = .ok b :=
    ⟨_, Inclusion.build_eq B f network pointB sizesB⟩
  obtain ⟨madeA, rfl, rfl, rfl, -⟩ := (Inclusion.build_eq_ok_iff _ _ _ _ _).mp builtA
  obtain ⟨madeB, rfl, activation, network, -⟩ := (Inclusion.build_eq_ok_iff _ _ _ _ _).mp builtB
  refine ⟨a, b, builtA, builtB, ?_, fun label inRange rivals formulationA formulationB => ?_⟩
  · rw [madeA.layers_eq, madeB.layers_eq, activation, network]
    exact Network.bounds_nested monotone a.input.ordered_box nested _ _ _
  · have outputs : NestedBoxes a.outputBox b.outputBox := by
      rw [madeA.outputBox_eq, madeB.outputBox_eq, Inclusion.boxAfter, Inclusion.boxAfter,
        activation, network]
      exact Network.runBox_nested monotone a.input.ordered_box nested _
    have inRangeB : label < b.network.outputs := network ▸ inRange
    have rivalsB : 2 ≤ b.network.outputs := network ▸ rivals
    obtain ⟨marginA, leastA⟩ := Model.boxMargins_least madeA inRange rivals
    obtain ⟨marginB, leastB⟩ := Model.boxMargins_least madeB inRangeB rivalsB
    obtain ⟨x, member, below⟩ := Inclusion.boxMargins_nested network.symm outputs label leastA.1
    exact ⟨_, _, marginA, marginB, Model.build_eq madeA inRange rivals formulationA,
      Model.build_eq madeB inRangeB rivalsB formulationB,
      Model.ofRelaxation_hasMargin madeA inRange formulationA leastA,
      Model.ofRelaxation_hasMargin madeB inRangeB formulationB leastB,
      (leastB.2 member).trans below⟩

/-- The upper half of the segment. -/
noncomputable def InputBox.upperHalf : InputBox ℝ where
  values := [5 / 4, 0]
  uncertainties := [1 / 4, 0]
  length_eq := rfl
  values_ne_nil := List.cons_ne_nil _ _
  values_finite := by simp
  radii := by norm_num [isRadius]

theorem InputBox.upperHalf_nested : NestedBoxes upperHalf.box segment.box := by
  refine .cons ?_ (.cons ?_ .nil)
  · rw [Interval.encloses_iff]
    norm_num [Interval.around]
  · exact Interval.encloses_refl _

theorem tighter_inputs_tighten_crossing :
    Activation.cube.Monotonic ∧ InputBox.upperHalf.size = Network.crossing.inputs ∧
      NestedBoxes InputBox.upperHalf.box InputBox.segment.box ∧
      ∃ a b m n marginA marginB,
        Inclusion.build .upperHalf .cube .crossing .preActivation = .ok a ∧
        Inclusion.build .segment .cube .crossing .postActivation = .ok b ∧
        List.Forall₂ NestedNeurons a.layers b.layers ∧
        Model.build a 1 .baked = .ok m ∧ Model.build b 1 .auxiliary = .ok n ∧
        m.HasMargin marginA ∧ n.HasMargin marginB ∧ marginB ≤ marginA := by
  obtain ⟨a, b, builtA, builtB, neurons, margins⟩ := tighter_inputs_tighten .cube
    Activation.cube_monotonic .crossing .upperHalf .segment rfl InputBox.upperHalf_nested
    .preActivation .postActivation
  obtain ⟨m, n, marginA, marginB, models⟩ := margins 1 Network.crossing_rivals
    Network.crossing_rivals .baked .auxiliary
  exact ⟨Activation.cube_monotonic, rfl, InputBox.upperHalf_nested, a, b, m, n, marginA, marginB,
    builtA, builtB, neurons, models⟩

end RobustMargin
