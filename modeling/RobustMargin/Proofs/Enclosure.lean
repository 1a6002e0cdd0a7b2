import RobustMargin.Proofs.Propagation

/-! # Enclosure of trajectories

The propagated bounds hold the values of a network on every point of the input box, if the
activation is monotone. The residual of a neuron holds the error of its linearization over all of
the pre-activation interval. -/
namespace RobustMargin

/-- The function does not change direction on the line; its derivative may be any function. -/
def Activation.Monotonic (f : Activation ℝ) : Prop := Monotone f.eval ∨ Antitone f.eval

/-- The error of the linearization of an activation at a center. -/
noncomputable def Activation.linearizationError (f : Activation ℝ) (center s t : ℝ) : ℝ :=
  t - f.eval center - f.deriv center * (s - center)

/-- The affine value of a neuron as a plain sum. -/
noncomputable def exactValue (x : List ℝ) (neuron : List ℝ × ℝ) : ℝ :=
  (neuron.1.zipWith (· * ·) x).sum + neuron.2

theorem neuronValue_real (x : List ℝ) (neuron : List ℝ × ℝ) :
    neuronValue x neuron = exactValue x neuron := by
  rw [neuronValue, Scalar.dot_real, exactValue]

theorem foldl_scaled_mem {x : List ℝ} {box : List (Interval ℝ)} (inside : InBox x box)
    (weights : List ℝ) {total : Interval ℝ} {v : ℝ} (start : v ∈ total) :
    v + (weights.zipWith (· * ·) x).sum ∈
      (weights.zip box).foldl (fun total p => total.add (p.2.scale p.1)) total := by
  -- The total is generalized with its value, as every weight adds to both.
  induction inside generalizing weights total v with
  | nil => simpa using start
  | cons first rest ih =>
      cases weights with
      | nil => simpa using start
      | cons w weights =>
          rw [List.zipWith_cons_cons, List.sum_cons, ← add_assoc]
          exact ih weights (Interval.mem_add start (Interval.mem_scale w first))

theorem mem_neuronInterval {x : List ℝ} {box : List (Interval ℝ)} (inside : InBox x box)
    (neuron : List ℝ × ℝ) : exactValue x neuron ∈ neuronInterval box neuron := by
  rw [exactValue, add_comm]
  exact foldl_scaled_mem inside neuron.1 (Interval.mem_point neuron.2)

theorem ordered_neuronInterval {box : List (Interval ℝ)} (ordered : OrderedBox box)
    (neuron : List ℝ × ℝ) : (neuronInterval box neuron).Ordered :=
  Interval.ordered_of_mem (mem_neuronInterval ordered.lows_inBox neuron)

namespace Activation

theorem ordered_image (f : Activation ℝ) (z : Interval ℝ) : (f.image z).Ordered := by
  unfold image
  split
  · assumption
  · rename_i reversed
    exact (lt_of_not_ge reversed).le

theorem mem_image {f : Activation ℝ} (monotone : f.Monotonic) {z : Interval ℝ} {x : ℝ}
    (inside : x ∈ z) : f.eval x ∈ f.image z := by
  unfold image
  rcases monotone with up | down
  · rw [if_pos (up (le_trans inside.1 inside.2))]
    exact ⟨up inside.1, up inside.2⟩
  · have below : f.eval z.hi ≤ f.eval x := down inside.2
    have above : f.eval x ≤ f.eval z.lo := down inside.1
    split
    · rename_i level
      exact ⟨le_trans level below, le_trans above level⟩
    · exact ⟨below, above⟩

end Activation

theorem mem_taylorResidual (f : Activation ℝ) (center : ℝ) {pre post : Interval ℝ} {s t : ℝ}
    (hs : s ∈ pre) (ht : t ∈ post) :
    f.linearizationError center s t ∈ taylorResidual f center pre post :=
  Interval.mem_sub (Interval.mem_shift _ ht) (Interval.mem_scale _ (Interval.mem_shift _ hs))

theorem ordered_taylorResidual (f : Activation ℝ) (center : ℝ) {pre post : Interval ℝ}
    (hs : pre.Ordered) (ht : post.Ordered) : (taylorResidual f center pre post).Ordered :=
  Interval.ordered_of_mem (mem_taylorResidual f center hs.lo_mem ht.lo_mem)

theorem InputBox.ordered_box (input : InputBox ℝ) : OrderedBox input.box := by
  intro i member
  obtain ⟨k, found⟩ := List.getElem?_of_mem member
  rw [box, List.getElem?_zipWith] at found
  split at found
  · rename_i value radius _ radiusFound
    obtain rfl := Option.some.inj found
    have valid := List.all_eq_true.mp input.radii radius (List.mem_of_getElem? radiusFound)
    rw [isRadius, Scalar.isFinite_real, Bool.true_and, Bool.not_eq_true', decide_eq_false_iff_not,
      not_lt] at valid
    exact Interval.ordered_around value radius valid
  · cases found

namespace Layer

theorem affine_real (layer : Layer ℝ) (x : List ℝ) :
    layer.affine x = layer.neurons.map (exactValue x) :=
  List.map_congr_left fun n _ => neuronValue_real x n

theorem forward_real (layer : Layer ℝ) (f : Activation ℝ) (x : List ℝ) :
    layer.forward f x = layer.neurons.map fun n => f.eval (exactValue x n) := by
  rw [forward, affine_real, List.map_map]
  rfl

theorem ordered_postBox (layer : Layer ℝ) (f : Activation ℝ) (box : List (Interval ℝ)) :
    OrderedBox (layer.postBox f box) := by
  intro i member
  obtain ⟨n, _, rfl⟩ := List.mem_map.mp member
  exact f.ordered_image _

theorem forward_inBox (layer : Layer ℝ) {f : Activation ℝ} (monotone : f.Monotonic) {x : List ℝ}
    {box : List (Interval ℝ)} (inside : InBox x box) :
    InBox (layer.forward f x) (layer.postBox f box) := by
  rw [forward_real]
  exact InBox.map _ _ _ fun n _ => Activation.mem_image monotone (mem_neuronInterval inside n)

end Layer

namespace Network

theorem ordered_runBox (f : Activation ℝ) (layers : List (Layer ℝ)) {box : List (Interval ℝ)}
    (ordered : OrderedBox box) : OrderedBox (runBox f layers box) := by
  induction layers generalizing box with
  | nil => exact ordered
  | cons layer rest ih => exact ih (layer.ordered_postBox f box)

theorem run_inBox {f : Activation ℝ} (monotone : f.Monotonic) (layers : List (Layer ℝ))
    {x : List ℝ} {box : List (Interval ℝ)} (inside : InBox x box) :
    InBox (run f layers x) (runBox f layers box) := by
  induction layers generalizing x box with
  | nil => exact inside
  | cons layer rest ih => exact ih (layer.forward_inBox monotone inside)

/-- The values of a network on an input after a number of layers. -/
noncomputable def valuesAfter (network : Network ℝ) (f : Activation ℝ) (x : List ℝ) (i : Nat) :
    List ℝ :=
  run f (network.layers.take i) x

theorem valuesAfter_succ (network : Network ℝ) (f : Activation ℝ) (x : List ℝ) {i : Nat}
    {layer : Layer ℝ} (found : network.layers[i]? = some layer) :
    network.valuesAfter f x (i + 1) =
      layer.neurons.map fun n => f.eval (exactValue (network.valuesAfter f x i) n) := by
  rw [valuesAfter, run_take_succ f _ x found, Layer.forward_real]
  rfl

theorem valuesAfter_depth_length (network : Network ℝ) (f : Activation ℝ) (x : List ℝ) :
    (network.valuesAfter f x network.depth).length = network.outputs := by
  rw [valuesAfter, depth, List.take_length, run_length]

theorem forward_eq (network : Network ℝ) (f : Activation ℝ) (x : List ℝ)
    (fits : x.length = network.inputs) :
    network.forward f x = .ok (network.valuesAfter f x network.depth) := by
  rw [forward, if_pos fits, valuesAfter, depth, List.take_length]

end Network

namespace Inclusion

variable {inclusion : Inclusion ℝ}

theorem ordered_boxAfter (inclusion : Inclusion ℝ) (i : Nat) : OrderedBox (inclusion.boxAfter i) :=
  Network.ordered_runBox inclusion.activation _ inclusion.input.ordered_box

theorem valuesAfter_inBox (inclusion : Inclusion ℝ) (monotone : inclusion.activation.Monotonic)
    {x : List ℝ} (inside : InBox x inclusion.input.box) (i : Nat) :
    InBox (inclusion.network.valuesAfter inclusion.activation x i) (inclusion.boxAfter i) :=
  Network.run_inBox monotone _ inside

/-- The bounds hold every neuron's values on a point of the input box, and each residual holds the
linearization errors of all of its pre-activation interval, whether they are reached or not. -/
structure Encloses (inclusion : Inclusion ℝ) (x : List ℝ) : Prop where
  neurons : ∀ i layer k neuron, inclusion.network.layers[i]? = some layer →
    layer.neurons[k]? = some neuron →
    ∃ n v, inclusion.neuron? (i + 1) k = some n ∧
      v = exactValue (inclusion.network.valuesAfter inclusion.activation x i) neuron ∧ v ∈ n.pre ∧
      (inclusion.network.valuesAfter inclusion.activation x (i + 1))[k]? =
        some (inclusion.activation.eval v) ∧
      inclusion.activation.eval v ∈ n.post ∧
      ∀ s ∈ n.pre, inclusion.activation.linearizationError n.center s
        (inclusion.activation.eval s) ∈ n.residual
  outputs : ∃ outputs, inclusion.network.forward inclusion.activation x = .ok outputs ∧
    InBox outputs inclusion.outputBox

theorem Propagated.encloses {inclusion : Inclusion ℝ} (made : inclusion.Propagated)
    (monotone : inclusion.activation.Monotonic) {x : List ℝ}
    (inside : InBox x inclusion.input.box) : inclusion.Encloses x where
  neurons := by
    intro i layer k neuron layerFound neuronFound
    let values := inclusion.network.valuesAfter inclusion.activation x i
    let n := NeuronBounds.ofPre inclusion.activation inclusion.linearization
      (neuronInterval (inclusion.boxAfter i) neuron)
    have inPre : exactValue values neuron ∈ n.pre :=
      mem_neuronInterval (inclusion.valuesAfter_inBox monotone inside i) neuron
    refine ⟨n, exactValue values neuron, ?_, rfl, inPre, ?_, ?_, ?_⟩
    · rw [made.neuron?_succ, layerFound, Option.bind_some, neuronFound]
      rfl
    · rw [Network.valuesAfter_succ _ _ _ layerFound, List.getElem?_map, neuronFound]
      rfl
    · exact Activation.mem_image monotone inPre
    · intro s hs
      exact mem_taylorResidual _ _ hs (Activation.mem_image monotone hs)
  outputs := by
    have fits : x.length = inclusion.network.inputs := by
      rw [inside.length_eq, inclusion.input.box_length, made.size_eq]
    refine ⟨_, inclusion.network.forward_eq inclusion.activation x fits, ?_⟩
    rw [made.outputBox_eq]
    exact inclusion.valuesAfter_inBox monotone inside _

end Inclusion

/-- Propagation succeeds on every input of matching length, and for a monotone activation its bounds
enclose the network's values on every point of the box, layer by layer. -/
theorem trajectories_enclosed (input : InputBox ℝ) (f : Activation ℝ) (network : Network ℝ)
    (point : Linearization) (sizes : input.size = network.inputs) (monotone : f.Monotonic) :
    ∃ inclusion, Inclusion.build input f network point = .ok inclusion ∧
      inclusion.input = input ∧ inclusion.activation = f ∧ inclusion.network = network ∧
      ∀ x, InBox x input.box → inclusion.Encloses x := by
  obtain ⟨inclusion, built⟩ : ∃ inclusion, Inclusion.build input f network point = .ok inclusion :=
    ⟨_, Inclusion.build_eq input f network point sizes⟩
  obtain ⟨made, rfl, rfl, rfl, -⟩ := (Inclusion.build_eq_ok_iff _ _ _ _ _).mp built
  exact ⟨inclusion, built, rfl, rfl, rfl, fun x inside => made.encloses monotone inside⟩

/-- Two neurons and then three outputs, with weights of either sign and some that are zero. -/
noncomputable def Network.crossing : Network ℝ where
  layers := [
    { weight := ⟨2, [[1, -1], [2, 0]], by simp⟩
      bias := [0, 1]
      bias_length := rfl
      rows_ne_nil := List.cons_ne_nil _ _
      columns_pos := Nat.zero_lt_two
      finite := by simp },
    { weight := ⟨2, [[1, 1], [0, -1], [1, 0]], by simp⟩
      bias := [-1, 0, -1]
      bias_length := rfl
      rows_ne_nil := List.cons_ne_nil _ _
      columns_pos := Nat.zero_lt_two
      finite := by simp }]
  layers_ne_nil := List.cons_ne_nil _ _
  chained := ⟨rfl, trivial⟩

theorem Network.crossing_rivals : 2 ≤ crossing.outputs := Nat.le_succ 2

/-- The first coordinate is uncertain, the second one exact. -/
noncomputable def InputBox.segment : InputBox ℝ where
  values := [1, 0]
  uncertainties := [1 / 2, 0]
  length_eq := rfl
  values_ne_nil := List.cons_ne_nil _ _
  values_finite := by simp
  radii := by norm_num [isRadius]

/-- The third power with its derivative. -/
noncomputable def Activation.cube : Activation ℝ := .custom "cube" (· ^ 3) (fun x => 3 * x ^ 2)

theorem Activation.cube_monotonic : cube.Monotonic :=
  .inl (Odd.strictMono_pow (by decide)).monotone

/-- The end of the segment. -/
noncomputable def InputBox.segmentEnd : List ℝ := [3 / 2, 0]

theorem InputBox.segmentEnd_inBox : InBox segmentEnd segment.box := by
  refine .cons ⟨?_, ?_⟩ (.cons ⟨?_, ?_⟩ .nil) <;> norm_num [Interval.around]

theorem trajectories_enclosed_crossing :
    InputBox.segment.size = Network.crossing.inputs ∧ Activation.cube.Monotonic ∧
      InBox InputBox.segmentEnd InputBox.segment.box ∧
      ∃ inclusion, Inclusion.build .segment .cube .crossing .postActivation = .ok inclusion ∧
        inclusion.Encloses InputBox.segmentEnd := by
  obtain ⟨inclusion, built, -, -, -, encloses⟩ := trajectories_enclosed InputBox.segment .cube
    .crossing .postActivation rfl Activation.cube_monotonic
  exact ⟨rfl, Activation.cube_monotonic, InputBox.segmentEnd_inBox, inclusion, built,
    encloses _ InputBox.segmentEnd_inBox⟩

end RobustMargin
