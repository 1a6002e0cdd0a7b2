import RobustMargin.Proofs.ExactSolver
import RobustMargin.Proofs.Labels

/-! # Point boxes

Without uncertainty the bounds of an inclusion are the values of the forward pass, for any
activation, and the margin of the nominal label is its lead over the other outputs. -/
namespace RobustMargin

namespace Interval

theorem isPoint_point (x : ℝ) : (point x).isPoint = true := (Scalar.same_real_iff x x).mpr rfl

theorem around_zero (x : ℝ) : around x 0 = point x := by
  rw [around, point, sub_zero, add_zero]

theorem scale_point (factor x : ℝ) : (point x).scale factor = point (factor * x) := by
  rcases lt_trichotomy factor 0 with negative | rfl | positive
  · exact scale_of_neg _ negative
  · rw [scale_zero, zero_mul]
  · exact scale_of_pos _ positive

end Interval

theorem InputBox.box_of_certain (input : InputBox ℝ) (certain : ∀ u ∈ input.uncertainties, u = 0) :
    input.box = input.values.map .point := by
  have zeros : input.uncertainties = .replicate input.values.length 0 :=
    List.eq_replicate_iff.mpr ⟨input.length_eq, certain⟩
  rw [box, zeros]
  induction input.values with
  | nil => rfl
  | cons x rest ih =>
      rw [List.length_cons, List.replicate_succ, List.zipWith_cons_cons, Interval.around_zero, ih,
        List.map_cons]

theorem foldl_scaled_point (x weights : List ℝ) (v : ℝ) :
    (weights.zip (x.map Interval.point)).foldl (fun total p => total.add (p.2.scale p.1))
      (Interval.point v) = Interval.point (v + (weights.zipWith (· * ·) x).sum) := by
  induction x generalizing weights v with
  | nil => simp
  | cons y rest ih =>
      cases weights with
      | nil => simp
      | cons w weights =>
          rw [List.map_cons, List.zip_cons_cons, List.foldl_cons, Interval.scale_point,
            List.zipWith_cons_cons, List.sum_cons, ← add_assoc]
          exact ih weights (v + w * y)

/-- The interval fold and the dot product compute the same value. -/
theorem neuronInterval_point (x : List ℝ) (neuron : List ℝ × ℝ) :
    neuronInterval (x.map .point) neuron = .point (neuronValue x neuron) := by
  rw [neuronValue_real, exactValue, add_comm]
  exact foldl_scaled_point x neuron.1 neuron.2

theorem Activation.image_point (f : Activation ℝ) (x : ℝ) :
    f.image (.point x) = .point (f.eval x) :=
  if_pos le_rfl

theorem residual_of_point (f : Activation ℝ) (point : Linearization) (x : ℝ) :
    (NeuronBounds.ofPre f point (.point x)).residual.isPoint = true := by
  let center := point.select (Interval.point x) (f.image (.point x))
  have residual : taylorResidual f center (.point x) (f.image (.point x)) =
      .point (f.eval x + -f.eval center - f.deriv center * (x + -center)) := by
    rw [f.image_point]
    change ((Interval.point (f.eval x + -f.eval center)).sub
      ((Interval.point (x + -center)).scale (f.deriv center))) = _
    rw [Interval.scale_point]
    rfl
  change (taylorResidual f center (.point x) (f.image (.point x))).isPoint = true
  rw [residual]
  exact Interval.isPoint_point _

theorem Layer.postBox_point (layer : Layer ℝ) (f : Activation ℝ) (x : List ℝ) :
    layer.postBox f (x.map .point) = (layer.forward f x).map .point := by
  rw [postBox, forward, affine, List.map_map, List.map_map]
  refine List.map_congr_left fun neuron _ => ?_
  rw [neuronInterval_point, f.image_point]
  rfl

theorem Network.runBox_point (f : Activation ℝ) (layers : List (Layer ℝ)) (x : List ℝ) :
    runBox f layers (x.map .point) = (run f layers x).map .point := by
  induction layers generalizing x with
  | nil => rfl
  | cons layer rest ih => rw [runBox, layer.postBox_point, ih, run]

namespace Inclusion.Propagated

variable {inclusion : Inclusion ℝ} (made : inclusion.Propagated)
  (certain : ∀ u ∈ inclusion.input.uncertainties, u = 0)

include certain in
omit made in
theorem boxAfter_of_certain (i : Nat) : inclusion.boxAfter i =
    (inclusion.network.valuesAfter inclusion.activation inclusion.input.values i).map .point := by
  rw [boxAfter, inclusion.input.box_of_certain certain, Network.runBox_point]
  rfl

include made certain

theorem pre?_of_certain {i : Nat} {layer : Layer ℝ}
    (found : inclusion.network.layers[i]? = some layer) :
    inclusion.pre? (i + 1) = some ((layer.affine (inclusion.network.valuesAfter
      inclusion.activation inclusion.input.values i)).map .point) := by
  rw [pre?, layer?, made.layers_getElem?, found, boxAfter_of_certain certain, Option.map_some,
    Option.map_some, Layer.bounds, Layer.affine, List.map_map, List.map_map]
  refine congrArg some (List.map_congr_left fun neuron _ => ?_)
  exact neuronInterval_point _ neuron

theorem residuals?_of_certain {i : Nat} {layer : Layer ℝ}
    (found : inclusion.network.layers[i]? = some layer) :
    ∃ box, inclusion.residuals? (i + 1) = some box ∧ ∀ r ∈ box, r.isPoint = true := by
  rw [residuals?, layer?, made.layers_getElem?, found, boxAfter_of_certain certain,
    Option.map_some, Option.map_some]
  refine ⟨_, rfl, fun r member => ?_⟩
  obtain ⟨n, inBounds, rfl⟩ := List.mem_map.mp member
  obtain ⟨neuron, -, rfl⟩ := List.mem_map.mp inBounds
  rw [neuronInterval_point]
  exact residual_of_point _ _ _

end Inclusion.Propagated

section Labels

theorem argmax_greatest {xs : List ℝ} {label : Nat} (found : argmax xs = some label) :
    ∃ top, xs[label]? = some top ∧ ∀ y ∈ xs, y ≤ top := by
  obtain ⟨top, chosen⟩ := chosen_of_argmax found
  exact ⟨top, chosen.getElem?, fun y member => chosen.le member (Scalar.isNumber_real y)⟩

/-- The nominal label has the greatest output. -/
theorem nominalLabel_greatest (input : InputBox ℝ) (f : Activation ℝ) (network : Network ℝ)
    (sizes : input.size = network.inputs) (outputs : 0 < network.outputs) :
    ∃ label top, nominalLabel input f network = .ok label ∧
      (network.valuesAfter f input.values network.depth)[label]? = some top ∧
      ∀ y ∈ network.valuesAfter f input.values network.depth, y ≤ top := by
  have some_entry : network.valuesAfter f input.values network.depth ≠ [] :=
    List.ne_nil_of_length_pos (network.valuesAfter_depth_length f input.values ▸ outputs)
  obtain ⟨label, found⟩ := exists_argmax some_entry
  obtain ⟨top, isTop, greatest⟩ := argmax_greatest found
  exact ⟨label, top, nominalLabel_eq (network.forward_eq f input.values sizes) found, isTop,
    greatest⟩

end Labels

/-- Over a box of points the margins are the leads over the other outputs. -/
theorem Inclusion.boxMargins_of_points (inclusion : Inclusion ℝ) {outputs : List ℝ}
    (box : inclusion.outputBox = outputs.map .point)
    (length : outputs.length = inclusion.network.outputs) {label : Nat} {top : ℝ}
    (isTop : outputs[label]? = some top) : inclusion.boxMargins label =
      (fun y => top - y) '' { y | ∃ k ≠ label, outputs[k]? = some y } := by
  have ranges (k : Nat) : inclusion.outputBox[k]? = outputs[k]?.map .point := by
    rw [box, List.getElem?_map]
  ext margin
  constructor
  · rintro ⟨k, a, b, bound, other, aFound, bFound, rfl⟩
    rw [ranges, isTop] at aFound
    rw [ranges] at bFound
    obtain rfl := Option.some.inj aFound
    obtain ⟨y, found, rfl⟩ := Option.map_eq_some_iff.mp bFound
    exact ⟨y, ⟨k, other, found⟩, rfl⟩
  · rintro ⟨y, ⟨k, other, found⟩, rfl⟩
    refine ⟨k, .point top, .point y, ?_, other, ?_, ?_, rfl⟩
    · exact length ▸ (List.getElem?_eq_some_iff.mp found).1
    · rw [ranges, isTop, Option.map_some]
    · rw [ranges, found, Option.map_some]

/-- The margin of a greatest output is its lead over the next one. -/
theorem Inclusion.exists_next {inclusion : Inclusion ℝ} {outputs : List ℝ}
    (box : inclusion.outputBox = outputs.map .point)
    (length : outputs.length = inclusion.network.outputs) {label : Nat} {top margin : ℝ}
    (isTop : outputs[label]? = some top) (greatest : ∀ y ∈ outputs, y ≤ top)
    (least : IsLeast (inclusion.boxMargins label) margin) :
    ∃ next, margin = top - next ∧ IsGreatest { y | ∃ k ≠ label, outputs[k]? = some y } next ∧
      0 ≤ top - next := by
  rw [inclusion.boxMargins_of_points box length isTop] at least
  obtain ⟨next, ⟨k, other, found⟩, rfl⟩ := least.1
  refine ⟨next, rfl, ⟨⟨k, other, found⟩, fun y member => ?_⟩, ?_⟩
  · exact (sub_le_sub_iff_left top).mp (least.2 ⟨y, member, rfl⟩)
  · exact sub_nonneg.mpr (greatest next (List.mem_of_getElem? found))

/-- Without uncertainty the bounds of every layer are the values of the forward pass, whatever the
activation and the expansion point, and the residuals are points. The margin of the nominal label
is then its lead over the other outputs in every formulation, so that its verdict is robust. -/
theorem point_boxes_follow_forward (input : InputBox ℝ) (f : Activation ℝ) (network : Network ℝ)
    (point : Linearization) (sizes : input.size = network.inputs)
    (certain : ∀ u ∈ input.uncertainties, u = 0) (rivals : 2 ≤ network.outputs) :
    let values := network.valuesAfter f input.values
    ∃ inclusion label top next, Inclusion.build input f network point = .ok inclusion ∧
      (∀ i ≤ network.depth, inclusion.post? i = some ((values i).map .point)) ∧
      (∀ i layer, network.layers[i]? = some layer →
        inclusion.pre? (i + 1) = some ((layer.affine (values i)).map .point) ∧
        ∃ box, inclusion.residuals? (i + 1) = some box ∧ ∀ r ∈ box, r.isPoint = true) ∧
      network.forward f input.values = .ok (values network.depth) ∧
      inclusion.label = .ok label ∧ (values network.depth)[label]? = some top ∧
      IsGreatest { y | ∃ k ≠ label, (values network.depth)[k]? = some y } next ∧
      0 ≤ top - next ∧
      ∀ formulation, ∃ m v, Model.build inclusion label formulation = .ok m ∧
        m.HasMargin (top - next) ∧ Verification.build inclusion formulation = .ok v ∧
        v.model = m ∧ ∀ (σ : Type) (solver : Solver ℝ σ), solver.Exact → ∀ state,
          ∃ s, v.solve solver state = some (.ok s) ∧
            s.verification.verdict = .ok (.robust (top - next)) := by
  intro values
  obtain ⟨inclusion, built⟩ : ∃ inclusion, Inclusion.build input f network point = .ok inclusion :=
    ⟨_, Inclusion.build_eq input f network point sizes⟩
  obtain ⟨made, rfl, rfl, rfl, -⟩ := (Inclusion.build_eq_ok_iff _ _ _ _ _).mp built
  obtain ⟨label, top, isLabel, isTop, greatest⟩ := nominalLabel_greatest inclusion.input
    inclusion.activation inclusion.network sizes (Nat.zero_lt_two.trans_le rivals)
  have length : (values inclusion.network.depth).length = inclusion.network.outputs :=
    Network.valuesAfter_depth_length _ _ _
  have inRange : label < inclusion.network.outputs :=
    length ▸ (List.getElem?_eq_some_iff.mp isTop).1
  have outputBox : inclusion.outputBox = (values inclusion.network.depth).map .point := by
    rw [made.outputBox_eq, Inclusion.Propagated.boxAfter_of_certain certain]
  obtain ⟨margin, least⟩ := Model.boxMargins_least made inRange rivals
  obtain ⟨next, rfl, isNext, ahead⟩ :=
    Inclusion.exists_next outputBox length isTop greatest least
  refine ⟨inclusion, label, top, next, built, ?_, ?_, ?_, isLabel, isTop, isNext, ahead,
    fun formulation => ⟨_,
      ⟨inclusion, Model.ofRelaxation inclusion label formulation, .built, none⟩,
      Model.build_eq made inRange rivals formulation,
      Model.ofRelaxation_hasMargin made inRange formulation least, ?_, rfl, ?_⟩⟩
  · intro i bound
    rw [made.post?_of_le bound, Inclusion.Propagated.boxAfter_of_certain certain]
  · intro i layer found
    exact ⟨made.pre?_of_certain certain found, made.residuals?_of_certain certain found⟩
  · exact Network.forward_eq _ _ _ sizes
  · rw [Verification.build, show inclusion.label = .ok label from isLabel]
    exact Verification.withLabel_eq made inRange rivals formulation
  · intro σ solver exact state
    obtain ⟨o, -, -, ⟨c, ended, kept⟩, -, -, isMargin, -⟩ :=
      Model.run_of_exact made inRange formulation exact rivals least state
    have status := (kept ▸ Solve.run_settled ended).status_eq
    refine ⟨_, Verification.solve_eq rfl ended, ?_⟩
    change Except.ok (Verdict.ofStatus c.status) = _
    rw [status, isMargin, Verdict.ofStatus, if_pos ahead]

/-- The center of the segment without its uncertainty. -/
noncomputable def InputBox.certain : InputBox ℝ :=
  { segment with uncertainties := [0, 0], length_eq := rfl, radii := by simp [isRadius] }

theorem point_boxes_follow_forward_crossing :
    InputBox.certain.size = Network.crossing.inputs ∧
      (∀ u ∈ InputBox.certain.uncertainties, u = 0) ∧ 2 ≤ Network.crossing.outputs ∧
      ∃ inclusion v s margin,
        Inclusion.build .certain .square .crossing .preActivation = .ok inclusion ∧
        Verification.build inclusion .baked = .ok v ∧ v.solve .choosing () = some (.ok s) ∧
        s.verification.verdict = .ok (.robust margin) ∧ 0 ≤ margin := by
  have certain : ∀ u ∈ InputBox.certain.uncertainties, u = 0 := by simp [InputBox.certain]
  obtain ⟨inclusion, label, top, next, built, -, -, -, -, -, -, ahead, verifies⟩ :=
    point_boxes_follow_forward .certain .square .crossing .preActivation rfl certain
      Network.crossing_rivals
  obtain ⟨m, v, -, -, started, -, solves⟩ := verifies .baked
  obtain ⟨s, solved, verdict⟩ := solves Unit .choosing Solver.choosing_exact ()
  exact ⟨rfl, certain, Network.crossing_rivals, inclusion, v, s, _, built, started, solved, verdict,
    ahead⟩

end RobustMargin
