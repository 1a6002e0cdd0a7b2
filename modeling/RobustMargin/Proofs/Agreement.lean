import RobustMargin.Proofs.DoubleOrder
import RobustMargin.Proofs.Fitting

/-! # Agreement of the formulations

Over doubles the bounds of a network may become infinite. No interval of an inclusion is reversed
all the same, so that a variable takes its bounds whenever they are numbers. The right-hand sides of
the baked formulation have to be finite as well, and there it refuses more than the other two. -/
namespace RobustMargin

namespace Interval

/-- The upper endpoint is not below the lower one; either may be no number. -/
def Unreversed (range : Interval Float) : Prop := ¬ range.hi < range.lo

variable {i j : Interval Float}

theorem unreversed_point (x : Float) : (point x).Unreversed :=
  Double.not_lt_self x

theorem Unreversed.add (first : i.Unreversed) (second : j.Unreversed) : (i.add j).Unreversed :=
  Double.add_not_lt first second

theorem Unreversed.sub (first : i.Unreversed) (second : j.Unreversed) : (i.sub j).Unreversed :=
  Double.sub_not_lt first second

theorem Unreversed.shift (first : i.Unreversed) (offset : Float) : (i.shift offset).Unreversed :=
  Double.add_not_lt first (Double.not_lt_self offset)

theorem Unreversed.scale (first : i.Unreversed) (factor : Float) :
    (i.scale factor).Unreversed := by
  unfold Interval.scale
  split
  · exact unreversed_point 0
  · split
    · rename_i positive
      exact Double.mul_not_lt positive first
    · rename_i notPositive
      exact Double.mul_not_lt_of_not_pos notPositive first

end Interval

theorem unreversed_neuronInterval {box : List (Interval Float)}
    (unreversed : ∀ range ∈ box, range.Unreversed) (neuron : List Float × Float) :
    (neuronInterval box neuron).Unreversed := by
  -- The sum starts from the point of the bias and stays unreversed with each scaled input.
  refine List.foldlRecOn _ _ (Interval.unreversed_point neuron.2) fun total kept p member => ?_
  exact kept.add ((unreversed p.2 (List.of_mem_zip member).2).scale p.1)

theorem Activation.unreversed_image (f : Activation Float) (z : Interval Float) :
    (f.image z).Unreversed := by
  unfold image
  split
  · rename_i le
    exact Double.not_lt_of_le le
  · rename_i notLe
    exact fun less => notLe (Double.le_of_lt less)

theorem unreversed_taylorResidual (f : Activation Float) (center : Float)
    {pre post : Interval Float} (first : pre.Unreversed) (second : post.Unreversed) :
    (taylorResidual f center pre post).Unreversed :=
  (second.shift _).sub ((first.shift _).scale _)

namespace Inclusion

variable {inclusion : Inclusion Float}

/-- The boxes after layers are images of the activation. -/
theorem unreversed_boxAfter (input : ∀ range ∈ inclusion.input.box, range.Unreversed) {i : Nat}
    (inside : i ≤ inclusion.network.layers.length) :
    ∀ range ∈ inclusion.boxAfter i, range.Unreversed := by
  cases i with
  | zero => exact input
  | succ i =>
      intro range member
      rw [inclusion.boxAfter_succ (List.getElem?_eq_getElem inside)] at member
      obtain ⟨n, -, rfl⟩ := List.mem_map.mp member
      exact inclusion.activation.unreversed_image _

theorem Propagated.unreversed_residual (made : inclusion.Propagated)
    (input : ∀ range ∈ inclusion.input.box, range.Unreversed) {bounds : List (NeuronBounds Float)}
    (inLayers : bounds ∈ inclusion.layers) {n : NeuronBounds Float} (inBounds : n ∈ bounds) :
    n.residual.Unreversed := by
  obtain ⟨i, boundsFound⟩ := List.getElem?_of_mem inLayers
  obtain ⟨k, place⟩ := List.getElem?_of_mem inBounds
  obtain ⟨layer, neuron, found, -, rfl⟩ := made.neuron?_eq_some
    ((inclusion.neuron?_eq_some_iff i k n).mpr ⟨bounds, boundsFound, place⟩)
  have earlier := (List.getElem?_eq_some_iff.mp found).1.le
  exact unreversed_taylorResidual _ _
    (unreversed_neuronInterval (unreversed_boxAfter input earlier) neuron)
    (inclusion.activation.unreversed_image _)

end Inclusion

namespace Blueprint

/-- The right-hand sides of the two baked rows of a neuron. -/
def FiniteSides (f : Activation Float) (n : NeuronBounds Float) : Prop :=
  Scalar.isFinite (intercept f n + n.residual.lo) = true ∧
    Scalar.isFinite (intercept f n + n.residual.hi) = true

instance (f : Activation Float) (n : NeuronBounds Float) : Decidable (FiniteSides f n) :=
  inferInstanceAs (Decidable (_ ∧ _))

theorem accepted_baked_iff {f : Activation Float} {n : NeuronBounds Float}
    (unreversed : n.residual.Unreversed) :
    Accepted f false n ↔ Accepted f true n ∧ FiniteSides f n := by
  constructor
  · rintro ⟨post, low, high⟩
    obtain ⟨intercepted, lo⟩ := Double.finite_of_add ((Double.isFinite_iff _).mp low)
    have hi := (Double.finite_of_add ((Double.isFinite_iff _).mp high)).2
    have number {x : Float} (finite : Double.Finite x) : Scalar.isNumber x = true :=
      (Double.isNumber_iff x).mpr (Double.isNaN_of_finite finite)
    exact ⟨⟨post, ⟨number lo, number hi, unreversed⟩, (Double.isFinite_iff _).mpr intercepted⟩,
      low, high⟩
  · rintro ⟨⟨post, -⟩, sides⟩
    exact ⟨post, sides⟩

/-- The baked relaxation fits where the one with residual variables does and where the right-hand
sides of its rows are finite. -/
theorem fit_baked_iff {inclusion : Inclusion Float} (made : inclusion.Propagated) :
    Pieces.Fit 0 (relaxation inclusion (layoutOf inclusion false)) ↔
      Pieces.Fit 0 (relaxation inclusion (layoutOf inclusion true)) ∧
        ∀ bounds ∈ inclusion.layers, ∀ n ∈ bounds, FiniteSides inclusion.activation n := by
  have zero : Scalar.isFinite (0 : Float) = true := by decide
  constructor
  · intro fit
    obtain ⟨box, accepted⟩ := accepted_of_fit made false fit
    have input : ∀ range ∈ inclusion.input.box, range.Unreversed :=
      fun range member => (box range member).2.2
    have both {bounds} (inLayers : bounds ∈ inclusion.layers) {n} (inBounds : n ∈ bounds) :=
      (accepted_baked_iff (made.unreversed_residual input inLayers inBounds)).mp
        (accepted bounds inLayers n inBounds)
    exact ⟨fit_relaxation_of_accepted zero made true box fun _ inLayers _ inBounds =>
      (both inLayers inBounds).1, fun _ inLayers _ inBounds => (both inLayers inBounds).2⟩
  · rintro ⟨fit, sides⟩
    obtain ⟨box, accepted⟩ := accepted_of_fit made true fit
    exact fit_relaxation_of_accepted zero made false box fun bounds inLayers n inBounds =>
      ⟨(accepted bounds inLayers n inBounds).1, sides bounds inLayers n inBounds⟩

end Blueprint

namespace Model

variable {inclusion : Inclusion Float}

theorem isFinite_cost_marginExpr (l : Layout) (depth label competitor : Nat) (v : VarId) :
    Scalar.isFinite (Dual.cost (marginExpr l depth label competitor : LinearExpr Float) v) =
      true := by
  have terms : (marginExpr l depth label competitor : LinearExpr Float).terms =
      [(l.post depth label, 1), (l.post depth competitor, -1)] := rfl
  have sums : ∀ own other : Bool, Scalar.isFinite
      (if other then (if own then 0 + 1 else 0) + -1 else if own then 0 + 1 else (0 : Float)) =
        true := by
    decide +kernel
  rw [Dual.cost, terms, List.foldl_cons, List.foldl_cons, List.foldl_nil]
  have sum := sums (decide (l.post depth label = v)) (decide (l.post depth competitor = v))
  simpa only [decide_eq_true_eq] using sum

/-- The dual blocks of a model are accepted: the costs of a margin are sums of ones. -/
theorem fit_dualBlocks (label : Nat) (formulation : Formulation) :
    Pieces.Fit 1 ((dualBlocks inclusion label formulation).flatMap (blockPieces 0)) := by
  have zero : Scalar.isFinite (0 : Float) = true := by decide
  refine fit_blocks zero _ _ (fun k _ v => isFinite_cost_marginExpr _ _ _ k v) (fun k _ => ?_)
    Nat.one_pos
  have constant : (margin inclusion label formulation k).constant = 0 :=
    (LinearExpr.constant_addTerm _ _ _).trans (LinearExpr.constant_var _)
  exact (congrArg Scalar.isFinite constant).trans zero

theorem exists_build_iff (label : Nat) (formulation : Formulation) :
    (∃ m, build inclusion label formulation = .ok m) ↔
      (label < inclusion.network.outputs ∧ 2 ≤ inclusion.network.outputs) ∧
        Pieces.Fit 0 (Blueprint.relaxation inclusion
          (Blueprint.layoutOf inclusion formulation.exposesResiduals)) := by
  constructor
  · rintro ⟨m, built⟩
    obtain ⟨several, fit, -⟩ := (build_eq_ok_iff_fit inclusion label formulation m).mp built
    exact ⟨several, fit⟩
  · rintro ⟨several, fit⟩
    exact ⟨_, (build_eq_ok_iff_fit inclusion label formulation _).mpr
      ⟨several, fit, fun _ => fit_dualBlocks label formulation, rfl⟩⟩

/-- The direct and the auxiliary formulation accept the same inclusions. The baked formulation
accepts those of them whose relaxation has finite right-hand sides. -/
theorem build_baked_iff {input : InputBox Float} {f : Activation Float} {network : Network Float}
    {point : Linearization} (made : Inclusion.build input f network point = .ok inclusion)
    (label : Nat) :
    ((∃ m, build inclusion label .auxiliary = .ok m) ↔ ∃ m, build inclusion label .direct = .ok m) ∧
      ((∃ m, build inclusion label .baked = .ok m) ↔
        (∃ m, build inclusion label .direct = .ok m) ∧
          ∀ bounds ∈ inclusion.layers, ∀ n ∈ bounds, Blueprint.FiniteSides f n) := by
  obtain ⟨propagated, -, rfl, -, -⟩ := (Inclusion.build_eq_ok_iff _ _ _ _ _).mp made
  rw [exists_build_iff, exists_build_iff, exists_build_iff]
  refine ⟨Iff.rfl, ?_⟩
  have baked := Blueprint.fit_baked_iff propagated
  exact (and_congr_right' baked).trans and_assoc.symm

/-- One input, passed on to the first of two outputs. -/
def passOn : Network Float where
  layers := [⟨⟨1, [[1.0], [0.0]], by decide⟩, [0.0, 0.0], by decide, List.cons_ne_nil _ _, by decide,
    by decide⟩]
  layers_ne_nil := List.cons_ne_nil _ _
  chained := trivial

/-- Zero, known up to a radius. -/
def aroundZero (radius : Float) (valid : isRadius radius = true) : InputBox Float :=
  ⟨[0.0], [radius], rfl, List.cons_ne_nil _ _, by decide, Bool.and_eq_true_iff.mpr ⟨valid, rfl⟩⟩

def passedOn (input : InputBox Float) : Inclusion Float :=
  ⟨input, .identity, passOn, .postActivation,
    Network.bounds .identity .postActivation passOn.layers input.box⟩

theorem build_baked_iff_narrow : ∃ inclusion,
    Inclusion.build (aroundZero 0.5 (by decide)) .identity passOn .postActivation = .ok inclusion ∧
      ∃ m, build inclusion 0 .baked = .ok m := by
  let inclusion := passedOn (aroundZero 0.5 (by decide))
  have made : Inclusion.build inclusion.input .identity passOn .postActivation = .ok inclusion :=
    Inclusion.build_eq _ _ _ _ rfl
  have sides : ∀ bounds ∈ inclusion.layers, ∀ n ∈ bounds, Blueprint.FiniteSides .identity n := by
    decide +kernel
  have direct : (build inclusion 0 .direct).isOk = true := by decide +kernel
  exact ⟨inclusion, made, (build_baked_iff made 0).2.mpr ⟨exists_ok_of_isOk direct, sides⟩⟩

/-- A radius near the greatest double is enough: the residual spans all doubles. -/
theorem build_wide : ∃ inclusion,
    Inclusion.build (aroundZero 1e308 (by decide +kernel)) .identity passOn .postActivation =
        .ok inclusion ∧
      (∃ m, build inclusion 0 .direct = .ok m) ∧ (∃ m, build inclusion 0 .auxiliary = .ok m) ∧
        ∃ e, build inclusion 0 .baked = .error e := by
  let inclusion := passedOn (aroundZero 1e308 (by decide +kernel))
  have made : Inclusion.build inclusion.input .identity passOn .postActivation = .ok inclusion :=
    Inclusion.build_eq _ _ _ _ rfl
  have outcomes : (build inclusion 0 .direct).isOk = true ∧
      (build inclusion 0 .auxiliary).isOk = true ∧ (build inclusion 0 .baked).isOk = false := by
    decide +kernel
  obtain ⟨direct, auxiliary, baked⟩ := outcomes
  exact ⟨inclusion, made, exists_ok_of_isOk direct, exists_ok_of_isOk auxiliary,
    exists_error_of_isOk baked⟩

end Model
end RobustMargin
