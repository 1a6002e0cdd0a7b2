import RobustMargin.Network.Generate
import RobustMargin.Proofs.RawForms
import RobustMargin.Proofs.UniformDraws

/-! # Seeded networks

A network can be drawn for every shape without empty layers. Its entries are bounded by the inverse
root of the inputs of their layer, so that they are finite. A layer takes its numbers from the
source before any later layer does, so a longer network begins with the layers of a shorter one. -/
namespace RobustMargin

theorem Matrix.cutRows_length {α : Type} (columns count : Nat) (entries : List α) :
    (cutRows columns count entries).length = count := by
  induction count generalizing entries with
  | zero => rfl
  | succ count ih => exact congrArg Nat.succ (ih _)

theorem Matrix.mem_of_mem_cutRows {α : Type} {columns count : Nat} {entries row : List α} {x : α}
    (inRows : row ∈ cutRows columns count entries) (inRow : x ∈ row) : x ∈ entries := by
  induction count generalizing entries with
  | zero => cases inRows
  | succ count ih =>
      rcases List.mem_cons.mp inRows with rfl | later
      · exact List.mem_of_mem_take inRow
      · exact List.mem_of_mem_drop (ih later)

/-- Finite entries of matching numbers form a layer. -/
theorem Layer.exists_ofParts {weight : Matrix Float} {bias : List Float}
    (rows : 0 < weight.rows.length) (columns : 0 < weight.columns)
    (lengths : bias.length = weight.rows.length)
    (weights : ∀ row ∈ weight.rows, ∀ x ∈ row, Scalar.isFinite x = true)
    (biases : ∀ x ∈ bias, Scalar.isFinite x = true) : ∃ layer, ofParts weight bias = .ok layer := by
  have finite : (weight.rows.all (·.all Scalar.isFinite) && bias.all Scalar.isFinite) = true := by
    rw [Bool.and_eq_true, List.all_eq_true, List.all_eq_true]
    exact ⟨fun row inRows => List.all_eq_true.mpr (weights row inRows), biases⟩
  exact ⟨_, ofParts_parts ⟨weight, bias, lengths, List.length_pos_iff.mp rows, columns, finite⟩⟩

/-- No entry is larger than the inverse root of the number of inputs. -/
structure Layer.Scaled (layer : Layer Float) : Prop where
  weights : ∀ row ∈ layer.weight.rows, ∀ x ∈ row,
    Scalar.abs x ≤ 1 / Scalar.sqrt (Scalar.ofNat layer.inputs)
  biases : ∀ x ∈ layer.bias, Scalar.abs x ≤ 1 / Scalar.sqrt (Scalar.ofNat layer.inputs)

namespace Source

variable {σ : Type}

/-- What is drawn with a bound up to one lies between the bound and its negative. -/
def Bounded (source : Source Float σ) : Prop :=
  ∀ bound state, 0 ≤ bound → bound ≤ 1 →
    -bound ≤ (source.draw bound state).1 ∧ (source.draw bound state).1 ≤ bound

/-- The bound of a layer with inputs lies between zero and one. -/
theorem bound_between {inputs : Nat} (some : 0 < inputs) :
    (0 : Float) ≤ bound inputs ∧ (bound inputs : Float) ≤ 1 :=
  Double.inverse_le_one (Double.one_le_sqrt (Double.one_le_ofNat some))

variable {source : Source Float σ}

theorem drawMany_between (bounded : source.Bounded) {bound : Float} (above : 0 ≤ bound)
    (below : bound ≤ 1) (count : Nat) (state : σ) :
    ∀ x ∈ (source.drawMany bound count state).1, -bound ≤ x ∧ x ≤ bound := by
  induction count generalizing state with
  | zero => exact List.forall_mem_nil _
  | succ count ih =>
      exact List.forall_mem_cons.mpr ⟨bounded bound state above below, ih _⟩

/-- Numbers drawn for a layer are finite and no larger than its bound. -/
theorem drawMany_scaled (bounded : source.Bounded) {inputs : Nat} (some : 0 < inputs)
    (count : Nat) (state : σ) : ∀ x ∈ (source.drawMany (bound inputs) count state).1,
      Scalar.isFinite x = true ∧ Scalar.abs x ≤ bound inputs := by
  intro x member
  obtain ⟨above, below⟩ := bound_between some
  obtain ⟨low, high⟩ := drawMany_between bounded above below count state x member
  have finite := Double.finite_of_between Double.finite_zero Double.finite_one above below
  have opposite := (Double.neg_finite finite).1
  exact ⟨(Double.isFinite_iff x).mpr (Double.finite_of_between opposite finite low high),
    Double.abs_le_of_between finite low high⟩

/-- What is drawn for a layer with inputs and outputs is one. -/
theorem exists_layer (bounded : source.Bounded) {inputs outputs : Nat} (someInputs : 0 < inputs)
    (someOutputs : 0 < outputs) (state : σ) : ∃ layer,
      Layer.ofParts (source.drawLayer inputs outputs state).1.1
        (source.drawLayer inputs outputs state).1.2 = .ok layer ∧
      layer.inputs = inputs ∧ layer.outputs = outputs ∧ layer.Scaled := by
  have entries := drawMany_scaled bounded someInputs (outputs * inputs) state
  have biases := drawMany_scaled bounded someInputs outputs
    (source.drawMany (bound inputs) (outputs * inputs) state).2
  generalize drawn : (source.drawLayer inputs outputs state).1.1 = weight
  have rows : weight.rows.length = outputs := drawn ▸ Matrix.cutRows_length _ _ _
  have columns : weight.columns = inputs := drawn ▸ rfl
  have weights : ∀ row ∈ weight.rows, ∀ x ∈ row,
      Scalar.isFinite x = true ∧ Scalar.abs x ≤ bound inputs := by
    rw [← drawn]
    exact fun row inRows x inRow => entries x (Matrix.mem_of_mem_cutRows inRows inRow)
  have lengths : (source.drawLayer inputs outputs state).1.2.length = weight.rows.length :=
    (drawMany_length source _ _ _).trans rows.symm
  obtain ⟨layer, made⟩ := Layer.exists_ofParts (rows ▸ someOutputs) (columns ▸ someInputs) lengths
    (fun row inRows x inRow => (weights row inRows x inRow).1) (fun x member => (biases x member).1)
  obtain ⟨rfl, bias⟩ := Layer.parts_of_ofParts made
  refine ⟨layer, made, columns, rows, ?_, ?_⟩
  · rw [Layer.inputs, columns]
    exact fun row inRows x inRow => (weights row inRows x inRow).2
  · rw [Layer.inputs, columns, bias]
    exact fun x member => (biases x member).2

/-- Layers through the widths, each of which takes as many inputs as the one before it has
outputs. -/
inductive Through : Nat → List Nat → List (Layer Float) → Prop
  | nil (inputs : Nat) : Through inputs [] []
  | cons {inputs : Nat} {widths : List Nat} {layer : Layer Float} {rest : List (Layer Float)} :
      layer.inputs = inputs → layer.Scaled → Through layer.outputs widths rest →
      Through inputs (layer.outputs :: widths) (layer :: rest)

namespace Through

theorem outputs_eq {inputs : Nat} {widths : List Nat} {layers : List (Layer Float)}
    (through : Through inputs widths layers) : layers.map Layer.outputs = widths := by
  induction through with
  | nil inputs => rfl
  | cons _ _ _ ih => exact congrArg (_ :: ·) ih

theorem scaled {inputs : Nat} {widths : List Nat} {layers : List (Layer Float)}
    (through : Through inputs widths layers) : ∀ layer ∈ layers, layer.Scaled := by
  induction through with
  | nil inputs => exact List.forall_mem_nil _
  | cons _ scaled _ ih => exact List.forall_mem_cons.mpr ⟨scaled, ih⟩

theorem chained {inputs : Nat} {widths : List Nat} {layers : List (Layer Float)}
    (through : Through inputs widths layers) : Chained layers := by
  induction through with
  | nil inputs => trivial
  | cons _ _ later ih =>
      cases later with
      | nil => trivial
      | cons fits _ _ => exact ⟨fits, ih⟩

theorem head_inputs {inputs : Nat} {widths : List Nat} {layers : List (Layer Float)}
    (through : Through inputs widths layers) (notEmpty : layers ≠ []) :
    (layers.head notEmpty).inputs = inputs := by
  cases through with
  | nil => exact absurd rfl notEmpty
  | cons fits _ _ => exact fits

theorem widths_eq {inputs : Nat} {widths : List Nat} {network : Network Float}
    (through : Through inputs widths network.layers) : network.widths = inputs :: widths := by
  rw [Network.widths, through.outputs_eq]
  exact congrArg (· :: widths) (through.head_inputs network.layers_ne_nil)

end Through

/-- Layers can be drawn for all widths if none is zero. -/
theorem exists_layers (bounded : source.Bounded) {inputs : Nat} (some : 0 < inputs)
    {widths : List Nat} (positive : 0 ∉ widths) (state : σ) :
    ∃ layers, source.drawLayers inputs widths state = .ok layers ∧
      Through inputs widths layers := by
  induction widths generalizing inputs state with
  | nil => exact ⟨[], rfl, .nil inputs⟩
  | cons outputs widths ih =>
      have someOutputs : 0 < outputs := Nat.pos_of_ne_zero (List.ne_of_not_mem_cons positive).symm
      obtain ⟨layer, made, sameInputs, rfl, scaled⟩ :=
        exists_layer bounded some someOutputs state
      obtain ⟨rest, drawn, through⟩ := ih someOutputs (List.not_mem_of_not_mem_cons positive)
        (source.drawLayer inputs layer.outputs state).2
      refine ⟨layer :: rest, ?_, .cons sameInputs scaled through⟩
      rw [drawLayers, made]
      change (source.drawLayers layer.outputs widths _ >>= _) = _
      rw [drawn]
      rfl

/-- More widths only add layers. -/
theorem drawLayers_append {inputs : Nat} {widths more : List Nat} {state : σ}
    {long : List (Layer Float)}
    (drawn : source.drawLayers inputs (widths ++ more) state = .ok long) :
    ∃ short, source.drawLayers inputs widths state = .ok short ∧
      short = long.take widths.length := by
  induction widths generalizing inputs state long with
  | nil => exact ⟨[], rfl, rfl⟩
  | cons outputs widths ih =>
      obtain ⟨layer, made, drawn⟩ := exists_of_bind_eq_ok drawn
      obtain ⟨rest, later, drawn⟩ := exists_of_bind_eq_ok drawn
      obtain ⟨short, first, rfl⟩ := ih later
      cases drawn
      refine ⟨layer :: rest.take widths.length, ?_, rfl⟩
      rw [drawLayers, made]
      change (source.drawLayers outputs widths _ >>= _) = _
      rw [first]
      rfl

/-- A network is drawn from the layers through its widths. -/
theorem drawNetwork_eq_ok_iff {inputs : Nat} {widths : List Nat} {state : σ}
    {network : Network Float} : source.drawNetwork inputs widths state = .ok network ↔
      (0 < inputs ∧ widths ≠ [] ∧ 0 ∉ widths) ∧
        source.drawLayers inputs widths state = .ok network.layers := by
  unfold drawNetwork
  split
  case isTrue refused =>
    refine ⟨nofun, fun drawn => ?_⟩
    obtain ⟨⟨some, notEmpty, positive⟩, -⟩ := drawn
    rcases refused with none | empty | zero
    · exact absurd none some.ne'
    · exact absurd empty notEmpty
    · exact absurd zero positive
  case isFalse accepted =>
    rw [not_or, not_or] at accepted
    constructor
    · intro made
      obtain ⟨layers, drawn, made⟩ := exists_of_bind_eq_ok made
      rw [Network.layers_of_ofLayers made]
      exact ⟨⟨Nat.pos_of_ne_zero accepted.1, accepted.2⟩, drawn⟩
    · rintro ⟨-, drawn⟩
      rw [drawn]
      exact Network.ofLayers_layers network

end Source

/-- What is asked of a way to generate networks: it succeeds exactly for shapes without empty
layers, the network has its shape and bounded entries, and more widths only add layers. -/
structure Network.Generates
    (generate : Nat → List Nat → Except (Error Float) (Network Float)) : Prop where
  succeeds (inputs : Nat) (widths : List Nat) :
    (∃ network, generate inputs widths = .ok network) ↔ 0 < inputs ∧ widths ≠ [] ∧ 0 ∉ widths
  shape (inputs : Nat) (widths : List Nat) (network : Network Float) :
    generate inputs widths = .ok network → network.widths = inputs :: widths
  scaled (inputs : Nat) (widths : List Nat) (network : Network Float) :
    generate inputs widths = .ok network → ∀ layer ∈ network.layers, layer.Scaled
  begins (inputs : Nat) (widths more : List Nat) (short long : Network Float) :
    generate inputs widths = .ok short → generate inputs (widths ++ more) = .ok long →
      short.layers = long.layers.take widths.length

namespace Source

variable {σ : Type} {source : Source Float σ}

theorem exists_through (bounded : source.Bounded) {inputs : Nat} {widths : List Nat} {state : σ}
    {network : Network Float} (made : source.drawNetwork inputs widths state = .ok network) :
    Through inputs widths network.layers := by
  obtain ⟨⟨some, -, positive⟩, drawn⟩ := drawNetwork_eq_ok_iff.mp made
  obtain ⟨layers, again, through⟩ := exists_layers bounded some positive state
  rwa [Except.ok.inj (drawn.symm.trans again)]

theorem drawNetwork_generates_of_bounded (bounded : source.Bounded) (state : σ) :
    Network.Generates fun inputs widths => source.drawNetwork inputs widths state where
  succeeds inputs widths := by
    constructor
    · rintro ⟨network, made⟩
      exact (drawNetwork_eq_ok_iff.mp made).1
    · rintro ⟨some, notEmpty, positive⟩
      obtain ⟨layers, drawn, through⟩ := exists_layers bounded some positive state
      have someLayers : layers ≠ [] := by
        rintro rfl
        exact notEmpty through.outputs_eq.symm
      exact ⟨⟨layers, someLayers, through.chained⟩,
        drawNetwork_eq_ok_iff.mpr ⟨⟨some, notEmpty, positive⟩, drawn⟩⟩
  shape inputs widths network made := (exists_through bounded made).widths_eq
  scaled inputs widths network made := (exists_through bounded made).scaled
  begins inputs widths more short long madeShort madeLong := by
    obtain ⟨-, drawnShort⟩ := drawNetwork_eq_ok_iff.mp madeShort
    obtain ⟨-, drawnLong⟩ := drawNetwork_eq_ok_iff.mp madeLong
    obtain ⟨layers, drawn, same⟩ := drawLayers_append drawnLong
    rw [← same]
    exact Except.ok.inj (drawnShort.symm.trans drawn)

theorem keyStreamSource_bounded : keyStreamSource.Bounded :=
  fun _ stream above below => KeyStream.uniform_between above below stream

end Source

/-- Networks are generated from every seed, and drawn from every source that keeps to its bounds. -/
theorem Network.generates_of_seed_or_source :
    (∀ seed, Network.Generates fun inputs widths => Network.generate inputs widths seed) ∧
      ∀ {σ : Type} (source : Source Float σ), source.Bounded → ∀ state : σ,
        Network.Generates fun inputs widths => source.drawNetwork inputs widths state :=
  ⟨fun seed => Source.drawNetwork_generates_of_bounded Source.keyStreamSource_bounded
    (KeyStream.ofSeed seed), fun _ bounded state =>
      Source.drawNetwork_generates_of_bounded bounded state⟩

/-- Two layers between nine inputs and two outputs, drawn from the key stream of a seed. -/
theorem Network.generates_of_seed_or_source_small : keyStreamSource.Bounded ∧ ∃ network,
    keyStreamSource.drawNetwork 9 [4, 2] (KeyStream.ofSeed 0) = .ok network ∧
      network.widths = [9, 4, 2] ∧ ∀ layer ∈ network.layers, layer.Scaled := by
  have generates := generates_of_seed_or_source.2 keyStreamSource Source.keyStreamSource_bounded
    (KeyStream.ofSeed 0)
  obtain ⟨network, made⟩ := (generates.succeeds 9 [4, 2]).mpr (by decide)
  exact ⟨Source.keyStreamSource_bounded, network, made, generates.shape _ _ _ made,
    generates.scaled _ _ _ made⟩

end RobustMargin
