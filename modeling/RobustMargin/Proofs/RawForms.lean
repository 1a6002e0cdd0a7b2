import Mathlib
import RobustMargin.InputBox
import RobustMargin.Network

/-! # Raw forms

Networks as nested lists and input boxes as pairs of vectors. A raw form is accepted exactly if it
is valid, nothing is lost on the way in or out, and a refusal never compares equal shapes. -/
namespace RobustMargin

/-- Wherever an error compares two shapes, these are different. -/
def Error.ShapesDiffer {α : Type} : Error α → Prop
  | .shapeMismatch expected got => expected ≠ got
  | .inLayer _ source => source.ShapesDiffer
  | _ => True

variable {α : Type}

namespace Error

theorem shapesDiffer_of_atLayer {β : Type} {index : Nat} {result : Except (Error α) β}
    (differ : ∀ e, result = .error e → e.ShapesDiffer) {e : Error α}
    (refused : atLayer index result = .error e) : e.ShapesDiffer := by
  cases result with
  | ok x => cases refused
  | error cause =>
      cases refused
      exact differ cause rfl

/-- A step after another one: the error is that of the first or that of the second. -/
theorem shapesDiffer_of_bind {β γ : Type} {first : Except (Error α) β}
    {next : β → Except (Error α) γ} (early : ∀ e, first = .error e → e.ShapesDiffer)
    (late : ∀ x e, first = .ok x → next x = .error e → e.ShapesDiffer) {e : Error α}
    (refused : (first >>= next) = .error e) : e.ShapesDiffer := by
  cases first with
  | error cause =>
      cases refused
      exact early e rfl
  | ok x => exact late x e rfl refused

end Error

namespace Matrix

@[ext]
theorem ext {a b : Matrix α} (columns : a.columns = b.columns) (rows : a.rows = b.rows) :
    a = b := by
  cases a
  cases b
  simp_all

theorem rows_of_ofRows {rows : List (List α)} {weight : Matrix α}
    (formed : ofRows rows = .ok weight) : weight.rows = rows := by
  unfold ofRows at formed
  dsimp only at formed
  split at formed
  · cases formed
    rfl
  · cases formed

/-- A matrix with a row is formed again from its rows. -/
theorem ofRows_rows (weight : Matrix α) (nonempty : weight.rows ≠ []) :
    ofRows weight.rows = .ok weight := by
  obtain ⟨row, rest, shape⟩ := List.exists_cons_of_ne_nil nonempty
  have width : (weight.rows.head?.map List.length).getD 0 = weight.columns := by
    simp [shape, weight.rectangular row (by simp [shape])]
  have same : ∀ row ∈ weight.rows, row.length = (weight.rows.head?.map List.length).getD 0 := by
    rw [width]
    exact weight.rectangular
  unfold ofRows
  dsimp only
  rw [dif_pos same]
  exact congrArg Except.ok (ext width rfl)

theorem shapesDiffer_of_ofRows {rows : List (List α)} {e : Error α}
    (refused : ofRows rows = .error e) : e.ShapesDiffer := by
  unfold ofRows at refused
  dsimp only at refused
  split at refused
  · cases refused
  · rename_i ragged
    cases refused
    push Not at ragged
    obtain ⟨row, member, other⟩ := ragged
    cases found : rows.find? fun row => row.length ≠ (rows.head?.map List.length).getD 0 with
    | none =>
        rw [List.find?_eq_none] at found
        exact absurd (decide_eq_true other) (found row member)
    | some bad =>
        have differs := List.find?_some found
        simp only [ne_eq, decide_eq_true_eq] at differs
        intro same
        exact differs (List.cons.inj same).1.symm

end Matrix

variable [Scalar α]

namespace Layer

theorem parts_of_ofParts {weight : Matrix α} {bias : List α} {layer : Layer α}
    (made : ofParts weight bias = .ok layer) : layer.weight = weight ∧ layer.bias = bias := by
  unfold ofParts at made
  split at made
  · split at made
    · split at made
      · cases made
        exact ⟨rfl, rfl⟩
      · cases made
    · cases made
  · cases made

theorem ofParts_parts (layer : Layer α) : ofParts layer.weight layer.bias = .ok layer := by
  unfold ofParts
  rw [dif_pos layer.bias_length, dif_pos ⟨layer.rows_ne_nil, layer.columns_pos⟩,
    dif_pos layer.finite]

theorem shapesDiffer_of_ofParts {weight : Matrix α} {bias : List α} {e : Error α}
    (refused : ofParts weight bias = .error e) : e.ShapesDiffer := by
  unfold ofParts at refused
  split at refused
  · split at refused
    · split at refused
      · cases refused
      · cases refused
        trivial
    · cases refused
      trivial
  · rename_i lengths
    cases refused
    intro same
    exact lengths (List.cons.inj same).1.symm

end Layer

namespace Network

theorem layers_of_ofLayers {layers : List (Layer α)} {network : Network α}
    (made : ofLayers layers = .ok network) : network.layers = layers := by
  unfold ofLayers at made
  split at made
  · cases made
  · split at made
    · cases made
    · cases made
      rfl

theorem ofLayers_layers (network : Network α) : ofLayers network.layers = .ok network := by
  have fits := (firstBreak_eq_none_iff 0 network.layers).mpr network.chained
  unfold ofLayers
  rw [dif_neg network.layers_ne_nil]
  split
  · rename_i broken
    rw [fits] at broken
    cases broken
  · rfl

theorem firstBreak_differs {layers : List (Layer α)} {index : Nat} {b : Break}
    (broken : firstBreak index layers = some b) : b.expected ≠ b.got := by
  induction layers generalizing index with
  | nil => cases broken
  | cons first rest ih =>
      cases rest with
      | nil => cases broken
      | cons second rest =>
          unfold firstBreak at broken
          split at broken
          · exact ih broken
          · rename_i differs
            cases broken
            exact Ne.symm differs

theorem shapesDiffer_of_ofLayers {layers : List (Layer α)} {e : Error α}
    (refused : ofLayers layers = .error e) : e.ShapesDiffer := by
  unfold ofLayers at refused
  split at refused
  · cases refused
    trivial
  · split at refused
    · rename_i b broken
      cases refused
      intro same
      exact firstBreak_differs broken (List.cons.inj same).1
    · cases refused

theorem parts_of_layersOf {weights : List (Matrix α)} {biases : List (List α)} {index : Nat}
    {layers : List (Layer α)} (lengths : biases.length = weights.length)
    (made : layersOf index weights biases = .ok layers) :
    layers.map (·.weight) = weights ∧ layers.map (·.bias) = biases := by
  induction weights generalizing biases index layers with
  | nil =>
      obtain rfl := List.length_eq_zero_iff.mp lengths
      cases made
      exact ⟨rfl, rfl⟩
  | cons weight weights ih =>
      cases biases with
      | nil => cases lengths
      | cons bias biases =>
          obtain ⟨layer, first, made⟩ := exists_of_bind_eq_ok made
          obtain ⟨rest, later, made⟩ := exists_of_bind_eq_ok made
          cases made
          rw [Error.atLayer_eq_ok_iff] at first
          obtain ⟨rfl, rfl⟩ := Layer.parts_of_ofParts first
          obtain ⟨rfl, rfl⟩ := ih (Nat.succ.inj lengths) later
          exact ⟨rfl, rfl⟩

theorem layersOf_parts (layers : List (Layer α)) (index : Nat) :
    layersOf index (layers.map (·.weight)) (layers.map (·.bias)) = .ok layers := by
  induction layers generalizing index with
  | nil => rfl
  | cons layer rest ih =>
      rw [List.map_cons, List.map_cons, layersOf, Layer.ofParts_parts, ih]
      rfl

theorem shapesDiffer_of_layersOf {weights : List (Matrix α)} {biases : List (List α)}
    {index : Nat} {e : Error α} (refused : layersOf index weights biases = .error e) :
    e.ShapesDiffer := by
  induction weights generalizing biases index e with
  | nil => cases refused
  | cons weight weights ih =>
      cases biases with
      | nil => cases refused
      | cons bias biases =>
          refine Error.shapesDiffer_of_bind ?_ ?_ refused
          · intro cause first
            exact Error.shapesDiffer_of_atLayer (fun _ => Layer.shapesDiffer_of_ofParts) first
          · intro layer cause _ later
            refine Error.shapesDiffer_of_bind ?_ ?_ later
            · intro deeper rest
              exact ih rest
            · intro rest deeper _ none
              cases none

theorem parts_of_ofParts {biases : List (List α)} {weights : List (Matrix α)}
    {network : Network α} (made : ofParts biases weights = .ok network) :
    network.layers.map (·.weight) = weights ∧ network.layers.map (·.bias) = biases := by
  unfold ofParts at made
  split at made
  · rename_i lengths
    obtain ⟨layers, formed, made⟩ := exists_of_bind_eq_ok made
    rw [layers_of_ofLayers made]
    exact parts_of_layersOf lengths formed
  · cases made

theorem ofParts_parts (network : Network α) :
    ofParts (network.layers.map (·.bias)) (network.layers.map (·.weight)) = .ok network := by
  unfold ofParts
  rw [if_pos (by simp), layersOf_parts]
  exact network.ofLayers_layers

theorem shapesDiffer_of_ofParts {biases : List (List α)} {weights : List (Matrix α)}
    {e : Error α} (refused : ofParts biases weights = .error e) : e.ShapesDiffer := by
  unfold ofParts at refused
  split at refused
  · refine Error.shapesDiffer_of_bind ?_ ?_ refused
    · intro cause first
      exact shapesDiffer_of_layersOf first
    · intro layers cause _ later
      exact shapesDiffer_of_ofLayers later
  · cases refused
    trivial

theorem chained_getElem? {layers : List (Layer α)} (chained : Chained layers) {i : Nat}
    {layer next : Layer α} (found : layers[i]? = some layer)
    (nextFound : layers[i + 1]? = some next) : next.inputs = layer.outputs := by
  induction layers generalizing i with
  | nil => cases found
  | cons first rest ih =>
      cases rest with
      | nil => cases nextFound
      | cons second rest =>
          cases i with
          | zero =>
              cases found
              cases nextFound
              exact chained.1
          | succ i => exact ih chained.2 found nextFound

theorem chained_of_getElem? (layers : List (Layer α))
    (fits : ∀ i layer next, layers[i]? = some layer → layers[i + 1]? = some next →
      next.inputs = layer.outputs) : Chained layers := by
  induction layers with
  | nil => trivial
  | cons first rest ih =>
      cases rest with
      | nil => trivial
      | cons second rest =>
          refine ⟨fits 0 first second rfl rfl, ih ?_⟩
          intro i layer next found nextFound
          exact fits (i + 1) layer next found nextFound

end Network

namespace RawNetwork

/-- Lists that describe a network: a bias and a matrix for each layer, with shapes that fit together
and finite entries. -/
structure Valid (raw : RawNetwork α) : Prop where
  counts : raw.biases.length = raw.weights.length
  nonempty : raw.weights ≠ []
  rectangular : ∀ rows ∈ raw.weights, rows ≠ [] ∧
    ∃ columns, 0 < columns ∧ ∀ row ∈ rows, row.length = columns
  weights_finite : ∀ rows ∈ raw.weights, ∀ row ∈ rows, ∀ w ∈ row, Scalar.isFinite w = true
  biases_finite : ∀ bias ∈ raw.biases, ∀ b ∈ bias, Scalar.isFinite b = true
  bias_length : ∀ (i : Nat) rows bias, raw.weights[i]? = some rows → raw.biases[i]? = some bias →
    bias.length = rows.length
  chained : ∀ (i : Nat) rows next, raw.weights[i]? = some rows → raw.weights[i + 1]? = some next →
    ∀ row ∈ next, row.length = rows.length

omit [Scalar α] in
theorem rows_of_matrices {lists : List (List (List α))} {index : Nat} {weights : List (Matrix α)}
    (formed : matrices index lists = .ok weights) : weights.map (·.rows) = lists := by
  induction lists generalizing index weights with
  | nil =>
      cases formed
      rfl
  | cons rows rest ih =>
      obtain ⟨weight, first, formed⟩ := exists_of_bind_eq_ok formed
      obtain ⟨later, others, formed⟩ := exists_of_bind_eq_ok formed
      cases formed
      rw [Error.atLayer_eq_ok_iff] at first
      rw [List.map_cons, Matrix.rows_of_ofRows first, ih others]

omit [Scalar α] in
theorem matrices_rows (weights : List (Matrix α)) (nonempty : ∀ w ∈ weights, w.rows ≠ [])
    (index : Nat) : matrices index (weights.map (·.rows)) = .ok weights := by
  induction weights generalizing index with
  | nil => rfl
  | cons weight rest ih =>
      rw [List.forall_mem_cons] at nonempty
      rw [List.map_cons, matrices, Matrix.ofRows_rows weight nonempty.1, ih nonempty.2]
      rfl

omit [Scalar α] in
theorem shapesDiffer_of_matrices {lists : List (List (List α))} {index : Nat} {e : Error α}
    (refused : matrices index lists = .error e) : e.ShapesDiffer := by
  induction lists generalizing index e with
  | nil => cases refused
  | cons rows rest ih =>
      refine Error.shapesDiffer_of_bind ?_ ?_ refused
      · intro cause first
        exact Error.shapesDiffer_of_atLayer (fun _ => Matrix.shapesDiffer_of_ofRows) first
      · intro weight cause _ later
        refine Error.shapesDiffer_of_bind ?_ ?_ later
        · intro deeper others
          exact ih others
        · intro others deeper _ none
          cases none

theorem ofNetwork_of_toNetwork {raw : RawNetwork α} {network : Network α}
    (made : raw.toNetwork = .ok network) : ofNetwork network = raw := by
  obtain ⟨weights, formed, made⟩ := exists_of_bind_eq_ok made
  obtain ⟨rfl, biases⟩ := Network.parts_of_ofParts made
  have rows := rows_of_matrices formed
  rw [List.map_map] at rows
  unfold ofNetwork
  rw [biases]
  exact congrArg (RawNetwork.mk raw.biases) rows

/-- Every network is made again from its raw form. -/
theorem toNetwork_ofNetwork (network : Network α) :
    (ofNetwork network).toNetwork = .ok network := by
  have formed := matrices_rows (network.layers.map (·.weight)) (fun w member => by
    obtain ⟨layer, -, rfl⟩ := List.mem_map.mp member
    exact layer.rows_ne_nil) 0
  rw [List.map_map] at formed
  have parts : (ofNetwork network).weights =
      network.layers.map ((·.rows) ∘ (·.weight)) := rfl
  unfold toNetwork
  rw [parts, formed]
  exact network.ofParts_parts

theorem toNetwork_eq_ok_iff (raw : RawNetwork α) (network : Network α) :
    raw.toNetwork = .ok network ↔ ofNetwork network = raw := by
  constructor
  · intro made
    exact ofNetwork_of_toNetwork made
  · rintro rfl
    exact toNetwork_ofNetwork network

theorem shapesDiffer_of_toNetwork {raw : RawNetwork α} {e : Error α}
    (refused : raw.toNetwork = .error e) : e.ShapesDiffer := by
  refine Error.shapesDiffer_of_bind ?_ ?_ refused
  · intro cause first
    exact shapesDiffer_of_matrices first
  · intro weights cause _ later
    exact Network.shapesDiffer_of_ofParts later

theorem valid_ofNetwork (network : Network α) : (ofNetwork network).Valid := by
  have finite (layer : Layer α) := Bool.and_eq_true_iff.mp layer.finite
  constructor
  · simp [ofNetwork]
  · simpa [ofNetwork] using network.layers_ne_nil
  · intro rows member
    obtain ⟨layer, -, rfl⟩ := List.mem_map.mp member
    exact ⟨layer.rows_ne_nil, layer.inputs, layer.columns_pos, layer.weight.rectangular⟩
  · intro rows member row inRows w inRow
    obtain ⟨layer, -, rfl⟩ := List.mem_map.mp member
    exact List.all_eq_true.mp (List.all_eq_true.mp (finite layer).1 row inRows) w inRow
  · intro bias member b inBias
    obtain ⟨layer, -, rfl⟩ := List.mem_map.mp member
    exact List.all_eq_true.mp (finite layer).2 b inBias
  · intro i rows bias found biasFound
    simp only [ofNetwork, List.getElem?_map, Option.map_eq_some_iff] at found biasFound
    obtain ⟨layer, known, rfl⟩ := found
    obtain ⟨same, again, rfl⟩ := biasFound
    obtain rfl := Option.some.inj (known.symm.trans again)
    exact layer.bias_length
  · intro i rows next found nextFound row member
    simp only [ofNetwork, List.getElem?_map, Option.map_eq_some_iff] at found nextFound
    obtain ⟨layer, known, rfl⟩ := found
    obtain ⟨after, later, rfl⟩ := nextFound
    have fits := Network.chained_getElem? network.chained known later
    exact (after.weight.rectangular row member).trans fits

/-- The layers of lists that describe one layer each. -/
theorem exists_layers (weights : List (List (List α))) (biases : List (List α))
    (counts : biases.length = weights.length)
    (rectangular : ∀ rows ∈ weights, rows ≠ [] ∧
      ∃ columns, 0 < columns ∧ ∀ row ∈ rows, row.length = columns)
    (weightsFinite : ∀ rows ∈ weights, ∀ row ∈ rows, ∀ w ∈ row, Scalar.isFinite w = true)
    (biasesFinite : ∀ bias ∈ biases, ∀ b ∈ bias, Scalar.isFinite b = true)
    (lengths : ∀ (i : Nat) rows bias, weights[i]? = some rows → biases[i]? = some bias →
      bias.length = rows.length) :
    ∃ layers : List (Layer α), layers.map (·.weight.rows) = weights ∧
      layers.map (·.bias) = biases := by
  induction weights generalizing biases with
  | nil =>
      obtain rfl := List.length_eq_zero_iff.mp counts
      exact ⟨[], rfl, rfl⟩
  | cons rows weights ih =>
      cases biases with
      | nil => cases counts
      | cons bias biases =>
          rw [List.forall_mem_cons] at rectangular weightsFinite biasesFinite
          obtain ⟨⟨nonempty, columns, positive, widths⟩, rectangular⟩ := rectangular
          obtain ⟨layers, rfl, rfl⟩ := ih biases (Nat.succ.inj counts) rectangular
            weightsFinite.2 biasesFinite.2 fun i rows bias => lengths (i + 1) rows bias
          have finite : (rows.all (·.all Scalar.isFinite) && bias.all Scalar.isFinite) = true := by
            simp only [Bool.and_eq_true, List.all_eq_true]
            exact ⟨weightsFinite.1, biasesFinite.1⟩
          exact ⟨⟨⟨columns, rows, widths⟩, bias, lengths 0 rows bias rfl rfl, nonempty, positive,
            finite⟩ :: layers, rfl, rfl⟩

theorem Valid.exists_network {raw : RawNetwork α} (valid : raw.Valid) :
    ∃ network, ofNetwork network = raw := by
  obtain ⟨layers, weights, biases⟩ := exists_layers raw.weights raw.biases valid.counts
    valid.rectangular valid.weights_finite valid.biases_finite valid.bias_length
  have nonempty : layers ≠ [] := by
    rintro rfl
    exact valid.nonempty weights.symm
  have chained : Chained layers := by
    refine Network.chained_of_getElem? layers fun i layer next found nextFound => ?_
    have known : raw.weights[i]? = some layer.weight.rows := by
      rw [← weights, List.getElem?_map, found]
      rfl
    have later : raw.weights[i + 1]? = some next.weight.rows := by
      rw [← weights, List.getElem?_map, nextFound]
      rfl
    -- A first row tells the number of columns.
    obtain ⟨row, member⟩ := List.exists_mem_of_ne_nil _ next.rows_ne_nil
    rw [Layer.inputs, ← next.weight.rectangular row member]
    exact valid.chained i _ _ known later row member
  refine ⟨⟨layers, nonempty, chained⟩, ?_⟩
  unfold ofNetwork
  rw [biases, weights]

theorem exists_toNetwork_iff (raw : RawNetwork α) :
    (∃ network, raw.toNetwork = .ok network) ↔ raw.Valid := by
  constructor
  · rintro ⟨network, made⟩
    rw [← ofNetwork_of_toNetwork made]
    exact valid_ofNetwork network
  · intro valid
    obtain ⟨network, same⟩ := valid.exists_network
    exact ⟨network, (toNetwork_eq_ok_iff raw network).mpr same⟩

end RawNetwork

namespace InputBox

/-- Vectors that describe a box. -/
structure Describes (values uncertainties : List α) : Prop where
  nonempty : values ≠ []
  lengths : uncertainties.length = values.length
  finite : ∀ v ∈ values, Scalar.isFinite v = true
  radii : ∀ u ∈ uncertainties, Scalar.isFinite u = true ∧ ¬ u < 0

theorem isRadius_iff (u : α) : isRadius u = true ↔ Scalar.isFinite u = true ∧ ¬ u < 0 := by
  simp [isRadius]

theorem describes_of_input (input : InputBox α) : Describes input.values input.uncertainties := by
  constructor
  · exact input.values_ne_nil
  · exact input.length_eq
  · exact List.all_eq_true.mp input.values_finite
  · intro u member
    exact (isRadius_iff u).mp (List.all_eq_true.mp input.radii u member)

theorem ofVectors_eq_ok_iff (values uncertainties : List α) (input : InputBox α) :
    ofVectors values uncertainties = .ok input ↔
      input.values = values ∧ input.uncertainties = uncertainties := by
  constructor
  · intro made
    unfold ofVectors at made
    split at made
    · split at made
      · cases made
      · split at made
        · split at made
          · cases made
            exact ⟨rfl, rfl⟩
          · cases made
        · cases made
    · cases made
  · rintro ⟨rfl, rfl⟩
    unfold ofVectors
    rw [dif_pos input.length_eq, dif_neg input.values_ne_nil, dif_pos input.values_finite,
      dif_pos input.radii]

theorem exists_ofVectors_iff (values uncertainties : List α) :
    (∃ input, ofVectors values uncertainties = .ok input) ↔ Describes values uncertainties := by
  constructor
  · rintro ⟨input, made⟩
    obtain ⟨rfl, rfl⟩ := (ofVectors_eq_ok_iff _ _ input).mp made
    exact describes_of_input input
  · intro valid
    have finite : values.all Scalar.isFinite = true := List.all_eq_true.mpr valid.finite
    have radii : uncertainties.all isRadius = true :=
      List.all_eq_true.mpr fun u member => (isRadius_iff u).mpr (valid.radii u member)
    exact ⟨⟨values, uncertainties, valid.lengths, valid.nonempty, finite, radii⟩,
      (ofVectors_eq_ok_iff _ _ _).mpr ⟨rfl, rfl⟩⟩

theorem shapesDiffer_of_ofVectors {values uncertainties : List α} {e : Error α}
    (refused : ofVectors values uncertainties = .error e) : e.ShapesDiffer := by
  unfold ofVectors at refused
  split at refused
  · split at refused
    · cases refused
      trivial
    · split at refused
      · split at refused
        · cases refused
        · cases refused
          trivial
      · cases refused
        trivial
  · rename_i lengths
    cases refused
    intro same
    exact lengths (List.cons.inj same).1.symm

end InputBox

/-- Raw forms of networks and of input boxes are accepted exactly if they are valid. What is
accepted keeps its raw form, and everything that exists comes back from its raw form, the box of the
unit square with the sides zero and one. -/
theorem raw_forms_round_trip :
    (∀ raw : RawNetwork Float, ((∃ network, raw.toNetwork = .ok network) ↔ raw.Valid) ∧
      (∀ network, raw.toNetwork = .ok network → RawNetwork.ofNetwork network = raw) ∧
      ∀ e, raw.toNetwork = .error e → e.ShapesDiffer) ∧
    (∀ network : Network Float, (RawNetwork.ofNetwork network).toNetwork = .ok network) ∧
    (∀ values uncertainties : List Float,
      ((∃ input, InputBox.ofVectors values uncertainties = .ok input) ↔
        InputBox.Describes values uncertainties) ∧
      (∀ input, InputBox.ofVectors values uncertainties = .ok input →
        input.values = values ∧ input.uncertainties = uncertainties) ∧
      ∀ e, InputBox.ofVectors values uncertainties = .error e → e.ShapesDiffer) ∧
    (∀ input : InputBox Float,
      InputBox.ofVectors input.values input.uncertainties = .ok input) ∧
    InputBox.unitSquare.box = [⟨0.0, 1.0⟩, ⟨0.0, 1.0⟩] := by
  refine ⟨?_, RawNetwork.toNetwork_ofNetwork, ?_, ?_, by decide +kernel⟩
  · intro raw
    exact ⟨raw.exists_toNetwork_iff, fun _ => RawNetwork.ofNetwork_of_toNetwork,
      fun _ => RawNetwork.shapesDiffer_of_toNetwork⟩
  · intro values uncertainties
    exact ⟨InputBox.exists_ofVectors_iff values uncertainties,
      fun input => (InputBox.ofVectors_eq_ok_iff values uncertainties input).mp,
      fun _ => InputBox.shapesDiffer_of_ofVectors⟩
  · intro input
    exact (InputBox.ofVectors_eq_ok_iff _ _ input).mpr ⟨rfl, rfl⟩

end RobustMargin
