import Mathlib
import RobustMargin.Model.Layout

/-! # Arrangement of variables

Every index below the size of a layout belongs to exactly one variable of the network, and the
look-ups of the layout find it. -/
namespace RobustMargin

section Positions

variable {β γ : Type}

theorem range_eq_map_snd (xs : List β) :
    List.range xs.length = xs.zipIdx.map Prod.snd := by
  rw [List.zipIdx_map_snd, List.range_eq_range']

theorem getElem?_flatMap_iff (xs : List β) (f : β → List γ) (v : Nat) (y : γ) :
    (xs.flatMap f)[v]? = some y ↔
      ∃ j x u, xs[j]? = some x ∧ (f x)[u]? = some y ∧
        v = ((xs.take j).map fun x => (f x).length).sum + u := by
  induction xs generalizing v with
  | nil => simp
  | cons first rest ih =>
      rw [List.flatMap_cons, List.getElem?_append]
      constructor
      · intro found
        split at found
        · exact ⟨0, first, v, rfl, found, by simp⟩
        · obtain ⟨j, x, u, member, inside, position⟩ := (ih _).mp found
          refine ⟨j + 1, x, u, member, inside, ?_⟩
          rw [List.take_succ_cons, List.map_cons, List.sum_cons]
          omega
      · rintro ⟨j, x, u, member, inside, rfl⟩
        cases j with
        | zero =>
            obtain rfl := Option.some.inj member
            have bound := (List.getElem?_eq_some_iff.mp inside).1
            simp only [List.take_zero, List.map_nil, List.sum_nil, Nat.zero_add]
            rwa [if_pos bound]
        | succ j =>
            rw [List.take_succ_cons, List.map_cons, List.sum_cons, if_neg (by omega)]
            exact (ih _).mpr ⟨j, x, u, member, inside, by omega⟩

/-- Blocks whose lengths do not depend on their indices. -/
theorem getElem?_flatMap_zipIdx_iff (xs : List β) (f : β × Nat → List γ) (size : β → Nat)
    (sizes : ∀ p, (f p).length = size p.1) (v : Nat) (y : γ) :
    (xs.zipIdx.flatMap f)[v]? = some y ↔
      ∃ j x u, xs[j]? = some x ∧ (f (x, j))[u]? = some y ∧
        v = ((xs.take j).map size).sum + u := by
  have start (j : Nat) : (xs.zipIdx.take j).map (fun p => (f p).length) = (xs.take j).map size := by
    rw [List.map_congr_left (g := size ∘ Prod.fst) fun p _ => sizes p, ← List.map_map,
      List.map_take, List.zipIdx_map_fst]
  rw [getElem?_flatMap_iff]
  constructor
  · rintro ⟨j, ⟨x, i⟩, u, member, inside, position⟩
    rw [List.getElem?_zipIdx, Option.map_eq_some_iff] at member
    obtain ⟨z, found, same⟩ := member
    obtain ⟨rfl, rfl⟩ := Prod.mk.inj same
    rw [Nat.zero_add] at inside
    exact ⟨j, z, u, found, inside, start j ▸ position⟩
  · rintro ⟨j, x, u, member, inside, position⟩
    refine ⟨j, (x, j), u, ?_, inside, (start j).symm ▸ position⟩
    rw [List.getElem?_zipIdx, member, Nat.zero_add]
    rfl

theorem length_flatMap_pair (xs : List β) (a b : β → γ) :
    (xs.flatMap fun x => [a x, b x]).length = 2 * xs.length := by
  induction xs with
  | nil => rfl
  | cons x xs ih =>
      rw [List.flatMap_cons, List.length_append, ih, List.length_cons]
      exact Nat.add_comm 2 (2 * xs.length)

theorem getElem?_flatMap_pair_iff (xs : List β) (a b : β → γ) (u : Nat) (y : γ) :
    (xs.flatMap fun x => [a x, b x])[u]? = some y ↔
      ∃ k x, xs[k]? = some x ∧ (y = a x ∧ u = 2 * k ∨ y = b x ∧ u = 2 * k + 1) := by
  induction xs generalizing u with
  | nil => simp
  | cons x xs ih =>
      rw [List.flatMap_cons]
      constructor
      · intro found
        match u, found with
        | 0, found => exact ⟨0, x, rfl, .inl ⟨(Option.some.inj found).symm, rfl⟩⟩
        | 1, found => exact ⟨0, x, rfl, .inr ⟨(Option.some.inj found).symm, rfl⟩⟩
        | u + 2, found =>
            obtain ⟨k, z, member, place⟩ := (ih u).mp found
            exact ⟨k + 1, z, member, place.imp (.imp_right (congrArg (· + 2)))
              (.imp_right (congrArg (· + 2)))⟩
      · rintro ⟨k, z, member, place⟩
        cases k with
        | zero =>
            obtain rfl := Option.some.inj member
            rcases place with ⟨rfl, rfl⟩ | ⟨rfl, rfl⟩ <;> rfl
        | succ k =>
            rcases place with ⟨same, rfl⟩ | ⟨same, rfl⟩
            · exact (ih (2 * k)).mpr ⟨k, z, member, .inl ⟨same, rfl⟩⟩
            · exact (ih (2 * k + 1)).mpr ⟨k, z, member, .inr ⟨same, rfl⟩⟩

/-- Pairs of entries in turn, followed by further entries if there are any. -/
theorem getElem?_block_iff (xs : List β) (a b c : β → γ) (more : Bool) (u : Nat) (y : γ) :
    (xs.flatMap (fun x => [a x, b x]) ++ if more then xs.map c else [])[u]? = some y ↔
      ∃ k x, xs[k]? = some x ∧ (y = a x ∧ u = 2 * k ∨ y = b x ∧ u = 2 * k + 1 ∨
        more = true ∧ y = c x ∧ u = 2 * xs.length + k) := by
  rw [List.getElem?_append, length_flatMap_pair]
  constructor
  · intro found
    split at found
    · obtain ⟨k, x, member, place⟩ := (getElem?_flatMap_pair_iff xs a b u y).mp found
      exact ⟨k, x, member, place.imp_right .inl⟩
    · split at found
      · rename_i present
        rw [List.getElem?_map, Option.map_eq_some_iff] at found
        obtain ⟨x, member, rfl⟩ := found
        exact ⟨_, x, member, .inr (.inr ⟨present, rfl, by omega⟩)⟩
      · cases found
  · rintro ⟨k, x, member, place⟩
    have bound := (List.getElem?_eq_some_iff.mp member).1
    rcases place with first | second | ⟨present, rfl, rfl⟩
    · rw [if_pos (by omega)]
      exact (getElem?_flatMap_pair_iff xs a b u y).mpr ⟨k, x, member, .inl first⟩
    · rw [if_pos (by omega)]
      exact (getElem?_flatMap_pair_iff xs a b u y).mpr ⟨k, x, member, .inr second⟩
    · rw [if_neg (by omega), if_pos present, Nat.add_sub_cancel_left, List.getElem?_map, member]
      rfl

theorem length_block (xs : List β) (a b c : β → γ) (more : Bool) :
    (xs.flatMap (fun x => [a x, b x]) ++ if more then xs.map c else []).length =
      if more then 3 * xs.length else 2 * xs.length := by
  rw [List.length_append, length_flatMap_pair]
  cases more with
  | false => rfl
  | true =>
      rw [if_pos rfl, if_pos rfl, List.length_map]
      omega

end Positions

/-- A variable of a network by its layer and its neuron; inputs are the post-activations of layer
zero. -/
inductive Slot where
  | post (layer k : Nat)
  | pre (layer k : Nat)
  | residual (layer k : Nat)
  deriving DecidableEq, Repr

namespace Layout

/-- The index of a variable, if the layout has it. -/
def slot? (l : Layout) : Slot → Option Nat
  | .post layer k => l.x? layer k
  | .pre layer k => l.z? layer k
  | .residual layer k => l.r? layer k

/-- The variables of a layer counted from zero. -/
def layerSlots (l : Layout) (p : Nat × Nat) : List Slot :=
  (List.range p.1).flatMap (fun k => [.post (p.2 + 1) k, .pre (p.2 + 1) k]) ++
    if l.residuals then (List.range p.1).map (.residual (p.2 + 1)) else []

/-- The variables in the order of their indices. -/
def slots (l : Layout) : List Slot :=
  (List.range l.inputs).map (.post 0) ++ l.widths.zipIdx.flatMap l.layerSlots

theorem layerSlots_length (l : Layout) (p : Nat × Nat) :
    (l.layerSlots p).length = l.layerSize p.1 := by
  rw [layerSlots, length_block, List.length_range, layerSize]

theorem offset_eq (l : Layout) (layer : Nat) :
    l.offset layer = l.inputs + ((l.widths.take layer).map l.layerSize).sum := rfl

theorem inputs_le_offset (l : Layout) (layer : Nat) : l.inputs ≤ l.offset layer :=
  Nat.le_add_right _ _

theorem offset_succ (l : Layout) {layer width : Nat} (found : l.widths[layer]? = some width) :
    l.offset (layer + 1) = l.offset layer + l.layerSize width := by
  rw [offset_eq, offset_eq, List.take_add_one, found, List.map_append, List.sum_append,
    Nat.add_assoc]
  rfl

theorem two_mul_le_layerSize (l : Layout) (width : Nat) : 2 * width ≤ l.layerSize width := by
  unfold layerSize
  split <;> omega

theorem x?_eq_some_iff (l : Layout) (layer k v : Nat) :
    l.x? layer k = some v ↔
      ∃ width, l.width? layer = some width ∧ k < width ∧ l.post layer k = v := by
  rw [x?]
  cases l.width? layer <;> simp

/-- The inputs of a layer stand before its own variables. -/
theorem post_lt_offset (l : Layout) {layer width k : Nat} (found : l.width? layer = some width)
    (bound : k < width) : l.post layer k < l.offset layer := by
  cases layer with
  | zero =>
      obtain rfl := Option.some.inj found
      exact lt_of_lt_of_le bound (l.inputs_le_offset 0)
  | succ layer =>
      have fits := l.two_mul_le_layerSize width
      rw [l.offset_succ found, post]
      omega

theorem x?_zero_iff (l : Layout) (k v : Nat) : l.x? 0 k = some v ↔ k < l.inputs ∧ k = v := by
  simp [x?, width?, post]

theorem x?_succ_iff (l : Layout) (layer k v : Nat) :
    l.x? (layer + 1) k = some v ↔
      ∃ width, l.widths[layer]? = some width ∧ k < width ∧ l.post (layer + 1) k = v := by
  rw [x?, width?]
  cases l.widths[layer]? <;> simp

theorem z?_succ_iff (l : Layout) (layer k v : Nat) :
    l.z? (layer + 1) k = some v ↔
      ∃ width, l.widths[layer]? = some width ∧ k < width ∧ l.pre layer k = v := by
  rw [z?]
  cases l.widths[layer]? <;> simp

theorem r?_succ_iff (l : Layout) (layer k v : Nat) :
    l.r? (layer + 1) k = some v ↔ l.residuals = true ∧
      ∃ width, l.widths[layer]? = some width ∧ k < width ∧ l.residual layer width k = v := by
  rw [r?]
  cases l.residuals <;> cases l.widths[layer]? <;> simp

theorem layerSlots_getElem?_iff (l : Layout) (width layer u : Nat) (s : Slot) :
    (l.layerSlots (width, layer))[u]? = some s ↔
      ∃ k < width, (s = .post (layer + 1) k ∧ u = 2 * k ∨
        s = .pre (layer + 1) k ∧ u = 2 * k + 1 ∨
        l.residuals = true ∧ s = .residual (layer + 1) k ∧ u = 2 * width + k) := by
  rw [layerSlots, getElem?_block_iff]
  constructor
  · rintro ⟨k, x, member, place⟩
    have bound : k < width := by simpa using (List.getElem?_eq_some_iff.mp member).1
    rw [List.getElem?_range bound] at member
    obtain rfl := Option.some.inj member
    exact ⟨k, bound, by simpa using place⟩
  · rintro ⟨k, bound, place⟩
    exact ⟨k, k, List.getElem?_range bound, by simpa using place⟩

/-- A variable of a layer counted from zero stands at an index. -/
def PlacedAt (l : Layout) (s : Slot) (v layer width : Nat) : Prop :=
  ∃ k < width, s = .post (layer + 1) k ∧ l.post (layer + 1) k = v ∨
    s = .pre (layer + 1) k ∧ l.pre layer k = v ∨
    l.residuals = true ∧ s = .residual (layer + 1) k ∧ l.residual layer width k = v

theorem slot?_eq_some_iff (l : Layout) (s : Slot) (v : Nat) :
    l.slot? s = some v ↔ s = .post 0 v ∧ v < l.inputs ∨
      ∃ layer width, l.widths[layer]? = some width ∧ l.PlacedAt s v layer width := by
  constructor
  · intro found
    match s, found with
    | .post 0 k, found =>
        obtain ⟨bound, rfl⟩ := (l.x?_zero_iff k v).mp found
        exact .inl ⟨rfl, bound⟩
    | .post (layer + 1) k, found =>
        obtain ⟨width, known, bound, place⟩ := (l.x?_succ_iff layer k v).mp found
        exact .inr ⟨layer, width, known, k, bound, .inl ⟨rfl, place⟩⟩
    | .pre (layer + 1) k, found =>
        obtain ⟨width, known, bound, place⟩ := (l.z?_succ_iff layer k v).mp found
        exact .inr ⟨layer, width, known, k, bound, .inr (.inl ⟨rfl, place⟩)⟩
    | .residual (layer + 1) k, found =>
        obtain ⟨present, width, known, bound, place⟩ := (l.r?_succ_iff layer k v).mp found
        exact .inr ⟨layer, width, known, k, bound, .inr (.inr ⟨present, rfl, place⟩)⟩
  · rintro (⟨rfl, bound⟩ | ⟨layer, width, known, k, bound, place⟩)
    · exact (l.x?_zero_iff v v).mpr ⟨bound, rfl⟩
    · rcases place with ⟨rfl, place⟩ | ⟨rfl, place⟩ | ⟨present, rfl, place⟩
      · exact (l.x?_succ_iff layer k v).mpr ⟨width, known, bound, place⟩
      · exact (l.z?_succ_iff layer k v).mpr ⟨width, known, bound, place⟩
      · exact (l.r?_succ_iff layer k v).mpr ⟨present, width, known, bound, place⟩

theorem placedAt_iff (l : Layout) (s : Slot) (v layer width : Nat) :
    l.PlacedAt s v layer width ↔
      ∃ u, (l.layerSlots (width, layer))[u]? = some s ∧ v = l.offset layer + u := by
  constructor
  · rintro ⟨k, bound, place⟩
    have inside := l.layerSlots_getElem?_iff width layer
    rcases place with ⟨rfl, rfl⟩ | ⟨rfl, rfl⟩ | ⟨present, rfl, rfl⟩
    · exact ⟨2 * k, (inside _ _).mpr ⟨k, bound, .inl ⟨rfl, rfl⟩⟩, rfl⟩
    · exact ⟨2 * k + 1, (inside _ _).mpr ⟨k, bound, .inr (.inl ⟨rfl, rfl⟩)⟩, rfl⟩
    · exact ⟨2 * width + k, (inside _ _).mpr ⟨k, bound, .inr (.inr ⟨present, rfl, rfl⟩)⟩,
        Nat.add_assoc _ _ _⟩
  · rintro ⟨u, inside, rfl⟩
    obtain ⟨k, bound, place⟩ := (l.layerSlots_getElem?_iff width layer u s).mp inside
    refine ⟨k, bound, ?_⟩
    rcases place with ⟨rfl, rfl⟩ | ⟨rfl, rfl⟩ | ⟨present, rfl, rfl⟩
    · exact .inl ⟨rfl, rfl⟩
    · exact .inr (.inl ⟨rfl, rfl⟩)
    · exact .inr (.inr ⟨present, rfl, Nat.add_assoc _ _ _⟩)

/-- The look-ups find each variable at its index and nothing else. -/
theorem slots_getElem?_iff (l : Layout) (v : Nat) (s : Slot) :
    l.slots[v]? = some s ↔ l.slot? s = some v := by
  -- An index that is no input lies in the block of exactly one layer.
  have later (u : Nat) : (l.widths.zipIdx.flatMap l.layerSlots)[u]? = some s ↔
      ∃ layer width, l.widths[layer]? = some width ∧
        l.PlacedAt s (l.inputs + u) layer width := by
    rw [getElem?_flatMap_zipIdx_iff l.widths l.layerSlots l.layerSize l.layerSlots_length]
    simp only [placedAt_iff, offset_eq, Nat.add_assoc, Nat.add_left_cancel_iff]
    exact exists_congr fun layer => exists_congr fun width =>
      ⟨fun ⟨u, known, place⟩ => ⟨known, u, place⟩, fun ⟨known, u, place⟩ => ⟨u, known, place⟩⟩
  rw [slot?_eq_some_iff, slots, List.getElem?_append, List.length_map, List.length_range]
  by_cases isInput : v < l.inputs
  · rw [if_pos isInput, List.getElem?_map, List.getElem?_range isInput, Option.map_some,
      Option.some_inj, eq_comm]
    refine ⟨fun same => .inl ⟨same, isInput⟩, ?_⟩
    rintro (⟨same, -⟩ | ⟨layer, width, known, placed⟩)
    · exact same
    · obtain ⟨u, -, place⟩ := (l.placedAt_iff s v layer width).mp placed
      rw [offset_eq] at place
      omega
  · rw [if_neg isInput, later, Nat.add_sub_cancel' (not_lt.mp isInput)]
    exact ⟨.inr, fun place => place.resolve_left fun input => isInput input.2⟩

theorem slots_length (l : Layout) : l.slots.length = l.size := by
  rw [slots, List.length_append, List.length_map, List.length_range, size, offset_eq,
    List.length_flatMap, List.take_length,
    List.map_congr_left (g := l.layerSize ∘ Prod.fst) fun p _ => l.layerSlots_length p,
    ← List.map_map, List.zipIdx_map_fst]

end Layout
end RobustMargin
