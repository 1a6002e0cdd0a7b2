import RobustMargin.Json.Decoder
import RobustMargin.Proofs.JsonText

/-! # Decoded texts

A printed value is decoded as what it stands for. Lists are decoded item by item. -/
namespace RobustMargin

theorem Double.isFinite_eq (x : Float) : x.isFinite = Scalar.isFinite x :=
  Bool.eq_iff_iff.mpr ((Double.isFinite_unpacked_iff x).trans (Double.isFinite_iff x).symm)

namespace Json

open Decimal

section Records

@[simp]
theorem ok_bind {β γ : Type} (x : β) (f : β → Except DecodeError γ) :
    (Except.ok x >>= f) = f x := rfl

@[simp]
theorem error_bind {β γ : Type} (e : DecodeError) (f : β → Except DecodeError γ) :
    (Except.error e >>= f) = .error e := rfl

@[simp]
theorem map_ok {β γ : Type} (f : β → γ) (x : β) :
    (Except.ok x : Except DecodeError β).map f = .ok (f x) := rfl

@[simp]
theorem map_error {β γ : Type} (f : β → γ) (e : DecodeError) :
    (Except.error e : Except DecodeError β).map f = .error e := rfl

@[simp]
theorem pure_eq_ok {β : Type} (x : β) : (pure x : Except DecodeError β) = .ok x := rfl

@[simp]
theorem require_some {β : Type} (x : β) : DecodeError.require (some x) = .ok x := rfl

@[simp]
theorem stringOf_string (s : String) : stringOf (string s) = .ok s := rfl

variable {σ β : Type}

@[simp]
theorem field_name (name : String) (decode : Decoder β) (put : β → σ → σ) :
    (field name decode put).name = name := rfl

@[simp]
theorem field_put (name : String) (decode : Decoder β) (put : β → σ → σ) (json : Json)
    (collected : σ) :
    (field name decode put).put json collected = (decode json).map (put · collected) := rfl

@[simp]
theorem recordOf_object (known : List (Json.Field σ)) (start : σ)
    (finish : σ → Except DecodeError β) (fields : List (String × Json)) :
    recordOf known start finish (object fields) =
      (collectFields .ignored known [] start fields >>= finish) := by
  rw [recordOf, record]
  cases collectFields .ignored known [] start fields <;> rfl

end Records

theorem itemsWellFormed_map {β : Type} (encode : β → Json) (xs : List β)
    (each : ∀ x ∈ xs, (encode x).wellFormed = true) :
    itemsWellFormed (xs.map encode) = true := by
  induction xs with
  | nil => rfl
  | cons x xs ih =>
      rw [List.forall_mem_cons] at each
      rw [List.map_cons, itemsWellFormed, each.1, ih each.2]
      rfl

theorem wellFormed_ofList {β : Type} (encode : β → Json) (xs : List β)
    (each : ∀ x ∈ xs, (encode x).wellFormed = true) : (ofList encode xs).wellFormed = true :=
  itemsWellFormed_map encode xs each

theorem written_ofList {β : Type} (encode : β → Json) (xs : List β) :
    (ofList encode xs).written = ofList (fun x => (encode x).written) xs := by
  have items : writtenItems (xs.map encode) = xs.map fun x => (encode x).written := by
    induction xs with
    | nil => rfl
    | cons x xs ih => rw [List.map_cons, writtenItems, ih, List.map_cons]
  exact congrArg array items

theorem floatOf_written (x : Float) :
    floatOf (written (real x)) = if x.isFinite then .ok x else .error .unfit := by
  rw [written]
  split
  · rename_i finite
    exact if_pos finite
  · rfl

theorem floatOf_finite {x : Float} (finite : x.isFinite = true) :
    floatOf (written (real x)) = .ok x := by
  rw [floatOf_written]
  exact if_pos finite

theorem wordOf_ofNat {n : Nat} (small : n < 2 ^ 64) : wordOf (ofNat n) = .ok n :=
  if_pos ⟨Int.natCast_nonneg n, small⟩

/-- A list is decoded if each of its items fits, and refused otherwise. -/
theorem listOf_ofList {β γ : Type} {encode : β → Json} {decode : Decoder γ} (fits : β → Bool)
    (value : β → γ) (xs : List β) (each : ∀ x ∈ xs,
      decode (encode x) = if fits x then .ok (value x) else .error .unfit) :
    listOf decode (ofList encode xs) =
      if xs.all fits then .ok (xs.map value) else .error .unfit := by
  change itemsOf decode (xs.map encode) = _
  induction xs with
  | nil => rfl
  | cons x xs ih =>
      rw [List.forall_mem_cons] at each
      rw [List.map_cons, itemsOf, each.1, ih each.2, List.all_cons]
      cases fits x
      · rfl
      · cases xs.all fits <;> rfl

theorem listOf_ofList_ok {β : Type} {encode : β → Json} {decode : Decoder β} (xs : List β)
    (each : ∀ x ∈ xs, decode (encode x) = .ok x) : listOf decode (ofList encode xs) = .ok xs := by
  have all := listOf_ofList (fun _ => true) id xs each
  rwa [List.all_eq_true.mpr fun _ _ => rfl, List.map_id] at all

theorem decodeText_of_parse {β : Type} (decode : Decoder β) {text : String} {json : Json}
    (parsed : parse Numeral.scaled text = (json, true)) :
    decodeText decode text = decode json := by
  rw [decodeText, parsed]
  dsimp only
  cases decode json <;> rfl

variable {β : Type} (decode : Decoder β) {json : Json} (sound : json.wellFormed = true)
  (known : AllReadBack Numeral.scaled json.numbers)
include sound known

theorem decodeText_compact : decodeText decode json.compact = decode json.written :=
  decodeText_of_parse decode (parse_compact sound known)

theorem decodeText_pretty : decodeText decode json.pretty = decode json.written :=
  decodeText_of_parse decode (parse_pretty sound known)

end Json
end RobustMargin
