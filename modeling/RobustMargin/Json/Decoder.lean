import RobustMargin.Error
import RobustMargin.Json.Parser
import RobustMargin.Scalar.Double

/-! # Decoding JSON

Values of the library from JSON values. Fields are looked at in the order of the text, so that the
first fault of a text is the one reported. A record may also be written as the array of its fields. -/
namespace RobustMargin.Json

/-- Why a value is refused: its form does not fit, or it fails the checks of its type. -/
inductive DecodeError where
  | unfit
  | rejected (cause : Error Float)

abbrev Decoder (β : Type) := Json → Except DecodeError β

namespace DecodeError

def ofResult {β : Type} (result : Except (Error Float) β) : Except DecodeError β :=
  result.mapError rejected

def require {β : Type} : Option β → Except DecodeError β
  | some x => .ok x
  | none => .error unfit

end DecodeError

def stringOf : Decoder String
  | string s => .ok s
  | _ => .error .unfit

/-- A number in range. Integers are read as doubles, too. -/
def floatOf : Decoder Float
  | real x => if x.isFinite then .ok x else .error .unfit
  | integer n =>
      let digits := (Nat.toDigits 10 n.natAbs).map fun c => c.toNat - '0'.toNat
      .ok (Decimal.Numeral.scaled ⟨decide (n < 0), digits, [], 0⟩)
  | _ => .error .unfit

/-- An integer from zero up to below `2 ^ 64`. -/
def wordOf : Decoder Nat
  | integer n => if 0 ≤ n ∧ n.toNat < Nat.pow 2 64 then .ok n.toNat else .error .unfit
  | _ => .error .unfit

def optionOf {β : Type} (decode : Decoder β) : Decoder (Option β)
  | null => .ok none
  | value => (decode value).map some

def itemsOf {β : Type} (decode : Decoder β) : List Json → Except DecodeError (List β)
  | [] => .ok []
  | item :: rest => do
      let first ← decode item
      let later ← itemsOf decode rest
      return first :: later

def listOf {β : Type} (decode : Decoder β) : Decoder (List β)
  | array items => itemsOf decode items
  | _ => .error .unfit

def pairOf {β γ : Type} (first : Decoder β) (second : Decoder γ) : Decoder (β × γ)
  | array (x :: y :: rest) => do
      let x ← first x
      let y ← second y
      if rest.isEmpty then return (x, y) else throw .unfit
  | array [x] => do
      let _ ← first x
      throw .unfit
  | _ => .error .unfit

/-- One of several names, alone or as the only field of an object with the value null. -/
def choiceOf {β : Type} (choices : List (String × β)) : Decoder β
  | string s => DecodeError.require (choices.lookup s)
  | object [(key, null)] => DecodeError.require (choices.lookup key)
  | _ => .error .unfit

/-- A field of a record: its name, and how its value is put into what is collected. -/
structure Field (σ : Type) where
  name : String
  put : Json → σ → Except DecodeError σ

def field {σ β : Type} (name : String) (decode : Decoder β) (put : β → σ → σ) : Field σ :=
  ⟨name, fun json collected => (decode json).map (put · collected)⟩

/-- What becomes of fields with other names. -/
inductive Others where
  | ignored
  | refused
  deriving DecidableEq, Repr

/-- Collects named fields in the order of the text; no field may come twice. -/
def collectFields {σ : Type} (others : Others) (known : List (Field σ)) :
    List String → σ → List (String × Json) → Except DecodeError σ
  | _, collected, [] => .ok collected
  | seen, collected, (key, value) :: rest =>
      match known.find? fun f => f.name = key with
      | some f =>
          if key ∈ seen then .error .unfit
          else do
            let next ← f.put value collected
            collectFields others known (key :: seen) next rest
      | none =>
          if others = .refused ∨ !value.wellFormed then .error .unfit
          else collectFields others known seen collected rest

/-- Collects the items of an array as fields in the order of declaration. -/
def collectItems {σ : Type} : List (Field σ) → σ → List Json → Except DecodeError σ
  | _, collected, [] => .ok collected
  | [], _, _ :: _ => .error .unfit
  | f :: known, collected, item :: rest => do
      let next ← f.put item collected
      collectItems known next rest

/-- Collects a record from either form; the flag tells whether it was written as an array. -/
def record {σ : Type} (others : Others) (known : List (Field σ)) (start : σ) :
    Decoder (σ × Bool)
  | object fields => do
      let collected ← collectFields others known [] start fields
      return (collected, false)
  | array items => do
      let collected ← collectItems known start items
      return (collected, true)
  | _ => .error .unfit

/-- A record in which every field is set before it is used. -/
def recordOf {σ β : Type} (known : List (Field σ)) (start : σ)
    (finish : σ → Except DecodeError β) : Decoder β := fun json => do
  let collected ← record .ignored known start json
  finish collected.1

/-- The name of a variant and the rest of its value: in an object the tag is one of the fields, in an
array it comes first. All of the value has to be in range. -/
def tagged (tag : String) : Decoder (String × Json)
  | object fields =>
      match fields.partition fun f => f.1 = tag with
      | ([(_, string name)], others) =>
          if fieldsInRange others then .ok (name, object others) else .error .unfit
      | _ => .error .unfit
  | array (string name :: rest) =>
      if itemsInRange rest then .ok (name, array rest) else .error .unfit
  | _ => .error .unfit

/-- A variant without fields: in an array nothing may follow its name. -/
def unitVariant {β : Type} (value : β) : Decoder β
  | array (_ :: _) => .error .unfit
  | _ => .ok value

/-- A variant with one field. -/
def oneField {β γ : Type} (name : String) (decode : Decoder γ) (make : γ → β) : Decoder β :=
  recordOf [field name decode fun x _ => some x] (none : Option γ)
    fun collected => (DecodeError.require collected).map make

/-- Decodes a whole text; a fault of the value is reported before one of the text after it. -/
def decodeText {β : Type} (decode : Decoder β) (text : String) : Except DecodeError β := do
  let (json, complete) := parse Decimal.Numeral.scaled text
  let value ← decode json
  if complete then return value else throw .unfit

end RobustMargin.Json
