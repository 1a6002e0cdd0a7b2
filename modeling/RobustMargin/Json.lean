/-! # JSON values

Values of the data format. Integers are kept apart from other numbers, the fields of an object keep
their order and may repeat, and the place where a text stops being JSON is itself a value, so that
what comes before it can still be examined first. -/
namespace RobustMargin

inductive Json where
  | null
  | bool (b : Bool)
  | integer (n : Int)
  /-- A number with a fraction or a power of ten; it is infinite where it was out of range. -/
  | real (x : Float)
  | string (s : String)
  | array (items : List Json)
  | object (fields : List (String × Json))
  /-- The rest of a text from where it stops being JSON. -/
  | malformed

namespace Json

instance : Inhabited Json := ⟨null⟩

def ofNat (n : Nat) : Json := integer n

def ofOption {β : Type} (encode : β → Json) : Option β → Json
  | none => null
  | some x => encode x

def ofList {β : Type} (encode : β → Json) (xs : List β) : Json := array (xs.map encode)

mutual

/-- A value with no break anywhere inside. -/
def wellFormed : Json → Bool
  | malformed => false
  | array items => itemsWellFormed items
  | object fields => fieldsWellFormed fields
  | _ => true

def itemsWellFormed : List Json → Bool
  | [] => true
  | item :: rest => wellFormed item && itemsWellFormed rest

def fieldsWellFormed : List (String × Json) → Bool
  | [] => true
  | (_, value) :: rest => wellFormed value && fieldsWellFormed rest

end

mutual

/-- A well-formed value in which every number is in range. -/
def inRange : Json → Bool
  | malformed => false
  | real x => x.isFinite
  | array items => itemsInRange items
  | object fields => fieldsInRange fields
  | _ => true

def itemsInRange : List Json → Bool
  | [] => true
  | item :: rest => inRange item && itemsInRange rest

def fieldsInRange : List (String × Json) → Bool
  | [] => true
  | (_, value) :: rest => inRange value && fieldsInRange rest

end

end Json
end RobustMargin
