import RobustMargin.Decimal.Numeral
import RobustMargin.Json

/-! # JSON texts

Reading stops where the text is no longer JSON; the value read so far then ends in a break. -/
namespace RobustMargin.Json

def isBlank (c : Char) : Bool := c = ' ' || c = '\n' || c = '\t' || c = '\r'

def skipBlank (text : List Char) : List Char := text.dropWhile isBlank

def hexValue? (c : Char) : Option Nat :=
  if c.isDigit then some (c.toNat - '0'.toNat)
  else if 'a' ≤ c ∧ c ≤ 'f' then some (c.toNat - 'a'.toNat + 10)
  else if 'A' ≤ c ∧ c ≤ 'F' then some (c.toNat - 'A'.toNat + 10)
  else none

/-- The number of four hexadecimal digits. -/
def hexUnit? (a b c d : Char) : Option Nat := do
  let w ← hexValue? a
  let x ← hexValue? b
  let y ← hexValue? c
  let z ← hexValue? d
  return ((w * 16 + x) * 16 + y) * 16 + z

def isHighSurrogate (unit : Nat) : Bool := 0xD800 ≤ unit && unit < 0xDC00

def isLowSurrogate (unit : Nat) : Bool := 0xDC00 ≤ unit && unit < 0xE000

/-- The character that a high and a low surrogate stand for together. -/
def joinSurrogates (high low : Nat) : Char :=
  Char.ofNat (0x10000 + (high - 0xD800) * 0x400 + (low - 0xDC00))

/-- The character of a single-letter escape. -/
def escapedChar? : Char → Option Char
  | '"' => some '"'
  | '\\' => some '\\'
  | '/' => some '/'
  | 'b' => some (Char.ofNat 8)
  | 'f' => some (Char.ofNat 12)
  | 'n' => some '\n'
  | 'r' => some '\r'
  | 't' => some '\t'
  | _ => none

/-- The characters of a string up to its closing mark, and the text after it. Control characters must
be escaped, and surrogates stand in pairs. -/
def stringChars? : List Char → Option (List Char × List Char)
  | [] => none
  | '"' :: rest => some ([], rest)
  | '\\' :: 'u' :: a :: b :: c :: d :: rest =>
      match hexUnit? a b c d with
      | none => none
      | some unit =>
          if isHighSurrogate unit then
            match rest with
            | '\\' :: 'u' :: e :: f :: g :: h :: after =>
                match hexUnit? e f g h with
                | some low =>
                    if isLowSurrogate low then
                      (stringChars? after).map fun p => (joinSurrogates unit low :: p.1, p.2)
                    else none
                | none => none
            | _ => none
          else if isLowSurrogate unit then none
          else (stringChars? rest).map fun p => (Char.ofNat unit :: p.1, p.2)
  | '\\' :: mark :: rest =>
      match escapedChar? mark with
      | some c => (stringChars? rest).map fun p => (c :: p.1, p.2)
      | none => none
  | '\\' :: [] => none
  | c :: rest =>
      if c.toNat < 32 then none else (stringChars? rest).map fun p => (c :: p.1, p.2)

/-- A number: a whole part without leading zeros, and then digits after a point and a power of ten,
either of which may be missing. The negative zero is no integer. -/
def number? (read : Decimal.Numeral → Float) (text : List Char) : Option (Json × List Char) :=
  let (negative, unsigned) : Bool × List Char := match text with
    | '-' :: rest => (true, rest)
    | rest => (false, rest)
  let (whole, afterWhole) := Decimal.spanDigits unsigned
  if whole = [] ∨ (whole.head? = some 0 ∧ 1 < whole.length) then none
  else
    let fractional : Option (List Nat × List Char) := match afterWhole with
      | '.' :: rest =>
          let (digits, after) := Decimal.spanDigits rest
          if digits = [] then none else some (digits, after)
      | rest => some ([], rest)
    match fractional with
    | none => none
    | some (fraction, afterFraction) =>
        let real := fun (exponent : Int) => Json.real (read ⟨negative, whole, fraction, exponent⟩)
        let plain : Json :=
          let size := Decimal.natOfDigits whole
          if fraction ≠ [] ∨ (negative ∧ size = 0) then real 0
          else integer (if negative then -size else size)
        match afterFraction with
        | mark :: rest =>
            if mark = 'e' ∨ mark = 'E' then
              (Decimal.spanExponent rest).map fun p => (real p.1, p.2)
            else some (plain, mark :: rest)
        | [] => some (plain, [])

/-- What was read, and the text after it unless reading broke off. -/
abbrev Reading (β : Type) := β × Option (List Char)

def broken : Reading Json := (malformed, none)

/-- A fixed word that starts a text. -/
def word (expected : List Char) (value : Json) (text : List Char) : Reading Json :=
  if expected.isPrefixOf text then (value, some (text.drop expected.length)) else broken

mutual

/-- A value after blanks. The first argument bounds the depth of the recursion; twice the length of
the text suffices. -/
def readValue (read : Decimal.Numeral → Float) : Nat → List Char → Reading Json
  | 0, _ => broken
  | fuel + 1, text =>
      match skipBlank text with
      | [] => broken
      | '"' :: rest =>
          match stringChars? rest with
          | some (chars, after) => (string (String.ofList chars), some after)
          | none => broken
      | '[' :: rest =>
          match skipBlank rest with
          | ']' :: after => (array [], some after)
          | _ =>
              let (items, after) := readItems read fuel rest
              (array items, after)
      | '\x7b' :: rest =>
          match skipBlank rest with
          | '\x7d' :: after => (object [], some after)
          | _ =>
              let (fields, after) := readFields read fuel rest
              (object fields, after)
      | 'n' :: rest => word ['u', 'l', 'l'] null rest
      | 't' :: rest => word ['r', 'u', 'e'] (bool true) rest
      | 'f' :: rest => word ['a', 'l', 's', 'e'] (bool false) rest
      | other =>
          match number? read other with
          | some (value, after) => (value, some after)
          | none => broken

/-- The items of an array from the first one on, with the closing bracket. -/
def readItems (read : Decimal.Numeral → Float) : Nat → List Char → Reading (List Json)
  | 0, _ => ([malformed], none)
  | fuel + 1, text =>
      match readValue read fuel text with
      | (item, none) => ([item], none)
      | (item, some after) =>
          match skipBlank after with
          | ',' :: rest =>
              let (items, last) := readItems read fuel rest
              (item :: items, last)
          | ']' :: rest => ([item], some rest)
          | _ => ([item, malformed], none)

/-- The fields of an object from the first one on, with the closing brace. -/
def readFields (read : Decimal.Numeral → Float) : Nat → List Char → Reading (List (String × Json))
  | 0, _ => ([("", malformed)], none)
  | fuel + 1, text =>
      match skipBlank text with
      | '"' :: rest =>
          match stringChars? rest with
          | none => ([("", malformed)], none)
          | some (chars, afterKey) =>
              let key := String.ofList chars
              match skipBlank afterKey with
              | ':' :: afterColon =>
                  match readValue read fuel afterColon with
                  | (value, none) => ([(key, value)], none)
                  | (value, some after) =>
                      match skipBlank after with
                      | ',' :: more =>
                          let (fields, last) := readFields read fuel more
                          ((key, value) :: fields, last)
                      | '\x7d' :: last => ([(key, value)], some last)
                      | _ => ([(key, value), ("", malformed)], none)
              | _ => ([(key, malformed)], none)
      | _ => ([("", malformed)], none)

end

/-- Reads a text; the flag tells whether nothing but blanks follows the value. -/
def parse (read : Decimal.Numeral → Float) (text : String) : Json × Bool :=
  let chars := text.toList
  match readValue read (2 * chars.length + 2) chars with
  | (value, some after) => (value, (skipBlank after).isEmpty)
  | (value, none) => (value, false)

end RobustMargin.Json
