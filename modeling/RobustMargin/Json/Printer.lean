import RobustMargin.Decimal.Layout
import RobustMargin.Json

/-! # Printed JSON

Values as text: on one line without blanks, or with one field or item on each line. -/
namespace RobustMargin.Json

def hexDigits (n : Nat) : List Char := Nat.toDigits 16 n

/-- The four-digit escape of a control character. -/
def controlEscape (c : Char) : List Char :=
  let digits := hexDigits c.toNat
  '\\' :: 'u' :: List.replicate (4 - digits.length) '0' ++ digits

def stringChar (c : Char) : List Char :=
  if c = '"' then ['\\', '"']
  else if c = '\\' then ['\\', '\\']
  else if c = '\n' then ['\\', 'n']
  else if c = '\r' then ['\\', 'r']
  else if c = '\t' then ['\\', 't']
  else if c.toNat = 8 then ['\\', 'b']
  else if c.toNat = 12 then ['\\', 'f']
  else if c.toNat < 32 then controlEscape c
  else [c]

def stringText (s : String) : List Char := '"' :: s.toList.flatMap stringChar ++ ['"']

/-- A number that is not finite is written as null. -/
def realText (x : Float) : List Char :=
  if x.isFinite then (Decimal.Layout.data.text x).toList else ['n', 'u', 'l', 'l']

def scalarText : Json → List Char
  | null => ['n', 'u', 'l', 'l']
  | bool true => ['t', 'r', 'u', 'e']
  | bool false => ['f', 'a', 'l', 's', 'e']
  | integer n => (toString n).toList
  | real x => realText x
  | string s => stringText s
  | _ => []

mutual

def compactChars : Json → List Char
  | array [] => ['[', ']']
  | array (item :: rest) => '[' :: compactChars item ++ compactItems rest
  | object [] => ['\x7b', '\x7d']
  | object ((key, value) :: rest) =>
      '\x7b' :: stringText key ++ ':' :: compactChars value ++ compactFields rest
  | value => scalarText value

def compactItems : List Json → List Char
  | [] => [']']
  | item :: rest => ',' :: compactChars item ++ compactItems rest

def compactFields : List (String × Json) → List Char
  | [] => ['\x7d']
  | (key, value) :: rest => ',' :: stringText key ++ ':' :: compactChars value ++ compactFields rest

end

/-- A line break and two blanks for each level. -/
def newLine (level : Nat) : List Char := '\n' :: List.replicate (2 * level) ' '

mutual

def prettyChars (level : Nat) : Json → List Char
  | array [] => ['[', ']']
  | array (item :: rest) =>
      '[' :: newLine (level + 1) ++ prettyChars (level + 1) item ++ prettyItems level rest
  | object [] => ['\x7b', '\x7d']
  | object ((key, value) :: rest) =>
      '\x7b' :: newLine (level + 1) ++ stringText key ++ ':' :: ' ' :: prettyChars (level + 1) value ++
        prettyFields level rest
  | value => scalarText value

def prettyItems (level : Nat) : List Json → List Char
  | [] => newLine level ++ [']']
  | item :: rest =>
      ',' :: newLine (level + 1) ++ prettyChars (level + 1) item ++ prettyItems level rest

def prettyFields (level : Nat) : List (String × Json) → List Char
  | [] => newLine level ++ ['\x7d']
  | (key, value) :: rest =>
      ',' :: newLine (level + 1) ++ stringText key ++ ':' :: ' ' :: prettyChars (level + 1) value ++
        prettyFields level rest

end

def compact (json : Json) : String := String.ofList (compactChars json)

def pretty (json : Json) : String := String.ofList (prettyChars 0 json)

end RobustMargin.Json
