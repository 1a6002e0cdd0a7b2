import RobustMargin.Activation
import RobustMargin.Decimal.Numeral
import RobustMargin.Scalar.Double

/-! # Names of activations

An activation is written as its name, with the parameter of `quadlu` after a colon. -/
namespace RobustMargin.Activation

/-- The text before the first colon and the text after it, if there is one. -/
def splitColon (text : String) : String × Option String :=
  let chars := text.toList
  match chars.dropWhile (· ≠ ':') with
  | [] => (text, none)
  | _ :: after => (String.ofList (chars.takeWhile (· ≠ ':')), some (String.ofList after))

def named? : String → Option (Activation Float)
  | "identity" | "id" | "linear" => some identity
  | "sigmoid" => some sigmoid
  | "tanh" => some tanh
  | "quadlu" => some (quadlu defaultAlpha)
  | _ => none

/-- Reads a name without regard to case and blank ends. -/
def parse (text : String) : Except (Error Float) (Activation Float) :=
  let unknown := Error.invalidInput (.unknownActivation text)
  match splitColon (Text.lowerAscii (Text.trimBlank text)) with
  | (word, none) =>
      match named? word with
      | some f => .ok f
      | none => .error unknown
  | ("quadlu", some parameter) =>
      match Decimal.read? parameter with
      | some alpha => quadluOf alpha
      | none => .error (.invalidInput (.unreadableAlpha parameter))
  | (_, some _) => .error unknown

end RobustMargin.Activation
