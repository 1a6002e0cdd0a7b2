import RobustMargin.Json.Decoder
import RobustMargin.Program

/-! # Linear programs as JSON

An infinite bound has no written form of its own: it is written as null, which is not read back. -/
namespace RobustMargin.Wire

open Json

def encodeVariable (v : Variable Float) : Json :=
  object [("name", string v.name), ("lower", real v.lower.toScalar),
    ("upper", real v.upper.toScalar)]

structure VariableFields where
  name : Option String
  lower : Option Float
  upper : Option Float

def decodeVariable : Decoder (Variable Float) :=
  recordOf
    [field "name" stringOf fun x s => { s with name := some x },
      field "lower" floatOf fun x s => { s with lower := some x },
      field "upper" floatOf fun x s => { s with upper := some x }]
    (⟨none, none, none⟩ : VariableFields)
    fun s => do
      return ⟨← DecodeError.require s.name, .ofScalar (← DecodeError.require s.lower),
        .ofScalar (← DecodeError.require s.upper)⟩

def encodeExpr (e : LinearExpr Float) : Json :=
  object [("terms", ofList (fun t => array [ofNat t.1, real t.2]) e.terms),
    ("constant", real e.constant)]

def decodeExpr : Decoder (LinearExpr Float) :=
  recordOf
    [field "terms" (listOf (pairOf wordOf floatOf)) fun x s => (some x, s.2),
      field "constant" floatOf fun x s => (s.1, some x)]
    ((none, none) : Option (List (VarId × Float)) × Option Float)
    fun s => do return ⟨← DecodeError.require s.1, ← DecodeError.require s.2⟩

def senses : List (String × Sense) := [("Le", .le), ("Ge", .ge), ("Eq", .eq)]

def senseName : Sense → String
  | .le => "Le"
  | .ge => "Ge"
  | .eq => "Eq"

def decodeSense : Decoder Sense := choiceOf senses

def directions : List (String × Direction) :=
  [("Minimize", .minimize), ("Maximize", .maximize)]

def directionName : Direction → String
  | .minimize => "Minimize"
  | .maximize => "Maximize"

def decodeDirection : Decoder Direction := choiceOf directions

def encodeConstraint (c : Constraint Float) : Json :=
  object [("name", string c.name), ("expr", encodeExpr c.expr),
    ("sense", string (senseName c.sense)), ("rhs", real c.rhs)]

structure ConstraintFields where
  name : Option String
  expr : Option (LinearExpr Float)
  sense : Option Sense
  rhs : Option Float

def decodeConstraint : Decoder (Constraint Float) :=
  recordOf
    [field "name" stringOf fun x s => { s with name := some x },
      field "expr" decodeExpr fun x s => { s with expr := some x },
      field "sense" decodeSense fun x s => { s with sense := some x },
      field "rhs" floatOf fun x s => { s with rhs := some x }]
    (⟨none, none, none, none⟩ : ConstraintFields)
    fun s => do
      return ⟨← DecodeError.require s.name, ← DecodeError.require s.expr,
        ← DecodeError.require s.sense, ← DecodeError.require s.rhs⟩

def encodeObjective (o : Objective Float) : Json :=
  object [("sense", string (directionName o.direction)), ("expr", encodeExpr o.expr)]

def decodeObjective : Decoder (Objective Float) :=
  recordOf
    [field "sense" decodeDirection fun x s => (some x, s.2),
      field "expr" decodeExpr fun x s => (s.1, some x)]
    ((none, none) : Option Direction × Option (LinearExpr Float))
    fun s => do return ⟨← DecodeError.require s.1, ← DecodeError.require s.2⟩

def encodeProgram (p : Program Float) : Json :=
  object [("name", string p.name), ("variables", ofList encodeVariable p.vars.toList),
    ("constraints", ofList encodeConstraint p.constraints.toList),
    ("objective", encodeObjective p.objective)]

structure ProgramFields where
  name : Option String
  vars : Option (List (Variable Float))
  constraints : Option (List (Constraint Float))
  objective : Option (Objective Float)

/-- The indices in rows and objective are not compared with the number of variables. -/
def decodeProgram : Decoder (Program Float) :=
  recordOf
    [field "name" stringOf fun x s => { s with name := some x },
      field "variables" (listOf decodeVariable) fun x s => { s with vars := some x },
      field "constraints" (listOf decodeConstraint) fun x s => { s with constraints := some x },
      field "objective" decodeObjective fun x s => { s with objective := some x }]
    (⟨none, none, none, none⟩ : ProgramFields)
    fun s => do
      return ⟨← DecodeError.require s.name, (← DecodeError.require s.vars).toArray,
        (← DecodeError.require s.constraints).toArray, ← DecodeError.require s.objective⟩

end RobustMargin.Wire
