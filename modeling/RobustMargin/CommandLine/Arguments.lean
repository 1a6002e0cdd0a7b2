import RobustMargin.Activation.Reading
import RobustMargin.Inclusion
import RobustMargin.Sweep

/-! # Arguments

The words of a command line: options by their long or short name, with values beside or behind an
equals sign, and the words left over. From these the commands take their typed values. -/
namespace RobustMargin.CommandLine

/-- Whether an option takes a value, and whether it may be given more than once. -/
inductive OptionKind where
  | flag
  | single
  /-- Any word may follow, also one that starts with a hyphen, and the values of all places count. -/
  | many
  deriving DecidableEq, Repr

structure OptionSpec where
  long : String
  short : Option Char
  kind : OptionKind

inductive Token where
  | option (name value : String)
  | flag (name : String)
  | plain (word : String)
  deriving DecidableEq, Repr

/-- A word of its own that looks like an option; a hyphen alone does not. -/
def looksLikeOption (word : String) : Bool :=
  match word.toList with
  | '-' :: _ :: _ => true
  | _ => false

/-- The value of an option from what is attached to it, or from the next word. -/
def optionValue (spec : OptionSpec) (attached : Option String) (rest : List String) :
    Option (String × List String) :=
  match attached, rest with
  | some value, rest => some (value, rest)
  | none, [] => none
  | none, next :: rest =>
      if spec.kind ≠ .many ∧ looksLikeOption next then none else some (next, rest)

/-- The text before the first equals sign and the text after it, if there is one. -/
def splitEquals (chars : List Char) : List Char × Option (List Char) :=
  match chars.dropWhile (· ≠ '=') with
  | [] => (chars, none)
  | _ :: value => (chars.takeWhile (· ≠ '='), some value)

/-- The flags in a group of short names, and the value of an option at its end if it has one. -/
def shortGroup (specs : List OptionSpec) :
    List Char → List String → Option (List Token × List String)
  | [], rest => some ([], rest)
  | c :: more, rest =>
      match specs.find? fun s => s.short = some c with
      | none => none
      | some spec =>
          match spec.kind with
          | .flag => (shortGroup specs more rest).map fun p => (.flag spec.long :: p.1, p.2)
          | _ =>
              let attached := match more with
                | [] => none
                | '=' :: value => some (String.ofList value)
                | value => some (String.ofList value)
              (optionValue spec attached rest).map fun p => ([.option spec.long p.1], p.2)

def longOption (specs : List OptionSpec) (chars : List Char) (rest : List String) :
    Option (List Token × List String) :=
  let (name, attached) := splitEquals chars
  match specs.find? fun s => s.long = String.ofList name with
  | none => none
  | some spec =>
      match spec.kind, attached with
      | .flag, none => some ([.flag spec.long], rest)
      | .flag, some _ => none
      | _, _ => (optionValue spec (attached.map String.ofList) rest).map fun p =>
          ([.option spec.long p.1], p.2)

/-- The tokens of some words; nothing if a word fits no option. The first argument bounds the number
of words. -/
def tokens? (specs : List OptionSpec) : Nat → List String → Option (List Token)
  | _, [] => some []
  | 0, _ :: _ => none
  | fuel + 1, word :: rest =>
      let found := match word.toList with
        | ['-', '-'] => some (rest.map Token.plain, [])
        | '-' :: '-' :: chars => longOption specs chars rest
        | '-' :: c :: chars => shortGroup specs (c :: chars) rest
        | _ => some ([.plain word], rest)
      found.bind fun p => (tokens? specs fuel p.2).map (p.1 ++ ·)

/-- The values of an option in order. -/
def valuesOf (name : String) (ts : List Token) : List String :=
  ts.filterMap fun t => match t with
    | .option n value => if n = name then some value else none
    | _ => none

def flagCount (name : String) (ts : List Token) : Nat := ts.count (.flag name)

def plainWords (ts : List Token) : List String :=
  ts.filterMap fun t => match t with
    | .plain word => some word
    | _ => none

/-- Flags and single options are given at most once. -/
def withoutRepetition (specs : List OptionSpec) (ts : List Token) : Bool :=
  specs.all fun s => match s.kind with
    | .many => true
    | .flag => decide (flagCount s.long ts ≤ 1)
    | .single => decide ((valuesOf s.long ts).length ≤ 1)

/-- The value of an option that may be missing; nothing if it cannot be read. -/
def optional {β : Type} (read : String → Option β) (name : String) (ts : List Token) :
    Option (Option β) :=
  match valuesOf name ts with
  | [] => some none
  | value :: _ => (read value).map some

def withDefault {β : Type} (read : String → Option β) (name : String) (fallback : β)
    (ts : List Token) : Option β :=
  (optional read name ts).map (·.getD fallback)

/-- A path is any text but the empty one. -/
def readPath (text : String) : Option String := if text.isEmpty then none else some text

def readWith {ε β : Type} (parse : String → Except ε β) (text : String) : Option β :=
  (parse text).toOption

/-- Two seeds around a pair of dots, the first one less than the second. -/
def readSeeds (text : String) : Option SeedRange :=
  let rec split : List Char → List Char → Option (List Char × List Char)
    | _, [] => none
    | before, '.' :: '.' :: after => some (before.reverse, after)
    | before, c :: rest => split (c :: before) rest
  match split [] text.toList with
  | none => none
  | some (before, after) =>
      let number := fun chars => Decimal.readWord? (Text.trimBlank (String.ofList chars))
      match number before, number after with
      | some first, some stop => if first < stop then some ⟨first, stop⟩ else none
      | _, _ => none

/-- The numbers between commas. -/
def readNumbers (text : String) : Option (List Float) :=
  (text.splitOn ",").mapM Decimal.read?

structure VerifyOptions where
  path : String
  formulation : Formulation
  linearization : Linearization
  programPath : Option String
  json : Bool

structure GenerateOptions where
  inputs : Nat
  depth : Nat
  outputs : Nat
  seed : Nat
  values : Option (List Float)
  uncertainty : Float
  activation : Activation Float
  keepRecipe : Bool
  output : Option String

structure SweepOptions where
  path : String
  settings : SweepSettings Float
  json : Bool

inductive Command where
  | version
  | help
  | verify (options : VerifyOptions) (verbose : Bool)
  | generate (options : GenerateOptions)
  | sweep (options : SweepOptions)

def verboseSpec : OptionSpec := ⟨"verbose", some 'v', .flag⟩

def helpSpec : OptionSpec := ⟨"help", some 'h', .flag⟩

def versionSpec : OptionSpec := ⟨"version", some 'V', .flag⟩

def formulationSpec : OptionSpec := ⟨"formulation", some 'f', .single⟩

def activationSpec : OptionSpec := ⟨"activation", some 'a', .single⟩

def jsonSpec : OptionSpec := ⟨"json", none, .flag⟩

def depthSpec : OptionSpec := ⟨"depth", none, .single⟩

def outputsSpec : OptionSpec := ⟨"out-features", none, .single⟩

def verifySpecs : List OptionSpec :=
  [formulationSpec, ⟨"linearization", some 'l', .single⟩, ⟨"emit-lp", none, .single⟩, jsonSpec,
    verboseSpec, helpSpec]

def generateSpecs : List OptionSpec :=
  [⟨"inputs", none, .single⟩, depthSpec, outputsSpec, ⟨"seed", none, .single⟩,
    ⟨"values", none, .many⟩, ⟨"uncertainty", none, .single⟩, activationSpec,
    ⟨"recipe", none, .flag⟩, ⟨"output", some 'o', .single⟩, verboseSpec, helpSpec]

def sweepSpecs : List OptionSpec :=
  [depthSpec, ⟨"seeds", none, .single⟩, outputsSpec, activationSpec, formulationSpec, jsonSpec,
    verboseSpec, helpSpec]

/-- The values of all places where numbers are given; none if there is no such place. -/
def manyNumbers (name : String) (ts : List Token) : Option (Option (List Float)) :=
  match valuesOf name ts with
  | [] => some none
  | values => (values.mapM readNumbers).map fun lists => some lists.flatten

/-- The only word that is no option. -/
def soleWord (ts : List Token) : Option String :=
  match plainWords ts with
  | [word] => readPath word
  | _ => none

def verifyCommand (verbose : Bool) (ts : List Token) : Option Command := do
  let path ← soleWord ts
  let formulation ← withDefault (readWith Formulation.parse) "formulation" default ts
  let linearization ← withDefault (readWith Linearization.parse) "linearization" default ts
  let programPath ← optional readPath "emit-lp" ts
  let loud := verbose || decide (0 < flagCount "verbose" ts)
  return .verify
    ⟨path, formulation, linearization, programPath, decide (0 < flagCount "json" ts)⟩ loud

def generateCommand (ts : List Token) : Option Command := do
  guard (plainWords ts).isEmpty
  let inputs ← (← optional Decimal.readWord? "inputs" ts)
  let depth ← withDefault Decimal.readWord? "depth" 1 ts
  let outputs ← withDefault Decimal.readWord? "out-features" 2 ts
  let seed ← withDefault Decimal.readWord? "seed" 0 ts
  let values ← manyNumbers "values" ts
  let uncertainty ← withDefault Decimal.read? "uncertainty" 0.1 ts
  let activation ← withDefault (readWith Activation.parse) "activation" .sigmoid ts
  let output ← optional readPath "output" ts
  return .generate ⟨inputs, depth, outputs, seed, values, uncertainty, activation,
    decide (0 < flagCount "recipe" ts), output⟩

def sweepCommand (ts : List Token) : Option Command := do
  let path ← soleWord ts
  let depth ← withDefault Decimal.readWord? "depth" 1 ts
  let seeds ← withDefault readSeeds "seeds" ⟨0, 100⟩ ts
  let outputs ← optional Decimal.readWord? "out-features" ts
  let activation ← withDefault (readWith Activation.parse) "activation" .sigmoid ts
  let formulation ← withDefault (readWith Formulation.parse) "formulation" default ts
  return .sweep
    ⟨path, ⟨depth, outputs, seeds, activation, ⟨formulation, default⟩⟩,
      decide (0 < flagCount "json" ts)⟩

/-- The command of some words after its name. -/
def subcommand (specs : List OptionSpec) (make : List Token → Option Command)
    (words : List String) : Option Command := do
  let ts ← tokens? specs words.length words
  guard (withoutRepetition specs ts)
  if 0 < flagCount "help" ts then return .help
  make ts

/-- The flags before the name of a command. -/
def leading : Bool → List String → Option Command
  | _, [] => none
  | verbose, word :: rest =>
      match word with
      | "verify" => subcommand verifySpecs (verifyCommand verbose) rest
      | "generate" => subcommand generateSpecs generateCommand rest
      | "sweep" => subcommand sweepSpecs sweepCommand rest
      | "help" => some .help
      | _ =>
          match tokens? [verboseSpec, versionSpec, helpSpec] 1 [word] with
          | some ts =>
              if !(plainWords ts).isEmpty || ts.isEmpty then none
              else if 0 < flagCount "version" ts then some .version
              else if 0 < flagCount "help" ts then some .help
              else if verbose || 1 < flagCount "verbose" ts then none
              else leading true rest
          | none => none

/-- The command of a command line, or nothing if it is not well formed. -/
def parse (words : List String) : Option Command := leading false words

end RobustMargin.CommandLine
