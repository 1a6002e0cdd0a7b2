import RobustMargin.CommandLine.Arguments
import RobustMargin.Host
import RobustMargin.InstanceFile
import RobustMargin.Query
import RobustMargin.Solver.Simplex
import RobustMargin.Verification.Report

/-! # Commands

What each command reads, computes, writes and prints. The exit code is zero where a model was
solved, one after an error in the input or the files, two where there is no optimum or the command
line is not well formed, and 101 where a solve does not return. -/
namespace RobustMargin.CommandLine

/-- The texts for the two output streams and the exit code. -/
structure Output where
  code : Nat
  out : String
  err : String
  deriving DecidableEq, Repr

abbrev Outcome := Except Reasons Output

def solvedCode : Nat := 0

def errorCode : Nat := 1

def unsolvedCode : Nat := 2

def endedCode : Nat := 101

def linesText (lines : List String) : String := String.join (lines.map (· ++ "\n"))

def printed (code : Nat) (lines : List String) : Output := ⟨code, linesText lines, ""⟩

/-- The end of the program where a solve does not return. -/
def ended : Output := ⟨endedCode, "", "index out of bounds\n"⟩

def versionText : String := "lincert 0.1.0"

def usageLines : List String :=
  ["Usage: lincert [-v] <verify|generate|sweep> [options]",
    "  verify <instance.json> [-f direct|auxiliary|baked] [-l post|pre] [--emit-lp <file>] [--json]",
    "  generate --inputs <n> [--depth <n>] [--out-features <n>] [--seed <n>] [--values <x,..>]",
    "    [--uncertainty <x>] [-a <activation>] [--recipe] [-o <file>]",
    "  sweep <samples.json> [--depth <n>] [--seeds <from>..<to>] [--out-features <n>]",
    "    [-a <activation>] [-f direct|auxiliary|baked] [--json]"]

def decodeReason : Json.DecodeError → String
  | .unfit => "not of the expected form"
  | .rejected cause => cause.message

/-- Decodes the text of a file that was read for a purpose. -/
def decodeFile {β : Type} (decode : Json.Decoder β) (purpose path : String)
    (content : Except String String) : Except Reasons β := do
  let text ← because s!"failed to read {purpose} {path}" (content.mapError fun e => [e])
  because s!"failed to parse {purpose} {path}"
    ((Json.decodeText decode text).mapError fun e => [decodeReason e])

section Hosted

variable {m : Type → Type} [Monad m]

/-- Writes files in order and stops at the first that fails. -/
def writeFiles (host : Host m) : List (String × String) → m (Except String Unit)
  | [] => pure (.ok ())
  | (path, text) :: rest => do
      match ← host.writeFile path text with
      | .ok () => writeFiles host rest
      | .error e => return .error e

/-- Writes the programs of a verification where that is asked for; returns the paths written. -/
def emitPrograms (host : Host m) (v : Verification Float) :
    Option String → m (Except Reasons (List String))
  | none => pure (.ok [])
  | some path => do
      let files := v.programFiles path
      match ← writeFiles host files with
      | .ok () => return .ok (files.map (·.1))
      | .error e =>
          return because s!"failed to write {path}" (.error (Reasons.ofError (.io e)))

end Hosted

/-- The report of a solve as fields. -/
def verifyReport (o : VerifyOptions) (solved : Solved Float Unit) (worst : Option Nat)
    (files : List String) (elapsed : Float) : Json :=
  .object ([("instance", .string o.path), ("label", .ofNat solved.verification.label),
      ("formulation", Wire.encodeFormulation o.formulation),
      ("linearization", Wire.encodeLinearization o.linearization),
      ("status", Wire.encodeStatus solved.status),
      ("verdict", Wire.encodeVerdict (.ofStatus solved.status)),
      ("worst_competitor", .ofOption .ofNat worst)] ++
    (if files.isEmpty then [] else [("lp_files", .ofList .string files)]) ++
    [("elapsed_ms", .real elapsed)])

/-- The report of a solve as text, with the whole solution where that is asked for. -/
def verifyText (solved : Solved Float Unit) (files : List String) (verbose : Bool) :
    Except Reasons String := do
  let objective := match solved.status with
    | .optimal value => ["objective: " ++ Scalar.text value]
    | .failed _ => []
  let solution ←
    if verbose && solved.status.isOptimal then liftError solved.verification.report else pure ""
  return linesText ([s!"label: {solved.verification.label}"] ++ objective ++
    ["verdict: " ++ (Verdict.ofStatus solved.status).text] ++ files.map ("wrote " ++ ·)) ++ solution

def exitCode (status : Status Float) : Nat :=
  if status.isOptimal then solvedCode else unsolvedCode

/-- What is printed of a solve that returned. -/
def verifyOutput (o : VerifyOptions) (verbose : Bool) (files : List String) (elapsed : Float)
    (outcome : Except (Error Float) (Solved Float Unit)) : Outcome := do
  let solved ← liftError outcome
  let worst ← liftError solved.worstCompetitor
  let out ←
    if o.json then pure (linesText [(verifyReport o solved worst files elapsed).pretty])
    else verifyText solved files verbose
  return ⟨exitCode solved.status, out, ""⟩

section Hosted

variable {m : Type → Type} [Monad m]

/-- The query of an instance file, propagated and built. -/
def openInstance (o : VerifyOptions) (content : Except String String) :
    Except Reasons (Verification Float) := do
  let file ← decodeFile Wire.decodeInstance "instance" o.path content
  let query ← file.toQuery
  let inclusion ← because "failed to propagate the input box"
    (liftError (query.inclusion ⟨o.formulation, o.linearization⟩))
  because "failed to build the robustness model"
    (liftError (Verification.build inclusion o.formulation))

def runVerify (host : Host m) (o : VerifyOptions) (verbose : Bool) : m Outcome := do
  let started ← host.milliseconds
  match openInstance o (← host.readFile o.path) with
  | .error reasons => return .error reasons
  | .ok v =>
      match ← emitPrograms host v o.programPath with
      | .error reasons => return .error reasons
      | .ok files =>
          match v.solve Simplex.solver () with
          | none => return .ok ended
          | some outcome =>
              let elapsed := (← host.milliseconds) - started
              return verifyOutput o verbose files elapsed outcome

/-- The instance file that is asked for; a file that could not be opened again is refused. -/
def generateFile (o : GenerateOptions) : Except Reasons InstanceFile := do
  if o.inputs = 0 then throw ["--inputs must be positive"]
  let values := o.values.getD (List.replicate o.inputs 0.0)
  if values.length ≠ o.inputs then
    throw [s!"--values has {values.length} entries, expected {o.inputs}"]
  let recipe : Recipe := ⟨o.depth, o.outputs, o.seed⟩
  let network ← recipe.generate o.inputs
  let file : InstanceFile :=
    { values
      uncertainties := List.replicate o.inputs o.uncertainty
      activation := o.activation
      network := if o.keepRecipe then none else some network
      recipe := if o.keepRecipe then some recipe else none }
  let _ ← file.toQuery
  return file

def runGenerate (host : Host m) (o : GenerateOptions) : m Outcome := do
  match generateFile o with
  | .error reasons => return .error reasons
  | .ok file =>
      match o.output with
      | none => return .ok ⟨solvedCode, file.text, ""⟩
      | some path =>
          match ← host.writeFile path file.text with
          | .error e => return because s!"failed to write instance {path}" (.error [e])
          | .ok () => return .ok ⟨solvedCode, "", s!"wrote {path}\n"⟩

def foundText (found : Solvable Float) : String :=
  s!"sample {found.sample} seed {found.seed}: margin " ++ Scalar.text found.margin

def sweepLine (o : SweepOptions) (samples : Nat) : Option (Solvable Float) → String
  | some found => foundText found
  | none =>
      s!"no solvable instance among {samples} samples and seeds " ++
        s!"{o.settings.seeds.first}..{o.settings.seeds.stop}"

/-- The samples of a sweep, of which there must be one. -/
def readSamples (path : String) (content : Except String String) :
    Except Reasons (List (InputBox Float)) := do
  let samples ← decodeFile (Json.listOf Wire.decodeBox) "samples" path content
  if samples.isEmpty then throw [s!"{path} contains no samples"]
  return samples

def runSweep (host : Host m) (o : SweepOptions) : m Outcome := do
  let content ← host.readFile o.path
  return do
    let samples ← readSamples o.path content
    match (Sweep.findSolvable o.settings Simplex.solver samples ()).1 with
    | none => return ended
    | some outcome =>
        let found ← liftError outcome
        let line :=
          if o.json then (Json.ofOption Wire.encodeSolvable found).pretty
          else sweepLine o samples.length found
        return printed (if found.isSome then solvedCode else unsolvedCode) [line]

def runCommand (host : Host m) : Command → m Outcome
  | .version => pure (.ok (printed solvedCode [versionText]))
  | .help => pure (.ok (printed solvedCode usageLines))
  | .verify options verbose => runVerify host options verbose
  | .generate options => runGenerate host options
  | .sweep options => runSweep host options

def ofOutcome : Outcome → Output
  | .ok output => output
  | .error reasons => ⟨errorCode, "", "error: " ++ reasons.text ++ "\n"⟩

/-- Runs a whole command line. -/
def run (host : Host m) (words : List String) : m Output := do
  match parse words with
  | none => return ⟨unsolvedCode, "", linesText usageLines⟩
  | some command => return ofOutcome (← runCommand host command)

end Hosted
end RobustMargin.CommandLine
