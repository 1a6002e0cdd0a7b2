import RobustMargin.Program.Text
import RobustMargin.Text.FileName
import RobustMargin.Verification

/-! # Reports

The listing of a solution and the program files of a verification. -/
namespace RobustMargin.Verification

variable {α : Type} [Scalar α]

/-- The text of a variable's value; the word for no number stands where there is none. -/
def valueText (values : Array α) (v : VarId) : String :=
  (values[v]?.map Scalar.text).getD "NaN"

def postLine (values : Array α) (layer : Nat) (p : VarId × Nat) : String :=
  indexedName "x" layer p.2 ++ " = " ++ valueText values p.1

/-- The bounds of a residual, with its value where it is a variable. -/
def residualLine (l : Layout) (values : Array α) (layer : Nat) (p : NeuronBounds α × Nat) :
    String :=
  let bounds := indexedName "r" layer p.2 ++ ": lower = " ++ Scalar.text p.1.residual.lo ++
    ", upper = " ++ Scalar.text p.1.residual.hi
  match l.r? layer p.2 with
  | some v => bounds ++ ", value = " ++ valueText values v
  | none => bounds

/-- The lines of a solution: the margin, the worst competitor, every post-activation, and then every
residual. -/
def reportLines (v : Verification α) (o : Optimum α) : List String :=
  let l := v.model.layout
  ["objective: " ++ Scalar.text o.objective ++
    s!" (label {v.label}, {v.formulation.name} formulation)"] ++
  (match o.competitor with
    | some k => [s!"worst competitor: {k}"]
    | none => []) ++
  l.posts.zipIdx.flatMap (fun p => p.1.zipIdx.map (postLine o.values p.2)) ++
  v.inclusion.layers.zipIdx.flatMap fun p =>
    p.1.zipIdx.map (residualLine l o.values (p.2 + 1))

def report (v : Verification α) : Except (Error α) String := do
  let o ← v.optimum
  return String.join ((v.reportLines o).map (· ++ "\n"))

/-- The text of every program with its competitor. -/
def programTexts (v : Verification Float) : List (Option Nat × String) :=
  v.model.programs.map fun p => (p.competitor, p.program.text)

/-- The files that the programs are written to: a single program goes to the path itself, programs of
competitors go beside it under names that tell the competitor. -/
def programFiles (v : Verification Float) (path : String) : List (String × String) :=
  match v.model.programs with
  | [single] => [(path, single.program.text)]
  | programs =>
      let target := Text.FileName.ofPath path
      programs.map fun p =>
        let suffix := match p.competitor with
          | some k => s!"_vs_{k}"
          | none => ""
        (target.sibling (target.stem.getD "model" ++ suffix ++ "." ++ target.ending.getD "lp"),
          p.program.text)

end RobustMargin.Verification
