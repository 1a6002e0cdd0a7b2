import RobustMargin.Text.Blank

/-! # Formulations

How the margin of a label over its competitors is put to a linear solver. -/
namespace RobustMargin

/-- The wiring of objective and residuals. `direct` and `baked` have one program per competitor;
`auxiliary` has one program that maximizes a common lower bound of all margins. Residuals are
variables in `direct` and `auxiliary`, and constants of two rows per neuron in `baked`. -/
inductive Formulation where
  | direct
  | auxiliary
  | baked
  deriving DecidableEq, Repr

namespace Formulation

instance : Inhabited Formulation := ⟨auxiliary⟩

def all : List Formulation := [direct, auxiliary, baked]

theorem mem_all (f : Formulation) : f ∈ all := by cases f <;> decide

/-- Whether residuals are variables with values that can be read. -/
def exposesResiduals : Formulation → Bool
  | baked => false
  | _ => true

def perCompetitor : Formulation → Bool
  | auxiliary => false
  | _ => true

def name : Formulation → String
  | direct => "direct"
  | auxiliary => "auxiliary"
  | baked => "baked"

/-- The name in data files, which says how the margin is found. -/
def longName : Formulation → String
  | direct => "direct_margin_per_competitor"
  | auxiliary => "auxiliary_max_margin_variable"
  | baked => "residual_baked_into_constraint"

def aliasName : Formulation → String
  | direct => "baseline"
  | auxiliary => "adapted"
  | baked => "original"

/-- Reads any of the names of a formulation, after normalization as an option. -/
def parse (text : String) : Except String Formulation :=
  let word := Text.optionWord text
  match all.find? fun f => word = f.name || word = f.aliasName || word = f.longName with
  | some f => .ok f
  | none => .error s!"unknown formulation '{word}'"

end Formulation
end RobustMargin
