import RobustMargin.Interval
import RobustMargin.Scalar.Double

/-! # Input boxes

A nominal input vector with an uncertainty radius for each coordinate. -/
namespace RobustMargin

/-- A radius may be zero, but it is a finite number and not negative. -/
def isRadius {α : Type} [Scalar α] (x : α) : Bool := Scalar.isFinite x && !decide (x < 0)

structure InputBox (α : Type) [Scalar α] where
  values : List α
  uncertainties : List α
  length_eq : uncertainties.length = values.length
  values_ne_nil : values ≠ []
  values_finite : values.all Scalar.isFinite = true
  radii : uncertainties.all isRadius = true

namespace InputBox

variable {α : Type} [Scalar α]

/-- The first value that is not finite, as a fault. -/
def valueFault (values : List α) : InputFault α :=
  let index := values.findIdx fun v => !Scalar.isFinite v
  .valueNotFinite index (values.getD index 0)

/-- The first uncertainty that is no radius, as a fault. -/
def radiusFault (uncertainties : List α) : InputFault α :=
  let index := uncertainties.findIdx fun u => !isRadius u
  .badUncertainty index (uncertainties.getD index 0)

/-- Checks lengths first, then values, then uncertainties. -/
def ofVectors (values uncertainties : List α) : Except (Error α) (InputBox α) :=
  if lengths : uncertainties.length = values.length then
    if empty : values = [] then .error (.invalidInput .emptyInput)
    else if finite : values.all Scalar.isFinite = true then
      if radii : uncertainties.all isRadius = true then
        .ok ⟨values, uncertainties, lengths, empty, finite, radii⟩
      else .error (.invalidInput (radiusFault uncertainties))
    else .error (.invalidInput (valueFault values))
  else .error (.shapeMismatch [values.length] [uncertainties.length])

/-- The same radius on every coordinate. -/
def uniform (values : List α) (radius : α) : Except (Error α) (InputBox α) :=
  ofVectors values (List.replicate values.length radius)

def size (input : InputBox α) : Nat := input.values.length

theorem size_pos (input : InputBox α) : 0 < input.size :=
  List.length_pos_iff.mpr input.values_ne_nil

/-- One interval for each coordinate. -/
def box (input : InputBox α) : List (Interval α) :=
  input.values.zipWith Interval.around input.uncertainties

theorem box_length (input : InputBox α) : input.box.length = input.size := by
  simp [box, size, input.length_eq]

/-- The number of coordinates without uncertainty. -/
def exactCount (input : InputBox α) : Nat :=
  input.uncertainties.countP fun u => Scalar.same u 0

def isDegenerate (input : InputBox α) : Bool :=
  input.uncertainties.all fun u => Scalar.same u 0

/-- The unit square around its center. -/
def unitSquare : InputBox Float where
  values := [0.5, 0.5]
  uncertainties := [0.5, 0.5]
  length_eq := rfl
  values_ne_nil := List.cons_ne_nil _ _
  values_finite := by decide
  radii := by decide

instance : Inhabited (InputBox Float) := ⟨unitSquare⟩

end InputBox
end RobustMargin
