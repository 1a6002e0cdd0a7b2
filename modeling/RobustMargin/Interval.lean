import RobustMargin.Error

/-! # Intervals

Closed intervals given by their endpoints, with the operations that bound an expression over boxes.
Each operation encloses every pointwise result when its operands are ordered. Operands are taken as
independent, so `a - a` is not the point zero. -/
namespace RobustMargin

structure Interval (α : Type) where
  lo : α
  hi : α
  deriving DecidableEq, Repr

namespace Interval

variable {α : Type} [Scalar α]

/-- The values between the endpoints, both included. -/
instance : Membership α (Interval α) := ⟨fun i x => i.lo ≤ x ∧ x ≤ i.hi⟩

theorem mem_def (x : α) (i : Interval α) : x ∈ i ↔ i.lo ≤ x ∧ x ≤ i.hi := Iff.rfl

/-- The endpoints are in order, so that neither is missing. -/
def Ordered (i : Interval α) : Prop := i.lo ≤ i.hi

instance (i : Interval α) : Decidable i.Ordered := inferInstanceAs (Decidable (i.lo ≤ i.hi))

/-- An interval from endpoints that may be reversed or may not be numbers. -/
def ofEndpoints (lo hi : α) : Except (Error α) (Interval α) :=
  if !Scalar.isNumber lo || !Scalar.isNumber hi then
    .error (.invalidInput (.unorderedEndpoints lo hi))
  else if hi < lo then .error (.invalidInput (.reversedEndpoints lo hi))
  else .ok ⟨lo, hi⟩

def point (x : α) : Interval α := ⟨x, x⟩

/-- The interval of a radius around a center. -/
def around (center radius : α) : Interval α := ⟨center - radius, center + radius⟩

/-- The middle, found from the halves so that large endpoints do not overflow. -/
def midpoint (i : Interval α) : α := i.lo / Scalar.two + i.hi / Scalar.two

def width (i : Interval α) : α := i.hi - i.lo

def radius (i : Interval α) : α := i.width / Scalar.two

def contains (i : Interval α) (x : α) : Bool := decide (i.lo ≤ x) && decide (x ≤ i.hi)

theorem contains_iff (i : Interval α) (x : α) : i.contains x = true ↔ x ∈ i := by
  simp [contains, mem_def]

/-- Whether the second interval lies inside the first. -/
def encloses (outer inner : Interval α) : Bool :=
  decide (outer.lo ≤ inner.lo) && decide (inner.hi ≤ outer.hi)

def isPoint (i : Interval α) : Bool := Scalar.same i.lo i.hi

def isUnbounded (i : Interval α) : Bool := Scalar.isInfinite i.lo || Scalar.isInfinite i.hi

def same (i j : Interval α) : Bool := Scalar.same i.lo j.lo && Scalar.same i.hi j.hi

def add (i j : Interval α) : Interval α := ⟨i.lo + j.lo, i.hi + j.hi⟩

def sub (i j : Interval α) : Interval α := ⟨i.lo - j.hi, i.hi - j.lo⟩

def neg (i : Interval α) : Interval α := ⟨-i.hi, -i.lo⟩

def shift (i : Interval α) (offset : α) : Interval α := ⟨i.lo + offset, i.hi + offset⟩

/-- The multiples by a factor; a negative factor exchanges the endpoints, and zero gives the point
zero also where an endpoint is infinite. -/
def scale (i : Interval α) (factor : α) : Interval α :=
  if Scalar.same factor 0 then point 0
  else if 0 < factor then ⟨factor * i.lo, factor * i.hi⟩
  else ⟨factor * i.hi, factor * i.lo⟩

/-- The product in which zero absorbs everything. -/
def absorbingProduct (x y : α) : α :=
  if Scalar.same x 0 || Scalar.same y 0 then 0 else x * y

/-- The products of the endpoints, among which are the extreme products of the intervals. -/
def cornerProducts (i j : Interval α) : List α :=
  [absorbingProduct i.lo j.lo, absorbingProduct i.lo j.hi,
    absorbingProduct i.hi j.lo, absorbingProduct i.hi j.hi]

def mul (i j : Interval α) : Interval α :=
  ⟨Scalar.least (cornerProducts i j), Scalar.greatest (cornerProducts i j)⟩

/-- The common values, if there are any. -/
def intersect (i j : Interval α) : Option (Interval α) :=
  let lo := Scalar.greater i.lo j.lo
  let hi := Scalar.lesser i.hi j.hi
  if lo ≤ hi then some ⟨lo, hi⟩ else none

/-- The least interval that encloses both. -/
def hull (i j : Interval α) : Interval α :=
  ⟨Scalar.lesser i.lo j.lo, Scalar.greater i.hi j.hi⟩

def text (i : Interval α) : String := endpointsText i.lo i.hi

end Interval
end RobustMargin
