import RobustMargin.Network
import RobustMargin.Network.KeyStream

/-! # Generated networks

Networks with entries drawn from a source of bounded random numbers. The entries of a layer lie
between the inverse square root of its number of inputs and the negative of it. -/
namespace RobustMargin

/-- A source of numbers between a bound and its negative. -/
structure Source (α σ : Type) where
  draw : α → σ → α × σ

namespace Source

variable {α σ : Type} [Scalar α]

def drawMany (source : Source α σ) (bound : α) : Nat → σ → List α × σ
  | 0, state => ([], state)
  | count + 1, state =>
      let (x, next) := source.draw bound state
      let (rest, last) := drawMany source bound count next
      (x :: rest, last)

omit [Scalar α] in
theorem drawMany_length (source : Source α σ) (bound : α) (count : Nat) (state : σ) :
    (source.drawMany bound count state).1.length = count := by
  induction count generalizing state with
  | zero => rfl
  | succ count ih => simp [drawMany, ih]

/-- The inverse square root of the number of inputs. -/
def bound (inputs : Nat) : α := 1 / Scalar.sqrt (Scalar.ofNat inputs)

/-- The weights of a layer row by row, and then its bias. -/
def drawLayer (source : Source α σ) (inputs outputs : Nat) (state : σ) :
    (Matrix α × List α) × σ :=
  let entries := source.drawMany (bound inputs) (outputs * inputs) state
  let bias := source.drawMany (bound inputs) outputs entries.2
  let weight : Matrix α :=
    ⟨inputs, Matrix.cutRows inputs outputs entries.1,
      Matrix.cutRows_rectangular inputs outputs entries.1 (drawMany_length source _ _ _)⟩
  ((weight, bias.1), bias.2)

/-- Layers of the given widths, each drawn after the one before it. -/
def drawLayers (source : Source α σ) :
    Nat → List Nat → σ → Except (Error α) (List (Layer α))
  | _, [], _ => .ok []
  | inputs, outputs :: widths, state => do
      let drawn := source.drawLayer inputs outputs state
      let layer ← Layer.ofParts drawn.1.1 drawn.1.2
      let rest ← drawLayers source outputs widths drawn.2
      return layer :: rest

/-- A network from a number of inputs through the given widths. -/
def drawNetwork (source : Source α σ) (inputs : Nat) (widths : List Nat) (state : σ) :
    Except (Error α) (Network α) :=
  if inputs = 0 ∨ widths = [] ∨ 0 ∈ widths then
    .error (.invalidParams (.cannotGenerate inputs widths))
  else do
    let layers ← source.drawLayers inputs widths state
    Network.ofLayers layers

end Source

/-- The key stream as a source of doubles. -/
def keyStreamSource : Source Float KeyStream := ⟨KeyStream.uniform⟩

/-- The network of a seed. -/
def Network.generate (inputs : Nat) (widths : List Nat) (seed : Nat) :
    Except (Error Float) (Network Float) :=
  keyStreamSource.drawNetwork inputs widths (KeyStream.ofSeed seed)

end RobustMargin
