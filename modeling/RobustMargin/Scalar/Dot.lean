import RobustMargin.Scalar

/-! # Dot products

The products are summed in eight lanes, so that the order of the additions, and with it the rounding
of inexact scalars, is fixed. -/
namespace RobustMargin.Scalar

variable {α : Type} [Scalar α]

def laneCount : Nat := 8

/-- The lanes are paired across their middle, and the pairs are summed in order from zero. -/
def joinLanes (lanes : List α) : α :=
  let half := laneCount / 2
  ((lanes.take half).zipWith (· + ·) (lanes.drop half)).foldl (· + ·) 0

/-- Adds the products to the lanes eight at a time; what is left over is added one by one to the
joined lanes. -/
def sumLanes (lanes products : List α) : α :=
  if laneCount ≤ products.length then
    sumLanes (lanes.zipWith (· + ·) products) (products.drop laneCount)
  else products.foldl (· + ·) (joinLanes lanes)
termination_by products.length
decreasing_by simp [laneCount] at *; omega

def dot (xs ys : List α) : α :=
  sumLanes (List.replicate laneCount 0) (xs.zipWith (· * ·) ys)

theorem dot_nil (ys : List α) :
    dot [] ys = joinLanes (List.replicate laneCount (0 : α)) := by
  simp [dot, sumLanes, laneCount]

end RobustMargin.Scalar
