import RobustMargin.Proofs.DoubleOrder
import RobustMargin.Proofs.SolverRuns

/-! # Comparisons

Where comparisons order the numbers of a scalar type, the optimum that a run keeps is the first of
those with the least objective. -/
namespace RobustMargin

namespace Scalar

/-- Numbers are compared as in a total order, and nothing is compared with what is no number. -/
class Ordered (α : Type) [Scalar α] : Prop where
  number_of_le {x y : α} : x ≤ y → isNumber x = true ∧ isNumber y = true
  le_trans {x y z : α} : x ≤ y → y ≤ z → x ≤ z
  lt_iff {x y : α} : isNumber x = true → isNumber y = true → (x < y ↔ ¬ y ≤ x)
  le_of_lt {x y : α} : x < y → x ≤ y
  totalLE_trans (x y z : α) : totalLE x y = true → totalLE y z = true → totalLE x z = true
  totalLE_total (x y : α) : (totalLE x y || totalLE y x) = true

instance : Ordered ℝ where
  number_of_le := fun _ => ⟨isNumber_real _, isNumber_real _⟩
  le_trans := fun first second => first.trans second
  lt_iff := fun _ _ => not_le.symm
  le_of_lt := fun less => less.le
  totalLE_trans := fun _ _ _ first second =>
    decide_eq_true ((of_decide_eq_true first).trans (of_decide_eq_true second))
  totalLE_total := fun x y => (Bool.or_eq_true _ _).mpr
    ((le_total x y).imp (fun le => decide_eq_true le) fun le => decide_eq_true le)

open Double in
instance : Ordered Float where
  number_of_le := fun le =>
    have numbers := le_iff_rank.mp le
    ⟨(isNumber_iff _).mpr numbers.1, (isNumber_iff _).mpr numbers.2.1⟩
  le_trans := fun first second =>
    have lower := le_iff_rank.mp first
    have upper := le_iff_rank.mp second
    le_iff_rank.mpr ⟨lower.1, upper.2.1, lower.2.2.trans upper.2.2⟩
  lt_iff := fun first second => by
    have numberX := (isNumber_iff _).mp first
    have numberY := (isNumber_iff _).mp second
    simp only [lt_iff_rank, le_iff_rank, numberX, numberY, true_and, not_le]
  le_of_lt := Double.le_of_lt
  totalLE_trans := fun _ _ _ first second =>
    decide_eq_true (Int.le_trans (of_decide_eq_true first) (of_decide_eq_true second))
  totalLE_total := fun x y => (Bool.or_eq_true _ _).mpr
    ((Int.le_total (orderKey x) (orderKey y)).imp (fun le => decide_eq_true le)
      fun le => decide_eq_true le)

namespace Ordered

variable {α : Type} [Scalar α] [Ordered α] {x y z : α}

omit [Ordered α] in
theorem le_refl (number : isNumber x = true) : x ≤ x := of_decide_eq_true number

theorem le_of_not_lt (first : isNumber x = true) (second : isNumber y = true) (not : ¬ x < y) :
    y ≤ x := not_not.mp fun above => not ((lt_iff first second).mpr above)

theorem lt_of_lt_of_le (less : x < y) (le : y ≤ z) : x < z := by
  have numbers := number_of_le (le_of_lt less)
  have below := (lt_iff numbers.1 numbers.2).mp less
  exact (lt_iff numbers.1 (number_of_le le).2).mpr fun back => below (le_trans le back)

/-- What lies above a limit lies above everything that does not. -/
theorem lt_of_le_of_not_le (low : x ≤ y) (number : isNumber z = true) (high : ¬ z ≤ y) : x < z :=
  (lt_iff (number_of_le low).1 number).mpr fun back => high (le_trans back low)

end Ordered

/-- An entry of a list with the least key; those before it have greater ones. -/
def FirstLeast {α β : Type} [Scalar α] (key : β → α) (xs : List β) (x : β) : Prop :=
  ∃ before after, xs = before ++ x :: after ∧ (∀ y ∈ before, key x < key y) ∧
    ∀ y ∈ after, key x ≤ key y

end Scalar

namespace Solve

variable {α : Type} [Scalar α] [Scalar.Ordered α]

/-- What is kept is the first of the solutions with the least objective. -/
theorem keepAll_first (pairs : List (MarginProgram α × Solution α))
    (numbers : ∀ q ∈ pairs, Scalar.isNumber q.2.objective = true) {o : Optimum α}
    (kept : keepAll none pairs = some o) :
    ∃ pair, o = optimumOf pair.1 pair.2 ∧ Scalar.FirstLeast (·.2.objective) pairs pair := by
  induction pairs using List.reverseRecOn generalizing o with
  | nil => cases kept
  | append_singleton pairs new ih =>
      rw [keepAll, List.foldl_append] at kept
      obtain rfl : keepLesser (keepAll none pairs) (optimumOf new.1 new.2) = o :=
        Option.some.inj kept
      have newNumber := numbers new (List.mem_append_right _ List.mem_cons_self)
      cases earlier : keepAll none pairs with
      | none =>
          have isEmpty : pairs = [] := by
            by_contra notEmpty
            have isSome := keepAll_isSome none pairs (.inr notEmpty)
            rw [earlier] at isSome
            cases isSome
          subst isEmpty
          exact ⟨new, rfl, [], [], rfl, by simp, by simp⟩
      | some old =>
          obtain ⟨pair, rfl, before, after, rfl, above, notBelow⟩ :=
            ih (fun q member => numbers q (List.mem_append_left _ member)) earlier
          have oldNumber := numbers pair (by simp)
          have least : ∀ q ∈ before ++ pair :: after, pair.2.objective ≤ q.2.objective := by
            intro q member
            rcases List.mem_append.mp member with early | late
            · exact Scalar.Ordered.le_of_lt (above q early)
            · rcases List.mem_cons.mp late with rfl | late
              · exact Scalar.Ordered.le_refl oldNumber
              · exact notBelow q late
          rw [keepLesser]
          split
          · rename_i less
            refine ⟨new, rfl, before ++ pair :: after, [], by simp, ?_, by simp⟩
            intro q member
            exact Scalar.Ordered.lt_of_lt_of_le less (least q member)
          · rename_i notLess
            refine ⟨pair, rfl, before, after ++ [new], by simp, above, ?_⟩
            intro q member
            rcases List.mem_append.mp member with late | isNew
            · exact notBelow q late
            · obtain rfl := List.mem_singleton.mp isNew
              exact Scalar.Ordered.le_of_not_lt newNumber oldNumber notLess

/-- If there are any solutions, the first with the least objective is kept. -/
theorem exists_keepAll_first {pairs : List (MarginProgram α × Solution α)} (some_pair : pairs ≠ [])
    (numbers : ∀ q ∈ pairs, Scalar.isNumber q.2.objective = true) :
    ∃ pair, keepAll none pairs = some (optimumOf pair.1 pair.2) ∧
      Scalar.FirstLeast (·.2.objective) pairs pair := by
  obtain ⟨o, kept⟩ := Option.isSome_iff_exists.mp (keepAll_isSome none pairs (.inr some_pair))
  obtain ⟨pair, rfl, first⟩ := keepAll_first pairs numbers kept
  exact ⟨pair, kept, first⟩

end Solve
end RobustMargin
