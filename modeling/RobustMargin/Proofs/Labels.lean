import RobustMargin.Proofs.Comparisons
import RobustMargin.Proofs.Propagation

/-! # Labels

The label of an input is the place of the first greatest output. Outputs that are no numbers are
passed over wherever they stand; where no output is a number the label is the first place. -/
namespace RobustMargin

section Scan

variable {α : Type} [Scalar α]

/-- The entry of a list that a scan for the greatest number ends with, and its place. -/
inductive Chosen : List α → Nat → α → Prop where
  /-- A number that exceeds all numbers before it, and is exceeded by none after it. -/
  | number {before after : List α} {x : α} (number : Scalar.isNumber x = true)
      (above : ∀ y ∈ before, Scalar.isNumber y = true → y < x)
      (notBelow : ∀ y ∈ after, Scalar.isNumber y = true → y ≤ x) :
      Chosen (before ++ x :: after) before.length x
  /-- The first entry, if none is a number. -/
  | first {x : α} {after : List α} (none : ∀ y ∈ x :: after, Scalar.isNumber y = false) :
      Chosen (x :: after) 0 x

/-- The place of a number that no number of the list exceeds. -/
def IsLargest (xs : List α) (i : Nat) : Prop :=
  ∃ x, xs[i]? = some x ∧ Scalar.isNumber x = true ∧
    ∀ y ∈ xs, Scalar.isNumber y = true → y ≤ x

namespace Chosen

variable {xs : List α} {k : Nat} {best x : α}

theorem singleton (x : α) : Chosen [x] 0 x := by
  cases isNumber : Scalar.isNumber x with
  | true => exact @number _ _ [] [] x isNumber (List.forall_mem_nil _) (List.forall_mem_nil _)
  | false => exact first (List.forall_mem_singleton.mpr isNumber)

theorem getElem? (chosen : Chosen xs k best) : xs[k]? = some best := by
  cases chosen with
  | number => simp
  | first => rfl

theorem eq_zero (chosen : Chosen xs k best) (none : ∀ y ∈ xs, Scalar.isNumber y = false) :
    k = 0 := by
  cases chosen with
  | number isNumber =>
      cases isNumber.symm.trans (none best (List.mem_append_right _ List.mem_cons_self))
  | first => rfl

section Ordered

variable [Scalar.Ordered α]

theorem le (chosen : Chosen xs k best) {y : α} (member : y ∈ xs)
    (isNumber : Scalar.isNumber y = true) : y ≤ best := by
  cases chosen with
  | number bestNumber above notBelow =>
      rcases List.mem_append.mp member with early | late
      · exact Scalar.Ordered.le_of_lt (above y early isNumber)
      · rcases List.mem_cons.mp late with rfl | late
        · exact Scalar.Ordered.le_refl bestNumber
        · exact notBelow y late isNumber
  | first none => cases isNumber.symm.trans (none y member)

/-- An entry that does not beat the best one leaves it chosen. -/
theorem keep (chosen : Chosen xs k best)
    (worse : ¬(best < x ∨ Scalar.isNumber best = false ∧ Scalar.isNumber x = true)) :
    Chosen (xs ++ [x]) k best := by
  obtain ⟨notGreater, notFirst⟩ := not_or.mp worse
  cases chosen with
  | number bestNumber above notBelow =>
      rw [List.append_assoc, List.cons_append]
      refine .number bestNumber above (List.forall_mem_append.mpr ⟨notBelow, ?_⟩)
      exact List.forall_mem_singleton.mpr fun isNumber =>
        Scalar.Ordered.le_of_not_lt bestNumber isNumber notGreater
  | first none =>
      have noNumber : Scalar.isNumber x = false := Bool.eq_false_iff.mpr fun isNumber =>
        notFirst ⟨none best List.mem_cons_self, isNumber⟩
      exact .first (List.forall_mem_append.mpr ⟨none, List.forall_mem_singleton.mpr noNumber⟩)

/-- An entry that beats the best one, or is the first number, is chosen in its place. -/
theorem replace (chosen : Chosen xs k best)
    (better : best < x ∨ Scalar.isNumber best = false ∧ Scalar.isNumber x = true) :
    Chosen (xs ++ [x]) xs.length x := by
  have isNumber : Scalar.isNumber x = true := by
    rcases better with less | ⟨-, isNumber⟩
    · exact (Scalar.Ordered.number_of_le (Scalar.Ordered.le_of_lt less)).2
    · exact isNumber
  refine .number isNumber (fun y member yNumber => ?_) (List.forall_mem_nil _)
  have le := chosen.le member yNumber
  have bestNumber := (Scalar.Ordered.number_of_le le).2
  rcases better with less | ⟨noNumber, -⟩
  · exact Scalar.Ordered.lt_of_le_of_not_le le isNumber
      ((Scalar.Ordered.lt_iff bestNumber isNumber).mp less)
  · cases noNumber.symm.trans bestNumber

/-- The scan of the rest goes on from what is chosen of the entries seen. -/
theorem scan {seen : List α} (chosen : Chosen seen k best) (rest : List α) :
    ∃ last, Chosen (seen ++ rest) (bestFrom seen.length (k, best) rest) last := by
  induction rest generalizing seen k best with
  | nil =>
      rw [List.append_nil]
      exact ⟨best, chosen⟩
  | cons x rest ih =>
      have next : (seen ++ [x]).length = seen.length + 1 := List.length_append
      rw [bestFrom, List.append_cons seen x rest, ← next]
      split
      · rename_i better
        exact ih (chosen.replace better)
      · rename_i worse
        exact ih (chosen.keep worse)

/-- If there are any numbers, the first greatest one is chosen. -/
theorem isLeast (chosen : Chosen xs k best) (some_number : ∃ y ∈ xs, Scalar.isNumber y = true) :
    IsLeast {i | IsLargest xs i} k := by
  have largest : ∀ y ∈ xs, Scalar.isNumber y = true → y ≤ best := fun _ => chosen.le
  cases chosen with
  | number bestNumber above notBelow =>
      refine ⟨⟨best, by simp, bestNumber, largest⟩, fun i ⟨y, found, yNumber, greatest⟩ => ?_⟩
      by_contra early
      rw [List.getElem?_append_left (not_le.mp early)] at found
      have less := above y (List.mem_of_getElem? found) yNumber
      exact (Scalar.Ordered.lt_iff yNumber bestNumber).mp less
        (greatest best (by simp) bestNumber)
  | first none =>
      obtain ⟨y, member, isNumber⟩ := some_number
      cases isNumber.symm.trans (none y member)

end Ordered
end Chosen

theorem chosen_of_argmax [Scalar.Ordered α] {xs : List α} {k : Nat}
    (found : argmax xs = some k) : ∃ best, Chosen xs k best := by
  cases xs with
  | nil => cases found
  | cons x rest =>
      obtain rfl := Option.some.inj found
      exact (Chosen.singleton x).scan rest

theorem exists_argmax {xs : List α} (some_entry : xs ≠ []) : ∃ k, argmax xs = some k :=
  Option.ne_none_iff_exists'.mp (mt (argmax_eq_none_iff xs).mp some_entry)

variable [Scalar.Ordered α] {xs : List α}

theorem argmax_of_no_number (some_entry : xs ≠ [])
    (none : ∀ x ∈ xs, Scalar.isNumber x = false) : argmax xs = some 0 := by
  obtain ⟨k, found⟩ := exists_argmax some_entry
  obtain ⟨best, chosen⟩ := chosen_of_argmax found
  obtain rfl := chosen.eq_zero none
  exact found

theorem exists_argmax_isLeast (some_number : ∃ x ∈ xs, Scalar.isNumber x = true) :
    ∃ k, argmax xs = some k ∧ IsLeast {i | IsLargest xs i} k := by
  obtain ⟨x, member, isNumber⟩ := some_number
  obtain ⟨k, found⟩ := exists_argmax (List.ne_nil_of_mem member)
  obtain ⟨best, chosen⟩ := chosen_of_argmax found
  exact ⟨k, found, chosen.isLeast ⟨x, member, isNumber⟩⟩

theorem argmax_lt_length {k : Nat} (found : argmax xs = some k) : k < xs.length := by
  obtain ⟨best, chosen⟩ := chosen_of_argmax found
  exact (List.getElem?_eq_some_iff.mp chosen.getElem?).1

end Scan

section Label

variable {α : Type} [Scalar α] {input : InputBox α} {f : Activation α} {network : Network α}

theorem nominalLabel_eq {outputs : List α} {label : Nat}
    (forwarded : network.forward f input.values = .ok outputs)
    (found : argmax outputs = some label) : nominalLabel input f network = .ok label := by
  rw [nominalLabel, forwarded]
  simp only [bind, Except.bind, found]
  rfl

/-- An input of matching length has a label, the place of the output that is chosen. -/
theorem exists_nominalLabel (f : Activation α) (sizes : input.size = network.inputs) :
    ∃ outputs label, network.forward f input.values = .ok outputs ∧
      outputs.length = network.outputs ∧ argmax outputs = some label ∧
      nominalLabel input f network = .ok label := by
  have forwarded : network.forward f input.values =
      .ok (Network.run f network.layers input.values) := if_pos sizes
  have length := network.run_length f input.values
  obtain ⟨label, chosen⟩ :=
    exists_argmax (List.ne_nil_of_length_pos (length ▸ network.outputs_pos))
  exact ⟨_, label, forwarded, length, chosen, nominalLabel_eq forwarded chosen⟩

end Label

/-- The greatest entry of a list of doubles is found wherever entries that are no numbers stand: it
is the first of the numbers that are not below another one, where zeros of either sign are equal.
Without numbers it is the first entry, and only an empty list has none. So every input of matching
length has a label, which is the place of an output. -/
theorem label_is_first_greatest :
    (∀ xs : List Float, (argmax xs = none ↔ xs = []) ∧
      (xs ≠ [] → (∀ x ∈ xs, x.isNaN = true) → argmax xs = some 0) ∧
      ((∃ x ∈ xs, x.isNaN = false) → ∃ k, argmax xs = some k ∧
        IsLeast {i | ∃ x, xs[i]? = some x ∧ x.isNaN = false ∧
          ∀ y ∈ xs, y.isNaN = false → y ≤ x} k)) ∧
    ∀ (input : InputBox Float) (f : Activation Float) (network : Network Float),
      input.size = network.inputs → ∃ outputs label, network.forward f input.values = .ok outputs ∧
        argmax outputs = some label ∧ nominalLabel input f network = .ok label ∧
        label < network.outputs := by
  refine ⟨fun xs => ⟨argmax_eq_none_iff xs, fun some_entry none => ?_, fun some_number => ?_⟩,
    fun input f network sizes => ?_⟩
  · refine argmax_of_no_number some_entry fun x member => Bool.eq_false_iff.mpr ?_
    rw [ne_eq, Double.isNumber_iff, none x member]
    exact Bool.false_ne_true.symm
  · simp only [← Double.isNumber_iff] at some_number ⊢
    exact exists_argmax_isLeast some_number
  · obtain ⟨outputs, label, forwarded, length, found, labelled⟩ :=
      exists_nominalLabel f sizes
    exact ⟨outputs, label, forwarded, found, labelled, length ▸ argmax_lt_length found⟩

/-- Of two zeros the earlier one is taken, although its sign is negative. -/
theorem label_is_first_greatest_zeros :
    let mixed : List Float := [0 / 0, -1, -0.0, 0 / 0, 0.0]
    let missing : List Float := [0 / 0, 0 / 0]
    (∃ x ∈ mixed, x.isNaN = false) ∧ argmax mixed = some 2 ∧
      IsLeast {i | ∃ x, mixed[i]? = some x ∧ x.isNaN = false ∧
        ∀ y ∈ mixed, y.isNaN = false → y ≤ x} 2 ∧
      missing ≠ [] ∧ (∀ x ∈ missing, x.isNaN = true) ∧ argmax missing = some 0 ∧
      InputBox.unitSquare.size = Network.identityPair.inputs ∧
      ∃ label, nominalLabel .unitSquare .identity .identityPair = .ok label ∧ label < 2 := by
  intro mixed missing
  have some_number : ∃ x ∈ mixed, x.isNaN = false :=
    ⟨-1, .tail _ List.mem_cons_self, by decide⟩
  have none : ∀ x ∈ missing, x.isNaN = true := by decide
  obtain ⟨lists, labels⟩ := label_is_first_greatest
  obtain ⟨k, found, least⟩ := (lists mixed).2.2 some_number
  have third : argmax mixed = some 2 := by decide
  obtain rfl : k = 2 := Option.some.inj (found.symm.trans third)
  obtain ⟨-, label, -, -, labelled, inRange⟩ :=
    labels .unitSquare .identity .identityPair rfl
  exact ⟨some_number, third, least, List.cons_ne_nil _ _, none,
    (lists missing).2.1 (List.cons_ne_nil _ _) none, rfl, label, labelled, inRange⟩

end RobustMargin
