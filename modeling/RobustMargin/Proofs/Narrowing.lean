import RobustMargin.Proofs.Significands

/-! # Narrowing widths

Every step from a current width towards the outputs leaves room for the widths that are still to
come. Rounding does not change this, because it moves no value across an integer. Hence no width
comes up twice, and there are as many as layers in the end. -/
namespace RobustMargin

/-- A step of the narrowing goes down, but not below the room for the other steps. -/
theorem nextWidth_bounds {outputs steps current : ℕ} (small : current ≤ 2 ^ 53)
    (room : outputs + steps < current) :
    outputs + steps ≤ nextWidth outputs (steps + 1) current ∧
      nextWidth outputs (steps + 1) current < current := by
  obtain ⟨extra, rfl⟩ := Nat.exists_eq_add_of_lt room
  have gap : wordSub (outputs + steps + extra + 1) outputs = steps + extra + 1 := by
    rw [wordSub_of_le _ _ (by omega) (small.trans_lt (by norm_num))]
    omega
  have stepsPositive : (0 : ℚ) < (steps + 1 : ℕ) := Nat.cast_pos.mpr steps.succ_pos
  have quotientLow : ((1 : ℕ) : ℚ) ≤ (steps + extra + 1 : ℕ) / (steps + 1 : ℕ) := by
    rw [le_div_iff₀ stepsPositive]
    exact_mod_cast show 1 * (steps + 1) ≤ steps + extra + 1 by omega
  have quotientHigh : ((steps + extra + 1 : ℕ) : ℚ) / (steps + 1 : ℕ) ≤ (extra + 1 : ℕ) := by
    rw [div_le_iff₀ stepsPositive]
    exact_mod_cast show steps + extra + 1 ≤ (extra + 1) * (steps + 1) by
      rw [Nat.add_mul, Nat.mul_succ]
      omega
  have stepLow := le_round53 (hasSignificand_natCast (by norm_num)) quotientLow
  have stepHigh := round53_le (hasSignificand_natCast (by omega)) quotientHigh
  rw [nextWidth, gap, roundNat_eq (by omega), roundNat_eq (by omega), roundNat_eq (by omega)]
  generalize round53 (((steps + extra + 1 : ℕ) : ℚ) / (steps + 1 : ℕ)) = step at stepLow stepHigh ⊢
  have low : ((outputs + steps : ℕ) : ℚ) ≤
      round53 ((outputs + steps + extra + 1 : ℕ) - step) := by
    refine le_round53 (hasSignificand_natCast (by omega)) ?_
    push_cast at stepHigh ⊢
    linarith
  have high : round53 ((outputs + steps + extra + 1 : ℕ) - step) ≤
      (outputs + steps + extra : ℕ) := by
    refine round53_le (hasSignificand_natCast (by omega)) ?_
    push_cast at stepLow ⊢
    linarith
  generalize round53 ((outputs + steps + extra + 1 : ℕ) - step) = width at low high ⊢
  have ceilLow : ((outputs + steps : ℕ) : ℤ) ≤ width.ceil := by
    have up := low.trans Rat.le_ceil
    exact_mod_cast up
  have ceilHigh : width.ceil ≤ ((outputs + steps + extra : ℕ) : ℤ) :=
    Rat.ceil_le_iff.mpr (by exact_mod_cast high)
  omega

/-- Above `2 ^ 53` a step may be rounded away. -/
example : nextWidth 1 (2 ^ 54 - 1) (2 ^ 54) = 2 ^ 54 := by decide +kernel

/-- There is room for all layers exactly if the quotient of the span by the depth is rounded to at
least one. -/
theorem round53_quotient_lt_one_iff {span depth : ℕ} (small : span < 2 ^ 53)
    (positive : 0 < depth) :
    round53 (roundNat span / roundNat depth) < 1 ↔ span < depth := by
  rw [roundNat_eq small.le]
  constructor
  · intro less
    by_contra enough
    have depthLow : ((1 : ℕ) : ℚ) ≤ roundNat depth :=
      le_round53 (hasSignificand_natCast (by norm_num)) (Nat.cast_le.mpr positive)
    have depthHigh : roundNat depth ≤ span :=
      round53_le (hasSignificand_natCast small.le) (Nat.cast_le.mpr (not_lt.mp enough))
    have quotient : ((1 : ℕ) : ℚ) ≤ span / roundNat depth := by
      rw [Nat.cast_one] at depthLow ⊢
      exact (one_le_div₀ (zero_lt_one.trans_le depthLow)).mpr depthHigh
    have one := le_round53 (hasSignificand_natCast (by norm_num)) quotient
    rw [Nat.cast_one] at one
    exact absurd less (not_lt.mpr one)
  · intro less
    have depthLow : ((span + 1 : ℕ) : ℚ) ≤ roundNat depth :=
      le_round53 (hasSignificand_natCast small) (Nat.cast_le.mpr less)
    have spanPositive : (0 : ℚ) < (span + 1 : ℕ) := Nat.cast_pos.mpr span.succ_pos
    have part : ((span + 1 : ℕ) : ℚ) / 2 ^ 53 ≤ 1 := by
      rw [div_le_one (by positivity)]
      exact_mod_cast small
    have quotient : (span : ℚ) / roundNat depth ≤ 1 - 1 / 2 ^ 53 :=
      calc (span : ℚ) / roundNat depth ≤ span / (span + 1 : ℕ) :=
            div_le_div_of_nonneg_left span.cast_nonneg spanPositive depthLow
        _ ≤ 1 - 1 / 2 ^ 53 := by
            rw [div_le_iff₀ spanPositive, sub_mul, one_mul, one_div_mul_eq_div]
            push_cast at part ⊢
            linarith
    exact (round53_le hasSignificand_belowOne quotient).trans_lt (by norm_num)

theorem insertWidth_above {width last : ℕ} (above : last < width) {upper : List ℕ}
    (below : ∀ w ∈ upper, width < w) :
    insertWidth width (upper ++ [last]) = upper ++ [width] ++ [last] := by
  induction upper with
  | nil => simp [insertWidth, above]
  | cons first rest ih =>
      rw [List.forall_mem_cons] at below
      rw [List.cons_append, insertWidth, if_neg (not_lt.mpr below.1.le), if_neg below.1.ne',
        ih below.2]
      rfl

/-- The widths above the outputs decrease from the inputs down to the current width, and below it
there is room for those that are still missing. -/
structure Narrowed (inputs outputs depth current : ℕ) (upper : List ℕ) : Prop where
  le_inputs : current ≤ inputs
  between : ∀ w ∈ upper, current ≤ w ∧ w < inputs
  decreasing : upper.Pairwise (· > ·)
  count : upper.length < depth
  room : outputs + (depth - (upper.length + 1)) < current

namespace Narrowed

variable {inputs outputs depth current : ℕ} {upper : List ℕ}

theorem start (positive : 0 < depth) (room : outputs + depth ≤ inputs) :
    Narrowed inputs outputs depth inputs [] where
  le_inputs := le_rfl
  between := List.forall_mem_nil _
  decreasing := .nil
  count := positive
  room := by
    rw [List.length_nil]
    omega

/-- One round finds one width, which is a new one. -/
theorem next (narrowed : Narrowed inputs outputs depth current upper) (small : inputs ≤ 2 ^ 53)
    (more : (upper ++ [outputs]).length < depth) :
    let width := nextWidth outputs (depth - (upper ++ [outputs]).length + 1) current
    width < current ∧
      insertWidth width (upper ++ [outputs]) = upper ++ [width] ++ [outputs] ∧
      Narrowed inputs outputs depth width (upper ++ [width]) := by
  rw [List.length_append, List.length_singleton] at more ⊢
  intro width
  obtain ⟨low, less⟩ := nextWidth_bounds (narrowed.le_inputs.trans small) narrowed.room
  have above : outputs < width := by
    refine lt_of_lt_of_le ?_ low
    omega
  have inserted := insertWidth_above above fun w member =>
    less.trans_le (narrowed.between w member).1
  refine ⟨less, inserted, less.le.trans narrowed.le_inputs, ?_, ?_, ?_, ?_⟩
  · rw [List.forall_mem_append]
    refine ⟨fun w member => ?_, List.forall_mem_singleton.mpr
      ⟨le_rfl, less.trans_le narrowed.le_inputs⟩⟩
    obtain ⟨lower, higher⟩ := narrowed.between w member
    exact ⟨less.le.trans lower, higher⟩
  · rw [List.pairwise_append]
    refine ⟨narrowed.decreasing, List.pairwise_singleton _ _, fun w member v isWidth => ?_⟩
    rw [List.mem_singleton.mp isWidth]
    exact less.trans_le (narrowed.between w member).1
  · rw [List.length_append, List.length_singleton]
    exact more
  · rw [List.length_append, List.length_singleton]
    refine lt_of_lt_of_le ?_ low
    omega

/-- The narrowing comes to its end with one width for each layer. -/
theorem narrow_eq (narrowed : Narrowed inputs outputs depth current upper)
    (small : inputs ≤ 2 ^ 53) :
    ∃ last all, narrow outputs depth current (upper ++ [outputs]) = .ok (all ++ [outputs]) ∧
      Narrowed inputs outputs depth last all ∧ (all ++ [outputs]).length = depth := by
  induction current using Nat.strong_induction_on generalizing upper with
  | _ current ih =>
      rw [narrow]
      split
      · rename_i more
        obtain ⟨less, inserted, narrowed⟩ := narrowed.next small more
        dsimp only
        rw [if_pos less, inserted]
        exact ih _ less narrowed
      · rename_i full
        refine ⟨current, upper, rfl, narrowed, le_antisymm ?_ (not_lt.mp full)⟩
        rw [List.length_append, List.length_singleton]
        exact narrowed.count

/-- All widths decrease strictly and lie below the inputs. -/
theorem append_outputs (narrowed : Narrowed inputs outputs depth current upper) :
    (upper ++ [outputs]).Pairwise (· > ·) ∧ ∀ w ∈ upper ++ [outputs], w < inputs := by
  have above : outputs < current := (Nat.le_add_right _ _).trans_lt narrowed.room
  constructor
  · rw [List.pairwise_append]
    refine ⟨narrowed.decreasing, List.pairwise_singleton _ _, fun w member v isLast => ?_⟩
    rw [List.mem_singleton.mp isLast]
    exact above.trans_le (narrowed.between w member).1
  · rw [List.forall_mem_append]
    exact ⟨fun w member => (narrowed.between w member).2,
      List.forall_mem_singleton.mpr (above.trans_le narrowed.le_inputs)⟩

end Narrowed

/-- The states that the search for widths passes through, each a current width with the widths found
so far. -/
inductive Visited (inputs outputs depth : ℕ) : ℕ → List ℕ → Prop
  | start : 1 < depth → 0 < outputs → outputs < inputs →
      ¬ round53 (roundNat (inputs - outputs) / roundNat depth) < 1 →
      Visited inputs outputs depth inputs [outputs]
  | next {current : ℕ} {widths : List ℕ} : Visited inputs outputs depth current widths →
      widths.length < depth →
      nextWidth outputs (depth - widths.length + 1) current < current →
      Visited inputs outputs depth (nextWidth outputs (depth - widths.length + 1) current)
        (insertWidth (nextWidth outputs (depth - widths.length + 1) current) widths)

namespace Visited

variable {inputs outputs depth current : ℕ} {widths : List ℕ}

/-- The search goes on from each state that it visits. -/
theorem layerWidths_eq (visited : Visited inputs outputs depth current widths) :
    layerWidths inputs outputs depth = narrow outputs depth current widths := by
  induction visited with
  | start deep some wider enough =>
      rw [layerWidths, if_neg (by omega), if_neg deep.ne', if_neg (not_le.mpr wider), if_neg enough]
  | next visited more less ih =>
      rw [ih, narrow, if_pos more]
      dsimp only
      rw [if_pos less]

theorem narrowed (visited : Visited inputs outputs depth current widths)
    (small : inputs ≤ 2 ^ 53) :
    ∃ upper, widths = upper ++ [outputs] ∧ Narrowed inputs outputs depth current upper := by
  induction visited with
  | start deep some wider enough =>
      have positive : 0 < depth := zero_lt_one.trans deep
      rw [round53_quotient_lt_one_iff (by omega) positive] at enough
      exact ⟨[], rfl, .start positive (by omega)⟩
  | next visited more less ih =>
      obtain ⟨upper, rfl, narrowed⟩ := ih
      obtain ⟨-, inserted, narrowed⟩ := narrowed.next small more
      exact ⟨_, inserted, narrowed⟩

end Visited

/-- Where there is room for a width per layer, the search finds them. -/
theorem exists_layerWidths {inputs outputs depth : ℕ} (small : inputs ≤ 2 ^ 53) (deep : 1 < depth)
    (some : 0 < outputs) (room : outputs + depth ≤ inputs) :
    ∃ last upper, layerWidths inputs outputs depth = .ok (upper ++ [outputs]) ∧
      Narrowed inputs outputs depth last upper ∧ (upper ++ [outputs]).length = depth := by
  have positive : 0 < depth := zero_lt_one.trans deep
  have enough : ¬ round53 (roundNat (inputs - outputs) / roundNat depth) < 1 := by
    rw [round53_quotient_lt_one_iff (by omega) positive]
    omega
  rw [(Visited.start deep some (by omega) enough).layerWidths_eq]
  exact (Narrowed.start positive room).narrow_eq small

/-- What the search for widths comes to: a refusal for one of three reasons, a single width, or widths
that narrow. -/
inductive Settled (inputs outputs depth : ℕ) : Except ParamsFault (List ℕ) → Prop
  | notPositive : depth = 0 ∨ outputs = 0 →
      Settled inputs outputs depth (.error (.notPositive depth outputs))
  | single : depth = 1 → 0 < outputs → Settled inputs outputs depth (.ok [outputs])
  | notWider : 1 < depth → inputs ≤ outputs →
      Settled inputs outputs depth (.error (.notWider inputs outputs depth))
  | tooDeep : 1 < depth → inputs < outputs + depth →
      Settled inputs outputs depth (.error (.tooDeep inputs outputs depth))
  | narrowed {last : ℕ} {upper : List ℕ} : 1 < depth → 0 < outputs → outputs + depth ≤ inputs →
      Narrowed inputs outputs depth last upper → (upper ++ [outputs]).length = depth →
      Settled inputs outputs depth (.ok (upper ++ [outputs]))

theorem layerWidths_settled (outputs depth : ℕ) {inputs : ℕ} (small : inputs ≤ 2 ^ 53) :
    Settled inputs outputs depth (layerWidths inputs outputs depth) := by
  by_cases none : depth = 0 ∨ outputs = 0
  · rw [layerWidths, if_pos none]
    exact .notPositive none
  · obtain ⟨deep, some⟩ := not_or.mp none
    by_cases single : depth = 1
    · rw [layerWidths, if_neg none, if_pos single]
      exact .single single (Nat.pos_of_ne_zero some)
    · by_cases wider : outputs < inputs
      · by_cases room : outputs + depth ≤ inputs
        · obtain ⟨last, upper, found, narrowed, length⟩ :=
            exists_layerWidths small (by omega) (by omega) room
          rw [found]
          exact .narrowed (by omega) (by omega) room narrowed length
        · have tight : round53 (roundNat (inputs - outputs) / roundNat depth) < 1 :=
            (round53_quotient_lt_one_iff (by omega) (by omega)).mpr (by omega)
          rw [layerWidths, if_neg none, if_neg single, if_neg (not_le.mpr wider), if_pos tight]
          exact .tooDeep (by omega) (by omega)
      · rw [layerWidths, if_neg none, if_neg single, if_pos (not_lt.mp wider)]
        exact .notWider (by omega) (not_lt.mp wider)

theorem suggestedOutputs_room {inputs depth : ℕ} (wider : depth < inputs) :
    0 < suggestedOutputs inputs depth ∧ suggestedOutputs inputs depth + depth ≤ inputs := by
  rw [suggestedOutputs]
  split
  · omega
  · split
    · omega
    · omega

/-- Up to widths of `2 ^ 53` the search succeeds exactly if there is room for a width per layer. The
widths then decrease strictly from below the inputs down to the outputs. In every state that it
visits the current width is above the outputs, and the next one is lower and new; so the search does
not come to a standstill. It succeeds for the outputs that a sweep suggests. -/
theorem layerWidths_narrow (inputs outputs depth : ℕ) (small : inputs ≤ 2 ^ 53) :
    ((∃ widths, layerWidths inputs outputs depth = .ok widths) ↔
        1 ≤ depth ∧ 1 ≤ outputs ∧ (depth = 1 ∨ outputs + depth ≤ inputs)) ∧
      (∀ widths, layerWidths inputs outputs depth = .ok widths →
        widths.length = depth ∧ widths.Pairwise (· > ·) ∧ widths.getLast? = some outputs ∧
          (2 ≤ depth → ∀ w ∈ widths, w < inputs)) ∧
      (∀ width, layerWidths inputs outputs depth ≠ .error (.stoppedShrinking width)) ∧
      (∀ current widths, Visited inputs outputs depth current widths → widths.length < depth →
        let next := nextWidth outputs (depth - widths.length + 1) current
        outputs < current ∧ wordSub current outputs = current - outputs ∧ next < current ∧
          (insertWidth next widths).length = widths.length + 1) ∧
      (1 ≤ depth → depth < inputs →
        ∃ widths, layerWidths inputs (suggestedOutputs inputs depth) depth = .ok widths) := by
  have accepted (outputs : ℕ) : (∃ widths, layerWidths inputs outputs depth = .ok widths) ↔
      1 ≤ depth ∧ 1 ≤ outputs ∧ (depth = 1 ∨ outputs + depth ≤ inputs) := by
    have settled := layerWidths_settled outputs depth small
    generalize layerWidths inputs outputs depth = found at settled ⊢
    cases settled <;> simp <;> omega
  refine ⟨accepted outputs, ?_, ?_, ?_, ?_⟩
  · intro widths found
    have settled := found ▸ layerWidths_settled outputs depth small
    cases settled with
    | single deep some =>
        refine ⟨deep.symm, List.pairwise_singleton _ _, rfl, ?_⟩
        omega
    | narrowed deep some room narrowed length =>
        obtain ⟨decreasing, below⟩ := narrowed.append_outputs
        exact ⟨length, decreasing, List.getLast?_concat, fun _ => below⟩
  · intro width stopped
    have settled := stopped ▸ layerWidths_settled outputs depth small
    cases settled
  · intro current widths visited more
    obtain ⟨upper, rfl, narrowed⟩ := visited.narrowed small
    obtain ⟨less, inserted, -⟩ := narrowed.next small more
    have above : outputs < current := (Nat.le_add_right _ _).trans_lt narrowed.room
    refine ⟨above, wordSub_of_le _ _ above.le ?_, less, ?_⟩
    · exact (narrowed.le_inputs.trans small).trans_lt (by norm_num)
    · rw [inserted, List.length_append, List.length_append, List.length_append]
      rfl
  · intro deep wider
    obtain ⟨some, room⟩ := suggestedOutputs_room wider
    exact (accepted _).mpr ⟨deep, some, .inr room⟩

theorem layerWidths_narrow_digits :
    784 ≤ 2 ^ 53 ∧ ∃ widths, layerWidths 784 10 4 = .ok widths ∧ widths.length = 4 ∧
      widths.Pairwise (· > ·) ∧ widths.getLast? = some 10 ∧ ∀ w ∈ widths, w < 784 := by
  have small : 784 ≤ 2 ^ 53 := by norm_num
  obtain ⟨accepted, shape, -⟩ := layerWidths_narrow 784 10 4 small
  obtain ⟨widths, found⟩ := accepted.mpr (by decide)
  obtain ⟨length, decreasing, last, below⟩ := shape widths found
  exact ⟨small, widths, found, length, decreasing, last, below (by decide)⟩

end RobustMargin
