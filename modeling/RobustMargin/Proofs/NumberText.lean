import RobustMargin.Proofs.Doubles
import RobustMargin.Decimal.Numeral

/-! # Written numbers

The text of a double in a layout is one word. Without its sign it is `inf` or a numeral, and the
numeral is a number that rounds to the double, so that different doubles have different texts. -/
namespace RobustMargin.Decimal

section Numerals

/-- The number that a numeral stands for, its sign left aside. -/
def Numeral.size (n : Numeral) : ℚ :=
  natOfDigits (n.whole ++ n.fraction) * 10 ^ (n.exponent - n.fraction.length)

/-- All characters are decimal digits. -/
def AllDigits (text : List Char) : Prop := ∀ c ∈ text, c.isDigit = true

def digitValue (c : Char) : Nat := c.toNat - '0'.toNat

theorem natOfDigits_map (text : List Char) :
    natOfDigits (text.map digitValue) = Nat.ofDigitChars 10 text 0 := by
  rw [natOfDigits, List.foldl_map, Nat.ofDigitChars_eq_foldl]
  rfl

/-- No digit follows. -/
def Stops (rest : List Char) : Prop := ∀ c ∈ rest.head?, c.isDigit = false

theorem stops_nil : Stops [] := fun _ none => by cases none

theorem stops_cons {c : Char} (other : c.isDigit = false) (rest : List Char) :
    Stops (c :: rest) := by
  intro d head
  obtain rfl := Option.some.inj head
  exact other

theorem spanDigits_append {text rest : List Char} (digits : AllDigits text) (stops : Stops rest) :
    spanDigits (text ++ rest) = (text.map digitValue, rest) := by
  induction text with
  | nil =>
      cases rest with
      | nil => rfl
      | cons c rest =>
          have stop := stops c rfl
          rw [List.nil_append, spanDigits, if_neg (Bool.eq_false_iff.mp stop)]
          rfl
  | cons c text ih =>
      have next := ih fun d member => digits d (List.mem_cons_of_mem c member)
      rw [List.cons_append, spanDigits, if_pos (digits c List.mem_cons_self), next]
      rfl

/-- The end of a numeral: nothing, or a power of ten. -/
inductive Tail : List Char → Int → Prop where
  | none : Tail [] 0
  | power (z : Int) : Tail ('e' :: (toString z).toList) z

theorem Tail.stops {tail : List Char} {z : Int} (ends : Tail tail z) : Stops tail := by
  cases ends with
  | none => exact stops_nil
  | power z => exact stops_cons rfl _

theorem allDigits_toDigits (n : Nat) : AllDigits (Nat.toDigits 10 n) :=
  fun _ member => Nat.isDigit_of_mem_toDigits (by decide) (by decide) member

theorem spanDigits_toDigits (n : Nat) :
    spanDigits (Nat.toDigits 10 n) = ((Nat.toDigits 10 n).map digitValue, []) := by
  have := spanDigits_append (allDigits_toDigits n) stops_nil
  rwa [List.append_nil] at this

theorem natOfDigits_toDigits (n : Nat) : natOfDigits ((Nat.toDigits 10 n).map digitValue) = n := by
  rw [natOfDigits_map, Nat.ofDigitChars_ten_toDigits]

theorem exists_toDigits_eq_cons (n : Nat) :
    ∃ c rest, Nat.toDigits 10 n = c :: rest ∧ c.isDigit = true := by
  obtain ⟨c, rest, shape⟩ := List.exists_cons_of_ne_nil (Nat.toDigits_ne_nil (n := n) (b := 10))
  exact ⟨c, rest, shape, allDigits_toDigits n c (shape ▸ List.mem_cons_self)⟩

theorem spanExponent_toDigits (n : Nat) :
    spanExponent (Nat.toDigits 10 n) = some ((n : Int), []) := by
  obtain ⟨c, rest, shape, isDigit⟩ := exists_toDigits_eq_cons n
  have span := spanDigits_toDigits n
  have value := natOfDigits_toDigits n
  have noSign : c ≠ '+' ∧ c ≠ '-' := by constructor <;> rintro rfl <;> cases isDigit
  rw [shape] at span value ⊢
  rw [List.map_cons] at span value
  simp [spanExponent, noSign, span, value]

theorem spanExponent_neg_toDigits (n : Nat) :
    spanExponent ('-' :: Nat.toDigits 10 n) = some (-(n : Int), []) := by
  obtain ⟨c, rest, shape, -⟩ := exists_toDigits_eq_cons n
  have span := spanDigits_toDigits n
  have value := natOfDigits_toDigits n
  rw [shape] at span value ⊢
  rw [List.map_cons] at span value
  simp [spanExponent, span, value]

theorem toString_nat_toList (n : Nat) : (toString n).toList = Nat.toDigits 10 n := by
  rw [Nat.toString_eq_ofList_toDigits, String.toList_ofList]

theorem spanExponent_toString (z : Int) : spanExponent (toString z).toList = some (z, []) := by
  cases z with
  | ofNat n =>
      change spanExponent (toString n).toList = _
      rw [toString_nat_toList, spanExponent_toDigits]
      rfl
  | negSucc n =>
      change spanExponent ("-" ++ toString (n + 1)).toList = _
      rw [String.toList_append, toString_nat_toList]
      exact spanExponent_neg_toDigits (n + 1)

/-- Digits, a point with digits, and an end. -/
theorem unsignedNumeral?_point {whole fraction tail : List Char} {z : Int}
    (wholeDigits : AllDigits whole) (fractionDigits : AllDigits fraction) (some : whole ≠ [])
    (ends : Tail tail z) : unsignedNumeral? false (whole ++ '.' :: (fraction ++ tail)) =
      .some ⟨false, whole.map digitValue, fraction.map digitValue, z⟩ := by
  have first := spanDigits_append wholeDigits
    (stops_cons rfl _ : Stops ('.' :: (fraction ++ tail)))
  have second := spanDigits_append fractionDigits ends.stops
  have notEmpty : (whole.map digitValue).isEmpty = false := by
    cases whole with
    | nil => exact absurd rfl some
    | cons c rest => rfl
  simp only [unsignedNumeral?, first, second, notEmpty]
  cases ends with
  | none => rfl
  | power z =>
      dsimp only
      rw [spanExponent_toString]
      rfl

/-- Digits and an end. -/
theorem unsignedNumeral?_whole {whole tail : List Char} {z : Int}
    (wholeDigits : AllDigits whole) (some : whole ≠ [])
    (ends : Tail tail z) : unsignedNumeral? false (whole ++ tail) =
      .some ⟨false, whole.map digitValue, [], z⟩ := by
  have first := spanDigits_append wholeDigits ends.stops
  have notEmpty : (whole.map digitValue).isEmpty = false := by
    cases whole with
    | nil => exact absurd rfl some
    | cons c rest => rfl
  simp only [unsignedNumeral?, first]
  cases ends with
  | none =>
      simp only [notEmpty]
      rfl
  | power z =>
      have exponent := spanExponent_toString z
      generalize (toString z).toList = power at exponent
      simp [exponent, some]

end Numerals

section Words

/-- The character has no place inside a word. -/
def Separates (c : Char) : Prop := c = ' ' ∨ c = '\n'

def Word (text : String) : Prop := ' ' ∉ text.toList ∧ '\n' ∉ text.toList

instance (text : String) : Decidable (Word text) := inferInstanceAs (Decidable (_ ∧ _))

theorem AllDigits.not_mem {text : List Char} (digits : AllDigits text) {c : Char}
    (separates : Separates c) : c ∉ text := by
  intro member
  have isDigit := digits c member
  rcases separates with rfl | rfl
  · cases isDigit
  · cases isDigit

theorem Tail.not_mem {tail : List Char} {z : Int} (ends : Tail tail z) {c : Char}
    (separates : Separates c) : c ∉ tail := by
  cases ends with
  | none => exact List.not_mem_nil
  | power z =>
      have digits (n : Nat) : c ∉ (toString n).toList := by
        rw [toString_nat_toList]
        exact (allDigits_toDigits n).not_mem separates
      have plain : c ≠ 'e' ∧ c ≠ '-' := by rcases separates with rfl | rfl <;> decide
      rw [List.mem_cons, not_or]
      refine ⟨plain.1, ?_⟩
      cases z with
      | ofNat n => exact digits n
      | negSucc n =>
          change c ∉ ("-" ++ toString (n + 1)).toList
          rw [String.toList_append, List.mem_append, not_or]
          exact ⟨by simpa using plain.2, digits (n + 1)⟩

/-- A text that starts with a digit, is one word, and is read as a numeral of some size. -/
structure Written (text : List Char) (y : ℚ) : Prop where
  starts : ∃ c rest, text = c :: rest ∧ c.isDigit = true
  word : ∀ c, Separates c → c ∉ text
  reads : ∃ n, unsignedNumeral? false text = some n ∧ n.size = y

theorem AllDigits.starts {text : List Char} (digits : AllDigits text) (some : text ≠ [])
    (rest : List Char) : ∃ c others, text ++ rest = c :: others ∧ c.isDigit = true := by
  obtain ⟨c, others, rfl⟩ := List.exists_cons_of_ne_nil some
  exact ⟨c, others ++ rest, rfl, digits c List.mem_cons_self⟩

theorem written_point {whole fraction tail : List Char} {z : Int} (wholeDigits : AllDigits whole)
    (fractionDigits : AllDigits fraction) (some : whole ≠ []) (ends : Tail tail z) :
    Written (whole ++ '.' :: (fraction ++ tail))
      (Nat.ofDigitChars 10 (whole ++ fraction) 0 * 10 ^ (z - fraction.length)) := by
  refine ⟨wholeDigits.starts some _, fun c separates => ?_,
    ⟨_, unsignedNumeral?_point wholeDigits fractionDigits some ends, ?_⟩⟩
  · have point : c ≠ '.' := by rcases separates with rfl | rfl <;> decide
    rw [List.mem_append, List.mem_cons, List.mem_append, not_or, not_or, not_or]
    exact ⟨wholeDigits.not_mem separates, point, fractionDigits.not_mem separates,
      ends.not_mem separates⟩
  · rw [Numeral.size, ← List.map_append, natOfDigits_map, List.length_map]

theorem written_whole {whole tail : List Char} {z : Int} (wholeDigits : AllDigits whole)
    (some : whole ≠ []) (ends : Tail tail z) :
    Written (whole ++ tail) (Nat.ofDigitChars 10 whole 0 * 10 ^ z) := by
  refine ⟨wholeDigits.starts some _, fun c separates => ?_,
    ⟨_, unsignedNumeral?_whole wholeDigits some ends, ?_⟩⟩
  · rw [List.mem_append, not_or]
    exact ⟨wholeDigits.not_mem separates, ends.not_mem separates⟩
  · rw [Numeral.size, List.append_nil, natOfDigits_map]
    simp

theorem AllDigits.append {first second : List Char} (one : AllDigits first)
    (two : AllDigits second) : AllDigits (first ++ second) := by
  intro c member
  rcases List.mem_append.mp member with inFirst | inSecond
  · exact one c inFirst
  · exact two c inSecond

theorem AllDigits.take {text : List Char} (all : AllDigits text) (count : Nat) :
    AllDigits (text.take count) :=
  fun c member => all c (List.mem_of_mem_take member)

theorem AllDigits.drop {text : List Char} (all : AllDigits text) (count : Nat) :
    AllDigits (text.drop count) :=
  fun c member => all c (List.mem_of_mem_drop member)

theorem allDigits_zeros (count : Nat) : AllDigits (Layout.zeros count) := by
  intro c member
  rw [List.eq_of_mem_replicate member]
  rfl

theorem ofDigitChars_zeros_append (count : Nat) (digits : List Char) :
    Nat.ofDigitChars 10 (Layout.zeros count ++ digits) 0 = Nat.ofDigitChars 10 digits 0 := by
  rw [Nat.ofDigitChars_append, Layout.zeros, Nat.ofDigitChars_replicate_zero, Nat.mul_zero]

theorem ofDigitChars_append_zeros (count : Nat) (digits : List Char) :
    Nat.ofDigitChars 10 (digits ++ Layout.zeros count) 0 =
      10 ^ count * Nat.ofDigitChars 10 digits 0 := by
  rw [Nat.ofDigitChars_append, Layout.zeros, Nat.ofDigitChars_replicate_zero]

theorem Written.ne_inf {text : List Char} {size : ℚ} (written : Written text size) :
    text ≠ ['i', 'n', 'f'] := by
  rintro rfl
  obtain ⟨c, rest, shape, isDigit⟩ := written.starts
  cases shape
  cases isDigit

theorem Written.unique {text : List Char} {a b : ℚ} (first : Written text a)
    (second : Written text b) : a = b := by
  obtain ⟨n, read, rfl⟩ := first.reads
  obtain ⟨m, again, rfl⟩ := second.reads
  rw [read] at again
  cases again
  rfl

end Words

namespace Layout

/-- Digits with the point at its place have the value that the place says. -/
theorem written_positionalText (keepsPoint : Bool) {digits : List Char} (all : AllDigits digits)
    (some : digits ≠ []) (place : Int) : Written (positionalText keepsPoint digits place)
      (Nat.ofDigitChars 10 digits 0 * 10 ^ (place - digits.length)) := by
  unfold positionalText
  split
  · rename_i small
    have fraction := (allDigits_zeros (-place).toNat).append all
    have written := written_point (allDigits_zeros 1) fraction (List.cons_ne_nil _ _) .none
    have power : (0 : Int) - (zeros (-place).toNat ++ digits).length = place - digits.length := by
      rw [List.length_append, zeros, List.length_replicate]
      omega
    rw [ofDigitChars_zeros_append, ofDigitChars_zeros_append, power, List.append_nil] at written
    exact written
  · rename_i large
    dsimp only
    split
    · rename_i fits
      have whole := all.append (allDigits_zeros (place.toNat - digits.length))
      have notEmpty : digits ++ zeros (place.toNat - digits.length) ≠ [] := by simp [some]
      have value : (Nat.ofDigitChars 10 (digits ++ zeros (place.toNat - digits.length)) 0 : ℚ) =
          Nat.ofDigitChars 10 digits 0 * 10 ^ (place - digits.length) := by
        have power : place - digits.length = ((place.toNat - digits.length : Nat) : Int) := by omega
        rw [ofDigitChars_append_zeros, power, zpow_natCast]
        push_cast
        ring
      cases keepsPoint with
      | true =>
          have written := written_point whole (allDigits_zeros 1) notEmpty .none
          have tenth : (0 : Int) - (zeros 1).length = -1 := rfl
          rw [ofDigitChars_append_zeros, pow_one, Nat.cast_mul, value, tenth, zpow_neg_one,
            mul_right_comm] at written
          push_cast at written
          rw [mul_inv_cancel₀ (by norm_num), one_mul] at written
          exact written
      | false =>
          have written := written_whole whole notEmpty .none
          rw [value, zpow_zero, mul_one] at written
          exact written
    · rename_i inside
      have notEmpty : digits.take place.toNat ≠ [] := by
        intro empty
        rw [List.take_eq_nil_iff] at empty
        rcases empty with zero | none
        · omega
        · exact some none
      have written := written_point (all.take place.toNat) (all.drop place.toNat) notEmpty .none
      have power : (0 : Int) - (digits.drop place.toNat).length = place - digits.length := by
        rw [List.length_drop]
        omega
      rw [List.take_append_drop, power, List.append_nil] at written
      exact written

/-- Digits with a power of ten have the value that the place says. -/
theorem written_exponentText {digits : List Char} (all : AllDigits digits) (some : digits ≠ [])
    (place : Int) : Written (exponentText digits place)
      (Nat.ofDigitChars 10 digits 0 * 10 ^ (place - digits.length)) := by
  unfold exponentText
  dsimp only
  split
  · exact absurd rfl some
  · have written := written_whole all some (.power (place - 1))
    exact written
  · rename_i digit rest more
    have written := written_point (all.take 1) (all.drop 1) (List.cons_ne_nil _ _)
      (.power (place - 1))
    have power : place - 1 - ((digit :: rest).drop 1).length = place - (digit :: rest).length := by
      rw [List.length_drop, List.length_cons]
      omega
    rw [List.take_append_drop, power] at written
    exact written

theorem written_digitsText (layout : Layout) (d : Digits) :
    Written (layout.digitsText d) d.value := by
  have all := allDigits_toDigits d.significand
  have some : Nat.toDigits 10 d.significand ≠ [] := Nat.toDigits_ne_nil
  have positional := written_positionalText layout.keepsPoint all some
    (d.power + (Nat.toDigits 10 d.significand).length)
  have scaled := written_exponentText all some (d.power + (Nat.toDigits 10 d.significand).length)
  rw [Nat.ofDigitChars_ten_toDigits, Int.add_sub_cancel] at positional scaled
  unfold digitsText
  dsimp only
  split
  · exact positional
  · exact scaled

/-- The text of a double without its sign. -/
def sizeText (layout : Layout) (x : Float) : List Char :=
  if x.isInf then ['i', 'n', 'f']
  else if x == 0.0 then if layout.keepsPoint then ['0', '.', '0'] else ['0']
  else layout.digitsText ((Dyadic.ofFloat x).shortest layout.tie)

variable {x y : Float}

theorem text_toList (layout : Layout) (number : x.isNaN = false) :
    (layout.text x).toList =
      if Double.negative x then '-' :: layout.sizeText x else layout.sizeText x := by
  unfold text
  rw [number, if_neg Bool.false_ne_true]
  exact String.toList_ofList

theorem written_zero (layout : Layout) :
    Written (if layout.keepsPoint then ['0', '.', '0'] else ['0']) 0 := by
  have zero : AllDigits ['0'] := allDigits_zeros 1
  cases layout.keepsPoint with
  | true =>
      have nothing : Nat.ofDigitChars 10 ['0', '0'] 0 = 0 := rfl
      simpa [nothing] using written_point zero zero (List.cons_ne_nil _ _) .none
  | false =>
      have nothing : Nat.ofDigitChars 10 ['0'] 0 = 0 := rfl
      simpa [nothing] using written_whole zero (List.cons_ne_nil _ _) .none

/-- The text of a finite double is a numeral: of zero for a zero, otherwise of a number that rounds
to the double. -/
theorem written_sizeText (layout : Layout) (finite : Double.Finite x) :
    ∃ size, Written (layout.sizeText x) size ∧
      if Double.IsZero x then size = 0 else (Dyadic.ofFloat x).RoundsTo size := by
  have notInfinite : x.isInf = false :=
    Bool.eq_false_iff.mpr fun infinite => finite ((Double.isInf_iff x).mp infinite).1
  unfold sizeText
  rw [notInfinite, if_neg Bool.false_ne_true]
  by_cases zero : Double.IsZero x
  · rw [if_pos ((Double.beq_zero_iff x).mpr zero)]
    exact ⟨0, layout.written_zero, by rw [if_pos zero]⟩
  · rw [if_neg ((Double.beq_zero_iff x).not.mpr zero)]
    refine ⟨_, layout.written_digitsText _, ?_⟩
    rw [if_neg zero]
    exact (Double.fits_ofFloat zero).roundsTo_shortest layout.tie

theorem sizeText_infinite (layout : Layout) (infinite : x.isInf = true) :
    layout.sizeText x = ['i', 'n', 'f'] := by
  unfold sizeText
  rw [infinite, if_pos rfl]

theorem sizeText_starts (layout : Layout) (number : x.isNaN = false) :
    ∃ c rest, layout.sizeText x = c :: rest ∧ c ≠ '-' := by
  rcases Double.isInf_or_finite number with infinite | finite
  · exact ⟨_, _, layout.sizeText_infinite infinite, by decide⟩
  · obtain ⟨_, written, -⟩ := layout.written_sizeText finite
    obtain ⟨c, rest, shape, isDigit⟩ := written.starts
    refine ⟨c, rest, shape, ?_⟩
    rintro rfl
    cases isDigit

/-- Finite doubles that one number rounds to differ in sign only. -/
theorem abs_eq_of_roundsTo (numberX : x.isNaN = false) (numberY : y.isNaN = false) {size : ℚ}
    (rounds : (Dyadic.ofFloat x).RoundsTo size) (other : (Dyadic.ofFloat y).RoundsTo size) :
    x.abs = y.abs := by
  rw [← Double.ofFloat_abs numberX] at rounds
  rw [← Double.ofFloat_abs numberY] at other
  exact Double.eq_of_bits (Dyadic.eq_of_roundsTo (Double.bits_abs_lt numberX)
    (Double.bits_abs_lt numberY) rounds other)

theorem abs_eq_of_finite (layout : Layout) (finiteX : Double.Finite x)
    (finiteY : Double.Finite y) (same : layout.sizeText x = layout.sizeText y) :
    x.abs = y.abs := by
  have numberX := Double.isNaN_of_finite finiteX
  have numberY := Double.isNaN_of_finite finiteY
  obtain ⟨size, written, value⟩ := layout.written_sizeText finiteX
  obtain ⟨other, again, otherValue⟩ := layout.written_sizeText finiteY
  rw [← same] at again
  obtain rfl := written.unique again
  -- Zero rounds to no other double, so that both are zeros or neither is.
  split at value
  · rename_i zeroX
    subst value
    split at otherValue
    · rename_i zeroY
      exact Double.abs_eq_of_fields numberX numberY (zeroX.1.trans zeroY.1.symm)
        (zeroX.2.trans zeroY.2.symm)
    · rename_i nonzero
      exact absurd (otherValue.pos (Double.fits_ofFloat nonzero).positive) (lt_irrefl 0)
  · rename_i nonzero
    split at otherValue
    · subst otherValue
      exact absurd (value.pos (Double.fits_ofFloat nonzero).positive) (lt_irrefl 0)
    · exact abs_eq_of_roundsTo numberX numberY value otherValue

/-- Numbers with the same text but for their signs are the same but for their signs. -/
theorem abs_eq_of_sizeText (layout : Layout) (numberX : x.isNaN = false)
    (numberY : y.isNaN = false) (same : layout.sizeText x = layout.sizeText y) :
    x.abs = y.abs := by
  rcases Double.isInf_or_finite numberX with infiniteX | finiteX <;>
    rcases Double.isInf_or_finite numberY with infiniteY | finiteY
  · obtain ⟨exponentX, fractionX⟩ := (Double.isInf_iff x).mp infiniteX
    obtain ⟨exponentY, fractionY⟩ := (Double.isInf_iff y).mp infiniteY
    exact Double.abs_eq_of_fields numberX numberY (exponentX.trans exponentY.symm)
      (fractionX.trans fractionY.symm)
  · obtain ⟨_, written, -⟩ := layout.written_sizeText finiteY
    rw [layout.sizeText_infinite infiniteX] at same
    exact absurd same.symm written.ne_inf
  · obtain ⟨_, written, -⟩ := layout.written_sizeText finiteX
    rw [layout.sizeText_infinite infiniteY] at same
    exact absurd same written.ne_inf
  · exact layout.abs_eq_of_finite finiteX finiteY same

/-- Different numbers have different texts: the first character tells the sign. -/
theorem eq_of_text (layout : Layout) (numberX : x.isNaN = false) (numberY : y.isNaN = false)
    (same : layout.text x = layout.text y) : x = y := by
  have chars := congrArg String.toList same
  obtain ⟨c, _, startX, plainX⟩ := layout.sizeText_starts numberX
  obtain ⟨d, _, startY, plainY⟩ := layout.sizeText_starts numberY
  rw [layout.text_toList numberX, layout.text_toList numberY] at chars
  cases signX : Double.negative x <;> cases signY : Double.negative y <;>
    rw [signX, signY] at chars
  · exact Double.eq_of_abs numberX numberY (signX.trans signY.symm)
      (layout.abs_eq_of_sizeText numberX numberY chars)
  · rw [startX] at chars
    cases chars
    exact absurd rfl plainX
  · rw [startY] at chars
    cases chars
    exact absurd rfl plainY
  · exact Double.eq_of_abs numberX numberY (signX.trans signY.symm)
      (layout.abs_eq_of_sizeText numberX numberY (List.tail_eq_of_cons_eq chars))

theorem word_sizeText (layout : Layout) (number : x.isNaN = false) {c : Char}
    (separates : Separates c) : c ∉ layout.sizeText x := by
  rcases Double.isInf_or_finite number with infinite | finite
  · rw [layout.sizeText_infinite infinite]
    rcases separates with rfl | rfl <;> decide
  · obtain ⟨_, written, -⟩ := layout.written_sizeText finite
    exact written.word c separates

end Layout

/-- A way to write doubles: different numbers differ in their words, and the words of finite ones
start with a digit after an optional minus sign. -/
structure Faithful (number : Float → String) : Prop where
  injective : ∀ {x y : Float}, x.isNaN = false → y.isNaN = false → number x = number y → x = y
  word : ∀ {x : Float}, x.isNaN = false → Word (number x)
  starts : ∀ {x : Float}, Double.Finite x → ∃ c rest, c.isDigit = true ∧
    ((number x).toList = c :: rest ∨ (number x).toList = '-' :: c :: rest)

theorem Layout.faithful (layout : Layout) : Faithful layout.text := by
  constructor
  · intro x y numberX numberY same
    exact layout.eq_of_text numberX numberY same
  · intro x number
    have plain {c : Char} (separates : Separates c) : c ∉ (layout.text x).toList := by
      have size := layout.word_sizeText number separates
      have noSign : c ≠ '-' := by rcases separates with rfl | rfl <;> decide
      rw [layout.text_toList number]
      split
      · rw [List.mem_cons, not_or]
        exact ⟨noSign, size⟩
      · exact size
    exact ⟨plain (.inl rfl), plain (.inr rfl)⟩
  · intro x finite
    obtain ⟨_, written, -⟩ := layout.written_sizeText finite
    obtain ⟨c, rest, shape, isDigit⟩ := written.starts
    rw [layout.text_toList (Double.isNaN_of_finite finite), shape]
    refine ⟨c, rest, isDigit, ?_⟩
    split
    · exact .inr rfl
    · exact .inl rfl

end RobustMargin.Decimal
