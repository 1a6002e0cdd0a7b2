import RobustMargin.Json.Parser
import RobustMargin.Json.Printer
import RobustMargin.Proofs.NumberText

/-! # JSON tokens

Strings and numbers as they are printed are read again, whatever follows them as long as it does not
go on with the number. -/
namespace RobustMargin.Json

open Decimal

section Blanks

theorem skipBlank_append {blanks : List Char} (blank : ∀ c ∈ blanks, isBlank c = true)
    (rest : List Char) : skipBlank (blanks ++ rest) = skipBlank rest := by
  exact List.dropWhile_append_of_pos blank

theorem skipBlank_cons {c : Char} (plain : isBlank c = false) (rest : List Char) :
    skipBlank (c :: rest) = c :: rest :=
  List.dropWhile_cons_of_neg (Bool.eq_false_iff.mp plain)

theorem skipBlank_eq_nil {blanks : List Char} (blank : ∀ c ∈ blanks, isBlank c = true) :
    skipBlank blanks = [] := by
  have all := skipBlank_append blank []
  rwa [List.append_nil] at all

end Blanks

section Numbers

theorem spanDigits_append_rest (text : List Char) {rest : List Char} (stops : Stops rest) :
    spanDigits (text ++ rest) = ((spanDigits text).1, (spanDigits text).2 ++ rest) := by
  induction text with
  | nil =>
      have none : AllDigits [] := nofun
      exact spanDigits_append none stops
  | cons c text ih =>
      rw [List.cons_append, spanDigits, spanDigits, ih]
      split <;> rfl

/-- What may stand after a number. -/
structure Ends (rest : List Char) : Prop where
  digit : Stops rest
  point : ∀ after, rest ≠ '.' :: after
  power : ∀ mark after, rest = mark :: after → ¬(mark = 'e' ∨ mark = 'E')

theorem ends_nil : Ends [] :=
  ⟨stops_nil, nofun, nofun⟩

theorem ends_cons {c : Char} (digit : c.isDigit = false) (point : c ≠ '.')
    (power : ¬(c = 'e' ∨ c = 'E')) (rest : List Char) : Ends (c :: rest) := by
  refine ⟨stops_cons digit rest, fun after shape => ?_, fun mark after shape => ?_⟩
  · cases shape
    exact point rfl
  · cases shape
    exact power

theorem ends_blank_append {blanks : List Char} (blank : ∀ c ∈ blanks, isBlank c = true)
    {rest : List Char} (ends : Ends rest) : Ends (blanks ++ rest) := by
  cases blanks with
  | nil => exact ends
  | cons c blanks =>
      have isBlank := blank c List.mem_cons_self
      simp only [Json.isBlank, Bool.or_eq_true, decide_eq_true_eq] at isBlank
      rcases isBlank with ((rfl | rfl) | rfl) | rfl <;>
        exact ends_cons rfl (by decide) (by decide) _

/-- The digits after a point, and what follows them. -/
def fraction? : List Char → Option (List Nat × List Char)
  | '.' :: rest =>
      let (digits, after) := spanDigits rest
      if digits = [] then none else some (digits, after)
  | rest => some ([], rest)

theorem fraction?_append {text rest : List Char} (ends : Ends rest) {digits : List Nat}
    {after : List Char} (reads : fraction? text = some (digits, after)) :
    fraction? (text ++ rest) = some (digits, after ++ rest) := by
  unfold fraction? at reads
  split at reads
  · rename_i more
    rw [List.cons_append, fraction?, spanDigits_append_rest more ends.digit]
    dsimp only at reads ⊢
    split at reads
    · cases reads
    · rename_i some
      cases reads
      rw [if_neg some]
  · rename_i other
    cases reads
    unfold fraction?
    split
    · rename_i more shape
      cases text with
      | nil => exact absurd shape (ends.point more)
      | cons c text =>
          cases shape
          exact absurd rfl (other text)
    · rfl

/-- The power of ten that may end a number, and its value with or without one. -/
def finish (read : Int → Json) (plain : Json) : List Char → Option (Json × List Char)
  | mark :: rest =>
      if mark = 'e' ∨ mark = 'E' then (spanExponent rest).map fun p => (read p.1, p.2)
      else some (plain, mark :: rest)
  | [] => some (plain, [])

/-- The sign of a power of ten, and what follows it. -/
def powerSign : List Char → Bool × List Char
  | '+' :: rest => (false, rest)
  | '-' :: rest => (true, rest)
  | rest => (false, rest)

theorem powerSign_append {text : List Char} (some : text ≠ []) (rest : List Char) :
    powerSign (text ++ rest) = ((powerSign text).1, (powerSign text).2 ++ rest) := by
  cases text with
  | nil => exact absurd rfl some
  | cons c text =>
      by_cases plus : c = '+'
      · subst plus
        rfl
      · by_cases minus : c = '-'
        · subst minus
          rfl
        · simp [powerSign, plus, minus]

theorem spanExponent_eq (text : List Char) :
    spanExponent text = match spanDigits (powerSign text).2 with
      | ([], _) => none
      | (digits, rest) =>
          let size : Int := natOfDigits digits
          some (if (powerSign text).1 then -size else size, rest) :=
  rfl

theorem spanExponent_append {text rest : List Char} (stops : Stops rest) {z : Int}
    {after : List Char} (reads : spanExponent text = some (z, after)) :
    spanExponent (text ++ rest) = some (z, after ++ rest) := by
  have notEmpty : text ≠ [] := by
    rintro rfl
    cases reads
  rw [spanExponent_eq] at reads ⊢
  rw [powerSign_append notEmpty, spanDigits_append_rest _ stops]
  dsimp only
  split at reads
  · cases reads
  · rename_i digits more shape other
    cases digits with
    | nil => exact absurd rfl shape
    | cons digit digits =>
        rw [other]
        cases reads
        rfl

theorem finish_append {read : Int → Json} {plain value : Json} {text rest after : List Char}
    (ends : Ends rest) (reads : finish read plain text = some (value, after)) :
    finish read plain (text ++ rest) = some (value, after ++ rest) := by
  cases text with
  | nil =>
      cases reads
      cases rest with
      | nil => rfl
      | cons mark rest => exact if_neg (ends.power mark rest rfl)
  | cons mark text =>
      rw [List.cons_append, finish]
      rw [finish] at reads
      split at reads
      · obtain ⟨p, exponent, same⟩ := Option.map_eq_some_iff.mp reads
        cases same
        rw [if_pos ‹_›, spanExponent_append ends.digit exponent]
        rfl
      · cases reads
        rw [if_neg ‹_›]
        rfl

/-- A number after its sign. -/
def unsigned? (read : Numeral → Float) (negative : Bool) (text : List Char) :
    Option (Json × List Char) :=
  let (whole, afterWhole) := spanDigits text
  if whole = [] ∨ (whole.head? = some 0 ∧ 1 < whole.length) then none
  else
    match fraction? afterWhole with
    | none => none
    | some (fraction, afterFraction) =>
        let scale := fun exponent => real (read ⟨negative, whole, fraction, exponent⟩)
        let size := natOfDigits whole
        finish scale
          (if fraction ≠ [] ∨ (negative ∧ size = 0) then scale 0
          else integer (if negative then -size else size))
          afterFraction

/-- The sign of a number, and what follows it. -/
def sign : List Char → Bool × List Char
  | '-' :: rest => (true, rest)
  | rest => (false, rest)

theorem sign_append {text : List Char} (some : text ≠ []) (rest : List Char) :
    sign (text ++ rest) = ((sign text).1, (sign text).2 ++ rest) := by
  cases text with
  | nil => exact absurd rfl some
  | cons c text =>
      by_cases minus : c = '-'
      · subst minus
        rfl
      · simp [sign, minus]

theorem number?_eq (read : Numeral → Float) (text : List Char) :
    number? read text = unsigned? read (sign text).1 (sign text).2 :=
  rfl

theorem unsigned?_append {read : Numeral → Float} {negative : Bool} {text rest after : List Char}
    {value : Json} (ends : Ends rest) (reads : unsigned? read negative text = some (value, after)) :
    unsigned? read negative (text ++ rest) = some (value, after ++ rest) := by
  unfold unsigned? at reads ⊢
  rw [spanDigits_append_rest text ends.digit]
  dsimp only at reads ⊢
  split at reads
  · cases reads
  · rename_i plain
    rw [if_neg plain]
    split at reads
    · cases reads
    · rename_i digits more found
      rw [fraction?_append ends found]
      exact finish_append ends reads

theorem number?_append {read : Numeral → Float} {text rest after : List Char} {value : Json}
    (ends : Ends rest) (reads : number? read text = some (value, after)) :
    number? read (text ++ rest) = some (value, after ++ rest) := by
  have notEmpty : text ≠ [] := by
    rintro rfl
    cases reads
  rw [number?_eq] at reads ⊢
  rw [sign_append notEmpty]
  exact unsigned?_append ends reads


theorem head?_toDigits {n : Nat} (positive : 0 < n) :
    (Nat.toDigits 10 n).head? ≠ some '0' := by
  induction n using Nat.strongRecOn with
  | ind n ih =>
      by_cases small : n < 10
      · rw [Nat.toDigits_of_lt_base small]
        interval_cases n <;> decide
      · have some : Nat.toDigits 10 (n / 10) ≠ [] := Nat.toDigits_ne_nil
        rw [Nat.toDigits_of_base_le (by decide) (Nat.le_of_not_lt small),
          List.head?_append_of_ne_nil _ some]
        exact ih (n / 10) (by omega) (by omega)

theorem eq_zero_of_digitValue {c : Char} (isDigit : c.isDigit = true) (zero : digitValue c = 0) :
    c = '0' := by
  have low : '0'.toNat ≤ c.toNat := by
    have bounds := isDigit
    simp only [Char.isDigit, Bool.and_eq_true, decide_eq_true_eq] at bounds
    exact bounds.1
  exact Char.toNat_inj.mp (Nat.le_antisymm (Nat.le_of_sub_eq_zero zero) low)

/-- A whole part is a single zero or starts with another digit. -/
theorem toDigits_plain (n : Nat) : ¬((Nat.toDigits 10 n).map digitValue = [] ∨
    (((Nat.toDigits 10 n).map digitValue).head? = some 0 ∧
      1 < ((Nat.toDigits 10 n).map digitValue).length)) := by
  rintro (none | ⟨head, long⟩)
  · exact Nat.toDigits_ne_nil (List.map_eq_nil_iff.mp none)
  · rcases Nat.eq_zero_or_pos n with rfl | positive
    · exact absurd long (by decide)
    · obtain ⟨c, rest, shape, isDigit⟩ := exists_toDigits_eq_cons n
      have notZero := head?_toDigits positive
      rw [shape] at head notZero
      exact notZero (congrArg some (eq_zero_of_digitValue isDigit (Option.some.inj head)))

theorem unsigned?_toDigits (read : Numeral → Float) (negative : Bool) (n : Nat)
    (known : negative = true → n ≠ 0) :
    unsigned? read negative (Nat.toDigits 10 n) =
      some (integer (if negative then -(n : Int) else n), []) := by
  have whole : ¬(([] : List Nat) ≠ [] ∨ (negative = true ∧ n = 0)) := by
    rintro (none | ⟨sign, zero⟩)
    · exact none rfl
    · exact known sign zero
  unfold unsigned?
  rw [spanDigits_toDigits]
  dsimp only
  rw [if_neg (toDigits_plain n), natOfDigits_toDigits]
  dsimp only [fraction?, finish]
  rw [if_neg whole]

theorem number?_integer (read : Numeral → Float) (z : Int) :
    number? read (toString z).toList = some (integer z, []) := by
  cases z with
  | ofNat n =>
      change number? read (toString n).toList = _
      obtain ⟨c, rest, shape, isDigit⟩ := exists_toDigits_eq_cons n
      have plain : sign (Nat.toDigits 10 n) = (false, Nat.toDigits 10 n) := by
        have noSign : c ≠ '-' := by
          rintro rfl
          cases isDigit
        rw [shape]
        simp [sign, noSign]
      rw [toString_nat_toList, number?_eq, plain]
      exact unsigned?_toDigits read false n (fun false => by cases false)
  | negSucc n =>
      change number? read ("-" ++ toString (n + 1)).toList = _
      rw [String.toList_append, toString_nat_toList]
      exact unsigned?_toDigits read true (n + 1) fun _ => Nat.succ_ne_zero n

theorem ne_of_starts {c : Char} (starts : c.isDigit = true ∨ c = '-') {d : Char}
    (letter : d.isDigit = false) (noSign : d ≠ '-') : c ≠ d := by
  rintro rfl
  rcases starts with digit | sign
  · exact Bool.false_ne_true (letter.symm.trans digit)
  · exact noSign sign

theorem not_blank_of_starts {c : Char} (starts : c.isDigit = true ∨ c = '-') :
    isBlank c = false := by
  have other {d : Char} (letter : d.isDigit = false) (noSign : d ≠ '-') : c ≠ d :=
    ne_of_starts starts letter noSign
  simp [isBlank, other (d := ' '), other (d := '\n'), other (d := '\t'), other (d := '\r')]

theorem toString_starts (z : Int) :
    ∃ c rest, (toString z).toList = c :: rest ∧ (c.isDigit = true ∨ c = '-') := by
  cases z with
  | ofNat n =>
      change ∃ c rest, (toString n).toList = c :: rest ∧ _
      obtain ⟨c, rest, shape, isDigit⟩ := exists_toDigits_eq_cons n
      exact ⟨c, rest, (toString_nat_toList n).trans shape, .inl isDigit⟩
  | negSucc n =>
      change ∃ c rest, ("-" ++ toString (n + 1)).toList = c :: rest ∧ _
      rw [String.toList_append]
      exact ⟨'-', _, rfl, .inr rfl⟩

theorem realText_starts {x : Float} (finite : x.isFinite = true) :
    ∃ c rest, realText x = c :: rest ∧ (c.isDigit = true ∨ c = '-') := by
  rw [realText, if_pos finite]
  obtain ⟨c, rest, isDigit, plain | signed⟩ :=
    Decimal.Layout.data.faithful.starts ((Double.isFinite_unpacked_iff x).mp finite)
  · exact ⟨c, rest, plain, .inl isDigit⟩
  · exact ⟨'-', c :: rest, signed, .inr rfl⟩

variable (read : Numeral → Float)

/-- The text of a number is read as the number again. -/
def ReadsBack (x : Float) : Prop := number? read (realText x) = some (real x, [])

/-- The outcome is a number and nothing after it. -/
def isReal (x : Float) : Option (Json × List Char) → Bool
  | some (real y, []) => decide (y = x)
  | _ => false

theorem isReal_iff (x : Float) (outcome : Option (Json × List Char)) :
    isReal x outcome = true ↔ outcome = some (real x, []) := by
  unfold isReal
  split
  · simp
  · rename_i other
    refine iff_of_false Bool.false_ne_true fun same => other x same

instance (x : Float) : Decidable (ReadsBack read x) :=
  decidable_of_iff _ (isReal_iff x (number? read (realText x)))

/-- All numbers of a list that are finite are read again. -/
def AllReadBack (xs : List Float) : Prop := ∀ x ∈ xs, x.isFinite = true → ReadsBack read x

instance (xs : List Float) : Decidable (AllReadBack read xs) :=
  inferInstanceAs (Decidable (∀ x ∈ xs, x.isFinite = true → ReadsBack read x))

variable {read}

theorem AllReadBack.left {xs ys : List Float} (known : AllReadBack read (xs ++ ys)) :
    AllReadBack read xs :=
  fun x member => known x (List.mem_append_left ys member)

theorem AllReadBack.right {xs ys : List Float} (known : AllReadBack read (xs ++ ys)) :
    AllReadBack read ys :=
  fun x member => known x (List.mem_append_right xs member)

end Numbers

section Strings

theorem controlEscape_eq : ∀ n < 32, controlEscape (Char.ofNat n) =
    ['\\', 'u', '0', '0', Nat.digitChar (n / 16), Nat.digitChar (n % 16)] := by
  decide

theorem hexUnit?_control :
    ∀ n < 32, hexUnit? '0' '0' (Nat.digitChar (n / 16)) (Nat.digitChar (n % 16)) = some n := by
  decide

theorem stringChars?_stringChar (c : Char) (rest : List Char) :
    stringChars? (stringChar c ++ rest) = (stringChars? rest).map fun p => (c :: p.1, p.2) := by
  unfold stringChar
  split_ifs with quote slash line ret tab back form control
  · subst quote
    rfl
  · subst slash
    rfl
  · subst line
    rfl
  · subst ret
    rfl
  · subst tab
    rfl
  · obtain rfl : c = Char.ofNat 8 := (Char.ofNat_toNat c).symm.trans (congrArg Char.ofNat back)
    rfl
  · obtain rfl : c = Char.ofNat 12 := (Char.ofNat_toNat c).symm.trans (congrArg Char.ofNat form)
    rfl
  · have escape := controlEscape_eq c.toNat control
    rw [Char.ofNat_toNat] at escape
    have high : isHighSurrogate c.toNat = false := by
      simp [isHighSurrogate]
      omega
    have low : isLowSurrogate c.toNat = false := by
      simp [isLowSurrogate]
      omega
    rw [escape]
    simp [stringChars?, hexUnit?_control c.toNat control, high, low]
  · rw [List.singleton_append]
    simp [stringChars?, slash, control]

theorem stringChars?_append (chars rest : List Char) :
    stringChars? (chars.flatMap stringChar ++ '"' :: rest) = some (chars, rest) := by
  induction chars with
  | nil => rfl
  | cons c chars ih =>
      rw [List.flatMap_cons, List.append_assoc, stringChars?_stringChar, ih]
      rfl

theorem stringText_append (key : String) (rest : List Char) :
    stringText key ++ rest = '"' :: (key.toList.flatMap stringChar ++ '"' :: rest) := by
  simp [stringText]

end Strings

end RobustMargin.Json
