import RobustMargin.Program.Text
import RobustMargin.Proofs.NumberText

/-! # Lines as words

Every line of a program text is a list of words with single blanks between them. The words of a row
and of an objective tell its terms and its numbers. -/
namespace RobustMargin

open Decimal (Word Faithful)

section Pieces

/-- Texts with a separator between them, each of which is texts with that separator between them. -/
theorem intercalate_flatten (separator : String) {groups : List (List String)}
    (some : ∀ words ∈ groups, words ≠ []) :
    separator.intercalate (groups.map separator.intercalate) =
      separator.intercalate groups.flatten := by
  induction groups with
  | nil => rfl
  | cons words rest ih =>
      rw [List.forall_mem_cons] at some
      cases rest with
      | nil => simp
      | cons next others =>
          have notEmpty : (next :: others).flatten ≠ [] := by
            have nextSome := some.2 next List.mem_cons_self
            simp [nextSome]
          have flat : (words :: next :: others).flatten = words ++ (next :: others).flatten := rfl
          rw [List.map_cons, String.intercalate_cons_of_ne_nil (by simp), ih some.2, flat,
            String.intercalate_append_of_ne_nil some.1 notEmpty]

/-- Texts without the separator can be told from what is written with it between them. -/
theorem intercalate_inj {separator : String} {c : Char} (single : separator.toList = [c])
    {first second : List String} (firstPlain : ∀ s ∈ first, c ∉ s.toList)
    (secondPlain : ∀ s ∈ second, c ∉ s.toList) (firstSome : first ≠ []) (secondSome : second ≠ [])
    (same : separator.intercalate first = separator.intercalate second) : first = second := by
  have taken {texts : List String} (plain : ∀ s ∈ texts, c ∉ s.toList) (some : texts ≠ []) :
      (separator.intercalate texts).toList.splitOn c = texts.map String.toList := by
    rw [String.toList_intercalate, single]
    refine List.splitOn_intercalate c ?_ (by simpa using some)
    simpa using plain
  have lists : first.map String.toList = second.map String.toList := by
    rw [← taken firstPlain firstSome, ← taken secondPlain secondSome, same]
  exact List.map_injective_iff.mpr (fun _ _ => String.toList_injective) lists

/-- The line that words make. -/
def line (words : List String) : String := " ".intercalate words

theorem newline_notMem_line {words : List String} (plain : ∀ w ∈ words, Word w) :
    '\n' ∉ (line words).toList := by
  induction words with
  | nil => exact List.not_mem_nil
  | cons w rest ih =>
      rw [List.forall_mem_cons] at plain
      cases rest with
      | nil =>
          rw [line, String.intercalate_singleton]
          exact plain.1.2
      | cons next others =>
          have after := ih plain.2
          rw [line] at after ⊢
          rw [String.intercalate_cons_cons, String.toList_append, String.toList_append,
            List.mem_append, List.mem_append, not_or, not_or]
          exact ⟨⟨plain.1.2, by decide⟩, after⟩

theorem line_inj {first second : List String} (firstPlain : ∀ w ∈ first, Word w)
    (secondPlain : ∀ w ∈ second, Word w) (firstSome : first ≠ []) (secondSome : second ≠ [])
    (same : line first = line second) : first = second :=
  intercalate_inj rfl (fun w member => (firstPlain w member).1)
    (fun w member => (secondPlain w member).1) firstSome secondSome same

end Pieces

/-- Two rows that mean the same: a constant may stand on either side. -/
structure Constraint.Alike (c d : Constraint Float) : Prop where
  name : c.name = d.name
  terms : c.expr.terms = d.expr.terms
  sense : c.sense = d.sense
  side : c.rhs - c.expr.constant = d.rhs - d.expr.constant

namespace Program

section Words

variable {α : Type} [Scalar α] (number : α → String) (names : VarId → String)

/-- The words of a term with a sign. -/
def signedWords (t : VarId × α) : List String :=
  [signText t.2, number (Scalar.abs t.2), names t.1]

/-- The words of a first term, which carries no plus sign. -/
def firstWords (t : VarId × α) : List String :=
  if t.2 < 0 then signedWords number names t else [number t.2, names t.1]

def termWords : List (VarId × α) → List (List String)
  | [] => []
  | t :: rest => firstWords number names t :: rest.map (signedWords number names)

def rowWords (e : LinearExpr α) : List String :=
  if e.terms.isEmpty then ["0"] else (termWords number names e.terms).flatten

/-- The words of a constant, if it is written at all. -/
def constantWords (c : α) : List String :=
  if Scalar.same c 0 then [] else [signText c, number (Scalar.abs c)]

/-- Before its constant an objective without terms leaves an empty word. -/
def objectiveWords (e : LinearExpr α) : List String :=
  if Scalar.same e.constant 0 then rowWords number names e
  else (if e.terms.isEmpty then [""] else (termWords number names e.terms).flatten) ++
    constantWords number e.constant

def constraintWords (c : Constraint α) : List String :=
  ["", c.name ++ ":"] ++ rowWords number names c.expr ++
    [senseText c.sense, number (c.rhs - c.expr.constant)]

def boundsWords (v : Variable α) : List String :=
  match v.lower.finite?, v.upper.finite? with
  | none, none => ["", v.name, "free"]
  | some lower, some upper =>
      if Scalar.same lower upper then ["", v.name, "=", number lower]
      else ["", number lower, "<=", v.name, "<=", number upper]
  | some lower, none => ["", v.name, ">=", number lower]
  | none, some upper => ["", "-inf", "<=", v.name, "<=", number upper]

theorem signedTerm_eq (t : VarId × α) :
    signedTerm number names t = line (signedWords number names t) := by
  simp [signedTerm, signedWords, line, String.append_assoc]

theorem firstTerm_eq (t : VarId × α) :
    firstTerm number names t = line (firstWords number names t) := by
  unfold firstTerm firstWords
  split
  · exact signedTerm_eq number names t
  · simp [line, String.append_assoc]

theorem termTexts_eq (terms : List (VarId × α)) :
    termTexts number names terms = (termWords number names terms).map line := by
  cases terms with
  | nil => rfl
  | cons t rest => simp [termTexts, termWords, firstTerm_eq, signedTerm_eq]

theorem firstWords_ne_nil (t : VarId × α) : firstWords number names t ≠ [] := by
  unfold firstWords
  split <;> exact List.cons_ne_nil _ _

theorem exprText_eq (terms : List (VarId × α)) :
    exprText number names terms = line (termWords number names terms).flatten := by
  rw [exprText, termTexts_eq, line]
  refine intercalate_flatten " " ?_
  cases terms with
  | nil => simp [termWords]
  | cons t rest =>
      refine List.forall_mem_cons.mpr ⟨firstWords_ne_nil number names t, ?_⟩
      exact List.forall_mem_map.mpr fun u _ => List.cons_ne_nil _ _

theorem rowText_eq (e : LinearExpr α) :
    rowText number names e = line (rowWords number names e) := by
  unfold rowText rowWords
  split
  · rfl
  · exact exprText_eq number names e.terms

theorem rowWords_ne_nil (e : LinearExpr α) : rowWords number names e ≠ [] := by
  unfold rowWords
  cases e.terms with
  | nil => simp
  | cons t rest => simp [termWords, firstWords_ne_nil]

theorem objectiveWords_ne_nil (e : LinearExpr α) : objectiveWords number names e ≠ [] := by
  unfold objectiveWords constantWords
  split
  · exact rowWords_ne_nil number names e
  · simp

theorem line_append {first second : List String} (firstSome : first ≠ [])
    (secondSome : second ≠ []) : line (first ++ second) = line first ++ " " ++ line second :=
  String.intercalate_append_of_ne_nil firstSome secondSome

theorem objectiveText_eq (e : LinearExpr α) :
    objectiveText number names e = line (objectiveWords number names e) := by
  unfold objectiveText objectiveWords constantWords
  split
  · exact rowText_eq number names e
  · rw [exprText_eq, line_append _ (by simp)]
    · cases e.terms <;> simp [line, termWords, String.append_assoc]
    · cases e.terms <;> simp [termWords, firstWords_ne_nil]

theorem constraintText_eq (c : Constraint α) :
    constraintText number names c = line (constraintWords number names c) := by
  have some := rowWords_ne_nil number names c.expr
  rw [constraintText, constraintWords, rowText_eq, line_append (by simp) (by simp),
    line_append (by simp) some]
  simp [line, String.append_assoc]

theorem boundsText_eq (v : Variable α) :
    boundsText number v = line (boundsWords number v) := by
  unfold boundsText boundsWords
  rw [← String.toList_inj]
  cases v.lower.finite? with
  | none => cases v.upper.finite? <;> simp [line]
  | some lower =>
      cases v.upper.finite? with
      | none => simp [line]
      | some upper =>
          dsimp only
          split <;> simp [line]

end Words

section Signs

/-- A coefficient that is finite and not zero. -/
structure Coefficient (x : Float) : Prop where
  finite : Scalar.isFinite x = true
  nonzero : Scalar.same x 0 = false

instance (x : Float) : Decidable (Coefficient x) :=
  decidable_of_iff (Scalar.isFinite x = true ∧ Scalar.same x 0 = false)
    ⟨fun both => ⟨both.1, both.2⟩, fun both => ⟨both.finite, both.nonzero⟩⟩

variable {number : Float → String} {x y : Float}

theorem Coefficient.isFinite (coefficient : Coefficient x) : Double.Finite x :=
  (Double.isFinite_iff x).mp coefficient.finite

theorem Coefficient.isNaN_eq (coefficient : Coefficient x) : x.isNaN = false :=
  Double.isNaN_of_finite coefficient.isFinite

theorem Coefficient.lt_zero_iff (coefficient : Coefficient x) :
    x < 0 ↔ Double.negative x = true := by
  refine Double.lt_zero_iff coefficient.isFinite fun zero => ?_
  have same := (Double.same_zero_iff coefficient.isFinite).mpr zero
  rw [coefficient.nonzero] at same
  cases same

theorem Coefficient.signText_eq (coefficient : Coefficient x) :
    signText x = if Double.negative x then "-" else "+" := by
  rw [signText]
  exact if_congr coefficient.lt_zero_iff rfl rfl

/-- The sign and the size of a coefficient tell it. -/
theorem coefficient_eq (faithful : Faithful number) (coefficientX : Coefficient x)
    (coefficientY : Coefficient y) (signs : signText x = signText y)
    (sizes : number (Scalar.abs x) = number (Scalar.abs y)) : x = y := by
  have numberX := coefficientX.isNaN_eq
  have numberY := coefficientY.isNaN_eq
  rw [coefficientX.signText_eq, coefficientY.signText_eq] at signs
  have negatives : Double.negative x = Double.negative y := by
    cases first : Double.negative x <;> cases second : Double.negative y <;>
      simp_all
  exact Double.eq_of_abs numberX numberY negatives
    (faithful.injective (Double.isNaN_abs numberX) (Double.isNaN_abs numberY) sizes)

/-- The text of a finite number is neither empty nor a sign, and not the negative infinity. -/
theorem number_ne (faithful : Faithful number) (finite : Double.Finite x) :
    number x ≠ "" ∧ number x ≠ "-" ∧ number x ≠ "-inf" := by
  obtain ⟨c, rest, isDigit, shape⟩ := faithful.starts finite
  have plain : c ≠ '-' ∧ c ≠ 'i' := by constructor <;> rintro rfl <;> cases isDigit
  refine ⟨?_, ?_, ?_⟩ <;> intro same <;> rw [same] at shape
  · simp at shape
  · simp [plain.1.symm] at shape
  · simp [plain.1.symm, plain.2.symm] at shape

end Signs

section Expressions

/-- The sense is told by its symbol. -/
theorem senseText_injective : Function.Injective senseText := by
  intro s t same
  cases s <;> cases t <;> first | rfl | exact absurd same (by decide)

variable {number : Float → String} {names : VarId → String} {count : Nat}

/-- A term that can be read back: one of the variables counted, with a coefficient. -/
structure Readable (count : Nat) (t : VarId × Float) : Prop where
  known : t.1 < count
  coefficient : Coefficient t.2

/-- A row that can be read back. -/
structure ReadableRow (count : Nat) (c : Constraint Float) : Prop where
  name : Word c.name
  terms : ∀ t ∈ c.expr.terms, Readable count t
  rhs : Scalar.isFinite c.rhs = true
  constant : Scalar.isFinite c.expr.constant = true

theorem ReadableRow.isNaN_side {c : Constraint Float} (readable : ReadableRow count c) :
    (c.rhs - c.expr.constant).isNaN = false :=
  Double.isNaN_sub ((Double.isFinite_iff _).mp readable.rhs)
    ((Double.isFinite_iff _).mp readable.constant)

/-- Gives the sign of the first term back, and removes what stands for no terms at all. -/
def restoreSign : List String → List String
  | first :: second :: rest =>
      if first = "" then second :: rest
      else if first = "-" then first :: second :: rest
      else "+" :: first :: second :: rest
  | _ => []

/-- With its sign back, the first term is like the others. -/
theorem restoreSign_termWords (faithful : Faithful number) (names : VarId → String)
    {t : VarId × Float} (coefficient : Coefficient t.2) (others : List (VarId × Float))
    (tail : List String) :
    restoreSign ((termWords number names (t :: others)).flatten ++ tail) =
      (t :: others).flatMap (signedWords number names) ++ tail := by
  have finite := coefficient.isFinite
  have sign := coefficient.signText_eq
  rw [termWords, List.flatten_cons, List.flatMap_cons, List.flatMap_def, firstWords]
  by_cases below : t.2 < 0
  -- With a minus sign it was written like the others; without one it lacks the plus sign only.
  · rw [if_pos below]
    rw [if_pos (coefficient.lt_zero_iff.mp below)] at sign
    rw [signedWords, sign]
    rfl
  · obtain ⟨notEmpty, notMinus, -⟩ := number_ne faithful finite
    have plus : Double.negative t.2 = false :=
      Bool.eq_false_iff.mpr (coefficient.lt_zero_iff.not.mp below)
    have size : Scalar.abs t.2 = t.2 := Double.abs_eq_self coefficient.isNaN_eq plus
    rw [plus, if_neg Bool.false_ne_true] at sign
    rw [if_neg below, signedWords, size, sign]
    simp [restoreSign, notEmpty, notMinus]

theorem restoreSign_rowWords (faithful : Faithful number) (e : LinearExpr Float)
    (coefficients : ∀ t ∈ e.terms, Coefficient t.2) :
    restoreSign (rowWords number names e) = e.terms.flatMap (signedWords number names) := by
  unfold rowWords
  cases shape : e.terms with
  | nil => rfl
  | cons t others =>
      have first := coefficients t (by simp [shape])
      have restored := restoreSign_termWords faithful names first others []
      rwa [List.append_nil, List.append_nil] at restored

theorem restoreSign_objectiveWords (faithful : Faithful number) (e : LinearExpr Float)
    (coefficients : ∀ t ∈ e.terms, Coefficient t.2) :
    restoreSign (objectiveWords number names e) =
      e.terms.flatMap (signedWords number names) ++ constantWords number e.constant := by
  unfold objectiveWords
  split
  · rename_i zero
    rw [constantWords, if_pos zero, List.append_nil]
    exact restoreSign_rowWords faithful e coefficients
  · rename_i nonzero
    cases shape : e.terms with
    | nil =>
        rw [constantWords, if_neg nonzero]
        rfl
    | cons t others =>
        have first := coefficients t (by simp [shape])
        exact restoreSign_termWords faithful names first others _

section Terms

variable (faithful : Faithful number)
  (distinct : ∀ v < count, ∀ w < count, names v = names w → v = w)

include faithful distinct

theorem term_eq {t u : VarId × Float} (readableT : Readable count t) (readableU : Readable count u)
    (same : signedWords number names t = signedWords number names u) : t = u := by
  obtain ⟨signs, sizes, called⟩ : signText t.2 = signText u.2 ∧
      number (Scalar.abs t.2) = number (Scalar.abs u.2) ∧ names t.1 = names u.1 := by
    simpa [signedWords] using same
  refine Prod.ext (distinct _ readableT.known _ readableU.known called) ?_
  exact coefficient_eq faithful readableT.coefficient readableU.coefficient signs sizes

omit faithful distinct in
theorem length_signedTerms (terms : List (VarId × Float)) :
    (terms.flatMap (signedWords number names)).length = 3 * terms.length := by
  simp [signedWords, Nat.mul_comm]

/-- Terms that each have a sign are told by their words, and so is what follows them. -/
theorem terms_eq {first second : List (VarId × Float)}
    (firstReadable : ∀ t ∈ first, Readable count t)
    (secondReadable : ∀ t ∈ second, Readable count t) {tail rest : List String}
    (tailShort : tail.length < 3) (restShort : rest.length < 3)
    (same : first.flatMap (signedWords number names) ++ tail =
      second.flatMap (signedWords number names) ++ rest) : first = second ∧ tail = rest := by
  -- A term has three words, so that fewer words after the terms are never taken for one.
  induction first generalizing second with
  | nil =>
      cases second with
      | nil => exact ⟨rfl, same⟩
      | cons u others =>
          have lengths := congrArg List.length same
          rw [List.length_append, List.length_append, length_signedTerms, length_signedTerms,
            List.length_nil, List.length_cons] at lengths
          omega
  | cons t terms ih =>
      cases second with
      | nil =>
          have lengths := congrArg List.length same
          rw [List.length_append, List.length_append, length_signedTerms, length_signedTerms,
            List.length_nil, List.length_cons] at lengths
          omega
      | cons u others =>
          rw [List.forall_mem_cons] at firstReadable secondReadable
          rw [List.flatMap_cons, List.flatMap_cons, List.append_assoc, List.append_assoc] at same
          obtain ⟨words, after⟩ := List.append_inj same rfl
          obtain rfl := term_eq faithful distinct firstReadable.1 secondReadable.1 words
          obtain ⟨rfl, tails⟩ := ih firstReadable.2 secondReadable.2 after
          exact ⟨rfl, tails⟩

end Terms

theorem length_constantWords (c : Float) : (constantWords number c).length < 3 := by
  unfold constantWords
  split
  · exact (by decide : 0 < 3)
  · exact (by decide : 2 < 3)

/-- Constants that are written alike are numerically equal. -/
theorem constants_same (faithful : Faithful number) {c d : Float}
    (finiteC : Scalar.isFinite c = true) (finiteD : Scalar.isFinite d = true)
    (same : constantWords number c = constantWords number d) : Scalar.same c d = true := by
  have fieldsC := (Double.isFinite_iff c).mp finiteC
  have fieldsD := (Double.isFinite_iff d).mp finiteD
  unfold constantWords at same
  by_cases zeroC : Scalar.same c 0 = true <;> by_cases zeroD : Scalar.same d 0 = true
  · rw [Double.same_comm] at zeroD
    exact Double.same_trans fieldsC Double.isZero_zero.finite fieldsD zeroC zeroD
  · rw [if_pos zeroC, if_neg zeroD] at same
    cases same
  · rw [if_neg zeroC, if_pos zeroD] at same
    cases same
  · rw [if_neg zeroC, if_neg zeroD] at same
    obtain ⟨signs, sizes⟩ : signText c = signText d ∧
        number (Scalar.abs c) = number (Scalar.abs d) := by
      simpa using same
    rw [Bool.not_eq_true] at zeroC zeroD
    obtain rfl := coefficient_eq faithful ⟨finiteC, zeroC⟩ ⟨finiteD, zeroD⟩ signs sizes
    exact Double.same_self (Double.isNaN_of_finite fieldsC)

theorem word_signText (x : Float) : Word (signText x) := by
  unfold signText
  split <;> decide

theorem word_abs (faithful : Faithful number) {x : Float} (plain : x.isNaN = false) :
    Word (number (Scalar.abs x)) :=
  faithful.word (Double.isNaN_abs plain)

end Expressions

section Plain

variable {number : Float → String} {names : VarId → String} {count : Nat}
  (faithful : Faithful number) (called : ∀ v < count, Word (names v))

include faithful called

theorem words_signed {t : VarId × Float} (readable : Readable count t) :
    ∀ w ∈ signedWords number names t, Word w := by
  have size := word_abs faithful readable.coefficient.isNaN_eq
  have name := called _ readable.known
  simp [signedWords, word_signText, size, name]

theorem words_first {t : VarId × Float} (readable : Readable count t) :
    ∀ w ∈ firstWords number names t, Word w := by
  unfold firstWords
  split
  · exact words_signed faithful called readable
  · have size := faithful.word readable.coefficient.isNaN_eq
    have name := called _ readable.known
    simp [size, name]

theorem words_terms {terms : List (VarId × Float)} (readable : ∀ t ∈ terms, Readable count t) :
    ∀ w ∈ (termWords number names terms).flatten, Word w := by
  intro w member
  obtain ⟨group, inside, within⟩ := List.mem_flatten.mp member
  cases terms with
  | nil => cases inside
  | cons t others =>
      rw [List.forall_mem_cons] at readable
      rcases List.mem_cons.mp inside with rfl | later
      · exact words_first faithful called readable.1 w within
      · obtain ⟨u, known, rfl⟩ := List.mem_map.mp later
        exact words_signed faithful called (readable.2 u known) w within

theorem words_row {e : LinearExpr Float} (readable : ∀ t ∈ e.terms, Readable count t) :
    ∀ w ∈ rowWords number names e, Word w := by
  unfold rowWords
  split
  · exact List.forall_mem_singleton.mpr (by decide)
  · exact words_terms faithful called readable

theorem words_objective {e : LinearExpr Float} (readable : ∀ t ∈ e.terms, Readable count t)
    (constant : e.constant.isNaN = false) : ∀ w ∈ objectiveWords number names e, Word w := by
  unfold objectiveWords
  split
  · exact words_row faithful called readable
  · refine List.forall_mem_append.mpr ⟨?_, ?_⟩
    · split
      · exact List.forall_mem_singleton.mpr (by decide)
      · exact words_terms faithful called readable
    · have size := word_abs faithful constant
      unfold constantWords
      split <;> simp [word_signText, size]

theorem words_constraint {c : Constraint Float} (readable : ReadableRow count c) :
    ∀ w ∈ constraintWords number names c, Word w := by
  have title : Word (c.name ++ ":") := by
    have name := readable.name
    unfold Word at name ⊢
    simpa using name
  have sense : Word (senseText c.sense) := by cases c.sense <;> decide
  have side := faithful.word readable.isNaN_side
  have row := words_row faithful called readable.terms
  have empty : Word "" := by decide
  unfold constraintWords
  simp only [List.forall_mem_append, List.forall_mem_cons]
  exact ⟨⟨⟨empty, title, by simp⟩, row⟩, sense, side, by simp⟩

end Plain

section Lines

variable {number : Float → String} {names : VarId → String} {count : Nat}
  (faithful : Faithful number)
  (distinct : ∀ v < count, ∀ w < count, names v = names w → v = w)

include faithful distinct

/-- Rows that are written alike have the same name, terms and sense, and the same number on the
right once the constant is moved there. -/
theorem constraint_alike {c d : Constraint Float} (readableC : ReadableRow count c)
    (readableD : ReadableRow count d)
    (same : constraintWords number names c = constraintWords number names d) : c.Alike d := by
  unfold constraintWords at same
  obtain ⟨start, ends⟩ := List.append_inj' same rfl
  obtain ⟨titles, rows⟩ := List.append_inj start rfl
  have restored := congrArg restoreSign rows
  rw [restoreSign_rowWords faithful _ fun t known => (readableC.terms t known).coefficient,
    restoreSign_rowWords faithful _ fun t known => (readableD.terms t known).coefficient,
    ← List.append_nil (c.expr.terms.flatMap _), ← List.append_nil (d.expr.terms.flatMap _)]
    at restored
  have terms := (terms_eq faithful distinct readableC.terms readableD.terms (by decide) (by decide)
    restored).1
  obtain ⟨senses, sides⟩ : senseText c.sense = senseText d.sense ∧
      number (c.rhs - c.expr.constant) = number (d.rhs - d.expr.constant) := by
    simpa using ends
  refine ⟨?_, terms, senseText_injective senses,
    faithful.injective readableC.isNaN_side readableD.isNaN_side sides⟩
  simpa using titles

/-- Objectives that are written alike have the same terms and equal constants. -/
theorem objective_alike {e f : LinearExpr Float} (readableE : ∀ t ∈ e.terms, Readable count t)
    (readableF : ∀ t ∈ f.terms, Readable count t) (finiteE : Scalar.isFinite e.constant = true)
    (finiteF : Scalar.isFinite f.constant = true)
    (same : objectiveWords number names e = objectiveWords number names f) :
    e.terms = f.terms ∧ Scalar.same e.constant f.constant = true := by
  have restored := congrArg restoreSign same
  rw [restoreSign_objectiveWords faithful _ fun t known => (readableE t known).coefficient,
    restoreSign_objectiveWords faithful _ fun t known => (readableF t known).coefficient]
    at restored
  obtain ⟨terms, constants⟩ := terms_eq faithful distinct readableE readableF
    (length_constantWords _) (length_constantWords _) restored
  exact ⟨terms, constants_same faithful finiteE finiteF constants⟩

end Lines

end Program
end RobustMargin
