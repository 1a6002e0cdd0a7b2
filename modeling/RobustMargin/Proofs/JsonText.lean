import RobustMargin.Proofs.JsonTokens

/-! # JSON texts

A value that is printed and read is the same value, but for numbers that are not finite: they are
read as null. -/
namespace RobustMargin.Json

open Decimal

/-- How values are laid out: the blanks before what stands at a level, and those after a colon. -/
structure Spacing where
  line : Nat → List Char
  colon : List Char
  blank_line : ∀ level, ∀ c ∈ line level, isBlank c = true
  blank_colon : ∀ c ∈ colon, isBlank c = true

variable (s : Spacing) (read : Numeral → Float)

mutual

def spacedChars (level : Nat) : Json → List Char
  | array [] => ['[', ']']
  | array (item :: rest) =>
      '[' :: s.line (level + 1) ++ spacedChars (level + 1) item ++ spacedItems level rest
  | object [] => ['\x7b', '\x7d']
  | object ((key, value) :: rest) =>
      '\x7b' :: s.line (level + 1) ++ stringText key ++ ':' :: s.colon ++
        spacedChars (level + 1) value ++ spacedFields level rest
  | value => scalarText value

def spacedItems (level : Nat) : List Json → List Char
  | [] => s.line level ++ [']']
  | item :: rest =>
      ',' :: s.line (level + 1) ++ spacedChars (level + 1) item ++ spacedItems level rest

def spacedFields (level : Nat) : List (String × Json) → List Char
  | [] => s.line level ++ ['\x7d']
  | (key, value) :: rest =>
      ',' :: s.line (level + 1) ++ stringText key ++ ':' :: s.colon ++
        spacedChars (level + 1) value ++ spacedFields level rest

end

mutual

/-- The value that the text of a value stands for: a number that is not finite is null. -/
def written : Json → Json
  | real x => if x.isFinite then real x else null
  | array items => array (writtenItems items)
  | object fields => object (writtenFields fields)
  | value => value

def writtenItems : List Json → List Json
  | [] => []
  | item :: rest => written item :: writtenItems rest

def writtenFields : List (String × Json) → List (String × Json)
  | [] => []
  | (key, value) :: rest => (key, written value) :: writtenFields rest

end

mutual

/-- The numbers inside a value that are no integers. -/
def numbers : Json → List Float
  | real x => [x]
  | array items => itemNumbers items
  | object fields => fieldNumbers fields
  | _ => []

def itemNumbers : List Json → List Float
  | [] => []
  | item :: rest => numbers item ++ itemNumbers rest

def fieldNumbers : List (String × Json) → List Float
  | [] => []
  | (_, value) :: rest => numbers value ++ fieldNumbers rest

end

theorem ends_spacedItems (level : Nat) (items : List Json) (rest : List Char) :
    Ends (spacedItems s level items ++ rest) := by
  cases items with
  | nil =>
      rw [spacedItems, List.append_assoc]
      exact ends_blank_append (s.blank_line level) (ends_cons rfl (by decide) (by decide) rest)
  | cons item items => exact ends_cons rfl (by decide) (by decide) _

theorem ends_spacedFields (level : Nat) (fields : List (String × Json)) (rest : List Char) :
    Ends (spacedFields s level fields ++ rest) := by
  cases fields with
  | nil =>
      rw [spacedFields, List.append_assoc]
      exact ends_blank_append (s.blank_line level) (ends_cons rfl (by decide) (by decide) rest)
  | cons field fields => exact ends_cons rfl (by decide) (by decide) _

variable {read}

theorem readValue_skipBlank (read : Numeral → Float) (fuel : Nat) {text other : List Char}
    (same : skipBlank text = skipBlank other) :
    readValue read fuel text = readValue read fuel other := by
  cases fuel with
  | zero => rfl
  | succ fuel => rw [readValue, readValue, same]

theorem readValue_number {c : Char} {text after : List Char} {value : Json}
    (starts : c.isDigit = true ∨ c = '-') (reads : number? read (c :: text) = some (value, after))
    (fuel : Nat) : readValue read (fuel + 1) (c :: text) = (value, some after) := by
  have other {d : Char} (letter : d.isDigit = false) (noSign : d ≠ '-') : c ≠ d :=
    ne_of_starts starts letter noSign
  rw [readValue, skipBlank_cons (not_blank_of_starts starts)]
  simp [other (d := '"'), other (d := '['), other (d := '\x7b'), other (d := 'n'),
    other (d := 't'), other (d := 'f'), reads]

theorem readValue_array {text : List Char} {c : Char} {more : List Char}
    (starts : skipBlank text = c :: more) (full : c ≠ ']') (fuel : Nat) :
    readValue read (fuel + 1) ('[' :: text) =
      (array (readItems read fuel text).1, (readItems read fuel text).2) := by
  rw [readValue, skipBlank_cons rfl]
  simp only [starts]
  split
  · rename_i after shape
    cases shape
    exact absurd rfl full
  · rfl

theorem readValue_object {text more : List Char} (starts : skipBlank text = '"' :: more)
    (fuel : Nat) : readValue read (fuel + 1) ('\x7b' :: text) =
      (object (readFields read fuel text).1, (readFields read fuel text).2) := by
  rw [readValue, skipBlank_cons rfl]
  simp only [starts]
  rfl

theorem readItems_comma {text after more : List Char} {fuel : Nat} {item : Json}
    (first : readValue read fuel text = (item, some after)) (next : skipBlank after = ',' :: more) :
    readItems read (fuel + 1) text =
      (item :: (readItems read fuel more).1, (readItems read fuel more).2) := by
  rw [readItems, first]
  simp only [next]

theorem readItems_last {text after more : List Char} {fuel : Nat} {item : Json}
    (first : readValue read fuel text = (item, some after)) (next : skipBlank after = ']' :: more) :
    readItems read (fuel + 1) text = ([item], some more) := by
  rw [readItems, first]
  simp only [next]

section Fields

variable {text colon afterColon after more : List Char} {key : String} {fuel : Nat} {value : Json}
  (starts : skipBlank text = stringText key ++ colon) (named : skipBlank colon = ':' :: afterColon)
  (first : readValue read fuel afterColon = (value, some after))
include starts named first

theorem readFields_comma (next : skipBlank after = ',' :: more) :
    readFields read (fuel + 1) text =
      ((key, value) :: (readFields read fuel more).1, (readFields read fuel more).2) := by
  rw [stringText_append] at starts
  rw [readFields, starts]
  simp only [stringChars?_append, named, first, next, String.ofList_toList]

theorem readFields_last (next : skipBlank after = '\x7d' :: more) :
    readFields read (fuel + 1) text = ([(key, value)], some more) := by
  rw [stringText_append] at starts
  rw [readFields, starts]
  simp only [stringChars?_append, named, first, next, String.ofList_toList]

end Fields

/-- A value starts with a character that is not blank and closes no array. -/
theorem spacedChars_starts (level : Nat) (json : Json) (sound : json.wellFormed = true) :
    ∃ c rest, spacedChars s level json = c :: rest ∧ isBlank c = false ∧ c ≠ ']' := by
  cases json with
  | null => exact ⟨_, _, rfl, rfl, by decide⟩
  | bool b => cases b <;> exact ⟨_, _, rfl, rfl, by decide⟩
  | integer z =>
      obtain ⟨c, rest, shape, starts⟩ := toString_starts z
      exact ⟨c, rest, shape, not_blank_of_starts starts, ne_of_starts starts rfl (by decide)⟩
  | real x =>
      by_cases finite : x.isFinite = true
      · obtain ⟨c, rest, shape, starts⟩ := realText_starts finite
        exact ⟨c, rest, shape, not_blank_of_starts starts, ne_of_starts starts rfl (by decide)⟩
      · refine ⟨'n', ['u', 'l', 'l'], ?_, rfl, by decide⟩
        exact if_neg finite
  | string text => exact ⟨_, _, rfl, rfl, by decide⟩
  | array items => cases items <;> exact ⟨_, _, rfl, rfl, by decide⟩
  | object fields =>
      rcases fields with _ | ⟨⟨key, value⟩, rest⟩ <;> exact ⟨_, _, rfl, rfl, by decide⟩
  | malformed => cases sound

theorem readValue_real {x : Float} (known : x.isFinite = true → ReadsBack read x)
    {rest : List Char} (ends : Ends rest) (fuel : Nat) :
    readValue read (fuel + 1) (realText x ++ rest) = (written (real x), some rest) := by
  rw [written]
  split
  · rename_i finite
    obtain ⟨c, text, shape, starts⟩ := realText_starts finite
    have reads := number?_append ends (known finite)
    rw [shape, List.cons_append] at reads ⊢
    exact readValue_number starts reads fuel
  · rename_i infinite
    rw [realText, if_neg infinite]
    rfl

theorem readValue_integer (z : Int) {rest : List Char} (ends : Ends rest) (fuel : Nat) :
    readValue read (fuel + 1) ((toString z).toList ++ rest) = (integer z, some rest) := by
  obtain ⟨c, text, shape, starts⟩ := toString_starts z
  have reads := number?_append ends (number?_integer read z)
  rw [shape, List.cons_append] at reads ⊢
  exact readValue_number starts reads fuel

theorem readValue_string (text : String) (rest : List Char) (fuel : Nat) :
    readValue read (fuel + 1) (stringText text ++ rest) = (string text, some rest) := by
  rw [stringText_append, readValue, skipBlank_cons rfl]
  simp only [stringChars?_append, String.ofList_toList]

theorem line_append_ne_comma (level : Nat) {closing : Char} (other : closing ≠ ',')
    (text : List Char) : s.line level ++ [closing] ≠ ',' :: text := by
  intro same
  cases shape : s.line level with
  | nil =>
      rw [shape] at same
      exact other (List.cons.inj same).1
  | cons c blanks =>
      have blank := s.blank_line level c (shape ▸ List.mem_cons_self)
      rw [shape] at same
      rw [(List.cons.inj same).1] at blank
      cases blank

/-- The text of the first item of an array follows the opening bracket. -/
theorem skipBlank_firstItem (level : Nat) {item : Json} {items : List Json}
    (sound : item.wellFormed = true) {text : List Char}
    (after : spacedItems s level (item :: items) = ',' :: text) (rest : List Char) :
    ∃ c more, skipBlank (text ++ rest) = c :: more ∧ c ≠ ']' := by
  obtain ⟨c, more, starts, plain, full⟩ := spacedChars_starts s (level + 1) item sound
  obtain rfl : s.line (level + 1) ++ spacedChars s (level + 1) item ++
      spacedItems s level items = text := List.tail_eq_of_cons_eq after
  rw [List.append_assoc, List.append_assoc, skipBlank_append (s.blank_line _), starts]
  exact ⟨c, _, skipBlank_cons plain _, full⟩

/-- The name of the first field of an object follows the opening brace. -/
theorem skipBlank_firstField (level : Nat) {key : String} {value : Json}
    {fields : List (String × Json)} {text : List Char}
    (after : spacedFields s level ((key, value) :: fields) = ',' :: text) (rest : List Char) :
    ∃ more, skipBlank (text ++ rest) = '"' :: more := by
  obtain rfl : s.line (level + 1) ++ stringText key ++ ':' :: s.colon ++
      spacedChars s (level + 1) value ++ spacedFields s level fields = text :=
    List.tail_eq_of_cons_eq after
  simp only [List.append_assoc]
  rw [skipBlank_append (s.blank_line _), stringText_append]
  exact ⟨_, rfl⟩

mutual

theorem readValue_spaced (level : Nat) (json : Json) (sound : json.wellFormed = true)
    (known : AllReadBack read json.numbers) {rest : List Char} (ends : Ends rest) {fuel : Nat}
    (enough : 2 * (spacedChars s level json).length ≤ fuel) :
    readValue read fuel (spacedChars s level json ++ rest) = (written json, some rest) := by
  obtain ⟨c, text, shape, -⟩ := spacedChars_starts s level json sound
  obtain ⟨fuel, rfl⟩ : ∃ more, fuel = more + 1 := by
    refine Nat.exists_eq_succ_of_ne_zero fun zero => ?_
    rw [shape, List.length_cons] at enough
    omega
  cases json with
  | null => rfl
  | bool b => cases b <;> rfl
  | integer z => exact readValue_integer z ends fuel
  | real x => exact readValue_real (known x List.mem_cons_self) ends fuel
  | string text => exact readValue_string text rest fuel
  | array items =>
      cases items with
      | nil => rfl
      | cons item items =>
          obtain ⟨text, after⟩ : ∃ text, spacedItems s level (item :: items) = ',' :: text :=
            ⟨_, rfl⟩
          have whole : spacedChars s level (array (item :: items)) = '[' :: text :=
            congrArg ('[' :: ·) (List.tail_eq_of_cons_eq after)
          rw [whole, List.length_cons] at enough
          have enough' : 2 * text.length + 1 ≤ fuel := by omega
          have inner := readItems_spaced level (item :: items) sound known after rest enough'
          obtain ⟨d, more, first, full⟩ := skipBlank_firstItem s level
            (Bool.and_eq_true_iff.mp sound).1 after rest
          rw [whole, List.cons_append, readValue_array first full, inner]
          rfl
  | object fields =>
      rcases fields with _ | ⟨⟨key, value⟩, fields⟩
      · rfl
      · obtain ⟨text, after⟩ : ∃ text,
            spacedFields s level ((key, value) :: fields) = ',' :: text := ⟨_, rfl⟩
        have whole : spacedChars s level (object ((key, value) :: fields)) = '\x7b' :: text :=
          congrArg ('\x7b' :: ·) (List.tail_eq_of_cons_eq after)
        rw [whole, List.length_cons] at enough
        have enough' : 2 * text.length + 1 ≤ fuel := by omega
        have inner := readFields_spaced level ((key, value) :: fields) sound known after rest
          enough'
        obtain ⟨more, first⟩ := skipBlank_firstField s level after rest
        rw [whole, List.cons_append, readValue_object first, inner]
        rfl
  | malformed => cases sound

theorem readItems_spaced (level : Nat) (items : List Json) (sound : itemsWellFormed items = true)
    (known : AllReadBack read (itemNumbers items)) {text : List Char}
    (after : spacedItems s level items = ',' :: text) (rest : List Char) {fuel : Nat}
    (enough : 2 * text.length + 1 ≤ fuel) :
    readItems read fuel (text ++ rest) = (writtenItems items, some rest) := by
  obtain ⟨fuel, rfl⟩ : ∃ more, fuel = more + 1 := Nat.exists_eq_succ_of_ne_zero (by omega)
  cases items with
  | nil => exact absurd after (line_append_ne_comma s level (by decide) text)
  | cons item items =>
      obtain rfl : s.line (level + 1) ++ spacedChars s (level + 1) item ++
          spacedItems s level items = text := List.tail_eq_of_cons_eq after
      rw [itemsWellFormed, Bool.and_eq_true] at sound
      rw [itemNumbers] at known
      simp only [List.length_append] at enough
      have first : readValue read fuel (s.line (level + 1) ++ spacedChars s (level + 1) item ++
          spacedItems s level items ++ rest) =
          (written item, some (spacedItems s level items ++ rest)) := by
        rw [List.append_assoc, List.append_assoc,
          readValue_skipBlank read fuel (skipBlank_append (s.blank_line _) _)]
        exact readValue_spaced (level + 1) item sound.1 known.left
          (ends_spacedItems s level items rest) (by omega)
      cases items with
      | nil =>
          refine readItems_last first ?_
          rw [spacedItems, List.append_assoc, skipBlank_append (s.blank_line _)]
          rfl
      | cons next items =>
          obtain ⟨text, later⟩ : ∃ text, spacedItems s level (next :: items) = ',' :: text :=
            ⟨_, rfl⟩
          rw [later, List.length_cons] at enough
          have enough' : 2 * text.length + 1 ≤ fuel := by omega
          have others := readItems_spaced level (next :: items) sound.2 known.right later rest
            enough'
          have comma : skipBlank (spacedItems s level (next :: items) ++ rest) =
              ',' :: (text ++ rest) := by
            rw [later]
            rfl
          rw [readItems_comma first comma, others]
          rfl

theorem readFields_spaced (level : Nat) (fields : List (String × Json))
    (sound : fieldsWellFormed fields = true) (known : AllReadBack read (fieldNumbers fields))
    {text : List Char} (after : spacedFields s level fields = ',' :: text) (rest : List Char)
    {fuel : Nat} (enough : 2 * text.length + 1 ≤ fuel) :
    readFields read fuel (text ++ rest) = (writtenFields fields, some rest) := by
  obtain ⟨fuel, rfl⟩ : ∃ more, fuel = more + 1 := Nat.exists_eq_succ_of_ne_zero (by omega)
  rcases fields with _ | ⟨⟨key, value⟩, fields⟩
  · exact absurd after (line_append_ne_comma s level (by decide) text)
  · obtain rfl : s.line (level + 1) ++ stringText key ++ ':' :: s.colon ++
        spacedChars s (level + 1) value ++ spacedFields s level fields = text :=
      List.tail_eq_of_cons_eq after
    rw [fieldsWellFormed, Bool.and_eq_true] at sound
    rw [fieldNumbers] at known
    simp only [List.length_append, List.length_cons] at enough
    simp only [List.append_assoc, List.cons_append]
    have first : readValue read fuel (s.colon ++ (spacedChars s (level + 1) value ++
        (spacedFields s level fields ++ rest))) =
        (written value, some (spacedFields s level fields ++ rest)) := by
      rw [readValue_skipBlank read fuel (skipBlank_append s.blank_colon _)]
      exact readValue_spaced (level + 1) value sound.1 known.left
        (ends_spacedFields s level fields rest) (by omega)
    have starts : skipBlank (s.line (level + 1) ++ (stringText key ++ ':' :: (s.colon ++
        (spacedChars s (level + 1) value ++ (spacedFields s level fields ++ rest))))) =
        stringText key ++ ':' :: (s.colon ++
          (spacedChars s (level + 1) value ++ (spacedFields s level fields ++ rest))) := by
      rw [skipBlank_append (s.blank_line _), stringText_append]
      rfl
    cases fields with
    | nil =>
        refine readFields_last starts (skipBlank_cons rfl _) first ?_
        rw [spacedFields, List.append_assoc, skipBlank_append (s.blank_line _)]
        rfl
    | cons next fields =>
        obtain ⟨text, later⟩ : ∃ text, spacedFields s level (next :: fields) = ',' :: text :=
          ⟨_, rfl⟩
        rw [later, List.length_cons] at enough
        have enough' : 2 * text.length + 1 ≤ fuel := by omega
        have others := readFields_spaced level (next :: fields) sound.2 known.right later rest
          enough'
        have comma : skipBlank (spacedFields s level (next :: fields) ++ rest) =
            ',' :: (text ++ rest) := by
          rw [later]
          rfl
        rw [readFields_comma starts (skipBlank_cons rfl _) first comma, others]
        rfl

end

/-- No blanks at all. -/
def onOneLine : Spacing := ⟨fun _ => [], [], fun _ => List.forall_mem_nil _, List.forall_mem_nil _⟩

theorem blank_newLine (level : Nat) : ∀ c ∈ newLine level, isBlank c = true := by
  intro c member
  rcases List.mem_cons.mp member with rfl | blank
  · rfl
  · obtain rfl := List.eq_of_mem_replicate blank
    rfl

/-- One item or field on each line. -/
def onLines : Spacing :=
  ⟨newLine, [' '], blank_newLine, fun c member => by
    obtain rfl := List.mem_singleton.mp member
    rfl⟩

mutual

theorem compactChars_eq (level : Nat) (json : Json) :
    compactChars json = spacedChars onOneLine level json := by
  cases json with
  | array items =>
      cases items with
      | nil => rfl
      | cons item items =>
          rw [compactChars, compactChars_eq (level + 1) item, compactItems_eq level items]
          rfl
  | object fields =>
      rcases fields with _ | ⟨⟨key, value⟩, fields⟩
      · rfl
      · rw [compactChars, compactChars_eq (level + 1) value, compactFields_eq level fields]
        simp [spacedChars, onOneLine]
  | _ => rfl

theorem compactItems_eq (level : Nat) (items : List Json) :
    compactItems items = spacedItems onOneLine level items := by
  cases items with
  | nil => rfl
  | cons item items =>
      rw [compactItems, compactChars_eq (level + 1) item, compactItems_eq level items]
      rfl

theorem compactFields_eq (level : Nat) (fields : List (String × Json)) :
    compactFields fields = spacedFields onOneLine level fields := by
  rcases fields with _ | ⟨⟨key, value⟩, fields⟩
  · rfl
  · rw [compactFields, compactChars_eq (level + 1) value, compactFields_eq level fields]
    simp [spacedFields, onOneLine]

end

mutual

theorem prettyChars_eq (level : Nat) (json : Json) :
    prettyChars level json = spacedChars onLines level json := by
  cases json with
  | array items =>
      cases items with
      | nil => rfl
      | cons item items =>
          rw [prettyChars, prettyChars_eq (level + 1) item, prettyItems_eq level items]
          rfl
  | object fields =>
      rcases fields with _ | ⟨⟨key, value⟩, fields⟩
      · rfl
      · rw [prettyChars, prettyChars_eq (level + 1) value, prettyFields_eq level fields]
        simp [spacedChars, onLines]
  | _ => rfl

theorem prettyItems_eq (level : Nat) (items : List Json) :
    prettyItems level items = spacedItems onLines level items := by
  cases items with
  | nil => rfl
  | cons item items =>
      rw [prettyItems, prettyChars_eq (level + 1) item, prettyItems_eq level items]
      rfl

theorem prettyFields_eq (level : Nat) (fields : List (String × Json)) :
    prettyFields level fields = spacedFields onLines level fields := by
  rcases fields with _ | ⟨⟨key, value⟩, fields⟩
  · rfl
  · rw [prettyFields, prettyChars_eq (level + 1) value, prettyFields_eq level fields]
    simp [spacedFields, onLines]

end

/-- A laid out value with blanks after it is read as what it stands for. -/
theorem parse_spaced (s : Spacing) {json : Json} (sound : json.wellFormed = true)
    (known : AllReadBack read json.numbers) {blanks : List Char}
    (blank : ∀ c ∈ blanks, isBlank c = true) :
    parse read (String.ofList (spacedChars s 0 json ++ blanks)) = (written json, true) := by
  have ends : Ends blanks := by
    have := ends_blank_append blank ends_nil
    rwa [List.append_nil] at this
  unfold parse
  rw [String.toList_ofList]
  dsimp only
  rw [readValue_spaced s 0 json sound known ends (by rw [List.length_append]; omega)]
  dsimp only
  rw [skipBlank_eq_nil blank]
  rfl

theorem parse_compact {json : Json} (sound : json.wellFormed = true)
    (known : AllReadBack read json.numbers) : parse read json.compact = (written json, true) := by
  have := parse_spaced onOneLine sound known (List.forall_mem_nil _)
  rwa [List.append_nil, ← compactChars_eq] at this

theorem parse_pretty {json : Json} (sound : json.wellFormed = true)
    (known : AllReadBack read json.numbers) : parse read json.pretty = (written json, true) := by
  have := parse_spaced onLines sound known (List.forall_mem_nil _)
  rwa [List.append_nil, ← prettyChars_eq] at this

end RobustMargin.Json
