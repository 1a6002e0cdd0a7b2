import RobustMargin.Proofs.Editing
import RobustMargin.Proofs.LineWords

/-! # Programs from their texts

The lines of a text are told by their place and by the section titles between them. The bounds give
the variables, and with the variables the objective and the rows can be read back: programs with the
same text say the same. -/
namespace RobustMargin

open Decimal (Word Faithful)

section Bounds

/-- Bounds that are numerically equal; infinite ones are equal to themselves. -/
def Bound.Alike (a b : Bound Float) : Prop := Scalar.same a.toScalar b.toScalar = true

instance (a b : Bound Float) : Decidable (a.Alike b) := inferInstanceAs (Decidable (_ = _))

structure Variable.Alike (v w : Variable Float) : Prop where
  name : v.name = w.name
  lower : v.lower.Alike w.lower
  upper : v.upper.Alike w.upper

/-- A bound is finite, or it is the infinite one of its side. -/
inductive Bound.Sided (infinite : Bound Float) : Bound Float → Prop
  | unbounded : Sided infinite infinite
  | num {x : Float} (finite : Double.Finite x) : Sided infinite (.num x)

@[mk_iff]
structure Variable.Sided (v : Variable Float) : Prop where
  lower : Bound.Sided .negInf v.lower
  upper : Bound.Sided .posInf v.upper

theorem Bound.alike_infinite : (Bound.negInf.Alike .negInf) ∧ (Bound.posInf.Alike .posInf) := by
  decide +kernel

theorem Bound.Sided.alike_self {infinite b : Bound Float} (sided : Bound.Sided infinite b)
    (ends : infinite = .negInf ∨ infinite = .posInf) : b.Alike b := by
  cases sided with
  | unbounded =>
      rcases ends with rfl | rfl
      · exact Bound.alike_infinite.1
      · exact Bound.alike_infinite.2
  | num finite => exact Double.same_self (Double.isNaN_of_finite finite)

theorem Bound.ofScalar_cases {x : Float} (number : Scalar.isNumber x = true) :
    Bound.ofScalar x = .negInf ∧ Scalar.isBottom x = true ∨
      Bound.ofScalar x = .posInf ∧ Scalar.isTop x = true ∨
      Bound.ofScalar x = .num x ∧ Double.Finite x := by
  unfold Bound.ofScalar
  by_cases bottom : Scalar.isBottom x = true
  · exact .inl ⟨if_pos bottom, bottom⟩
  · by_cases top : Scalar.isTop x = true
    · exact .inr (.inl ⟨by rw [if_neg bottom, if_pos top], top⟩)
    · refine .inr (.inr ⟨by rw [if_neg bottom, if_neg top], ?_⟩)
      rw [← Double.isFinite_iff]
      simp [Scalar.isFinite, number, bottom, top]

/-- Bounds in order, at least one of them finite or both those of a free variable, have the infinite
ones on their sides. -/
theorem Variable.Addable.sided {v : Variable Float} (addable : v.Addable)
    (some : v.isFree = true ∨ v.lower.finite? ≠ none ∨ v.upper.finite? ≠ none) : v.Sided := by
  cases addable with
  | free name => exact ⟨.unbounded, .unbounded⟩
  | @bounded name lower upper lowerNumber upperNumber ordered =>
      rw [Variable.sided_iff]
      dsimp only at some ⊢
      -- Every other pair of bounds is out of order, or two infinities of one side.
      rcases Bound.ofScalar_cases lowerNumber with ⟨low, bottom⟩ | ⟨low, top⟩ | ⟨low, finiteLow⟩ <;>
        rcases Bound.ofScalar_cases upperNumber with ⟨up, bottom'⟩ | ⟨up, top'⟩ | ⟨up, finiteUp⟩ <;>
        rw [low, up] at some ⊢
      · simp [Variable.isFree, Bound.finite?] at some
      · exact ⟨.unbounded, .unbounded⟩
      · exact ⟨.unbounded, .num finiteUp⟩
      · simp [Variable.isFree, Bound.finite?] at some
      · simp [Variable.isFree, Bound.finite?] at some
      · exact absurd (Double.lt_of_isTop finiteUp top) ordered
      · exact absurd (Double.lt_of_isBottom bottom' finiteLow) ordered
      · exact ⟨.num finiteLow, .unbounded⟩
      · exact ⟨.num finiteLow, .num finiteUp⟩

end Bounds

namespace Program

section Reading

variable {number : Float → String}

/-- The name, the lower and the upper bound that words give; an equation gives both bounds. -/
def readBounds : List String → String × Option String × Option String
  | [_, name, _] => (name, none, none)
  | [_, name, relation, bound] => (name, some bound, if relation = "=" then some bound else none)
  | [_, lower, _, name, _, upper] =>
      (name, if lower = "-inf" then none else some lower, some upper)
  | _ => ("", none, none)

/-- The upper bound as it is written: an equation repeats the lower one. -/
def writtenUpper (v : Variable Float) : Bound Float :=
  match v.lower, v.upper with
  | .num lower, .num upper => if Scalar.same lower upper then .num lower else .num upper
  | _, upper => upper

theorem readBounds_boundsWords (faithful : Faithful number) {v : Variable Float} (sided : v.Sided) :
    readBounds (boundsWords number v) =
      (v.name, v.lower.finite?.map number, (writtenUpper v).finite?.map number) := by
  obtain ⟨name, lower, upper⟩ := v
  obtain ⟨lowerSided, upperSided⟩ := sided
  cases lowerSided with
  | unbounded =>
      cases upperSided with
      | unbounded => rfl
      | num finite => rfl
  | @num lower finite =>
      have finiteText := (number_ne faithful finite).2.2
      cases upperSided with
      | unbounded => rfl
      | @num upper finite =>
          dsimp only [boundsWords, Bound.finite?, writtenUpper]
          split
          · rfl
          · simp [readBounds, finiteText]

/-- Bounds of one side that are written alike are the same. -/
theorem bound_eq (faithful : Faithful number) {infinite a b : Bound Float}
    (unwritten : infinite.finite? = none) (sidedA : Bound.Sided infinite a)
    (sidedB : Bound.Sided infinite b) (same : a.finite?.map number = b.finite?.map number) :
    a = b := by
  cases sidedA with
  | unbounded =>
      cases sidedB with
      | unbounded => rfl
      | num finite =>
          rw [unwritten] at same
          cases same
  | num finiteA =>
      cases sidedB with
      | unbounded =>
          rw [unwritten] at same
          cases same
      | num finiteB =>
          rw [faithful.injective (Double.isNaN_of_finite finiteA) (Double.isNaN_of_finite finiteB)
            (Option.some.inj same)]

theorem writtenUpper_cases {v : Variable Float} (sided : v.Sided) :
    (v.upper = .posInf ∧ writtenUpper v = .posInf) ∨
      ∃ upper written, v.upper = .num upper ∧ writtenUpper v = .num written ∧
        Double.Finite upper ∧ Double.Finite written ∧ Scalar.same upper written = true := by
  obtain ⟨name, lower, upper⟩ := v
  obtain ⟨lowerSided, upperSided⟩ := sided
  have itself {x : Float} (finite : Double.Finite x) : Scalar.same x x = true :=
    Double.same_self (Double.isNaN_of_finite finite)
  cases upperSided with
  | unbounded =>
      left
      cases lowerSided <;> exact ⟨rfl, rfl⟩
  | @num upper finite =>
      right
      cases lowerSided with
      | unbounded => exact ⟨upper, upper, rfl, rfl, finite, finite, itself finite⟩
      | @num lower finiteLower =>
          by_cases equal : Scalar.same lower upper = true
          · refine ⟨upper, lower, rfl, if_pos equal, finite, finiteLower, ?_⟩
            rw [Double.same_comm, equal]
          · exact ⟨upper, upper, rfl, if_neg equal, finite, finite, itself finite⟩

/-- Variables that are written alike have the same name and equal bounds. -/
theorem variable_alike (faithful : Faithful number) {v w : Variable Float} (sidedV : v.Sided)
    (sidedW : w.Sided) (same : boundsWords number v = boundsWords number w) : v.Alike w := by
  have read := congrArg readBounds same
  rw [readBounds_boundsWords faithful sidedV, readBounds_boundsWords faithful sidedW,
    Prod.mk.injEq, Prod.mk.injEq] at read
  obtain ⟨names, lowers, uppers⟩ := read
  refine ⟨names, ?_, ?_⟩
  · rw [bound_eq faithful rfl sidedV.lower sidedW.lower lowers]
    exact sidedW.lower.alike_self (.inl rfl)
  · have uppersV := writtenUpper_cases sidedV
    have uppersW := writtenUpper_cases sidedW
    rcases uppersV with ⟨upperV, textV⟩ | ⟨x, s, upperV, textV, finiteX, finiteS, sameX⟩ <;>
      rcases uppersW with ⟨upperW, textW⟩ | ⟨y, t, upperW, textW, finiteY, finiteT, sameY⟩ <;>
      rw [textV, textW] at uppers <;> rw [upperV, upperW]
    · exact Bound.alike_infinite.2
    · cases uppers
    · cases uppers
    · obtain rfl := faithful.injective (Double.isNaN_of_finite finiteS)
        (Double.isNaN_of_finite finiteT) (Option.some.inj uppers)
      rw [Double.same_comm] at sameY
      exact Double.same_trans finiteX finiteS finiteY sameX sameY

theorem words_bounds (faithful : Faithful number) {v : Variable Float} (called : Word v.name)
    (sided : v.Sided) : ∀ w ∈ boundsWords number v, Word w := by
  obtain ⟨name, lower, upper⟩ := v
  obtain ⟨lowerSided, upperSided⟩ := sided
  have empty : Word "" := by decide
  have symbols : Word "free" ∧ Word "-inf" ∧ Word "<=" ∧ Word ">=" ∧ Word "=" := by decide
  have word {x : Float} (finite : Double.Finite x) : Word (number x) :=
    faithful.word (Double.isNaN_of_finite finite)
  cases lowerSided with
  | unbounded =>
      cases upperSided with
      | unbounded => simp [boundsWords, Bound.finite?, empty, symbols, called]
      | num finite => simp [boundsWords, Bound.finite?, empty, symbols, called, word finite]
  | num finiteLower =>
      cases upperSided with
      | unbounded => simp [boundsWords, Bound.finite?, empty, symbols, called, word finiteLower]
      | num finiteUpper =>
          dsimp only [boundsWords, Bound.finite?]
          split <;> simp [empty, symbols, called, word finiteLower, word finiteUpper]

/-- The line of the bounds starts with a blank. -/
theorem boundsWords_eq_cons (number : Float → String) (v : Variable Float) :
    ∃ w rest, boundsWords number v = "" :: w :: rest := by
  unfold boundsWords
  cases v.lower.finite? with
  | none => cases v.upper.finite? <;> exact ⟨_, _, rfl⟩
  | some lower =>
      cases v.upper.finite? with
      | none => exact ⟨_, _, rfl⟩
      | some upper =>
          dsimp only
          split <;> exact ⟨_, _, rfl⟩

end Reading

section Legible

/-- A program whose text says everything: names are words and those of the variables differ, no
coefficient is zero, all numbers are finite, and no bounds but those of free variables are both
infinite. -/
structure Writable (p : Program Float) : Prop where
  title : '\n' ∉ p.name.toList
  names : ∀ v ∈ p.vars, Word v.name
  distinct : (p.vars.toList.map (·.name)).Nodup
  rowNames : ∀ c ∈ p.constraints, Word c.name
  rowTerms : ∀ c ∈ p.constraints, ∀ t ∈ c.expr.terms, Coefficient t.2
  terms : ∀ t ∈ p.objective.expr.terms, Coefficient t.2
  constant : Scalar.isFinite p.objective.expr.constant = true
  bounds : ∀ v ∈ p.vars, v.isFree = true ∨ v.lower.finite? ≠ none ∨ v.upper.finite? ≠ none

/-- A program of which every line can be read back. -/
structure Legible (p : Program Float) : Prop where
  title : '\n' ∉ p.name.toList
  called : ∀ v < p.vars.size, Word (p.nameOf v)
  distinct : ∀ v < p.vars.size, ∀ w < p.vars.size, p.nameOf v = p.nameOf w → v = w
  rows : ∀ c ∈ p.constraints, ReadableRow p.vars.size c
  terms : ∀ t ∈ p.objective.expr.terms, Readable p.vars.size t
  constant : Scalar.isFinite p.objective.expr.constant = true
  names : ∀ v ∈ p.vars, Word v.name
  sided : ∀ v ∈ p.vars, v.Sided

theorem nameOf_eq (p : Program Float) {v : VarId} (known : v < p.vars.size) :
    p.nameOf v = p.vars[v].name := by
  simp [nameOf, known]

/-- A program made by calls can be read back if it can be written. -/
theorem Kept.legible {p : Program Float} (kept : p.Kept) (inScope : p.isScoped = true)
    (writable : p.Writable) : p.Legible where
  title := writable.title
  called v known := by
    rw [nameOf_eq p known]
    exact writable.names _ (Array.getElem_mem known)
  distinct v knownV w knownW same := by
    rw [nameOf_eq p knownV, nameOf_eq p knownW] at same
    have first : v < (p.vars.toList.map (·.name)).length := by simpa using knownV
    have second : w < (p.vars.toList.map (·.name)).length := by simpa using knownW
    have equal : (p.vars.toList.map (·.name))[v] = (p.vars.toList.map (·.name))[w] := by
      simpa using same
    exact writable.distinct.getElem_inj_iff.mp equal
  rows c member := by
    have known := (c.expr.within_iff _).mp (kept.inside c member)
    have numbers := kept.finite c member
    exact ⟨writable.rowNames c member,
      fun t inside => ⟨known t inside, writable.rowTerms c member t inside⟩, numbers.1, numbers.2⟩
  terms t inside := by
    rw [kept.isScoped_eq, LinearExpr.within_iff] at inScope
    exact ⟨inScope t inside, writable.terms t inside⟩
  constant := writable.constant
  names := writable.names
  sided v member := (kept.addable v member).sided (writable.bounds v member)

end Legible

section Lines

variable {number : Float → String}

/-- The title line; a program without a name has none. -/
def titleLines (name : String) : List String := if name.isEmpty then [] else ["\\ " ++ name]

theorem lines_eq (p : Program Float) :
    lines number p = titleLines p.name ++ directionText p.objective.direction ::
      (" obj: " ++ line (objectiveWords number p.nameOf p.objective.expr)) :: "Subject To" ::
      (p.constraints.toList.map (fun c => line (constraintWords number p.nameOf c)) ++ "Bounds" ::
        (p.vars.toList.map (fun v => line (boundsWords number v)) ++ ["End"])) := by
  have rows : constraintText number p.nameOf = fun c => line (constraintWords number p.nameOf c) :=
    funext (constraintText_eq number p.nameOf)
  have bounds : boundsText number = fun v => line (boundsWords number v) :=
    funext (boundsText_eq number)
  simp [lines, titleLines, rows, bounds, objectiveText_eq]

theorem join_lines (texts : List String) :
    String.join (texts.map (· ++ "\n")) = "\n".intercalate (texts ++ [""]) := by
  induction texts with
  | nil => rfl
  | cons text rest ih =>
      rw [List.map_cons, String.join_cons, ih, List.cons_append,
        String.intercalate_cons_of_ne_nil (by simp)]

theorem newline_notMem_titleLines {name : String} (plain : '\n' ∉ name.toList) :
    ∀ text ∈ titleLines name, '\n' ∉ text.toList := by
  unfold titleLines
  split
  · exact List.forall_mem_nil _
  · simpa using plain

theorem Legible.newline_notMem {p : Program Float} (faithful : Faithful number)
    (legible : p.Legible) : ∀ text ∈ lines number p, '\n' ∉ text.toList := by
  have direction : '\n' ∉ (directionText p.objective.direction).toList := by
    cases p.objective.direction <;> decide
  have constant := (Double.isFinite_iff _).mp legible.constant
  have objective := newline_notMem_line (words_objective faithful legible.called legible.terms
    (Double.isNaN_of_finite constant))
  rw [lines_eq]
  simp only [List.forall_mem_append, List.forall_mem_cons, List.forall_mem_map]
  refine ⟨newline_notMem_titleLines legible.title, direction, by simpa using objective, by decide,
    ?_, by decide, ?_, by decide, List.forall_mem_nil _⟩
  · intro c member
    have row := legible.rows c (Array.mem_toList_iff.mp member)
    exact newline_notMem_line (words_constraint faithful legible.called row)
  · intro v member
    have inside := Array.mem_toList_iff.mp member
    exact newline_notMem_line
      (words_bounds faithful (legible.names v inside) (legible.sided v inside))

/-- Legible programs with the same text have the same lines. -/
theorem Legible.lines_eq_of_render {p q : Program Float} (faithful : Faithful number)
    (legibleP : p.Legible) (legibleQ : q.Legible) (same : p.render number = q.render number) :
    lines number p = lines number q := by
  have plain {r : Program Float} (legible : r.Legible) :
      ∀ text ∈ lines number r ++ [""], '\n' ∉ text.toList :=
    List.forall_mem_append.mpr ⟨legible.newline_notMem faithful, by simp⟩
  rw [render, render, join_lines, join_lines] at same
  exact List.append_cancel_right (intercalate_inj rfl (plain legibleP) (plain legibleQ) (by simp)
    (by simp) same)

/-- A title line starts unlike the line after it. -/
theorem titleLines_inj {first second : String} {d e : Direction} {rest others : List String}
    (same : titleLines first ++ directionText d :: rest =
      titleLines second ++ directionText e :: others) :
    first = second ∧ d = e ∧ rest = others := by
  have apart (name : String) (direction : Direction) :
      "\\ " ++ name ≠ directionText direction := by
    intro equal
    have heads := congrArg (·.toList.head?) equal
    cases direction <;> simp [directionText] at heads
  have directions : Function.Injective directionText := by
    intro d e equal
    cases d <;> cases e <;> first | rfl | exact absurd equal (by decide)
  unfold titleLines at same
  by_cases noFirst : first.isEmpty = true <;> by_cases noSecond : second.isEmpty = true
  · rw [if_pos noFirst, if_pos noSecond] at same
    obtain ⟨equal, rests⟩ := List.cons.inj same
    rw [String.isEmpty_iff.mp noFirst, String.isEmpty_iff.mp noSecond]
    exact ⟨rfl, directions equal, rests⟩
  · rw [if_pos noFirst, if_neg noSecond] at same
    exact absurd (List.cons.inj same).1.symm (apart _ _)
  · rw [if_neg noFirst, if_pos noSecond] at same
    exact absurd (List.cons.inj same).1 (apart _ _)
  · rw [if_neg noFirst, if_neg noSecond] at same
    obtain ⟨titles, others⟩ := List.cons.inj same
    obtain ⟨equal, rests⟩ := List.cons.inj others
    exact ⟨String.append_right_inj _ |>.mp titles, directions equal, rests⟩

/-- No line that starts with a blank is a section title. -/
theorem line_ne_title (w : String) (rest : List String) : line ("" :: w :: rest) ≠ "Bounds" := by
  intro same
  have heads := congrArg (·.toList.head?) same
  simp [line] at heads

theorem bounds_notMem_rows (names : VarId → String) (rows : List (Constraint Float)) :
    "Bounds" ∉ rows.map fun c => line (constraintWords number names c) := by
  intro member
  obtain ⟨c, -, same⟩ := List.mem_map.mp member
  exact line_ne_title _ _ same

theorem bounds_notMem_bounds (vars : List (Variable Float)) :
    "Bounds" ∉ (vars.map fun v => line (boundsWords number v)) ++ ["End"] := by
  rw [List.mem_append, not_or]
  refine ⟨fun member => ?_, by decide⟩
  obtain ⟨v, -, same⟩ := List.mem_map.mp member
  obtain ⟨w, rest, words⟩ := boundsWords_eq_cons number v
  rw [words] at same
  exact line_ne_title _ _ same

end Lines

section Texts

/-- Two programs that say the same, with numbers compared numerically. -/
structure Alike (p q : Program Float) : Prop where
  name : p.name = q.name
  direction : p.objective.direction = q.objective.direction
  terms : p.objective.expr.terms = q.objective.expr.terms
  constant : Scalar.same p.objective.expr.constant q.objective.expr.constant = true
  rows : List.Forall₂ Constraint.Alike p.constraints.toList q.constraints.toList
  vars : List.Forall₂ Variable.Alike p.vars.toList q.vars.toList

/-- Lists that functions send to the same list agree place by place. -/
theorem forall₂_of_map_eq {β γ δ : Type} {f : β → δ} {g : γ → δ} {related : β → γ → Prop}
    {first : List β} {second : List γ} (same : first.map f = second.map g)
    (step : ∀ x ∈ first, ∀ y ∈ second, f x = g y → related x y) :
    List.Forall₂ related first second := by
  induction first generalizing second with
  | nil =>
      rw [List.map_nil, eq_comm, List.map_eq_nil_iff] at same
      subst same
      exact .nil
  | cons x xs ih =>
      cases second with
      | nil => cases same
      | cons y ys =>
          obtain ⟨heads, tails⟩ := List.cons.inj same
          refine .cons (step x List.mem_cons_self y List.mem_cons_self heads) (ih tails ?_)
          intro a inFirst b inSecond
          exact step a (List.mem_cons_of_mem x inFirst) b (List.mem_cons_of_mem y inSecond)

/-- Variables with the same names in order are called the same. -/
theorem nameOf_congr {p q : Program Float}
    (vars : List.Forall₂ Variable.Alike p.vars.toList q.vars.toList) :
    p.nameOf = q.nameOf ∧ p.vars.size = q.vars.size := by
  have names : p.vars.toList.map (·.name) = q.vars.toList.map (·.name) := by
    rw [← List.forall₂_eq_eq_eq, List.forall₂_map_left_iff, List.forall₂_map_right_iff]
    exact vars.imp fun _ _ alike => alike.name
  refine ⟨funext fun v => ?_, ?_⟩
  · have place := congrArg (·[v]?) names
    simp only [List.getElem?_map, Array.getElem?_toList] at place
    rw [nameOf, nameOf, place]
  · simpa using congrArg List.length names

section Same

variable {number : Float → String} {p q : Program Float} (faithful : Faithful number)
  (legibleP : p.Legible) (legibleQ : q.Legible)

include faithful legibleP legibleQ

theorem Legible.vars_alike
    (same : p.vars.toList.map (fun v => line (boundsWords number v)) =
      q.vars.toList.map (fun v => line (boundsWords number v))) :
    List.Forall₂ Variable.Alike p.vars.toList q.vars.toList := by
  have words {r : Program Float} (legible : r.Legible) {v : Variable Float}
      (member : v ∈ r.vars.toList) : (∀ w ∈ boundsWords number v, Word w) ∧ v.Sided := by
    have inside := Array.mem_toList_iff.mp member
    have sided := legible.sided v inside
    exact ⟨words_bounds faithful (legible.names v inside) sided, sided⟩
  have some (v : Variable Float) : boundsWords number v ≠ [] := by
    obtain ⟨w, rest, shape⟩ := boundsWords_eq_cons number v
    rw [shape]
    exact List.cons_ne_nil _ _
  refine forall₂_of_map_eq same fun v inP w inQ equal => ?_
  obtain ⟨plainV, sidedV⟩ := words legibleP inP
  obtain ⟨plainW, sidedW⟩ := words legibleQ inQ
  exact variable_alike faithful sidedV sidedW (line_inj plainV plainW (some v) (some w) equal)

variable (called : p.nameOf = q.nameOf) (count : p.vars.size = q.vars.size)

include called count

theorem Legible.rows_alike
    (same : p.constraints.toList.map (fun c => line (constraintWords number p.nameOf c)) =
      q.constraints.toList.map (fun c => line (constraintWords number q.nameOf c))) :
    List.Forall₂ Constraint.Alike p.constraints.toList q.constraints.toList := by
  refine forall₂_of_map_eq same fun c inP d inQ equal => ?_
  have readableC := legibleP.rows c (Array.mem_toList_iff.mp inP)
  have readableD := legibleQ.rows d (Array.mem_toList_iff.mp inQ)
  have plainC := words_constraint faithful legibleP.called readableC
  have plainD := words_constraint faithful legibleQ.called readableD
  rw [← called] at plainD equal
  rw [← count] at readableD
  exact constraint_alike faithful legibleP.distinct readableC readableD
    (line_inj plainC plainD (List.cons_ne_nil _ _) (List.cons_ne_nil _ _) equal)

theorem Legible.objective_alike
    (same : line (objectiveWords number p.nameOf p.objective.expr) =
      line (objectiveWords number q.nameOf q.objective.expr)) :
    p.objective.expr.terms = q.objective.expr.terms ∧
      Scalar.same p.objective.expr.constant q.objective.expr.constant = true := by
  have number {r : Program Float} (legible : r.Legible) :
      r.objective.expr.constant.isNaN = false :=
    Double.isNaN_of_finite ((Double.isFinite_iff _).mp legible.constant)
  have plainP := words_objective faithful legibleP.called legibleP.terms (number legibleP)
  have plainQ := words_objective faithful legibleQ.called legibleQ.terms (number legibleQ)
  have readableQ := legibleQ.terms
  rw [← called] at plainQ same
  rw [← count] at readableQ
  exact Program.objective_alike faithful legibleP.distinct legibleP.terms readableQ
    legibleP.constant legibleQ.constant
    (line_inj plainP plainQ (objectiveWords_ne_nil _ _ _) (objectiveWords_ne_nil _ _ _) same)

end Same

/-- Legible programs with the same text say the same. -/
theorem Legible.alike_of_render {number : Float → String} {p q : Program Float}
    (faithful : Faithful number) (legibleP : p.Legible) (legibleQ : q.Legible)
    (same : p.render number = q.render number) : p.Alike q := by
  have lines := legibleP.lines_eq_of_render faithful legibleQ same
  rw [lines_eq, lines_eq] at lines
  obtain ⟨names, directions, body⟩ := titleLines_inj lines
  obtain ⟨objectives, afterObjective⟩ := List.cons.inj body
  obtain ⟨-, sections⟩ := List.cons.inj afterObjective
  obtain ⟨rows, -, ends⟩ := (List.append_cons_inj_of_notMem (bounds_notMem_rows _ _)
    (bounds_notMem_bounds _)).mp sections
  -- The variables come first: the other lines use their names.
  have vars := legibleP.vars_alike faithful legibleQ (List.append_cancel_right ends)
  obtain ⟨called, count⟩ := nameOf_congr vars
  obtain ⟨terms, constant⟩ := legibleP.objective_alike faithful legibleQ called count
    ((String.append_right_inj _).mp objectives)
  exact ⟨names, directions, terms, constant,
    legibleP.rows_alike faithful legibleQ called count rows, vars⟩

theorem text?_eq_some_iff (p : Program Float) (text : String) :
    p.text? = some text ↔ p.isScoped = true ∧ p.text = text := by
  simp [text?]

/-- The text of a program loses nothing: whatever calls made two programs that can be written, if
their texts are the same, then they have the same name, objective, rows and variables, with
constants moved to the right of the rows and numbers compared numerically. -/
theorem text_loses_nothing (name other : String) (edits otherEdits : List (Edit Float))
    (text : String) :
    let p := construct name edits
    let q := construct other otherEdits
    p.Writable → q.Writable → p.text? = some text → q.text? = some text → p.Alike q := by
  intro p q writableP writableQ textP textQ
  obtain ⟨inScopeP, renderP⟩ := (p.text?_eq_some_iff text).mp textP
  obtain ⟨inScopeQ, renderQ⟩ := (q.text?_eq_some_iff text).mp textQ
  have legibleP := (kept_construct name edits).legible inScopeP writableP
  have legibleQ := (kept_construct other otherEdits).legible inScopeQ writableQ
  exact legibleP.alike_of_render Decimal.Layout.numeric.faithful legibleQ
    (renderP.trans renderQ.symm)

/-- Calls that make a program with two variables, a row and an objective. -/
def planned : List (Edit Float) :=
  [.bounded "a" 0.0 0.0, .free "b", .row "cap" ⟨[(0, 1.0), (1, -2.5)], 0.5⟩ .le 2.0,
    .objective .maximize ⟨[(1, 3.0)], 0.25⟩]

/-- Calls that make it in another way: one is refused, one is overruled, and the zeros and the
constant of the row differ. -/
def replanned : List (Edit Float) :=
  [.bounded "a" 0.0 (-0.0), .objective .minimize (.var 7), .free "b", .bounded "c" 1.0 0.0,
    .objective .maximize ⟨[(1, 3.0)], 0.25⟩, .row "cap" ⟨[(0, 1.0), (1, -2.5)], 0.0⟩ .le 1.5]

theorem text_loses_nothing_replanned :
    let p := construct "plan" planned
    let q := construct "plan" replanned
    ∃ text, p.Writable ∧ q.Writable ∧ p.text? = some text ∧ q.text? = some text ∧ p.Alike q := by
  intro p q
  have writableP : p.Writable := by constructor <;> decide +kernel
  have writableQ : q.Writable := by constructor <;> decide +kernel
  have textP : p.text? = some ("\\ plan\nMaximize\n obj: 3.0 b + 0.25\nSubject To\n" ++
      " cap: 1.0 a - 2.5 b <= 1.5\nBounds\n a = 0.0\n b free\nEnd\n") := by
    decide +kernel
  have textQ : q.text? = p.text? := by decide +kernel
  exact ⟨_, writableP, writableQ, textP, textQ.trans textP,
    text_loses_nothing "plan" "plan" planned replanned _ writableP writableQ textP
      (textQ.trans textP)⟩

end Texts

end Program
end RobustMargin
