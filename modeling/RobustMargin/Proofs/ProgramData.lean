import RobustMargin.Proofs.Editing
import RobustMargin.Proofs.JsonValues
import RobustMargin.Wire.Program

/-! # Programs as data

The JSON text of a program with finite numbers is decoded as the program if all bounds are finite,
and is refused otherwise: an infinite bound is written as null, which is no number. -/
namespace RobustMargin

open Json Decimal

/-- Neither bound is infinite. -/
def Variable.isBounded {α : Type} (v : Variable α) : Bool :=
  v.lower.finite?.isSome && v.upper.finite?.isSome

/-- The expressions of the rows and of the objective. -/
def Program.expressions {α : Type} (p : Program α) : List (LinearExpr α) :=
  p.constraints.toList.map (·.expr) ++ [p.objective.expr]

/-- The numbers of an expression are finite, and its indices are machine words. -/
structure LinearExpr.Storable (e : LinearExpr Float) : Prop where
  indices : ∀ t ∈ e.terms, t.1 < 2 ^ 64
  coefficients : ∀ t ∈ e.terms, t.2.isFinite = true
  constant : e.constant.isFinite = true

theorem LinearExpr.storable_iff (e : LinearExpr Float) : e.Storable ↔
    (∀ t ∈ e.terms, t.1 < 2 ^ 64) ∧ (∀ t ∈ e.terms, t.2.isFinite = true) ∧
      e.constant.isFinite = true :=
  ⟨fun s => ⟨s.indices, s.coefficients, s.constant⟩, fun s => ⟨s.1, s.2.1, s.2.2⟩⟩

instance (e : LinearExpr Float) : Decidable e.Storable :=
  decidable_of_iff _ e.storable_iff.symm

namespace Bound

/-- The value of a bound is finite if the bound restricts the variable, and then gives the bound
again. -/
structure Faithful (b : Bound Float) : Prop where
  finite_eq : b.toScalar.isFinite = b.finite?.isSome
  same : b.finite?.isSome = true → ofScalar b.toScalar = b

theorem faithful_negInf : Faithful negInf := ⟨rfl, nofun⟩

theorem faithful_posInf : Faithful posInf := ⟨rfl, nofun⟩

theorem faithful_ofScalar {x : Float} (number : Scalar.isNumber x = true) :
    (ofScalar x).Faithful := by
  unfold ofScalar
  split_ifs with bottom top
  · exact faithful_negInf
  · exact faithful_posInf
  · refine ⟨?_, fun _ => ?_⟩
    · rw [toScalar, Double.isFinite_eq, Scalar.isFinite, number]
      simp [bottom, top, finite?]
    · rw [toScalar, ofScalar, if_neg bottom, if_neg top]

end Bound

theorem Variable.free_unbounded (name : String) :
    let v : Variable Float := .free name
    (v.lower.toScalar.isFinite && v.upper.toScalar.isFinite) = false := by
  intro v
  change ((Bound.negInf : Bound Float).toScalar.isFinite && _) = false
  rw [Bound.faithful_negInf.finite_eq]
  rfl

namespace Wire

/-- A variable is decoded if the values of its bounds are finite. -/
theorem decodeVariable_eq (v : Variable Float) :
    decodeVariable (encodeVariable v).written =
      if v.lower.toScalar.isFinite && v.upper.toScalar.isFinite then
        .ok ⟨v.name, .ofScalar v.lower.toScalar, .ofScalar v.upper.toScalar⟩
      else .error .unfit := by
  change decodeVariable (object [("name", string v.name),
    ("lower", written (real v.lower.toScalar)), ("upper", written (real v.upper.toScalar))]) = _
  cases low : v.lower.toScalar.isFinite <;> cases high : v.upper.toScalar.isFinite <;>
    simp [decodeVariable, collectFields, floatOf_written, low, high]

theorem decodeVariable_addable {v : Variable Float} (addable : v.Addable) :
    decodeVariable (encodeVariable v).written =
      if v.isBounded then .ok v else .error .unfit := by
  have bounds : v.lower.Faithful ∧ v.upper.Faithful := by
    cases addable with
    | free name => exact ⟨Bound.faithful_negInf, Bound.faithful_posInf⟩
    | bounded name lower upper _ =>
        exact ⟨Bound.faithful_ofScalar lower, Bound.faithful_ofScalar upper⟩
  obtain ⟨lower, upper⟩ := bounds
  rw [decodeVariable_eq, lower.finite_eq, upper.finite_eq]
  change (if v.isBounded = true then _ else _) = _
  split
  · rename_i bounded
    obtain ⟨low, high⟩ := Bool.and_eq_true_iff.mp bounded
    rw [lower.same low, upper.same high]
  · rfl

theorem decodeTerm_eq {t : VarId × Float} (small : t.1 < 2 ^ 64) (finite : t.2.isFinite = true) :
    pairOf wordOf floatOf (written (array [ofNat t.1, real t.2])) = .ok t := by
  change pairOf wordOf floatOf (array [ofNat t.1, written (real t.2)]) = _
  simp [pairOf, wordOf_ofNat small, floatOf_finite finite]

theorem decodeExpr_eq {e : LinearExpr Float} (storable : e.Storable) :
    decodeExpr (encodeExpr e).written = .ok e := by
  have terms : listOf (pairOf wordOf floatOf)
      (written (ofList (fun t => array [ofNat t.1, real t.2]) e.terms)) = .ok e.terms := by
    rw [written_ofList]
    exact listOf_ofList_ok _ fun t member =>
      decodeTerm_eq (storable.indices t member) (storable.coefficients t member)
  change decodeExpr (object [("terms", written (ofList _ e.terms)),
    ("constant", written (real e.constant))]) = _
  simp [decodeExpr, collectFields, terms, floatOf_finite storable.constant]

theorem decodeSense_eq (sense : Sense) : decodeSense (string (senseName sense)) = .ok sense := by
  cases sense <;> rfl

theorem decodeDirection_eq (direction : Direction) :
    decodeDirection (string (directionName direction)) = .ok direction := by
  cases direction <;> rfl

theorem decodeConstraint_eq {c : Constraint Float} (storable : c.expr.Storable)
    (finite : c.rhs.isFinite = true) :
    decodeConstraint (encodeConstraint c).written = .ok c := by
  change decodeConstraint (object [("name", string c.name), ("expr", (encodeExpr c.expr).written),
    ("sense", string (senseName c.sense)), ("rhs", written (real c.rhs))]) = _
  simp [decodeConstraint, collectFields, decodeExpr_eq storable, decodeSense_eq,
    floatOf_finite finite]

theorem decodeObjective_eq {o : Objective Float} (storable : o.expr.Storable) :
    decodeObjective (encodeObjective o).written = .ok o := by
  change decodeObjective (object [("sense", string (directionName o.direction)),
    ("expr", (encodeExpr o.expr).written)]) = _
  simp [decodeObjective, collectFields, decodeExpr_eq storable, decodeDirection_eq]

theorem encodeProgram_written (p : Program Float) : (encodeProgram p).written =
    object [("name", string p.name),
      ("variables", ofList (fun v => (encodeVariable v).written) p.vars.toList),
      ("constraints", ofList (fun c => (encodeConstraint c).written) p.constraints.toList),
      ("objective", (encodeObjective p.objective).written)] := by
  rw [← written_ofList, ← written_ofList]
  rfl

theorem encodeProgram_wellFormed (p : Program Float) : (encodeProgram p).wellFormed = true := by
  have vars := wellFormed_ofList encodeVariable p.vars.toList fun _ _ => rfl
  have expr (e : LinearExpr Float) : (encodeExpr e).wellFormed = true := by
    have terms := wellFormed_ofList (fun t : VarId × Float => array [ofNat t.1, real t.2]) e.terms
      fun _ _ => rfl
    simp [encodeExpr, wellFormed, fieldsWellFormed, terms]
  have rows := wellFormed_ofList encodeConstraint p.constraints.toList fun c _ => by
    simp [encodeConstraint, wellFormed, fieldsWellFormed, expr c.expr]
  simp [encodeProgram, encodeObjective, wellFormed, fieldsWellFormed, vars, rows,
    expr p.objective.expr]

/-- A program is decoded if all its variables are bounded, and refused otherwise. -/
theorem decodeProgram_eq {p : Program Float} (kept : p.Kept)
    (storable : ∀ e ∈ p.expressions, e.Storable) :
    decodeProgram (encodeProgram p).written =
      if p.vars.all Variable.isBounded then .ok p else .error .unfit := by
  have vars := listOf_ofList Variable.isBounded id p.vars.toList fun v member =>
    decodeVariable_addable (kept.addable v (Array.mem_toList_iff.mp member))
  have rows := listOf_ofList_ok p.constraints.toList fun c member =>
    decodeConstraint_eq
      (storable c.expr (List.mem_append_left _ (List.mem_map_of_mem member)))
      ((Double.isFinite_eq _).trans (kept.finite c (Array.mem_toList_iff.mp member)).1)
  have objective := decodeObjective_eq
    (storable p.objective.expr (List.mem_append_right _ List.mem_cons_self))
  rw [Array.all_toList] at vars
  rw [encodeProgram_written]
  cases bounded : p.vars.all Variable.isBounded <;> rw [bounded] at vars
  · simp [decodeProgram, collectFields, vars]
  · simp [decodeProgram, collectFields, vars, rows, objective]

/-- An infinite bound is enough to refuse a program, whatever else it holds. -/
theorem decodeProgram_unbounded {p : Program Float} {v : Variable Float} (member : v ∈ p.vars)
    (infinite : (v.lower.toScalar.isFinite && v.upper.toScalar.isFinite) = false) :
    decodeProgram (encodeProgram p).written = .error .unfit := by
  have vars := listOf_ofList _ _ p.vars.toList fun v _ => decodeVariable_eq v
  have unbounded : (p.vars.toList.all fun v =>
      v.lower.toScalar.isFinite && v.upper.toScalar.isFinite) = false :=
    List.all_eq_false.mpr ⟨v, Array.mem_toList_iff.mpr member, Bool.eq_false_iff.mp infinite⟩
  rw [unbounded] at vars
  rw [encodeProgram_written]
  simp [decodeProgram, collectFields, vars]

end Wire

/-- The pre-activations of a relaxation are free variables. -/
theorem Inclusion.Propagated.exists_free {α : Type} [Scalar α] {inclusion : Inclusion α}
    (made : inclusion.Propagated) (formulation : Formulation) :
    ∃ name, .free name ∈ (Blueprint.base inclusion formulation).vars := by
  let last := inclusion.network.lastLayer
  have found := inclusion.network.lastLayer_found
  have boundsFound := made.layers_getElem? (inclusion.network.depth - 1)
  rw [found, Option.map_some] at boundsFound
  obtain ⟨n, rest, shape⟩ : ∃ n rest, last.bounds inclusion.activation inclusion.linearization
      (inclusion.boxAfter (inclusion.network.depth - 1)) = n :: rest := by
    refine List.exists_cons_of_length_pos ?_
    rw [Layer.bounds_length]
    exact last.outputs_pos
  have inLayers : ((last, n :: rest), inclusion.network.depth - 1) ∈
      (Blueprint.layersWithBounds inclusion).zipIdx :=
    List.mem_zipIdx_iff_getElem?.mpr ((Blueprint.layersWithBounds_getElem? inclusion _ _).mpr
      ⟨found, shape ▸ boundsFound⟩)
  refine ⟨indexedName "z" (inclusion.network.depth - 1 + 1) 0, ?_⟩
  refine Array.mem_append_right _ (List.mem_toArray.mpr ?_)
  rw [Blueprint.vars_relaxation]
  refine List.mem_append_right _
    (List.mem_flatMap.mpr ⟨_, inLayers, List.mem_append_left _ ?_⟩)
  exact List.mem_flatMap.mpr ⟨(n, 0), List.mem_cons_self, List.mem_cons_of_mem _ List.mem_cons_self⟩

/-- Every program of a model that was built has a free variable. -/
theorem Model.exists_free_of_build {α : Type} [Scalar α] {inclusion : Inclusion α}
    (made : inclusion.Propagated) {label : Nat} {formulation : Formulation} {m : Model α}
    (built : Model.build inclusion label formulation = .ok m) :
    ∀ q ∈ m.programs ++ m.witnesses, ∃ name, .free name ∈ q.program.vars := by
  obtain ⟨-, -, rfl⟩ := eq_ofRelaxation_of_build built
  have primal (q) (member : q ∈ marginPrograms inclusion label formulation) :
      ∃ name, .free name ∈ q.program.vars := by
    obtain ⟨k, -, rfl⟩ := List.mem_map.mp member
    exact made.exists_free formulation
  intro q member
  cases formulation with
  | direct => exact primal q (by simpa [ofRelaxation, Formulation.perCompetitor] using member)
  | baked => exact primal q (by simpa [ofRelaxation, Formulation.perCompetitor] using member)
  | auxiliary =>
      rcases List.mem_append.mp member with common | witness
      · obtain rfl := List.mem_singleton.mp common
        exact ⟨"t", Array.mem_append_left _ (Array.mem_push_self)⟩
      · exact primal q witness

namespace Program

/-- The JSON texts of a program: on one line, and with one field or item on each line. -/
def texts (p : Program Float) : List String :=
  [(Wire.encodeProgram p).compact, (Wire.encodeProgram p).pretty]

theorem decodeText_texts {p : Program Float}
    (known : AllReadBack Numeral.scaled (Wire.encodeProgram p).numbers) {text : String}
    (member : text ∈ p.texts) : decodeText Wire.decodeProgram text =
      Wire.decodeProgram (Wire.encodeProgram p).written := by
  rcases List.mem_pair.mp member with rfl | rfl
  · exact decodeText_compact _ (Wire.encodeProgram_wellFormed p) known
  · exact decodeText_pretty _ (Wire.encodeProgram_wellFormed p) known

/-- Where the text of each finite number is read as that number again, the texts of a program under
construction with finite numbers are decoded as the program if all bounds are finite, and refused if
not. All programs of a model are refused. -/
theorem decodeText_iff_bounded (name : String) (edits : List (Edit Float)) :
    let p := construct name edits
    ((∀ e ∈ p.expressions, e.Storable) →
      AllReadBack Numeral.scaled (Wire.encodeProgram p).numbers →
      ∀ text ∈ p.texts, decodeText Wire.decodeProgram text =
        if p.vars.all Variable.isBounded then .ok p else .error .unfit) ∧
    ∀ input f network point inclusion label formulation m,
      Inclusion.build input f network point = .ok inclusion →
      Model.build inclusion label formulation = .ok m →
      ∀ q ∈ m.programs ++ m.witnesses,
        AllReadBack Numeral.scaled (Wire.encodeProgram q.program).numbers →
        ∀ text ∈ q.program.texts, decodeText Wire.decodeProgram text = .error .unfit := by
  intro p
  constructor
  · intro storable known text member
    rw [decodeText_texts known member]
    exact Wire.decodeProgram_eq (kept_construct name edits) storable
  · intro input f network point inclusion label formulation m made built q inModel known text member
    have propagated := ((Inclusion.build_eq_ok_iff _ _ _ _ _).mp made).1
    obtain ⟨name, free⟩ := Model.exists_free_of_build propagated built q inModel
    rw [decodeText_texts known member]
    exact Wire.decodeProgram_unbounded free (Variable.free_unbounded name)

/-- Two bounded variables, a row over both, and an objective. -/
def bounded : Program Float :=
  construct "bounded" [.bounded "x" 0.0 1.5, .bounded "y" (-2.0) 2.0,
    .row "sum" ⟨[(0, 2.0), (1, -0.5)], 0.25⟩ .le 1.0, .objective .maximize ⟨[(1, 1.0)], 0.0⟩]

/-- The sum and the difference of two inputs. -/
def sumAndDifference : Network Float where
  layers := [⟨⟨2, [[1.0, 1.0], [1.0, -1.0]], by decide⟩, [0.0, 0.0], by decide, List.cons_ne_nil _ _,
    by decide, by decide⟩]
  layers_ne_nil := List.cons_ne_nil _ _
  chained := trivial

def squareInclusion : Inclusion Float where
  input := .unitSquare
  activation := .identity
  network := sumAndDifference
  linearization := .preActivation
  layers := Network.bounds .identity .preActivation sumAndDifference.layers InputBox.unitSquare.box

theorem decodeText_iff_bounded_square :
    (∀ text ∈ bounded.texts, decodeText Wire.decodeProgram text = .ok bounded) ∧
      ∃ m, Model.build squareInclusion 0 .auxiliary = .ok m ∧
        m.programs.length + m.witnesses.length = 2 ∧
        ∀ q ∈ m.programs ++ m.witnesses, ∀ text ∈ q.program.texts,
          decodeText Wire.decodeProgram text = .error .unfit := by
  constructor
  · intro text member
    have decoded := (decodeText_iff_bounded "bounded" _).1 (by decide +kernel)
      (by decide +kernel) text member
    have all : bounded.vars.all Variable.isBounded = true := by decide +kernel
    exact decoded.trans (if_pos all)
  · have made : Inclusion.build squareInclusion.input .identity sumAndDifference .preActivation =
        .ok squareInclusion := Inclusion.build_eq _ _ _ _ rfl
    have accepted : (Model.build squareInclusion 0 .auxiliary).isOk = true := by decide +kernel
    obtain ⟨m, built⟩ := exists_ok_of_isOk accepted
    obtain ⟨-, -, rfl⟩ := Model.eq_ofRelaxation_of_build built
    have known : ∀ q ∈ (Model.ofRelaxation squareInclusion 0 .auxiliary).programs ++
        (Model.ofRelaxation squareInclusion 0 .auxiliary).witnesses,
        AllReadBack Numeral.scaled (Wire.encodeProgram q.program).numbers := by
      decide +kernel
    exact ⟨_, built, by decide +kernel, fun q inModel => (decodeText_iff_bounded "" []).2
      _ _ _ _ _ _ _ _ made built q inModel (known q inModel)⟩

/-- A free variable is enough: its bounds are written as null. -/
theorem decodeText_free :
    let p := construct "" [.free "x"]
    (∀ e ∈ p.expressions, e.Storable) ∧ AllReadBack Numeral.scaled (Wire.encodeProgram p).numbers ∧
      ∀ text ∈ p.texts, decodeText Wire.decodeProgram text = .error .unfit := by
  intro p
  have storable : ∀ e ∈ p.expressions, e.Storable := by
    intro e member
    obtain rfl : e = .zero := List.mem_singleton.mp member
    exact ⟨nofun, nofun, by decide +kernel⟩
  have known : AllReadBack Numeral.scaled (Wire.encodeProgram p).numbers := by decide +kernel
  refine ⟨storable, known, fun text member => ?_⟩
  rw [decodeText_texts known member]
  exact Wire.decodeProgram_unbounded (v := .free "x") (by decide +kernel)
    (Variable.free_unbounded "x")

end Program
end RobustMargin
