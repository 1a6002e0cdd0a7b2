import RobustMargin.Proofs.Building
import RobustMargin.Proofs.Searches
import RobustMargin.Verification.Report

/-! # Readings

What a verification lets read. Without an optimum every reading is refused; with one there is a
value for every neuron of the network and for nothing else. -/
namespace RobustMargin.Verification

variable {α : Type} [Scalar α]

/-- A verification starts with a model for every label of a network with two outputs or more. -/
theorem withLabel_eq {inclusion : Inclusion ℝ} (made : inclusion.Propagated) {label : Nat}
    (inRange : label < inclusion.network.outputs) (rivals : 2 ≤ inclusion.network.outputs)
    (formulation : Formulation) : withLabel inclusion label formulation =
      .ok ⟨inclusion, Model.ofRelaxation inclusion label formulation, .built, none⟩ := by
  rw [withLabel, Model.build_eq made inRange rivals formulation]
  rfl

/-- Every verification starts unsolved, from the model of its relaxation. -/
theorem eq_of_withLabel {inclusion : Inclusion α} {label : Nat} {formulation : Formulation}
    {v : Verification α} (started : withLabel inclusion label formulation = .ok v) :
    v = ⟨inclusion, Model.ofRelaxation inclusion label formulation, .built, none⟩ ∧
      v.model.BuiltFor inclusion label formulation := by
  obtain ⟨m, built, started⟩ := exists_of_bind_eq_ok started
  obtain rfl := Except.ok.inj started
  obtain ⟨-, -, rfl⟩ := Model.eq_ofRelaxation_of_build built
  exact ⟨rfl, Model.builtFor_of_build built⟩

/-- The first solve writes the status and the optimum of the run over the programs. -/
theorem solve_eq {σ : Type} {v : Verification α} (unsolved : v.state = .built)
    {solver : Solver α σ} {state : σ} {c : Conclusion α}
    (ended : (Solve.run v.model solver state).1 = some c) :
    v.solve solver state =
      some (.ok ⟨{ v with state := .solved c.status, solution := c.solution }, c.status,
        c.fallsShort, (Solve.run v.model solver state).2⟩) := by
  rcases run : Solve.run v.model solver state with ⟨conclusion, next⟩
  rw [run] at ended
  obtain rfl : conclusion = some c := ended
  rw [solve, unsolved]
  simp only [run]

theorem optimum_eq_ok_iff (v : Verification α) (o : Optimum α) :
    v.optimum = .ok o ↔ (∃ value, v.state = .solved (.optimal value)) ∧ v.solution = some o := by
  rw [optimum]
  match v.state, v.solution with
  | .built, _ => simp
  | .solved (.optimal _), some other => simp
  | .solved (.optimal _), none => simp
  | .solved (.failed _), _ => simp

theorem valueOf_none {v : Verification α} {o : Optimum α} (found : v.optimum = .ok o)
    (name : String) : v.valueOf none name = .error (.invalidInput (.noVariable name)) := by
  rw [valueOf, found]
  rfl

theorem valueOf_eq_ok_iff (v : Verification α) (slot : Option VarId) (name : String) (y : α) :
    v.valueOf slot name = .ok y ↔ ∃ o index, v.optimum = .ok o ∧ slot = some index ∧
      o.values[index]? = some y := by
  constructor
  · intro read
    obtain ⟨o, found, read⟩ := exists_of_bind_eq_ok read
    cases value : slot.bind (o.values[·]?) with
    | none =>
        rw [value] at read
        cases read
    | some z =>
        rw [value] at read
        obtain rfl := Except.ok.inj read
        obtain ⟨index, isSlot, present⟩ := Option.bind_eq_some_iff.mp value
        exact ⟨o, index, found, isSlot, present⟩
  · rintro ⟨o, index, found, rfl, present⟩
    rw [valueOf, found]
    simp only [bind, Except.bind, Option.bind_some, present]
    rfl

/-- Every reading is refused for a reason; residuals may be missing altogether. -/
structure Refuses (v : Verification α) (fault : StateFault α) : Prop where
  objective : v.objective = .error (.invalidState fault)
  competitor : v.worstCompetitor = .error (.invalidState fault)
  report : v.report = .error (.invalidState fault)
  x : ∀ layer k, v.xValue layer k = .error (.invalidState fault)
  z : ∀ layer k, v.zValue layer k = .error (.invalidState fault)
  residual : v.formulation.exposesResiduals = true →
    ∀ layer k, v.residualValue layer k = .error (.invalidState fault)
  noResiduals : v.formulation.exposesResiduals = false →
    ∀ layer k, v.residualValue layer k = .error (.invalidState (.noResiduals v.formulation))

theorem residualValue_of_absent (v : Verification α)
    (absent : v.formulation.exposesResiduals = false) (layer k : Nat) :
    v.residualValue layer k = .error (.invalidState (.noResiduals v.formulation)) := by
  rw [residualValue, absent]
  exact if_neg Bool.false_ne_true

theorem residualValue_of_present (v : Verification α)
    (present : v.formulation.exposesResiduals = true) (layer k : Nat) :
    v.residualValue layer k =
      v.valueOf (v.model.layout.r? layer k) (indexedName "r" layer k) :=
  if_pos present

theorem refuses_of_optimum {v : Verification α} {fault : StateFault α}
    (refused : v.optimum = .error (.invalidState fault)) : v.Refuses fault := by
  have noValue (slot : Option VarId) (name : String) :
      v.valueOf slot name = .error (.invalidState fault) := by
    rw [valueOf, refused]
    rfl
  constructor
  · rw [objective, refused]
    rfl
  · rw [worstCompetitor, refused]
    rfl
  · rw [report, refused]
    rfl
  · intro layer k
    exact noValue _ _
  · intro layer k
    exact noValue _ _
  · intro present layer k
    rw [v.residualValue_of_present present]
    exact noValue _ _
  · exact v.residualValue_of_absent

/-- A margin can be read with a competitor, and values exactly where the network has neurons. Where
it has none, the error names what was asked for. -/
structure Serves (v : Verification α) (network : Network α) (margin : α) : Prop where
  objective : v.objective = .ok margin
  competitor : ∃ k < network.outputs, k ≠ v.label ∧ v.worstCompetitor = .ok (some k)
  report : ∃ text, v.report = .ok text
  x : ∀ layer k, (∃ y, v.xValue layer k = .ok y) ↔ network.HasNeuron layer k
  z : ∀ layer k, (∃ y, v.zValue layer k = .ok y) ↔ 0 < layer ∧ network.HasNeuron layer k
  residual : v.formulation.exposesResiduals = true →
    ∀ layer k, (∃ y, v.residualValue layer k = .ok y) ↔ 0 < layer ∧ network.HasNeuron layer k
  noX : ∀ layer k, ¬network.HasNeuron layer k →
    v.xValue layer k = .error (.invalidInput (.noVariable s!"x_{layer}_{k}"))
  noZ : ∀ layer k, ¬(0 < layer ∧ network.HasNeuron layer k) →
    v.zValue layer k = .error (.invalidInput (.noVariable s!"z_{layer}_{k}"))
  noResidual : v.formulation.exposesResiduals = true →
    ∀ layer k, ¬(0 < layer ∧ network.HasNeuron layer k) →
      v.residualValue layer k = .error (.invalidInput (.noVariable s!"r_{layer}_{k}"))
  noResiduals : v.formulation.exposesResiduals = false →
    ∀ layer k, v.residualValue layer k = .error (.invalidState (.noResiduals v.formulation))

/-- An optimum from a solution of a primal program: it has a value for every variable and names
a competitor. -/
structure Readable (o : Optimum α) (inclusion : Inclusion α) (label : Nat)
    (formulation : Formulation) : Prop where
  full : o.values.size = (Blueprint.base inclusion formulation).vars.size
  competitor : ∃ k < inclusion.network.outputs, k ≠ label ∧ o.competitor = some k

theorem serves_of_optimal {v : Verification α} {inclusion : Inclusion α} {label : Nat}
    {formulation : Formulation} (made : inclusion.Propagated)
    (model : v.model.BuiltFor inclusion label formulation) {o : Optimum α}
    (found : v.optimum = .ok o) (readable : Readable o inclusion label formulation) :
    v.Serves inclusion.network o.objective := by
  have exposes : v.formulation.exposesResiduals = formulation.exposesResiduals :=
    congrArg Formulation.exposesResiduals model.formulation_eq
  -- A reading succeeds where the layout has a variable, as no value is missing at the end.
  have values (s : Slot) (name : String) :
      (∃ y, v.valueOf (v.model.layout.slot? s) name = .ok y) ↔
        ∃ index, (Blueprint.layoutOf inclusion formulation.exposesResiduals).slot? s =
          some index := by
    rw [model.slot?_eq]
    constructor
    · rintro ⟨y, read⟩
      obtain ⟨-, index, -, place, -⟩ := (v.valueOf_eq_ok_iff _ _ _).mp read
      exact ⟨index, place⟩
    · rintro ⟨index, place⟩
      have bound : index < o.values.size := readable.full ▸ made.slot_lt_size formulation place
      exact ⟨o.values[index], (v.valueOf_eq_ok_iff _ _ _).mpr
        ⟨o, index, found, place, Array.getElem?_eq_getElem bound⟩⟩
  have missing {s : Slot} (name : String)
      (absent : ¬∃ index, (Blueprint.layoutOf inclusion formulation.exposesResiduals).slot? s =
        some index) : v.valueOf (v.model.layout.slot? s) name =
          .error (.invalidInput (.noVariable name)) := by
    have none : v.model.layout.slot? s = none := by
      rw [model.slot?_eq]
      exact Option.eq_none_iff_forall_ne_some.mpr fun index place => absent ⟨index, place⟩
    rw [none]
    exact valueOf_none found name
  obtain ⟨k, bound, other, isCompetitor⟩ := readable.competitor
  constructor
  · rw [objective, found]
    rfl
  · refine ⟨k, bound, fun same => other (same.trans model.label_eq), ?_⟩
    rw [worstCompetitor, found]
    exact congrArg Except.ok isCompetitor
  · rw [report, found]
    exact ⟨_, rfl⟩
  · intro layer k
    exact (values (.post layer k) _).trans (made.exists_slot_post_iff _ layer k)
  · intro layer k
    exact (values (.pre layer k) _).trans (made.exists_slot_pre_iff _ layer k)
  · intro present layer k
    rw [v.residualValue_of_present present]
    refine ((values (.residual layer k) _).trans (made.exists_slot_residual_iff _ layer k)).trans ?_
    exact and_iff_right (exposes.symm.trans present)
  · intro layer k absent
    exact missing _ (mt (made.exists_slot_post_iff _ layer k).mp absent)
  · intro layer k absent
    exact missing _ (mt (made.exists_slot_pre_iff _ layer k).mp absent)
  · intro present layer k absent
    rw [v.residualValue_of_present present]
    exact missing _ (mt (fun placed =>
      ((made.exists_slot_residual_iff _ layer k).mp placed).2) absent)
  · exact v.residualValue_of_absent

end RobustMargin.Verification
