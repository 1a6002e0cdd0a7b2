import RobustMargin.Proofs.Certificates
import RobustMargin.Proofs.Relaxation

/-! # Construction of models

Building a model succeeds for every label of a network with at least two outputs. Its primal
programs minimize the margins over the relaxation, one for each competitor. -/
namespace RobustMargin

namespace Inclusion.Propagated

variable {inclusion : Inclusion ℝ} (made : inclusion.Propagated)
include made

theorem width?_depth (residuals : Bool) :
    (Blueprint.layoutOf inclusion residuals).width? inclusion.depth =
      some inclusion.network.outputs := by
  have last := made.widths_getElem? residuals inclusion.network.lastLayer_found
  have depth := Nat.sub_add_cancel inclusion.network.depth_pos
  rw [made.depth_eq, ← depth]
  exact last

theorem slot_output (residuals : Bool) {k : Nat} (bound : k < inclusion.network.outputs) :
    (Blueprint.layoutOf inclusion residuals).slot? (.post inclusion.depth k) =
      some ((Blueprint.layoutOf inclusion residuals).post inclusion.depth k) :=
  (Layout.x?_eq_some_iff _ _ _ _).mpr ⟨_, made.width?_depth residuals, bound, rfl⟩

theorem output_lt_size (formulation : Formulation) {k : Nat}
    (bound : k < inclusion.network.outputs) :
    (Blueprint.layoutOf inclusion formulation.exposesResiduals).post inclusion.depth k <
      (Blueprint.base inclusion formulation).vars.size := by
  have before := Layout.post_lt_offset _ (made.width?_depth formulation.exposesResiduals) bound
  have widths : (Blueprint.layoutOf inclusion formulation.exposesResiduals).widths.length =
      inclusion.depth := List.length_map _
  rwa [made.base_size, Layout.size, widths]

theorem base_rows_within (formulation : Formulation) (c : Constraint ℝ)
    (member : c ∈ (Blueprint.base inclusion formulation).constraints) :
    c.expr.within (Blueprint.base inclusion formulation).vars.size = true := by
  have fit := Blueprint.fit_relaxation made formulation.exposesResiduals
  rw [Blueprint.base, Program.size_extend]
  refine Pieces.rows_within fit ?_
  simpa [Blueprint.base, Program.extend, Program.empty] using member

end Inclusion.Propagated

namespace Model

/-- The programs whose points are values of the network. -/
def primal {α : Type} (m : Model α) : List (MarginProgram α) :=
  if m.formulation.perCompetitor then m.programs else m.witnesses

section Parts

variable {α : Type} [Scalar α] (inclusion : Inclusion α) (label : Nat) (formulation : Formulation)

/-- The margin over a competitor in the variables of the relaxation. -/
def margin (competitor : Nat) : LinearExpr α :=
  marginExpr (Blueprint.layoutOf inclusion formulation.exposesResiduals) inclusion.depth label
    competitor

def marginPrograms : List (MarginProgram α) :=
  (competitors inclusion.network.outputs label).map
    (marginProgram (Blueprint.base inclusion formulation) (margin inclusion label formulation))

/-- The dual blocks of all competitors, after the margin variable. -/
def dualBlocks : List (Nat × Dual.Progress α) :=
  blocks (Blueprint.base inclusion formulation) (margin inclusion label formulation) 1
    (competitors inclusion.network.outputs label)

/-- The program of the common margin. -/
def robustProgram : Program α :=
  let begun := (Program.empty (programName formulation)).push (.free "t")
  let extended := begun.extend ((dualBlocks inclusion label formulation).flatMap (blockPieces 0))
  extended.setObjective .maximize (.var 0)

/-- The model of a relaxation. -/
def ofRelaxation : Model α :=
  let layout := Blueprint.layoutOf inclusion formulation.exposesResiduals
  let primal := marginPrograms inclusion label formulation
  if formulation.perCompetitor then ⟨formulation, label, layout, primal, [], []⟩
  else ⟨formulation, label, { layout with margin := some 0 },
    [⟨none, robustProgram inclusion label formulation⟩], primal,
    (dualBlocks inclusion label formulation).map certificateOf⟩

theorem mem_competitors (outputs k : Nat) :
    k ∈ competitors outputs label ↔ k < outputs ∧ k ≠ label := by
  rw [competitors, List.mem_filter, List.mem_range, decide_eq_true_iff]

theorem ofRelaxation_primal : (ofRelaxation inclusion label formulation).primal =
    marginPrograms inclusion label formulation := by
  cases formulation <;> rfl

/-- The margin variable has no place among the values of the network. -/
theorem ofRelaxation_slot? (s : Slot) : (ofRelaxation inclusion label formulation).layout.slot? s =
    (Blueprint.layoutOf inclusion formulation.exposesResiduals).slot? s := by
  cases formulation <;> cases s <;> rfl

end Parts

section Bounds

variable {α : Type} [Scalar α]

/-- The bounds of dual blocks only use variables of the blocks. -/
theorem within_blocks (base : Program α) (margin : Nat → LinearExpr α) (t : VarId)
    (rivals : List Nat) (start : VarId) : ∀ b ∈ blocks base margin start rivals,
      b.2.bound.within (start +
        (Pieces.vars ((blocks base margin start rivals).flatMap (blockPieces t))).length) =
          true := by
  induction rivals generalizing start with
  | nil => exact nofun
  | cons k rest ih =>
      rw [blocks, List.forall_mem_cons, List.flatMap_cons, Pieces.vars_append, List.length_append,
        vars_blockPieces, ← Nat.add_assoc, ← Dual.block_next]
      exact ⟨LinearExpr.within_mono _ (Dual.within_bound k start base (margin k))
        (Nat.le_add_right _ _), ih _⟩

/-- The bound of a certificate has a value at every dual point of full length. -/
theorem certificates_within (inclusion : Inclusion α) (label : Nat) (formulation : Formulation) :
    ∀ c ∈ (dualBlocks inclusion label formulation).map certificateOf,
      c.bound.within (robustProgram inclusion label formulation).vars.size = true := by
  rw [List.forall_mem_map]
  intro b member
  have size : (robustProgram inclusion label formulation).vars.size = 1 +
      (Pieces.vars ((dualBlocks inclusion label formulation).flatMap (blockPieces 0))).length :=
    Program.size_extend _ _
  rw [size]
  exact within_blocks _ _ 0 _ 1 b member

end Bounds

/-- With two outputs or more every label has a competitor. -/
theorem exists_competitor {outputs : Nat} (label : Nat) (rivals : 2 ≤ outputs) :
    ∃ k < outputs, k ≠ label := by
  by_cases isZero : label = 0
  · exact ⟨1, rivals, isZero ▸ one_ne_zero⟩
  · exact ⟨0, Nat.zero_lt_two.trans_le rivals, Ne.symm isZero⟩

/-- A model is built where its pieces fit. -/
theorem build_eq_of_fit {α : Type} [Scalar α] {inclusion : Inclusion α} {label : Nat}
    (inRange : label < inclusion.network.outputs) (rivals : 2 ≤ inclusion.network.outputs)
    {formulation : Formulation}
    (fit : Pieces.Fit 0 (Blueprint.relaxation inclusion
      (Blueprint.layoutOf inclusion formulation.exposesResiduals)))
    (dual : formulation.perCompetitor = false →
      Pieces.Fit 1 ((dualBlocks inclusion label formulation).flatMap (blockPieces 0))) :
    build inclusion label formulation = .ok (ofRelaxation inclusion label formulation) := by
  have base : (Program.empty (programName formulation)).addPieces (Blueprint.relaxation inclusion
      (Blueprint.layoutOf inclusion formulation.exposesResiduals)) =
      .ok (Blueprint.base inclusion formulation) := Program.addPieces_eq _ _ fit
  rw [build, if_neg (not_le.mpr inRange), if_neg (not_lt.mpr rivals)]
  dsimp only
  rw [base]
  cases formulation with
  | direct => rfl
  | baked => rfl
  | auxiliary =>
      have certificates := addCertificates_eq (Blueprint.base inclusion .auxiliary)
        (margin inclusion label .auxiliary) 0
        ((Program.empty (programName .auxiliary)).push (.free "t")) _ (dual rfl)
      change (addCertificates (Blueprint.base inclusion .auxiliary)
        (margin inclusion label .auxiliary) 0 _ _ >>= _) = _
      rw [certificates]
      rfl

theorem build_eq {inclusion : Inclusion ℝ} (made : inclusion.Propagated) {label : Nat}
    (inRange : label < inclusion.network.outputs) (rivals : 2 ≤ inclusion.network.outputs)
    (formulation : Formulation) :
    build inclusion label formulation = .ok (ofRelaxation inclusion label formulation) :=
  build_eq_of_fit inRange rivals (Blueprint.fit_relaxation made formulation.exposesResiduals)
    fun _ => fit_blocks (Scalar.isFinite_real 0) _ _ (fun _ _ _ => Scalar.isFinite_real _)
      (fun _ _ => Scalar.isFinite_real _) Nat.one_pos

theorem build_eq_ok_iff {inclusion : Inclusion ℝ} (made : inclusion.Propagated) (label : Nat)
    (formulation : Formulation) (m : Model ℝ) :
    build inclusion label formulation = .ok m ↔ label < inclusion.network.outputs ∧
      2 ≤ inclusion.network.outputs ∧ m = ofRelaxation inclusion label formulation := by
  constructor
  · intro built
    by_cases inRange : label < inclusion.network.outputs
    · by_cases rivals : 2 ≤ inclusion.network.outputs
      · rw [build_eq made inRange rivals] at built
        exact ⟨inRange, rivals, (Except.ok.inj built).symm⟩
      · rw [build, if_neg (not_le.mpr inRange), if_pos (not_le.mp rivals)] at built
        cases built
    · rw [build, if_pos (not_lt.mp inRange)] at built
      cases built
  · rintro ⟨inRange, rivals, rfl⟩
    exact build_eq made inRange rivals formulation

theorem mem_primal_iff (inclusion : Inclusion ℝ) (label : Nat) (formulation : Formulation)
    (p : MarginProgram ℝ) : p ∈ (ofRelaxation inclusion label formulation).primal ↔
      ∃ k, k < inclusion.network.outputs ∧ k ≠ label ∧
        p = marginProgram (Blueprint.base inclusion formulation)
          (margin inclusion label formulation) k := by
  rw [ofRelaxation_primal, marginPrograms, List.mem_map]
  constructor
  · rintro ⟨k, member, rfl⟩
    obtain ⟨bound, other⟩ := (mem_competitors label _ k).mp member
    exact ⟨k, bound, other, rfl⟩
  · rintro ⟨k, bound, other, rfl⟩
    exact ⟨k, (mem_competitors label _ k).mpr ⟨bound, other⟩, rfl⟩

theorem marginProgram_admits_iff (base : Program ℝ) (margin : Nat → LinearExpr ℝ) (k : Nat)
    (w : VarId → ℝ) : (marginProgram base margin k).program.Admits w ↔ base.Admits w :=
  ⟨fun admitted => ⟨admitted.vars, admitted.rows⟩, fun admitted => ⟨admitted.vars, admitted.rows⟩⟩

theorem robustProgram_admits_iff (inclusion : Inclusion ℝ) (label : Nat)
    (formulation : Formulation) (w : VarId → ℝ) :
    (robustProgram inclusion label formulation).Admits w ↔
      Pieces.Admit w 1 ((dualBlocks inclusion label formulation).flatMap (blockPieces 0)) := by
  let begun : Program ℝ := (Program.empty (programName formulation)).push (.free "t")
  let pieces := (dualBlocks inclusion label formulation).flatMap (blockPieces 0)
  have free : begun.Admits w := by
    refine (Program.push_admits_iff _ _ w).mpr ⟨⟨?_, ?_⟩, trivial, trivial⟩
    · intro v x none
      cases none
    · intro c none
      exact absurd none (Array.not_mem_empty c)
  have extended := begun.extend_admits_iff pieces w
  constructor
  · intro admitted
    exact (extended.mp ⟨admitted.vars, admitted.rows⟩).2
  · intro admitted
    have both := extended.mpr ⟨free, admitted⟩
    exact ⟨both.vars, both.rows⟩

section Margin

variable {inclusion : Inclusion ℝ} (made : inclusion.Propagated) {label k : Nat}
  (inRange : label < inclusion.network.outputs) (bound : k < inclusion.network.outputs)
  (formulation : Formulation)
include made inRange bound

theorem margin_within : (margin inclusion label formulation k).within
    (Blueprint.base inclusion formulation).vars.size = true :=
  LinearExpr.within_addTerm _ (LinearExpr.within_var (made.output_lt_size formulation inRange))
    (made.output_lt_size formulation bound) _

/-- The margin is the output of the label less that of the competitor. -/
theorem evalAt_margin (w : VarId → ℝ) : (margin inclusion label formulation k).evalAt w =
    let val := (Blueprint.layoutOf inclusion formulation.exposesResiduals).read w
    val (.post inclusion.depth label) - val (.post inclusion.depth k) := by
  rw [margin, marginExpr, LinearExpr.evalAt_addTerm, LinearExpr.evalAt_var, neg_one_mul,
    ← sub_eq_add_neg]
  dsimp only
  rw [Layout.read_of_slot _ w (made.slot_output _ inRange),
    Layout.read_of_slot _ w (made.slot_output _ bound)]

end Margin

end Model
end RobustMargin
