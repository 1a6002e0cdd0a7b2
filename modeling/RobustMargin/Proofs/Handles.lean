import RobustMargin.Proofs.Building
import RobustMargin.Proofs.Redundancy

/-! # Handles

The handles of a layout are the indices of the variables of the primal programs, each of them once,
and each leads to the variable of its layer and neuron. The parts of the program of the common
margin belong to the competitors in one order. -/
namespace RobustMargin

namespace Layout

/-- All handles of a layout: those of post-activations, of pre-activations and of residuals. -/
def handles (l : Layout) : List VarId :=
  (l.posts ++ l.pres ++ l.residualVars?.getD []).flatten

/-- The handle in a table for a row and a column. -/
def cell? (table : List (List VarId)) (i k : Nat) : Option VarId := table[i]?.bind (·[k]?)

/-- A table with a row of some width for each layer. -/
def table (widths : List Nat) (place : Nat → Nat → Nat → VarId) : List (List VarId) :=
  widths.zipIdx.map fun p => (List.range p.1).map (place p.2 p.1)

theorem cell?_table (widths : List Nat) (place : Nat → Nat → Nat → VarId) (i k : Nat) :
    cell? (table widths place) i k =
      widths[i]?.bind fun width => if k < width then some (place i width k) else none := by
  rw [cell?, table, List.getElem?_map, List.getElem?_zipIdx]
  cases widths[i]? with
  | none => rfl
  | some width =>
      by_cases bound : k < width
      · simp [bound]
      · simp [bound]

theorem mem_flatten_of_cell? {table : List (List VarId)} {i k : Nat} {v : VarId}
    (found : cell? table i k = some v) : v ∈ table.flatten := by
  obtain ⟨row, rowFound, place⟩ := Option.bind_eq_some_iff.mp found
  exact List.mem_flatten.mpr ⟨row, List.mem_of_getElem? rowFound, List.mem_of_getElem? place⟩

theorem table_lengths (widths : List Nat) (place : Nat → Nat → Nat → VarId) :
    (table widths place).map List.length = widths := by
  rw [table, List.map_map]
  refine Eq.trans (List.map_congr_left (g := Prod.fst) fun p _ => ?_) (List.zipIdx_map_fst ..)
  simp

theorem table_flatten_length (widths : List Nat) (place : Nat → Nat → Nat → VarId) :
    (table widths place).flatten.length = widths.sum := by
  rw [List.length_flatten, table_lengths]

theorem x?_eq_cell? (l : Layout) (i k : Nat) : l.x? i k = cell? l.posts i k := by
  have widths : l.width? i = (l.inputs :: l.widths)[i]? := by cases i <;> rfl
  have posts : l.posts = table (l.inputs :: l.widths) fun i _ k => l.post i k := rfl
  rw [posts, cell?_table, x?, widths]
  cases (l.inputs :: l.widths)[i]? <;> rfl

theorem z?_eq_cell? (l : Layout) (i k : Nat) : l.z? (i + 1) k = cell? l.pres i k := by
  have pres : l.pres = table l.widths fun i _ k => l.pre i k := rfl
  rw [pres, cell?_table, z?]
  cases l.widths[i]? <;> rfl

theorem r?_eq_cell? (l : Layout) (i k : Nat) :
    l.r? (i + 1) k = l.residualVars?.bind fun table => cell? table i k := by
  have residuals : l.residualVars? =
      if l.residuals then some (table l.widths l.residual) else none := rfl
  rw [residuals, r?]
  cases l.residuals with
  | false => rfl
  | true =>
      change _ = cell? (table l.widths l.residual) i k
      rw [cell?_table]
      cases l.widths[i]? <;> rfl

theorem mem_handles_of_slot? (l : Layout) {s : Slot} {v : VarId} (place : l.slot? s = some v) :
    v ∈ l.handles := by
  rw [handles, List.flatten_append, List.flatten_append, List.mem_append, List.mem_append]
  cases s with
  | post i k =>
      rw [slot?, x?_eq_cell?] at place
      exact .inl (.inl (mem_flatten_of_cell? place))
  | pre i k =>
      cases i with
      | zero => cases place
      | succ i =>
          rw [slot?, z?_eq_cell?] at place
          exact .inl (.inr (mem_flatten_of_cell? place))
  | residual i k =>
      cases i with
      | zero => cases place
      | succ i =>
          rw [slot?, r?_eq_cell?] at place
          obtain ⟨table, present, found⟩ := Option.bind_eq_some_iff.mp place
          rw [present]
          exact .inr (mem_flatten_of_cell? found)

/-- A layer has a post- and a pre-activation for each neuron, and a residual where these are
variables. -/
theorem sum_layerSize (l : Layout) (widths : List Nat) :
    (widths.map l.layerSize).sum =
      widths.sum + widths.sum + if l.residuals then widths.sum else 0 := by
  induction widths with
  | nil => simp
  | cons width rest ih =>
      rw [List.map_cons, List.sum_cons, List.sum_cons, ih, layerSize]
      split <;> omega

theorem handles_length (l : Layout) : l.handles.length = l.size := by
  have posts : l.posts = table (l.inputs :: l.widths) fun i _ k => l.post i k := rfl
  have pres : l.pres = table l.widths fun i _ k => l.pre i k := rfl
  have residuals : l.residualVars? =
      if l.residuals then some (table l.widths l.residual) else none := rfl
  have sizes : l.size = l.inputs + (l.widths.map l.layerSize).sum := by
    rw [size, offset_eq, List.take_length]
  rw [handles, List.flatten_append, List.flatten_append, List.length_append, List.length_append,
    posts, pres, residuals, table_flatten_length, table_flatten_length, sizes, sum_layerSize,
    List.sum_cons]
  cases l.residuals with
  | true =>
      rw [if_pos rfl, if_pos rfl, Option.getD_some, table_flatten_length]
      omega
  | false =>
      simp
      omega

/-- Each index below the size is the handle of one variable. -/
theorem handles_perm (l : Layout) : l.handles.Perm (List.range l.size) := by
  have every : List.range l.size ⊆ l.handles := by
    intro v member
    rw [List.mem_range, ← l.slots_length] at member
    have found := List.getElem?_eq_getElem member
    exact l.mem_handles_of_slot? ((l.slots_getElem?_iff v _).mp found)
  refine ((List.subperm_of_subset List.nodup_range every).perm_of_length_le ?_).symm
  rw [l.handles_length, List.length_range]

end Layout

section Addresses

variable {α : Type} [Scalar α]

/-- The layout tells where the variables of a program belong in the network: every variable has one
handle, the look-ups are the entries of the tables, and behind each entry stands the variable of
that layer and neuron, by its name and its bounds. -/
structure Layout.Addresses (l : Layout) (inclusion : Inclusion α) (residuals : Bool)
    (vars : Array (Variable α)) : Prop where
  once : l.handles.Perm (List.range vars.size)
  posts_widths : l.posts.map List.length = inclusion.network.widths
  pres_widths : l.pres.map List.length = inclusion.network.layers.map Layer.outputs
  residuals_widths : l.residualVars?.map (·.map List.length) =
    if residuals then some (inclusion.network.layers.map Layer.outputs) else none
  x_cell : ∀ i k, l.x? i k = Layout.cell? l.posts i k
  z_cell : ∀ i k, l.z? (i + 1) k = Layout.cell? l.pres i k
  r_cell : ∀ i k, l.r? (i + 1) k = l.residualVars?.bind fun table => Layout.cell? table i k
  x_found : ∀ i k, (∃ v, l.x? i k = some v) ↔ inclusion.network.HasNeuron i k
  z_found : ∀ i k, (∃ v, l.z? i k = some v) ↔ 0 < i ∧ inclusion.network.HasNeuron i k
  r_found : ∀ i k, (∃ v, l.r? i k = some v) ↔
    residuals = true ∧ 0 < i ∧ inclusion.network.HasNeuron i k
  x_var : ∀ i k v, l.x? i k = some v → ∃ range, inclusion.range? i k = some range ∧
    vars[v]? = some ⟨s!"x_{i}_{k}", .ofScalar range.lo, .ofScalar range.hi⟩
  z_var : ∀ i k v, l.z? i k = some v → vars[v]? = some ⟨s!"z_{i}_{k}", .negInf, .posInf⟩
  r_var : ∀ i k v, l.r? i k = some v → ∃ range, inclusion.residual? i k = some range ∧
    vars[v]? = some ⟨s!"r_{i}_{k}", .ofScalar range.lo, .ofScalar range.hi⟩

/-- The variable of the common margin stands in a program of its own. -/
theorem Layout.Addresses.withMargin {l : Layout} {inclusion : Inclusion α} {residuals : Bool}
    {vars : Array (Variable α)} (addresses : l.Addresses inclusion residuals vars)
    (margin : Option VarId) :
    ({ l with margin := margin } : Layout).Addresses inclusion residuals vars :=
  ⟨addresses.once, addresses.posts_widths, addresses.pres_widths, addresses.residuals_widths,
    addresses.x_cell, addresses.z_cell, addresses.r_cell, addresses.x_found, addresses.z_found,
    addresses.r_found, addresses.x_var, addresses.z_var, addresses.r_var⟩

namespace Inclusion.Propagated

variable {inclusion : Inclusion α} (made : inclusion.Propagated)
include made

/-- A handle of a slot leads to the variable of this slot. -/
theorem exists_var_of_slot? (formulation : Formulation) {s : Slot} {v : VarId}
    (place : (Blueprint.layoutOf inclusion formulation.exposesResiduals).slot? s = some v) :
    ∃ x, inclusion.slotVar? s = some x ∧
      (Blueprint.base inclusion formulation).vars[v]? = some x := by
  have found := Array.getElem?_eq_getElem (made.slot_lt_size formulation place)
  obtain ⟨other, samePlace, isVar⟩ := (made.base_vars_iff formulation v _).mp found
  -- Two slots at one index are the same entry of the list of slots.
  have same : some s = some other :=
    ((Layout.slots_getElem?_iff _ v s).mpr place).symm.trans
      ((Layout.slots_getElem?_iff _ v other).mpr samePlace)
  cases same
  exact ⟨_, isVar, found⟩

theorem layout_addresses (formulation : Formulation) :
    (Blueprint.layoutOf inclusion formulation.exposesResiduals).Addresses inclusion
      formulation.exposesResiduals (Blueprint.base inclusion formulation).vars := by
  let l := Blueprint.layoutOf inclusion formulation.exposesResiduals
  have widths : l.widths = inclusion.network.layers.map Layer.outputs := by
    change inclusion.layers.map List.length = _
    rw [made.layers_eq, Network.bounds_widths]
  refine
    { once := ?once
      posts_widths := ?posts
      pres_widths := ?pres
      residuals_widths := ?residuals
      x_cell := l.x?_eq_cell?
      z_cell := l.z?_eq_cell?
      r_cell := l.r?_eq_cell?
      x_found := made.exists_slot_post_iff _
      z_found := made.exists_slot_pre_iff _
      r_found := made.exists_slot_residual_iff _
      x_var := ?x
      z_var := ?z
      r_var := ?r }
  case once =>
    rw [made.base_size]
    exact l.handles_perm
  case posts =>
    refine (Layout.table_lengths (l.inputs :: l.widths) fun i _ k => l.post i k).trans ?_
    rw [widths]
    exact congrArg (· :: _) made.size_eq
  case pres => exact (Layout.table_lengths l.widths fun i _ k => l.pre i k).trans widths
  case residuals =>
    rw [Layout.residualVars?]
    change Option.map _ (if formulation.exposesResiduals then _ else none) = _
    split
    · exact congrArg some ((Layout.table_lengths l.widths l.residual).trans widths)
    · rfl
  case x =>
    intro i k v place
    obtain ⟨x, isVar, found⟩ := made.exists_var_of_slot? formulation (s := .post i k) place
    rw [inclusion.slotVar?_post, Option.map_eq_some_iff] at isVar
    obtain ⟨range, known, rfl⟩ := isVar
    exact ⟨range, known, found⟩
  case z =>
    intro i k v place
    obtain ⟨x, isVar, found⟩ := made.exists_var_of_slot? formulation (s := .pre i k) place
    obtain ⟨_, -, rfl⟩ := Option.map_eq_some_iff.mp isVar
    exact found
  case r =>
    intro i k v place
    obtain ⟨x, isVar, found⟩ := made.exists_var_of_slot? formulation (s := .residual i k) place
    rw [inclusion.slotVar?_residual, Option.map_eq_some_iff] at isVar
    obtain ⟨range, known, rfl⟩ := isVar
    exact ⟨range, known, found⟩

end Inclusion.Propagated

end Addresses

section Competitors

variable {α : Type} [Scalar α]

theorem Dual.blockName_toList (kind : String) (competitor : Nat) (name : String) :
    (blockName kind competitor name).toList =
      kind.toList ++ ("_" ++ toString competitor ++ "_" ++ name).toList := by
  change (kind ++ "_" ++ toString competitor ++ "_" ++ name).toList = _
  simp [String.toList_append]

omit [Scalar α] in
/-- The row keeps the margin variable below a bound: its name is `margin` with a competitor. -/
def Constraint.isMargin (c : Constraint α) : Bool := "margin_".toList.isPrefixOf c.name.toList

/-- The row that keeps the margin variable below a certificate. -/
def Certificate.row (t : VarId) (c : Certificate α) : Constraint α :=
  ⟨s!"margin_{c.competitor}", Model.belowBound t c.bound, .le, c.bound.constant⟩

theorem Certificate.row_isMargin (t : VarId) (c : Certificate α) : (c.row t).isMargin = true := by
  have name : (c.row t).name.toList = "margin_".toList ++ (toString c.competitor).toList := by
    change ("margin_" ++ toString c.competitor).toList = _
    rw [String.toList_append]
  rw [Constraint.isMargin, name, List.isPrefixOf_iff_prefix]
  exact List.prefix_append _ _

namespace Dual

theorem rows_columns_isMargin (competitor : Nat) (start : VarId) (rows : List (Constraint α))
    (objective : LinearExpr α) (next : VarId) (xs : List (Variable α × Nat)) :
    (Pieces.rows (columns competitor start rows objective next xs)).filter Constraint.isMargin =
      [] := by
  induction xs generalizing next with
  | nil => rfl
  | cons p rest ih =>
      have other : (⟨blockName "dual" competitor p.1.name, fullColumn start rows next p, .eq,
          cost objective p.2⟩ : Constraint α).isMargin = false := by
        rw [Constraint.isMargin, blockName_toList]
        rfl
      rw [columns, Pieces.rows_append, List.filter_append, ih, columnPieces, Pieces.rows_append,
        Pieces.rows_map_declared, List.append_nil, List.nil_append]
      exact List.filter_cons_of_neg (Bool.eq_false_iff.mp other)

/-- The rows of a dual block belong to the variables of the base. -/
theorem rows_block_isMargin (competitor : Nat) (start : VarId) (base : Program α)
    (objective : LinearExpr α) :
    (Pieces.rows (block competitor start base objective).pieces).filter Constraint.isMargin =
      [] := by
  rw [block_eq, Pieces.rows_append, Pieces.rows_map_declared, List.nil_append,
    rows_columns_isMargin]

end Dual

namespace Model

/-- Among the rows of dual blocks one for each certificate bounds the margin. -/
theorem rows_blocks_isMargin (base : Program α) (margin : Nat → LinearExpr α) (t : VarId)
    (rivals : List Nat) (start : VarId) :
    (Pieces.rows ((blocks base margin start rivals).flatMap (blockPieces t))).filter
        Constraint.isMargin =
      ((blocks base margin start rivals).map certificateOf).map (Certificate.row t) := by
  induction rivals generalizing start with
  | nil => rfl
  | cons k rest ih =>
      let b := Dual.block k start base (margin k)
      have row : Pieces.rows [.row s!"margin_{k}" (belowBound t b.bound) .le b.bound.constant] =
          [Certificate.row t ⟨k, b.bound⟩] := rfl
      rw [blocks, List.flatMap_cons, Pieces.rows_append, List.filter_append, ih, blockPieces,
        Pieces.rows_append, List.filter_append, Dual.rows_block_isMargin, List.nil_append]
      change (Pieces.rows [_]).filter _ ++ _ = _
      rw [row, List.filter_cons_of_pos (Certificate.row_isMargin t _)]
      rfl

/-- The program of the common margin has its variable `t` where the layout says, and its
certificates, its margin rows and the witnesses belong to the competitors in one order. -/
structure CommonMargin (m : Model α) (rivals : List Nat) : Prop where
  certificates : m.certificates.map (·.competitor) = rivals
  witnesses : m.witnesses.map (·.competitor) = rivals.map some
  margin : ∃ robust t, m.programs = [⟨none, robust⟩] ∧ m.layout.margin = some t ∧
    robust.vars[t]? = some ⟨"t", .negInf, .posInf⟩ ∧
    robust.constraints.toList.filter Constraint.isMargin = m.certificates.map (Certificate.row t)

theorem competitors_pairwise (outputs label : Nat) :
    (competitors outputs label).Pairwise (· < ·) :=
  List.pairwise_lt_range.filter _

theorem marginPrograms_competitors (inclusion : Inclusion α) (label : Nat)
    (formulation : Formulation) :
    (marginPrograms inclusion label formulation).map (·.competitor) =
      (competitors inclusion.network.outputs label).map some := by
  rw [marginPrograms, List.map_map]
  rfl

theorem robustProgram_margin (inclusion : Inclusion α) (label : Nat) (formulation : Formulation) :
    (robustProgram inclusion label formulation).vars[0]? = some ⟨"t", .negInf, .posInf⟩ := by
  rw [robustProgram]
  change (#[Variable.free "t"] ++ _)[0]? = _
  rw [Array.getElem?_append_left Nat.one_pos]
  rfl

theorem robustProgram_rows (inclusion : Inclusion α) (label : Nat) (formulation : Formulation) :
    (robustProgram inclusion label formulation).constraints.toList.filter Constraint.isMargin =
      ((dualBlocks inclusion label formulation).map certificateOf).map (Certificate.row 0) := by
  let pieces := (dualBlocks inclusion label formulation).flatMap (blockPieces 0)
  have rows : (robustProgram inclusion label formulation).constraints.toList =
      Pieces.rows pieces := by
    rw [robustProgram, Program.setObjective, Program.extend]
    simp [Program.push, Program.empty, pieces]
  rw [rows]
  exact rows_blocks_isMargin _ _ 0 _ 1

theorem ofRelaxation_commonMargin (inclusion : Inclusion α) (label : Nat)
    {formulation : Formulation} (common : formulation.perCompetitor = false) :
    (ofRelaxation inclusion label formulation).CommonMargin
      (competitors inclusion.network.outputs label) := by
  rw [ofRelaxation, if_neg (Bool.eq_false_iff.mp common)]
  refine ⟨?_, marginPrograms_competitors inclusion label formulation, ⟨_, 0, rfl, rfl,
    robustProgram_margin inclusion label formulation,
    robustProgram_rows inclusion label formulation⟩⟩
  rw [List.map_map]
  exact blocks_competitors _ _ _ _

end Model

end Competitors

variable {α : Type} [Scalar α]

/-- The primal programs of a model are one program with different objectives, one for each
competitor in increasing order. The handles of the layout are the indices of its variables, each of
them once, and lead to the variable of their layer and neuron. -/
theorem handles_address_variables (input : InputBox α) (f : Activation α) (network : Network α)
    (point : Linearization) (inclusion : Inclusion α)
    (propagated : Inclusion.build input f network point = .ok inclusion) (label : Nat)
    (formulation : Formulation) (m : Model α)
    (built : Model.build inclusion label formulation = .ok m) :
    m.formulation = formulation ∧
      ∃ rivals : List Nat, rivals.Pairwise (· < ·) ∧
        (∀ k, k ∈ rivals ↔ k < network.outputs ∧ k ≠ label) ∧
        m.primal.map (·.competitor) = rivals.map some ∧
        (∃ base : Program α,
          (∀ p ∈ m.primal, ∃ objective, p.program = { base with objective := objective }) ∧
            m.layout.Addresses inclusion formulation.exposesResiduals base.vars) ∧
        (formulation.perCompetitor = false → m.CommonMargin rivals) := by
  obtain ⟨made, -, -, rfl, -⟩ := (Inclusion.build_eq_ok_iff _ _ _ _ _).mp propagated
  obtain ⟨-, -, rfl⟩ := Model.eq_ofRelaxation_of_build built
  have primal := Model.ofRelaxation_primal inclusion label formulation
  have addresses := made.layout_addresses formulation
  refine ⟨by cases formulation <;> rfl, Model.competitors inclusion.network.outputs label,
    Model.competitors_pairwise _ label, Model.mem_competitors label _, ?_,
    ⟨Blueprint.base inclusion formulation, ?_, ?_⟩,
    Model.ofRelaxation_commonMargin inclusion label⟩
  · rw [primal]
    exact Model.marginPrograms_competitors inclusion label formulation
  · intro p member
    rw [primal] at member
    obtain ⟨k, -, rfl⟩ := List.mem_map.mp member
    exact ⟨_, rfl⟩
  · cases formulation with
    | direct => exact addresses
    | baked => exact addresses
    | auxiliary => exact addresses.withMargin _

/-- Of three outputs the label has two competitors, and these come in increasing order. -/
theorem handles_address_variables_crossing :
    ∃ inclusion m, Inclusion.build .segment .cube .crossing .preActivation = .ok inclusion ∧
      Model.build inclusion 0 .auxiliary = .ok m ∧
      m.primal.map (·.competitor) = [some 1, some 2] ∧ m.CommonMargin [1, 2] := by
  have propagated := Inclusion.build_eq .segment .cube .crossing .preActivation rfl
  obtain ⟨made, -, -, network, -⟩ := (Inclusion.build_eq_ok_iff _ _ _ _ _).mp propagated
  have outputs := Network.crossing_rivals
  rw [← network] at outputs
  have built := Model.build_eq made (Nat.zero_lt_two.trans_le outputs) outputs .auxiliary
  obtain ⟨-, rivals, increasing, others, competitors, -, common⟩ := handles_address_variables
    .segment .cube .crossing .preActivation _ propagated 0 .auxiliary _ built
  have listed : rivals = [1, 2] := by
    refine increasing.eq_of_mem_iff (by decide) fun k => (others k).trans ?_
    change k < 3 ∧ k ≠ 0 ↔ _
    simp
    omega
  rw [listed] at competitors common
  exact ⟨_, _, propagated, built, competitors, common rfl⟩

end RobustMargin
