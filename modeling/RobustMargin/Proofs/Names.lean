import RobustMargin.Proofs.Handles
import RobustMargin.Proofs.Redundancy

/-! # Names

The names of variables and rows are put together with underscores from a letter or a kind, from
indices, and from other names. A name tells its parts, so that no two variables and no two rows of a
relaxation or of the dual blocks over it have one name. -/
namespace RobustMargin

section Parts

theorem append_cons_inj_of_not_mem {β : Type} {mark : β} {a b c d : List β} (first : mark ∉ a)
    (second : mark ∉ c) (same : a ++ mark :: b = c ++ mark :: d) : a = c ∧ b = d := by
  induction a generalizing c with
  | nil =>
      cases c with
      | nil => exact ⟨rfl, (List.cons.inj same).2⟩
      | cons y c =>
          obtain ⟨rfl, -⟩ := List.cons.inj same
          exact absurd List.mem_cons_self second
  | cons x a ih =>
      cases c with
      | nil =>
          obtain ⟨rfl, -⟩ := List.cons.inj same
          exact absurd List.mem_cons_self first
      | cons y c =>
          obtain ⟨rfl, rest⟩ := List.cons.inj same
          obtain ⟨rfl, later⟩ := ih (fun member => first (List.mem_cons_of_mem _ member))
            (fun member => second (List.mem_cons_of_mem _ member)) rest
          exact ⟨rfl, later⟩

theorem append_cons_inj_of_not_mem_right {β : Type} {mark : β} {a b c d : List β}
    (first : mark ∉ b) (second : mark ∉ d) (same : a ++ mark :: b = c ++ mark :: d) :
    a = c ∧ b = d := by
  have back := congrArg List.reverse same
  rw [List.reverse_append, List.reverse_append, List.reverse_cons, List.reverse_cons,
    List.append_assoc, List.append_assoc, List.singleton_append, List.singleton_append] at back
  obtain ⟨ends, starts⟩ := append_cons_inj_of_not_mem
    (fun member => first (List.mem_reverse.mp member))
    (fun member => second (List.mem_reverse.mp member)) back
  exact ⟨List.reverse_injective starts, List.reverse_injective ends⟩

/-- A part of a name without an underscore. -/
def Plain (part : String) : Prop := '_' ∉ part.toList

instance (part : String) : Decidable (Plain part) := inferInstanceAs (Decidable (¬ _))

theorem plain_toString (n : Nat) : Plain (toString n) := by
  intro member
  rw [Nat.toString_eq_ofList_toDigits, String.toList_ofList] at member
  have digit := Nat.isDigit_of_mem_toDigits (by decide) (by decide) member
  cases digit

theorem toString_injective {m n : Nat} (same : (toString m).toList = (toString n).toList) :
    m = n := Nat.repr_injective (String.toList_injective same)

/-- The last underscore separates the index of the neuron from the rest, and the one before it the
index of the layer. A letter may have underscores of its own. -/
theorem indexedName_injective {letter other : String} {i j k l : Nat}
    (same : indexedName letter i k = indexedName other j l) : letter = other ∧ i = j ∧ k = l := by
  have parts (letter : String) (i k : Nat) : (indexedName letter i k).toList =
      (letter.toList ++ '_' :: (toString i).toList) ++ '_' :: (toString k).toList := by
    rw [indexedName_toList]
    simp [String.toList_append]
  have lists := congrArg String.toList same
  rw [parts, parts] at lists
  obtain ⟨fronts, neurons⟩ :=
    append_cons_inj_of_not_mem_right (plain_toString k) (plain_toString l) lists
  obtain ⟨letters, layers⟩ :=
    append_cons_inj_of_not_mem_right (plain_toString i) (plain_toString j) fronts
  exact ⟨String.toList_injective letters, toString_injective layers, toString_injective neurons⟩

theorem Dual.blockName_parts (kind : String) (k : Nat) (name : String) :
    (blockName kind k name).toList =
      kind.toList ++ '_' :: ((toString k).toList ++ '_' :: name.toList) := by
  rw [blockName_toList]
  simp [String.toList_append]

/-- The first underscore ends the kind, and the second one the index of the competitor. The name
that follows may have underscores of its own. -/
theorem Dual.blockName_injective {kind other : String} (plain : Plain kind) (plainToo : Plain other)
    {j k : Nat} {name more : String} (same : blockName kind j name = blockName other k more) :
    kind = other ∧ j = k ∧ name = more := by
  have lists := congrArg String.toList same
  rw [blockName_parts, blockName_parts] at lists
  obtain ⟨kinds, rests⟩ := append_cons_inj_of_not_mem plain plainToo lists
  obtain ⟨competitors, names⟩ :=
    append_cons_inj_of_not_mem (plain_toString j) (plain_toString k) rests
  exact ⟨String.toList_injective kinds, toString_injective competitors,
    String.toList_injective names⟩

end Parts

section Lists

variable {β γ : Type}

theorem nodup_map_of_getElem? {f : β → γ} {xs : List β} (apart : ∀ (u v : Nat) x y, xs[u]? = some x →
    xs[v]? = some y → f x = f y → u = v) : (xs.map f).Nodup := by
  refine List.pairwise_map.mpr (List.pairwise_iff_getElem.mpr ?_)
  intro u v uBound vBound less same
  exact less.ne (apart u v _ _ (List.getElem?_eq_getElem uBound) (List.getElem?_eq_getElem vBound)
    same)

/-- Lists that belong to different indices have nothing in common. -/
theorem nodup_flatMap_zipIdx {xs : List β} {f : β × Nat → List γ}
    (each : ∀ p ∈ xs.zipIdx, (f p).Nodup)
    (apart : ∀ p ∈ xs.zipIdx, ∀ q ∈ xs.zipIdx, ∀ y ∈ f p, y ∈ f q → p.2 = q.2) :
    (xs.zipIdx.flatMap f).Nodup := by
  have indices : xs.zipIdx.Pairwise fun p q => p.2 ≠ q.2 := by
    refine List.pairwise_map.mp ?_
    rw [← range_eq_map_snd]
    exact List.nodup_range
  refine List.nodup_flatMap.mpr ⟨each, indices.imp_of_mem ?_⟩
  intro p q inP inQ other y first second
  exact other (apart p inP q inQ y first second)

end Lists

/-- No two variables and no two rows of a program have one name. -/
structure Program.Distinct {α : Type} (p : Program α) : Prop where
  vars : (p.vars.toList.map (·.name)).Nodup
  rows : (p.constraints.toList.map (·.name)).Nodup

/-- The name of the variable that stands for a value of the network. -/
def Slot.name : Slot → String
  | .post layer k => indexedName "x" layer k
  | .pre layer k => indexedName "z" layer k
  | .residual layer k => indexedName "r" layer k

theorem Slot.name_injective : Function.Injective Slot.name := by
  intro s t same
  have parts {letter other : String} {i j k l : Nat}
      (same : indexedName letter i k = indexedName other j l) := indexedName_injective same
  cases s <;> cases t <;> obtain ⟨letter, rfl, rfl⟩ := parts same <;>
    first | rfl | exact absurd letter (by decide)

section Relaxation

variable {α : Type} [Scalar α] {inclusion : Inclusion α}

theorem Inclusion.slotVar?_name {s : Slot} {x : Variable α}
    (isVar : inclusion.slotVar? s = some x) : x.name = s.name := by
  cases s with
  | post i k =>
      rw [slotVar?_post] at isVar
      obtain ⟨range, -, rfl⟩ := Option.map_eq_some_iff.mp isVar
      rfl
  | pre i k =>
      obtain ⟨n, -, rfl⟩ := Option.map_eq_some_iff.mp isVar
      rfl
  | residual i k =>
      rw [slotVar?_residual] at isVar
      obtain ⟨range, -, rfl⟩ := Option.map_eq_some_iff.mp isVar
      rfl

theorem Inclusion.Propagated.base_vars_nodup (made : inclusion.Propagated)
    (formulation : Formulation) :
    ((Blueprint.base inclusion formulation).vars.toList.map (·.name)).Nodup := by
  refine nodup_map_of_getElem? fun u v x y first second same => ?_
  rw [Array.getElem?_toList] at first second
  obtain ⟨s, sPlace, isX⟩ := (made.base_vars_iff formulation u x).mp first
  obtain ⟨t, tPlace, isY⟩ := (made.base_vars_iff formulation v y).mp second
  rw [Inclusion.slotVar?_name isX, Inclusion.slotVar?_name isY] at same
  obtain rfl := Slot.name_injective same
  exact Option.some.inj (sPlace.symm.trans tPlace)

namespace Blueprint

/-- The names of a neuron's linearization. -/
theorem taylorRows_names (l : Layout) (f : Activation α) (layer width : Nat)
    (p : NeuronBounds α × Nat) : ((taylorRows l f layer width p).map (·.name)).Nodup ∧
      ∀ name ∈ (taylorRows l f layer width p).map (·.name), ∃ letter ≠ "affine",
        name = indexedName letter (layer + 1) p.2 := by
  unfold taylorRows
  split
  · refine ⟨List.nodup_singleton _, fun name member => ?_⟩
    exact ⟨"taylor", by decide, List.mem_singleton.mp member⟩
  · refine ⟨?_, fun name member => ?_⟩
    · refine List.nodup_cons.mpr ⟨fun member => ?_, List.nodup_singleton _⟩
      have letters := (indexedName_injective (List.mem_singleton.mp member)).1
      exact absurd letters (by decide)
    · rcases List.mem_pair.mp member with rfl | rfl
      · exact ⟨"taylor_lo", by decide, rfl⟩
      · exact ⟨"taylor_hi", by decide, rfl⟩

theorem affineRows_names (l : Layout) (layer : Nat) (neurons : List (List α × α)) :
    ((neurons.zipIdx.map (affineRow l layer)).map (·.name)).Nodup ∧
      ∀ name ∈ (neurons.zipIdx.map (affineRow l layer)).map (·.name), ∃ k,
        name = indexedName "affine" (layer + 1) k := by
  rw [List.map_map]
  constructor
  · refine nodup_map_of_getElem? fun u v x y first second same => ?_
    have index {w : Nat} {z : (List α × α) × Nat} (found : neurons.zipIdx[w]? = some z) :
        z.2 = w := by
      rw [List.getElem?_zipIdx, Option.map_eq_some_iff] at found
      obtain ⟨neuron, -, rfl⟩ := found
      exact Nat.zero_add w
    rw [← index first, ← index second]
    exact (indexedName_injective same).2.2
  · intro name member
    obtain ⟨q, -, rfl⟩ := List.mem_map.mp member
    exact ⟨q.2, rfl⟩

theorem taylorLayer_names (l : Layout) (f : Activation α) (layer width : Nat)
    (bounds : List (NeuronBounds α)) :
    ((bounds.zipIdx.flatMap (taylorRows l f layer width)).map (·.name)).Nodup ∧
      ∀ name ∈ (bounds.zipIdx.flatMap (taylorRows l f layer width)).map (·.name),
        ∃ letter ≠ "affine", ∃ k, name = indexedName letter (layer + 1) k := by
  rw [List.map_flatMap]
  constructor
  · refine nodup_flatMap_zipIdx (fun p _ => (taylorRows_names l f layer width p).1) ?_
    intro p _ q _ name first second
    obtain ⟨letter, -, named⟩ := (taylorRows_names l f layer width p).2 name first
    obtain ⟨other, -, same⟩ := (taylorRows_names l f layer width q).2 name second
    exact (indexedName_injective (named.symm.trans same)).2.2
  · intro name member
    obtain ⟨p, -, inRows⟩ := List.mem_flatMap.mp member
    obtain ⟨letter, other, named⟩ := (taylorRows_names l f layer width p).2 name inRows
    exact ⟨letter, other, p.2, named⟩

theorem base_vars (inclusion : Inclusion α) (formulation : Formulation) :
    (base inclusion formulation).vars.toList = Pieces.vars
      (relaxation inclusion (layoutOf inclusion formulation.exposesResiduals)) := by
  simp [base, Program.extend, Program.empty]

theorem base_rows (inclusion : Inclusion α) (formulation : Formulation) :
    (base inclusion formulation).constraints.toList = Pieces.rows
      (relaxation inclusion (layoutOf inclusion formulation.exposesResiduals)) := by
  simp [base, Program.extend, Program.empty]

/-- The name of a row tells the family of the row, its layer and its neuron. -/
theorem base_rows_nodup (inclusion : Inclusion α) (formulation : Formulation) :
    ((base inclusion formulation).constraints.toList.map (·.name)).Nodup := by
  let l := layoutOf inclusion formulation.exposesResiduals
  have affine (p : (Layer α × List (NeuronBounds α)) × Nat) :=
    affineRows_names l p.2 p.1.1.neurons
  have taylor (p : (Layer α × List (NeuronBounds α)) × Nat) :=
    taylorLayer_names l inclusion.activation p.2 p.1.2.length p.1.2
  rw [base_rows, rows_relaxation, List.map_flatMap]
  simp only [List.map_append]
  refine nodup_flatMap_zipIdx ?_ ?_
  · intro p _
    refine List.nodup_append.mpr ⟨(affine p).1, (taylor p).1, fun x first y second same => ?_⟩
    obtain ⟨k, named⟩ := (affine p).2 x first
    obtain ⟨letter, other, j, namedToo⟩ := (taylor p).2 y second
    exact other (indexedName_injective ((namedToo.symm.trans same.symm).trans named)).1
  · intro p _ q _ name first second
    have layer {r : (Layer α × List (NeuronBounds α)) × Nat}
        (member : name ∈ (r.1.1.neurons.zipIdx.map (affineRow l r.2)).map (·.name) ++
          (r.1.2.zipIdx.flatMap (taylorRows l inclusion.activation r.2 r.1.2.length)).map
            (·.name)) : ∃ letter k, name = indexedName letter (r.2 + 1) k := by
      rcases List.mem_append.mp member with isAffine | isTaylor
      · obtain ⟨k, named⟩ := (affine r).2 name isAffine
        exact ⟨_, k, named⟩
      · obtain ⟨letter, -, k, named⟩ := (taylor r).2 name isTaylor
        exact ⟨letter, k, named⟩
    obtain ⟨letter, j, named⟩ := layer first
    obtain ⟨other, k, same⟩ := layer second
    exact Nat.succ.inj (indexedName_injective (named.symm.trans same)).2.1

end Blueprint

theorem Inclusion.Propagated.base_distinct (made : inclusion.Propagated)
    (formulation : Formulation) : (Blueprint.base inclusion formulation).Distinct :=
  ⟨made.base_vars_nodup formulation, Blueprint.base_rows_nodup inclusion formulation⟩

end Relaxation

section Blocks

variable {α : Type} [Scalar α]

namespace Dual

/-- The names of the multipliers that a competitor brings along. -/
def varNames (base : Program α) (k : Nat) : List String :=
  (base.constraints.toList.map (·.name)).map (blockName "y" k) ++
    base.vars.toList.flatMap fun x => (finiteBounds x).map fun b => blockName b.kind k x.name

/-- The names of the rows that a competitor brings along, one for each variable. -/
def rowNames (base : Program α) (k : Nat) : List String :=
  (base.vars.toList.map (·.name)).map (blockName "dual" k)

theorem columns_names (k : Nat) (start : VarId) (rows : List (Constraint α))
    (objective : LinearExpr α) (next : VarId) (xs : List (Variable α × Nat)) :
    (Pieces.vars (columns k start rows objective next xs)).map (·.name) =
        xs.flatMap (fun p => (finiteBounds p.1).map fun b => blockName b.kind k p.1.name) ∧
      (Pieces.rows (columns k start rows objective next xs)).map (·.name) =
        xs.map fun p => blockName "dual" k p.1.name := by
  induction xs generalizing next with
  | nil => exact ⟨rfl, rfl⟩
  | cons p rest ih =>
      obtain ⟨vars, ofRows⟩ := ih (next + (finiteBounds p.1).length)
      constructor
      · rw [columns, columnPieces, Pieces.vars_append, Pieces.vars_append,
          Pieces.vars_map_declared, List.map_append, List.map_append, List.map_map, vars,
          List.flatMap_cons]
        exact congrArg (· ++ _) (List.append_nil _)
      · rw [columns, columnPieces, Pieces.rows_append, Pieces.rows_append,
          Pieces.rows_map_declared, List.nil_append, List.map_append, ofRows]
        rfl

theorem block_names (k : Nat) (start : VarId) (base : Program α) (objective : LinearExpr α) :
    (Pieces.vars (block k start base objective).pieces).map (·.name) = varNames base k ∧
      (Pieces.rows (block k start base objective).pieces).map (·.name) = rowNames base k := by
  obtain ⟨vars, rows⟩ := columns_names k start base.constraints.toList objective
    (start + base.constraints.toList.length) (indexedVars base)
  have first : (indexedVars base).map Prod.fst = base.vars.toList := List.zipIdx_map_fst _ _
  constructor
  · rw [block_eq, Pieces.vars_append, Pieces.vars_map_declared, List.map_append, vars, List.map_map,
      varNames, ← first, List.flatMap_map, List.map_map]
    rfl
  · rw [block_eq, Pieces.rows_append, Pieces.rows_map_declared, List.nil_append, rows, rowNames,
      ← first, List.map_map, List.map_map]
    rfl

theorem kind_of_mem_finiteBounds {x : Variable α} {b : FiniteBound α}
    (member : b ∈ finiteBounds x) : b.kind = "lo" ∨ b.kind = "up" := by
  rcases List.mem_append.mp member with lower | upper
  · obtain ⟨value, -, rfl⟩ := Option.map_eq_some_iff.mp (Option.mem_toList.mp lower)
    exact .inl rfl
  · obtain ⟨value, -, rfl⟩ := Option.map_eq_some_iff.mp (Option.mem_toList.mp upper)
    exact .inr rfl

theorem plain_kind {x : Variable α} {b : FiniteBound α} (member : b ∈ finiteBounds x) :
    Plain b.kind := by
  rcases kind_of_mem_finiteBounds member with kind | kind
  · rw [kind]
    decide
  · rw [kind]
    decide

/-- The names of a competitor's multipliers carry its index. -/
theorem exists_blockName_of_mem {base : Program α} {k : Nat} {name : String}
    (member : name ∈ varNames base k) :
    ∃ kind inner, Plain kind ∧ name = blockName kind k inner := by
  rcases List.mem_append.mp member with row | bound
  · obtain ⟨inner, -, rfl⟩ := List.mem_map.mp row
    exact ⟨"y", inner, by decide, rfl⟩
  · obtain ⟨x, -, inBounds⟩ := List.mem_flatMap.mp bound
    obtain ⟨b, known, rfl⟩ := List.mem_map.mp inBounds
    exact ⟨b.kind, x.name, plain_kind known, rfl⟩

theorem boundNames_nodup (x : Variable α) (k : Nat) :
    ((finiteBounds x).map fun b => blockName b.kind k x.name).Nodup := by
  have other : blockName "lo" k x.name ≠ blockName "up" k x.name := fun same =>
    absurd (blockName_injective (by decide) (by decide) same).1 (by decide)
  unfold finiteBounds
  cases x.lower.finite? <;> cases x.upper.finite? <;> simp [other]

theorem varNames_disjoint (base : Program α) {j k : Nat} (other : j ≠ k) :
    (varNames base j).Disjoint (varNames base k) := by
  intro name first second
  obtain ⟨kind, inner, plain, named⟩ := exists_blockName_of_mem first
  obtain ⟨kindToo, more, plainToo, same⟩ := exists_blockName_of_mem second
  exact other (blockName_injective plain plainToo (named.symm.trans same)).2.1

/-- The common margin has a name without an underscore. -/
theorem common_notMem_varNames (base : Program α) (rivals : List Nat) :
    "t" ∉ rivals.flatMap (varNames base) := by
  intro member
  obtain ⟨k, -, inBlock⟩ := List.mem_flatMap.mp member
  obtain ⟨kind, inner, -, same⟩ := exists_blockName_of_mem inBlock
  have plain : Plain "t" := by decide
  refine plain ?_
  rw [same, blockName_parts]
  exact List.mem_append_right _ List.mem_cons_self

variable {base : Program α} (distinct : base.Distinct) (k : Nat)
include distinct

theorem varNames_nodup : (varNames base k).Nodup := by
  refine List.nodup_append.mpr ⟨?_, ?_, ?_⟩
  · exact distinct.rows.map fun _ _ same =>
      (blockName_injective (by decide) (by decide) same).2.2
  · refine List.nodup_flatMap.mpr ⟨fun x _ => boundNames_nodup x k, ?_⟩
    refine (List.pairwise_map.mp distinct.vars).imp ?_
    intro x y other name first second
    obtain ⟨b, inX, rfl⟩ := List.mem_map.mp first
    obtain ⟨c, inY, same⟩ := List.mem_map.mp second
    exact other (blockName_injective (plain_kind inX) (plain_kind inY) same.symm).2.2
  · intro first row second bound same
    obtain ⟨inner, -, rfl⟩ := List.mem_map.mp row
    obtain ⟨x, -, inBounds⟩ := List.mem_flatMap.mp bound
    obtain ⟨b, known, rfl⟩ := List.mem_map.mp inBounds
    have kind := (blockName_injective (by decide) (plain_kind known) same).1
    rcases kind_of_mem_finiteBounds known with other | other
    · exact absurd (kind.trans other) (by decide)
    · exact absurd (kind.trans other) (by decide)

omit [Scalar α] in
theorem rowNames_nodup : (rowNames base k).Nodup :=
  distinct.vars.map fun _ _ same => (blockName_injective (by decide) (by decide) same).2.2

end Dual

namespace Model

theorem margin_toList (k : Nat) :
    (s!"margin_{k}").toList = "margin".toList ++ '_' :: (toString k).toList := by
  change ("margin_" ++ toString k).toList = _
  rw [String.toList_append]
  rfl

theorem margin_injective {j k : Nat} (same : s!"margin_{j}" = s!"margin_{k}") : j = k := by
  have lists := congrArg String.toList same
  rw [margin_toList, margin_toList] at lists
  exact toString_injective (List.cons.inj (List.append_cancel_left lists)).2

theorem blockName_ne_margin (j k : Nat) (name : String) :
    Dual.blockName "dual" j name ≠ s!"margin_{k}" := by
  intro same
  have lists := congrArg String.toList same
  rw [Dual.blockName_parts, margin_toList] at lists
  have plain : Plain "dual" := by decide
  have plainToo : Plain "margin" := by decide
  exact absurd (append_cons_inj_of_not_mem plain plainToo lists).1 (by decide)

/-- The blocks of competitors in turn have the names of each of them. -/
theorem blocks_names (base : Program α) (margin : Nat → LinearExpr α) (t : VarId)
    (rivals : List Nat) (start : VarId) :
    let pieces := (blocks base margin start rivals).flatMap (blockPieces t)
    (Pieces.vars pieces).map (·.name) = rivals.flatMap (Dual.varNames base) ∧
      (Pieces.rows pieces).map (·.name) =
        rivals.flatMap fun k => Dual.rowNames base k ++ [s!"margin_{k}"] := by
  intro pieces
  induction rivals generalizing start with
  | nil => exact ⟨rfl, rfl⟩
  | cons k rest ih =>
      let b := Dual.block k start base (margin k)
      have split : pieces = blockPieces t (k, b) ++
          (blocks base margin b.next rest).flatMap (blockPieces t) := List.flatMap_cons
      obtain ⟨vars, rows⟩ := ih b.next
      obtain ⟨own, ownRows⟩ := Dual.block_names k start base (margin k)
      constructor
      · rw [split, Pieces.vars_append, List.map_append, vars, vars_blockPieces, own,
          List.flatMap_cons]
      · rw [split, Pieces.rows_append, List.map_append, rows, blockPieces, Pieces.rows_append,
          List.map_append, ownRows, List.flatMap_cons]
        rfl

theorem robustProgram_names (inclusion : Inclusion α) (label : Nat) (formulation : Formulation) :
    let base := Blueprint.base inclusion formulation
    let rivals := competitors inclusion.network.outputs label
    (robustProgram inclusion label formulation).vars.toList.map (·.name) =
        "t" :: rivals.flatMap (Dual.varNames base) ∧
      (robustProgram inclusion label formulation).constraints.toList.map (·.name) =
        rivals.flatMap fun k => Dual.rowNames base k ++ [s!"margin_{k}"] := by
  intro base rivals
  obtain ⟨vars, rows⟩ := blocks_names base (margin inclusion label formulation) 0 rivals 1
  constructor
  · rw [← vars]
    simp [robustProgram, Program.setObjective, Program.extend, Program.push, Program.empty,
      dualBlocks, Variable.free, base, rivals]
  · rw [← rows]
    simp [robustProgram, Program.setObjective, Program.extend, Program.push, Program.empty,
      dualBlocks, base, rivals]

omit [Scalar α] in
/-- The names of the rows of a competitor, that of its margin among them. -/
theorem rowNames_margin_nodup {base : Program α} (distinct : base.Distinct) (k : Nat) :
    (Dual.rowNames base k ++ [s!"margin_{k}"]).Nodup := by
  refine List.nodup_append.mpr
    ⟨Dual.rowNames_nodup distinct k, List.nodup_singleton _, fun x row y isMargin same => ?_⟩
  obtain ⟨inner, -, rfl⟩ := List.mem_map.mp row
  exact blockName_ne_margin k k inner (same.trans (List.mem_singleton.mp isMargin))

omit [Scalar α] in
theorem rowNames_margin_disjoint (base : Program α) {j k : Nat} (other : j ≠ k) :
    (Dual.rowNames base j ++ [s!"margin_{j}"]).Disjoint
      (Dual.rowNames base k ++ [s!"margin_{k}"]) := by
  have owner {i : Nat} {name : String} (member : name ∈ Dual.rowNames base i ++ [s!"margin_{i}"]) :
      (∃ inner, name = Dual.blockName "dual" i inner) ∨ name = s!"margin_{i}" := by
    rcases List.mem_append.mp member with row | isMargin
    · obtain ⟨inner, -, rfl⟩ := List.mem_map.mp row
      exact .inl ⟨inner, rfl⟩
    · exact .inr (List.mem_singleton.mp isMargin)
  intro name first second
  rcases owner first with ⟨inner, rfl⟩ | rfl
  · rcases owner second with ⟨more, same⟩ | same
    · exact other (Dual.blockName_injective (by decide) (by decide) same).2.1
    · exact blockName_ne_margin j k inner same
  · rcases owner second with ⟨more, same⟩ | same
    · exact blockName_ne_margin k j more same.symm
    · exact other (margin_injective same)

/-- Blocks of different competitors share no names. -/
theorem robustProgram_distinct {inclusion : Inclusion α} (label : Nat) {formulation : Formulation}
    (distinct : (Blueprint.base inclusion formulation).Distinct) :
    (robustProgram inclusion label formulation).Distinct := by
  obtain ⟨vars, rows⟩ := robustProgram_names inclusion label formulation
  have rivals := competitors_pairwise inclusion.network.outputs label
  constructor
  · rw [vars]
    exact List.nodup_cons.mpr ⟨Dual.common_notMem_varNames _ _, List.nodup_flatMap.mpr
      ⟨fun k _ => Dual.varNames_nodup distinct k,
        rivals.imp fun less => Dual.varNames_disjoint _ less.ne⟩⟩
  · rw [rows]
    exact List.nodup_flatMap.mpr ⟨fun k _ => rowNames_margin_nodup distinct k,
      rivals.imp fun less => rowNames_margin_disjoint _ less.ne⟩

end Model

end Blocks

end RobustMargin
