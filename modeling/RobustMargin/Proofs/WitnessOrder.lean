import RobustMargin.Proofs.Handles
import RobustMargin.Proofs.Submissions

/-! # The order of witnesses

The witnesses of a common margin are solved in increasing order of their bounds at the dual point,
the earlier competitor first where bounds are equal. The replies in this order settle the solve. -/
namespace RobustMargin

/-- A stable sort by keys keeps the order of entries whose keys are equal. -/
theorem pairwise_mergeSort_zipIdx {β : Type} {le : β → β → Bool}
    (trans : ∀ x y z, le x y = true → le y z = true → le x z = true)
    (total : ∀ x y, (le x y || le y x) = true) (xs : List β) :
    (xs.zipIdx.mergeSort fun x y => le x.1 y.1).Pairwise fun x y =>
      le x.1 y.1 = true ∧ (le y.1 x.1 = true → x.2 < y.2) := by
  let keyLE : β × Nat → β × Nat → Bool := fun x y => le x.1 y.1
  let places := xs.zipIdx.zipIdx
  let sorted := places.mergeSort (List.zipIdxLE keyLE)
  have increasing : sorted.Pairwise fun x y => List.zipIdxLE keyLE x y = true :=
    List.pairwise_mergeSort (List.zipIdxLE_trans fun x y z => trans x.1 y.1 z.1)
      (List.zipIdxLE_total fun x y => total x.1 y.1) places
  have distinct : sorted.Pairwise fun x y => x.2 ≠ y.2 := by
    have indices : (places.map Prod.snd).Nodup := by
      rw [← range_eq_map_snd]
      exact List.nodup_range
    exact List.pairwise_map.mp (((List.mergeSort_perm places _).map Prod.snd).nodup_iff.mpr indices)
  have own : ∀ x ∈ sorted, x.1.2 = x.2 := by
    intro x member
    have place := List.mem_zipIdx_iff_getElem?.mp (List.mem_mergeSort.mp member)
    rw [List.getElem?_zipIdx, Option.map_eq_some_iff] at place
    obtain ⟨y, -, same⟩ := place
    rw [← same, Nat.zero_add]
  rw [← List.mergeSort_zipIdx, List.pairwise_map]
  refine (increasing.and distinct).imp_of_mem ?_
  rintro x y inX inY ⟨below, other⟩
  rw [own x inX, own y inY]
  unfold List.zipIdxLE at below
  split at below
  · rename_i le
    refine ⟨le, fun back => ?_⟩
    rw [if_pos back] at below
    exact lt_of_le_of_ne (of_decide_eq_true below) other
  · cases below

namespace Solve

variable {α : Type} [Scalar α]

/-- The certificates with their witnesses in the order of the bounds at a point: each pair once,
with values for all bounds, the lesser bound first and of equal bounds the lower competitor. -/
structure OrderedByBound (m : Model α) (values : Array α)
    (order : List (Certificate α × MarginProgram α)) : Prop where
  each : m.certificates.length = m.witnesses.length
  perm : order.Perm (m.certificates.zip m.witnesses)
  belongs : ∀ q ∈ order, q.2.competitor = some q.1.competitor
  evaluated : ∀ q ∈ order, q.1.bound.eval? values = some (q.1.bound.eval values)
  increasing : order.Pairwise fun p q =>
    Scalar.totalLE (p.1.bound.eval values) (q.1.bound.eval values) = true ∧
      (Scalar.totalLE (q.1.bound.eval values) (p.1.bound.eval values) = true →
        p.1.competitor < q.1.competitor)

/-- Of two indices in the order of the bounds the first has the lesser bound, or is the lesser
one. -/
theorem bindingOrder_pairwise [Scalar.Ordered α] {certificates : List (Certificate α)}
    {values : Array α} {order : List Nat}
    (ordered : bindingOrder certificates values = some order) : order.Pairwise fun i j =>
      ∀ c d, certificates[i]? = some c → certificates[j]? = some d →
        Scalar.totalLE (c.bound.eval values) (d.bound.eval values) = true ∧
          (Scalar.totalLE (d.bound.eval values) (c.bound.eval values) = true → i < j) := by
  obtain ⟨-, rfl⟩ := (bindingOrder_eq_some_iff ..).mp ordered
  let value : Certificate α → α := fun c => c.bound.eval values
  have sorted := pairwise_mergeSort_zipIdx Scalar.Ordered.totalLE_trans
    Scalar.Ordered.totalLE_total (certificates.map value)
  refine List.pairwise_map.mpr (sorted.imp_of_mem ?_)
  intro x y inX inY ordered c d first second
  have known {z : α × Nat} {e : Certificate α} (found : certificates[z.2]? = some e)
      (member : z ∈ (certificates.map value).zipIdx) : z.1 = value e := by
    rw [List.mem_zipIdx_iff_getElem?, List.getElem?_map, found] at member
    exact (Option.some.inj member).symm
  rw [known first (List.mem_mergeSort.mp inX), known second (List.mem_mergeSort.mp inY)] at ordered
  exact ordered

/-- The pairs of certificates and witnesses in an order of their indices. -/
def pairsIn (m : Model α) (order : List Nat) : List (Certificate α × MarginProgram α) :=
  order.filterMap fun index => (m.certificates.zip m.witnesses)[index]?

omit [Scalar α] in
theorem pairsIn_witnesses {m : Model α} (order : List Nat)
    (each : m.certificates.length = m.witnesses.length) :
    (pairsIn m order).map Prod.snd = witnessesIn m order := by
  rw [pairsIn, List.map_filterMap, witnessesIn]
  refine congrArg (List.filterMap · _) (funext fun index => ?_)
  rw [← List.getElem?_map, List.map_snd_zip each.ge]

theorem pairsIn_perm {m : Model α} {values : Array α} {order : List Nat}
    (ordered : bindingOrder m.certificates values = some order)
    (each : m.certificates.length = m.witnesses.length) :
    (pairsIn m order).Perm (m.certificates.zip m.witnesses) := by
  have indices := (bindingOrder_perm ordered).filterMap fun index =>
    (m.certificates.zip m.witnesses)[index]?
  have length : m.certificates.length = (m.certificates.zip m.witnesses).length := by
    rw [List.length_zip, ← each, Nat.min_self]
  rwa [length, filterMap_range_getElem?] at indices

/-- A model of a common margin is searched in the order of its bounds. -/
theorem pairsIn_ordered [Scalar.Ordered α] {m : Model α} {rivals : List Nat}
    (common : m.CommonMargin rivals) (lower : rivals.Pairwise (· < ·)) {values : Array α}
    {order : List Nat} (ordered : bindingOrder m.certificates values = some order) :
    OrderedByBound m values (pairsIn m order) := by
  have each : m.certificates.length = m.witnesses.length := by
    have first := congrArg List.length common.certificates
    have second := congrArg List.length common.witnesses
    simp only [List.length_map] at first second
    exact first.trans second.symm
  have perm := pairsIn_perm ordered each
  have inside := ((bindingOrder_eq_some_iff ..).mp ordered).1
  have rival {i : Nat} {c : Certificate α} (found : m.certificates[i]? = some c) :
      rivals[i]? = some c.competitor := by
    rw [← common.certificates, List.getElem?_map, found]
    rfl
  refine ⟨each, perm, ?_, ?_, ?_⟩
  · intro q member
    obtain ⟨i, found⟩ := List.mem_iff_getElem?.mp (perm.mem_iff.mp member)
    obtain ⟨first, second⟩ := List.getElem?_zip_eq_some.mp found
    have witness := congrArg (·[i]?) common.witnesses
    simp only [List.getElem?_map, second, rival first] at witness
    exact Option.some.inj witness
  · intro q member
    have known := (List.of_mem_zip (perm.mem_iff.mp member)).1
    exact LinearExpr.eval?_eq_some _ _ (inside _ known)
  · rw [pairsIn, List.pairwise_filterMap]
    refine (bindingOrder_pairwise ordered).imp ?_
    intro i j ordered p first q second
    have foundP := (List.getElem?_zip_eq_some.mp first).1
    have foundQ := (List.getElem?_zip_eq_some.mp second).1
    obtain ⟨below, earlier⟩ := ordered p.1 q.1 foundP foundQ
    refine ⟨below, fun back => ?_⟩
    obtain ⟨boundP, atP⟩ := List.getElem?_eq_some_iff.mp (rival foundP)
    obtain ⟨boundQ, atQ⟩ := List.getElem?_eq_some_iff.mp (rival foundQ)
    rw [← atP, ← atQ]
    exact List.pairwise_iff_getElem.mp lower i j boundP boundQ (earlier back)

/-- What is kept of a common margin, the status that is told, and the programs given to the solver
for it. A dual program without an optimum leaves no point, and an error ends the solve; after an
optimum the witnesses are searched in the order of their bounds for one that attains it. -/
inductive MarginOf {σ : Type} (m : Model α) (robust : MarginProgram α) (solver : Solver α σ)
    (state : σ) : Option (Optimum α) → Status α → List (MarginProgram α) → Prop
  | noPoint {answer : Answer α} {next : σ} :
      solver.solve robust.program state = (answer, next) →
      answer = .ok .infeasible ∨ answer = .ok .unbounded →
      MarginOf m robust solver state none (.failed .infeasible) [robust]
  | error {e : Error α} {next : σ} :
      solver.solve robust.program state = (.error e, next) →
      MarginOf m robust solver state none (.failed (.solverError e.message)) [robust]
  | searched {solution : Solution α} {next : σ}
      {order : List (Certificate α × MarginProgram α)} {kept : Option (Optimum α)}
      {status : Status α} {asked : List (MarginProgram α)} :
      solver.solve robust.program state = (.ok (.optimal solution), next) →
      OrderedByBound m solution.values order →
      AttainedOf solver.name solution.objective (solver.replies (order.map Prod.snd) next)
        kept status asked →
      MarginOf m robust solver state kept status (robust :: asked)

/-- A model of a common margin is solved by its dual program first. Without an optimum of it no
witness is solved. With one the witnesses are solved in increasing order of their bounds at the
point that was found, up to the first that attains the margin or fails; what is kept has the margin
of the dual program, and the values and the competitor of the first witness that attains it, or else
of the first with the least objective. -/
theorem run_marginOf [Scalar.Ordered α] {σ : Type} (inclusion : Inclusion α) (label : Nat)
    (m : Model α) (built : Model.build inclusion label .auxiliary = .ok m) (solver : Solver α σ)
    (full : solver.FullLength) (numeric : solver.Numeric) (state : σ) :
    let ended := run m solver.recorded (state, [])
    ended.1 = (run m solver state).1 ∧
      ∃ c robust asked, ended.1 = some c ∧ m.programs = [robust] ∧
        ended.2.2 = asked.map (·.program) ∧
        MarginOf m robust solver state c.solution c.status asked := by
  have model := Model.builtFor_of_build built
  have some_primal := model.primal_ne_nil
  obtain ⟨-, -, rfl⟩ := Model.eq_ofRelaxation_of_build built
  let m := Model.ofRelaxation inclusion label .auxiliary
  let robust : MarginProgram α := ⟨none, Model.robustProgram inclusion label .auxiliary⟩
  refine ⟨run_recorded m solver state [], ?_⟩
  have ran : run m solver.recorded (state, []) = auxiliary m solver.recorded (state, []) := rfl
  have programs : m.programs = [robust] := rfl
  rw [ran, auxiliary, programs]
  rcases answer : solver.solve robust.program state with ⟨reply, next⟩
  simp only [Solver.recorded, answer]
  cases reply with
  | error e => exact ⟨_, robust, [robust], rfl, rfl, rfl, .error answer⟩
  | ok outcome =>
      cases outcome with
      | infeasible => exact ⟨_, robust, [robust], rfl, rfl, rfl, .noPoint answer (.inl rfl)⟩
      | unbounded => exact ⟨_, robust, [robust], rfl, rfl, rfl, .noPoint answer (.inr rfl)⟩
      | optimal solution =>
          have common : m.CommonMargin _ := Model.ofRelaxation_commonMargin inclusion label rfl
          obtain ⟨order, ordered⟩ : ∃ order,
              bindingOrder m.certificates solution.values = some order :=
            exists_bindingOrder inclusion label (full _ _ _ _ answer)
          have sorted := pairsIn_ordered common (Model.competitors_pairwise _ label) ordered
          have witnesses := pairsIn_witnesses order sorted.each
          have some_witness : witnessesIn m order ≠ [] := fun none =>
            some_primal ((none ▸ witnessesIn_perm ordered sorted.each).symm.eq_nil)
          obtain ⟨asked, log, attained⟩ := untilAttained_attainedOf numeric some_witness
            solution.objective next [robust.program]
          rw [← witnesses] at attained
          refine ⟨_, robust, robust :: asked, ?_, rfl, ?_, .searched answer sorted attained⟩
          · simp only [ordered]
            rw [witnesses]
            rfl
          · simp only [ordered]
            exact log

/-- The dual program has an optimum, and the first witness fails. -/
theorem run_marginOf_once :
    ∃ m, Model.build passedOnToFirst 0 .auxiliary = .ok m ∧ Solver.once.FullLength ∧
      Solver.once.Numeric ∧
      let ended := run m Solver.once.recorded (0, [])
      ended.1 = (run m Solver.once 0).1 ∧
        ∃ c robust asked, ended.1 = some c ∧ m.programs = [robust] ∧
          ended.2.2 = asked.map (·.program) ∧
          MarginOf m robust .once 0 c.solution c.status asked := by
  have accepted : (Model.build passedOnToFirst 0 .auxiliary).isOk = true := by decide +kernel
  obtain ⟨m, built⟩ := exists_ok_of_isOk accepted
  exact ⟨m, built, Solver.once_fullLength, Solver.once_numeric, run_marginOf passedOnToFirst 0 m
    built .once Solver.once_fullLength Solver.once_numeric 0⟩

end Solve
end RobustMargin
