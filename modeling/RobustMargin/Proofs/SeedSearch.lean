import Mathlib.Data.Prod.Lex
import Mathlib.Order.Bounds.Basic
import RobustMargin.Proofs.Readings
import RobustMargin.Sweep

/-! # Seed searches

A sweep over samples and seeds finds the lexicographically least pair whose network has an optimum,
in whatever order the seeds of a sample are tried. A sample that no network can be shaped for ends
the sweep only if no sample before it has such a seed. -/
namespace RobustMargin

namespace Solver

variable {α σ : Type}

/-- Answers depend on the program alone. -/
def Stateless (solver : Solver α σ) : Prop :=
  ∀ p state other, (solver.solve p state).1 = (solver.solve p other).1

theorem stateless_ofFunction (name : String) (answer : Program α → Answer α) :
    (ofFunction name answer : Solver α σ).Stateless :=
  fun _ _ _ => rfl

end Solver

namespace Solve

variable {α σ : Type} [Scalar α] {solver : Solver α σ}

theorem eachCompetitor_stateless (stateless : solver.Stateless) (best : Option (Optimum α))
    (programs : List (MarginProgram α)) (state other : σ) :
    (eachCompetitor solver best programs state).1 =
      (eachCompetitor solver best programs other).1 := by
  induction programs generalizing best state other with
  | nil => rfl
  | cons p rest ih =>
      rw [eachCompetitor, eachCompetitor]
      dsimp only
      rw [stateless p.program state other]
      cases solutionOf solver.name (solver.solve p.program other).1 with
      | error cause => rfl
      | ok solution => exact ih _ _ _

theorem untilAttained_stateless (stateless : solver.Stateless) (limit : α)
    (best : Option (Optimum α)) (programs : List (MarginProgram α)) (state other : σ) :
    (untilAttained solver limit best programs state).1 =
      (untilAttained solver limit best programs other).1 := by
  induction programs generalizing best state other with
  | nil => rfl
  | cons p rest ih =>
      rw [untilAttained, untilAttained]
      dsimp only
      rw [stateless p.program state other]
      cases solutionOf solver.name (solver.solve p.program other).1 with
      | error cause => rfl
      | ok solution =>
          dsimp only
          split
          · rfl
          · exact ih _ _ _

theorem run_stateless (stateless : solver.Stateless) (m : Model α) (state other : σ) :
    (run m solver state).1 = (run m solver other).1 := by
  rw [run, run]
  split
  · exact congrArg (fun best => some (conclude best))
      (eachCompetitor_stateless stateless none m.programs state other)
  · rw [auxiliary, auxiliary]
    cases m.programs with
    | nil => rfl
    | cons robust rest =>
        dsimp only
        rw [stateless robust.program state other]
        rcases (solver.solve robust.program other).1 with e | margin | _ | _
        · rfl
        · dsimp only
          cases bindingOrder m.certificates margin.values with
          | none => rfl
          | some order =>
              exact congrArg (fun best => some (certify margin.objective best))
                (untilAttained_stateless stateless ..)
        · rfl
        · rfl

end Solve

namespace Query

variable {α σ : Type} [Scalar α] {q : Query α} {settings : Settings}

theorem verification_eq_ok_iff (v : Verification α) : q.verification settings = .ok v ↔
    ∃ inclusion label m,
      Inclusion.build q.input q.activation q.network settings.linearization = .ok inclusion ∧
      inclusion.label = .ok label ∧ Model.build inclusion label settings.formulation = .ok m ∧
      v = ⟨inclusion, m, .built, none⟩ := by
  constructor
  · intro made
    obtain ⟨inclusion, propagated, made⟩ := exists_of_bind_eq_ok made
    obtain ⟨label, isLabel, made⟩ := exists_of_bind_eq_ok made
    obtain ⟨m, built, made⟩ := exists_of_bind_eq_ok made
    exact ⟨inclusion, label, m, propagated, isLabel, built, (Except.ok.inj made).symm⟩
  · rintro ⟨inclusion, label, m, propagated, isLabel, built, rfl⟩
    have propagated : q.inclusion settings = .ok inclusion := propagated
    rw [verification, propagated]
    change Verification.build inclusion settings.formulation = _
    rw [Verification.build, isLabel]
    change Verification.withLabel inclusion label settings.formulation = _
    rw [Verification.withLabel, built]
    rfl

/-- What a query tells is what the run over the programs of its model concludes. -/
theorem verify_eq {v : Verification α} (made : q.verification settings = .ok v)
    (unsolved : v.state = .built) (solver : Solver α σ) (state : σ) :
    (q.verify settings solver state).1 = (Solve.run v.model solver state).1.map fun c =>
      .ok ⟨v.label, c.status, .ofStatus c.status, c.solution.bind (·.competitor)⟩ := by
  rw [verify, made]
  dsimp only
  cases ended : (Solve.run v.model solver state).1 with
  | none =>
      have none : v.solve solver state = none := by
        rw [Verification.solve, unsolved]
        dsimp only
        split
        · rfl
        · rename_i isSome
          rw [isSome] at ended
          cases ended
      rw [none]
      rfl
  | some c =>
      have settled := Solve.run_settled ended
      rw [Verification.solve_eq unsolved ended]
      rcases c with ⟨solution, status, fallsShort⟩
      cases settled with
      | optimal o => rfl
      | failed cause => rfl

theorem verify_optimal_iff {v : Verification α} (made : q.verification settings = .ok v)
    (unsolved : v.state = .built) (solver : Solver α σ) (state : σ) (margin : α) :
    (∃ told, (q.verify settings solver state).1 = some (.ok told) ∧
      told.status = .optimal margin) ↔
      ∃ c, (Solve.run v.model solver state).1 = some c ∧ c.status = .optimal margin := by
  rw [verify_eq made unsolved]
  constructor
  · rintro ⟨told, same, optimal⟩
    obtain ⟨c, ended, isTold⟩ := Option.map_eq_some_iff.mp same
    obtain rfl := Except.ok.inj isTold
    exact ⟨c, ended, optimal⟩
  · rintro ⟨c, ended, optimal⟩
    exact ⟨_, Option.map_eq_some_iff.mpr ⟨c, ended, rfl⟩, optimal⟩

end Query

namespace SeedRange

instance : Membership Nat SeedRange where
  mem seeds seed := seeds.first ≤ seed ∧ seed < seeds.stop

theorem mem_iff {first stop seed : Nat} :
    seed ∈ (⟨first, stop⟩ : SeedRange) ↔ first ≤ seed ∧ seed < stop :=
  Iff.rfl

end SeedRange

namespace Sweep

variable {α σ : Type} [Scalar α]

/-- No network can be shaped for a sample: there would be fewer than two outputs, or no widths lead
to them. -/
def Refused (settings : SweepSettings α) (input : InputBox α) : Prop :=
  let outputs := settings.outputs.getD (suggestedOutputs input.size settings.depth)
  outputs < 2 ∨ ∃ fault, layerWidths input.size outputs settings.depth = .error fault

theorem refused_iff (settings : SweepSettings α) (input : InputBox α) :
    Refused settings input ↔ ∃ e, widths settings input = .error e := by
  unfold Refused widths
  dsimp only
  split
  case isTrue few => exact ⟨fun _ => ⟨_, rfl⟩, fun _ => .inl few⟩
  case isFalse enough =>
    constructor
    · rintro (few | ⟨fault, rejected⟩)
      · exact absurd few enough
      · exact ⟨.invalidParams fault, by rw [rejected]; rfl⟩
    · rintro ⟨e, rejected⟩
      cases narrowed : layerWidths input.size
          (settings.outputs.getD (suggestedOutputs input.size settings.depth)) settings.depth with
      | error fault => exact .inr ⟨fault, rfl⟩
      | ok shape =>
          rw [narrowed] at rejected
          cases rejected

theorem not_refused_iff (settings : SweepSettings α) (input : InputBox α) :
    ¬Refused settings input ↔ ∃ shape, widths settings input = .ok shape := by
  rw [refused_iff]
  cases widths settings input <;> simp

theorem widths_eq_ok_iff (settings : SweepSettings α) (input : InputBox α) (shape : List Nat) :
    widths settings input = .ok shape ↔
      2 ≤ settings.outputs.getD (suggestedOutputs input.size settings.depth) ∧
      layerWidths input.size (settings.outputs.getD (suggestedOutputs input.size settings.depth))
        settings.depth = .ok shape := by
  unfold widths
  dsimp only
  split
  case isTrue few =>
    refine ⟨nofun, fun enough => ?_⟩
    exact absurd enough.1 (not_le.mpr few)
  case isFalse enough =>
    rw [and_iff_right (not_lt.mp enough)]
    exact mapError_eq_ok_iff

omit [Scalar α] in
theorem Attempt.ofVerify_eq_hit_iff (outcome : Option (Except (Error α) (QueryOutcome α)))
    (margin : α) : ofVerify outcome = .hit margin ↔
      ∃ told, outcome = some (.ok told) ∧ told.status = .optimal margin := by
  match outcome with
  | none => exact ⟨nofun, nofun⟩
  | some (.error e) => exact ⟨nofun, nofun⟩
  | some (.ok told) =>
      rw [ofVerify]
      cases status : told.status with
      | optimal value => simp [status]
      | failed cause => simp [status]

section Search

variable (settings : SweepSettings α) (generate : Generator α) (solver : Solver α σ)

/-- The model of a seed solves to an optimum with a margin: the network of the seed is propagated
over the input, and the solver runs the programs for its nominal label. -/
inductive Solves (input : InputBox α) (seed : Nat) (margin : α) : Prop
  | intro (shape : List Nat) (network : Network α) (inclusion : Inclusion α) (label : Nat)
      (m : Model α) (state : σ) (c : Conclusion α) :
      2 ≤ settings.outputs.getD (suggestedOutputs input.size settings.depth) →
      layerWidths input.size (settings.outputs.getD (suggestedOutputs input.size settings.depth))
        settings.depth = .ok shape →
      generate input.size shape seed = .ok network →
      Inclusion.build input settings.activation network settings.query.linearization =
        .ok inclusion →
      inclusion.label = .ok label →
      Model.build inclusion label settings.query.formulation = .ok m →
      (Solve.run m solver state).1 = some c → c.status = .optimal margin →
      Solves input seed margin

/-- A seed of the sample at an index has a margin. -/
def SolvedAt (samples : List (InputBox α)) (index seed : Nat) (margin : α) : Prop :=
  ∃ input, samples[index]? = some input ∧ seed ∈ settings.seeds ∧
    Solves settings generate solver input seed margin

/-- The pairs of an index and a seed that have a margin. -/
def solvedPairs (samples : List (InputBox α)) : Set (ℕ ×ₗ ℕ) :=
  {pair | ∃ margin, SolvedAt settings generate solver samples
    (ofLex pair).1 (ofLex pair).2 margin}

/-- What a search over seeds reports in whatever order it tries them: the lowest seed with a margin,
or nothing if there is none. -/
inductive LowestHit (has : Nat → α → Prop) (seeds : SeedRange) : Option (Nat × α) → Prop
  | hit {seed : Nat} {margin : α} : seed ∈ seeds → has seed margin →
      (∀ earlier ∈ seeds, earlier < seed → ∀ other, ¬has earlier other) →
      LowestHit has seeds (some (seed, margin))
  | missing : (∀ seed ∈ seeds, ∀ margin, ¬has seed margin) → LowestHit has seeds none

/-- An attempt at a seed gives a margin, in some state of the solver. -/
def Tried (input : InputBox α) (shape : List Nat) (seed : Nat) (margin : α) : Prop :=
  ∃ state, (trySeed settings generate solver input shape seed state).1 = .hit margin

/-- Samples are taken in turn from an index on. The seeds of each are tried in some order, and the
solver may be in any state when it comes to a seed. -/
inductive Swept : Nat → List (InputBox α) → Except (Error α) (Option (Solvable α)) → Prop
  | exhausted (index : Nat) : Swept index [] (.ok none)
  | refused {index : Nat} {input : InputBox α} {rest : List (InputBox α)} {e : Error α} :
      widths settings input = .error e → Swept index (input :: rest) (.error e)
  | hit {index seed : Nat} {margin : α} {input : InputBox α} {rest : List (InputBox α)}
      {shape : List Nat} : widths settings input = .ok shape →
      LowestHit (Tried settings generate solver input shape) settings.seeds
        (some (seed, margin)) →
      Swept index (input :: rest) (.ok (some ⟨index, seed, margin⟩))
  | next {index : Nat} {input : InputBox α} {rest : List (InputBox α)} {shape : List Nat}
      {result : Except (Error α) (Option (Solvable α))} : widths settings input = .ok shape →
      LowestHit (Tried settings generate solver input shape) settings.seeds none →
      Swept (index + 1) rest result → Swept index (input :: rest) result

/-- The sweep goes past a sample. -/
def Passed (input : InputBox α) : Prop :=
  ¬Refused settings input ∧
    ∀ seed ∈ settings.seeds, ∀ margin, ¬Solves settings generate solver input seed margin

/-- Where a sweep from an index on comes to its end: after the last sample, at one that is refused,
or at one with a seed that has a margin. -/
inductive Ending (index : Nat) :
    List (InputBox α) → Except (Error α) (Option (Solvable α)) → Prop
  | exhausted {samples : List (InputBox α)} :
      (∀ input ∈ samples, Passed settings generate solver input) →
      Ending index samples (.ok none)
  | refused (before after : List (InputBox α)) {input : InputBox α} {e : Error α} :
      (∀ input ∈ before, Passed settings generate solver input) →
      widths settings input = .error e → Ending index (before ++ input :: after) (.error e)
  | hit (before after : List (InputBox α)) (input : InputBox α) (seed : Nat) (margin : α) :
      (∀ input ∈ before, Passed settings generate solver input) → ¬Refused settings input →
      LowestHit (Solves settings generate solver input) settings.seeds (some (seed, margin)) →
      Ending index (before ++ input :: after) (.ok (some ⟨index + before.length, seed, margin⟩))

end Search

omit [Scalar α] in
/-- Trying seeds in increasing order reports the lowest hit, if it comes to a report. -/
theorem trySeeds_lowestHit {attempt : Nat → σ → Attempt α × σ} {has : Nat → α → Prop}
    (decided : ∀ seed state margin, (attempt seed state).1 = .hit margin ↔ has seed margin)
    (seeds : SeedRange) (state : σ) {result : Option (Nat × α)}
    (ended : (trySeeds attempt seeds.count seeds.first state).1 = some result) :
    LowestHit has seeds result := by
  obtain ⟨first, stop⟩ := seeds
  change (trySeeds attempt (stop - first) first state).1 = some result at ended
  induction left : stop - first generalizing first state with
  | zero =>
      rw [left] at ended
      cases ended
      refine .missing fun seed member => ?_
      obtain ⟨low, high⟩ := SeedRange.mem_iff.mp member
      omega
  | succ count ih =>
      rw [left, trySeeds] at ended
      rcases tried : attempt first state with ⟨_ | _ | margin, next⟩
      · rw [tried] at ended
        cases ended
      · rw [tried] at ended
        have missed (margin : α) : ¬has first margin := by
          rw [← decided first state, tried]
          exact nofun
        have inside {seed : Nat} (member : seed ∈ (⟨first, stop⟩ : SeedRange))
            (other : seed ≠ first) : seed ∈ (⟨first + 1, stop⟩ : SeedRange) := by
          obtain ⟨low, high⟩ := SeedRange.mem_iff.mp member
          exact SeedRange.mem_iff.mpr ⟨by omega, high⟩
        -- What later seeds have decides, as the first one has no margin.
        have shorter : stop - (first + 1) = count := by omega
        have later := ih next (first + 1) (shorter ▸ ended) shorter
        cases later with
        | hit member found lowest =>
            obtain ⟨low, high⟩ := SeedRange.mem_iff.mp member
            refine .hit (SeedRange.mem_iff.mpr ⟨by omega, high⟩) found
              fun earlier within less => ?_
            by_cases same : earlier = first
            · exact same ▸ missed
            · exact lowest earlier (inside within same) less
        | missing missing =>
            refine .missing fun seed within => ?_
            by_cases same : seed = first
            · exact same ▸ missed
            · exact missing seed (inside within same)
      · rw [tried] at ended
        cases ended
        have found : has first margin := (decided first state margin).mp (by rw [tried])
        refine .hit (SeedRange.mem_iff.mpr ⟨le_rfl, by omega⟩) found fun earlier within less => ?_
        obtain ⟨low, -⟩ := SeedRange.mem_iff.mp within
        omega

omit [Scalar α] in
/-- Trying seeds comes to a report if every attempt does. -/
theorem exists_trySeeds {attempt : Nat → σ → Attempt α × σ}
    (returns : ∀ seed state, (attempt seed state).1 ≠ .ended) (count seed : Nat) (state : σ) :
    ∃ result, (trySeeds attempt count seed state).1 = some result := by
  induction count generalizing seed state with
  | zero => exact ⟨_, rfl⟩
  | succ count ih =>
      rw [trySeeds]
      rcases tried : attempt seed state with ⟨_ | _ | margin, next⟩
      · exact absurd (congrArg Prod.fst tried) (returns seed state)
      · exact ih (seed + 1) next
      · exact ⟨_, rfl⟩

section Outcomes

variable {settings : SweepSettings α} {generate : Generator α} {solver : Solver α σ}

theorem mem_solvedPairs {samples : List (InputBox α)} {index seed : Nat} :
    toLex (index, seed) ∈ solvedPairs settings generate solver samples ↔
      ∃ margin, SolvedAt settings generate solver samples index seed margin :=
  Iff.rfl

/-- An attempt at a seed tells whether its network has an optimum, whatever state the solver is in.
A seed that fails has no margin. -/
theorem trySeed_eq_hit_iff (stateless : solver.Stateless) {input : InputBox α} {shape : List Nat}
    (shaped : widths settings input = .ok shape) (seed : Nat) (state : σ) (margin : α) :
    (trySeed settings generate solver input shape seed state).1 = .hit margin ↔
      Solves settings generate solver input seed margin := by
  rw [trySeed]
  constructor
  · intro tried
    cases generated : generate input.size shape seed with
    | error e =>
        rw [generated] at tried
        cases tried
    | ok network =>
        rw [generated] at tried
        let q : Query α := ⟨input, settings.activation, network⟩
        have told : Attempt.ofVerify (q.verify settings.query solver state).1 = .hit margin := tried
        cases made : q.verification settings.query with
        | error e =>
            rw [Query.verify, made] at told
            cases told
        | ok v =>
            obtain ⟨inclusion, label, m, propagated, isLabel, built, rfl⟩ :=
              (Query.verification_eq_ok_iff v).mp made
            rw [Attempt.ofVerify_eq_hit_iff, Query.verify_optimal_iff made rfl] at told
            obtain ⟨c, ended, optimal⟩ := told
            obtain ⟨enough, narrowed⟩ := (widths_eq_ok_iff settings input shape).mp shaped
            exact .intro shape network inclusion label m state c enough narrowed generated
              propagated isLabel built ended optimal
  · rintro ⟨other, network, inclusion, label, m, before, c, enough, narrowed, generated,
      propagated, isLabel, built, ended, optimal⟩
    have same := (widths_eq_ok_iff settings input other).mpr ⟨enough, narrowed⟩
    obtain rfl := Except.ok.inj (same.symm.trans shaped)
    let q : Query α := ⟨input, settings.activation, network⟩
    have made : q.verification settings.query = .ok ⟨inclusion, m, .built, none⟩ :=
      (Query.verification_eq_ok_iff _).mpr
        ⟨inclusion, label, m, propagated, isLabel, built, rfl⟩
    rw [generated]
    change Attempt.ofVerify (q.verify settings.query solver state).1 = .hit margin
    rw [Attempt.ofVerify_eq_hit_iff, Query.verify_optimal_iff made rfl]
    exact ⟨c, (Solve.run_stateless stateless m state before).trans ended, optimal⟩

variable (generate) in
/-- An attempt at a seed returns, if runs of the solver come to conclusions. -/
theorem trySeed_ne_ended
    (full : settings.query.formulation.perCompetitor = true ∨ solver.FullLength)
    (input : InputBox α) (shape : List Nat) (seed : Nat) (state : σ) :
    (trySeed settings generate solver input shape seed state).1 ≠ .ended := by
  rw [trySeed]
  cases generate input.size shape seed with
  | error e => exact nofun
  | ok network =>
      let q : Query α := ⟨input, settings.activation, network⟩
      change Attempt.ofVerify (q.verify settings.query solver state).1 ≠ .ended
      cases made : q.verification settings.query with
      | error e =>
          rw [Query.verify, made]
          exact nofun
      | ok v =>
          obtain ⟨inclusion, label, m, -, -, built, rfl⟩ :=
            (Query.verification_eq_ok_iff v).mp made
          obtain ⟨-, -, rfl⟩ := Model.eq_ofRelaxation_of_build built
          obtain ⟨⟨solution, status, fallsShort⟩, ended⟩ :=
            Solve.exists_conclusion inclusion label settings.query.formulation full state
          rw [Query.verify_eq made rfl, ended]
          cases status with
          | optimal value => exact nofun
          | failed cause => exact nofun

theorem Solves.unique (stateless : solver.Stateless) {input : InputBox α} {seed : Nat}
    {margin other : α} (first : Solves settings generate solver input seed margin)
    (second : Solves settings generate solver input seed other) : margin = other := by
  obtain ⟨shape, -, -, -, -, state, -, enough, narrowed, -⟩ := id first
  have shaped := (widths_eq_ok_iff settings input shape).mpr ⟨enough, narrowed⟩
  have tried := (trySeed_eq_hit_iff stateless shaped seed state margin).mpr first
  rw [(trySeed_eq_hit_iff stateless shaped seed state other).mpr second] at tried
  exact (Attempt.hit.inj tried).symm

theorem tried_eq_solves (stateless : solver.Stateless) {input : InputBox α} {shape : List Nat}
    (shaped : widths settings input = .ok shape) :
    Tried settings generate solver input shape = Solves settings generate solver input := by
  funext seed margin
  refine propext ⟨?_, fun solves => ?_⟩
  · rintro ⟨state, tried⟩
    exact (trySeed_eq_hit_iff stateless shaped seed state margin).mp tried
  · obtain ⟨-, -, -, -, -, state, -⟩ := id solves
    exact ⟨state, (trySeed_eq_hit_iff stateless shaped seed state margin).mpr solves⟩

variable (settings generate) in
/-- Taking samples and seeds in their order is one of the sweeps, if it comes to a report. -/
theorem find_swept (stateless : solver.Stateless) (index : Nat) (samples : List (InputBox α))
    (state : σ) {result : Except (Error α) (Option (Solvable α))}
    (ended : (find settings generate solver index samples state).1 = some result) :
    Swept settings generate solver index samples result := by
  induction samples generalizing index state with
  | nil =>
      cases ended
      exact .exhausted index
  | cons input rest ih =>
      rw [find] at ended
      cases shaped : widths settings input with
      | error e =>
          rw [shaped] at ended
          cases ended
          exact .refused shaped
      | ok shape =>
          rw [shaped] at ended
          dsimp only at ended
          have decided : ∀ seed state margin,
              (trySeed settings generate solver input shape seed state).1 = .hit margin ↔
                Solves settings generate solver input seed margin :=
            trySeed_eq_hit_iff stateless shaped
          have lowest {hit : Option (Nat × α)} (same : (trySeeds
              (trySeed settings generate solver input shape) settings.seeds.count
              settings.seeds.first state).1 = some hit) :=
            trySeeds_lowestHit decided settings.seeds state same
          rw [← tried_eq_solves stateless shaped] at lowest
          rcases searched : trySeeds (trySeed settings generate solver input shape)
            settings.seeds.count settings.seeds.first state with ⟨_ | _ | ⟨seed, margin⟩, next⟩
          · rw [searched] at ended
            cases ended
          · rw [searched] at ended lowest
            exact .next shaped (lowest rfl) (ih (index + 1) next ended)
          · rw [searched] at ended lowest
            cases ended
            exact .hit shaped (lowest rfl)

variable (generate) in
theorem exists_find (full : settings.query.formulation.perCompetitor = true ∨ solver.FullLength)
    (index : Nat) (samples : List (InputBox α)) (state : σ) :
    ∃ result, (find settings generate solver index samples state).1 = some result := by
  induction samples generalizing index state with
  | nil => exact ⟨_, rfl⟩
  | cons input rest ih =>
      rw [find]
      cases widths settings input with
      | error e => exact ⟨_, rfl⟩
      | ok shape =>
          dsimp only
          obtain ⟨found, ended⟩ := exists_trySeeds
            (trySeed_ne_ended generate full input shape)
            settings.seeds.count settings.seeds.first state
          rcases searched : trySeeds (trySeed settings generate solver input shape)
            settings.seeds.count settings.seeds.first state with ⟨_ | _ | hit, next⟩
          · rw [searched] at ended
            cases ended
          · exact ih (index + 1) next
          · exact ⟨_, rfl⟩

theorem Ending.cons {index : Nat} {input : InputBox α} {rest : List (InputBox α)}
    {result : Except (Error α) (Option (Solvable α))}
    (passed : Passed settings generate solver input)
    (ending : Ending settings generate solver (index + 1) rest result) :
    Ending settings generate solver index (input :: rest) result := by
  cases ending with
  | exhausted later => exact .exhausted (List.forall_mem_cons.mpr ⟨passed, later⟩)
  | refused before after later rejected =>
      exact .refused (input :: before) after (List.forall_mem_cons.mpr ⟨passed, later⟩) rejected
  | hit before after _ _ _ later shaped lowest =>
      rw [Nat.add_right_comm, Nat.add_assoc]
      exact .hit (input :: before) after _ _ _ (List.forall_mem_cons.mpr ⟨passed, later⟩) shaped
        lowest

theorem Swept.ending (stateless : solver.Stateless) {index : Nat} {samples : List (InputBox α)}
    {result : Except (Error α) (Option (Solvable α))}
    (swept : Swept settings generate solver index samples result) :
    Ending settings generate solver index samples result := by
  induction swept with
  | exhausted index => exact .exhausted (List.forall_mem_nil _)
  | refused rejected => exact .refused [] _ (List.forall_mem_nil _) rejected
  | hit shaped lowest =>
      rw [tried_eq_solves stateless shaped] at lowest
      exact .hit [] _ _ _ _ (List.forall_mem_nil _) ((not_refused_iff settings _).mpr ⟨_, shaped⟩)
        lowest
  | next shaped lowest _ ih =>
      rw [tried_eq_solves stateless shaped] at lowest
      cases lowest with
      | missing missing =>
          exact ih.cons ⟨(not_refused_iff settings _).mpr ⟨_, shaped⟩, missing⟩

theorem SolvedAt.unique (stateless : solver.Stateless) {samples : List (InputBox α)}
    {index seed : Nat} {margin other : α}
    (first : SolvedAt settings generate solver samples index seed margin)
    (second : SolvedAt settings generate solver samples index seed other) : margin = other := by
  obtain ⟨input, place, -, solves⟩ := first
  obtain ⟨found, again, -, solvesAgain⟩ := second
  obtain rfl := Option.some.inj (place.symm.trans again)
  exact solves.unique stateless solvesAgain

section Positions

variable {before after samples : List (InputBox α)} {input : InputBox α}

theorem not_solvedAt (passed : ∀ input ∈ before, Passed settings generate solver input)
    {index seed : Nat} {margin : α} (early : index < before.length) :
    ¬SolvedAt settings generate solver (before ++ input :: after) index seed margin := by
  rintro ⟨found, place, member, solves⟩
  rw [List.getElem?_append_left early] at place
  exact (passed found (List.mem_of_getElem? place)).2 seed member margin solves

theorem not_refused_of_le (passed : ∀ input ∈ before, Passed settings generate solver input)
    (shaped : ¬Refused settings input) {index : Nat} (low : index ≤ before.length)
    {found : InputBox α} (place : (before ++ input :: after)[index]? = some found) :
    ¬Refused settings found := by
  rcases low.lt_or_eq with early | rfl
  · rw [List.getElem?_append_left early] at place
    exact (passed found (List.mem_of_getElem? place)).1
  · rw [List.getElem?_append_right le_rfl, Nat.sub_self] at place
    exact Option.some.inj place ▸ shaped

theorem getElem?_at_length : (before ++ input :: after)[before.length]? = some input := by
  rw [List.getElem?_append_right le_rfl, Nat.sub_self]
  rfl

variable (after) in
/-- The sample where a sweep ends with a hit and the seed that it reports are the least pair. -/
theorem least_of_hit (passed : ∀ input ∈ before, Passed settings generate solver input)
    {seed : Nat} {margin : α}
    (lowest : LowestHit (Solves settings generate solver input) settings.seeds
      (some (seed, margin))) :
    SolvedAt settings generate solver (before ++ input :: after) before.length seed margin ∧
      toLex (before.length, seed) ∈
        lowerBounds (solvedPairs settings generate solver (before ++ input :: after)) := by
  cases lowest with
  | hit member solves lowest =>
      refine ⟨⟨input, getElem?_at_length, member, solves⟩, ?_⟩
      rintro pair ⟨other, solved⟩
      rw [Prod.Lex.le_iff]
      change before.length < (ofLex pair).1 ∨ before.length = (ofLex pair).1 ∧ seed ≤ (ofLex pair).2
      rcases Nat.lt_trichotomy before.length (ofLex pair).1 with later | same | early
      · exact .inl later
      · refine .inr ⟨same, not_lt.mp fun less => ?_⟩
        obtain ⟨found, place, inside, solves⟩ := solved
        rw [← same, getElem?_at_length] at place
        obtain rfl := Option.some.inj place
        exact lowest _ inside less other solves
      · exact absurd solved (not_solvedAt passed early)

end Positions

namespace Ending

variable {samples : List (InputBox α)} {result : Except (Error α) (Option (Solvable α))}

/-- A sweep reports the least pair, with its margin, unless a sample up to it is refused. -/
theorem hit_iff (stateless : solver.Stateless)
    (ending : Ending settings generate solver 0 samples result) (hit : Solvable α) :
    result = .ok (some hit) ↔
      SolvedAt settings generate solver samples hit.sample hit.seed hit.margin ∧
        toLex (hit.sample, hit.seed) ∈ lowerBounds (solvedPairs settings generate solver samples) ∧
        ∀ index ≤ hit.sample, ∀ input, samples[index]? = some input → ¬Refused settings input := by
  constructor
  · intro same
    cases ending with
    | exhausted _ => cases same
    | refused _ _ _ _ => cases same
    | hit before after _ _ _ passed shaped lowest =>
        cases same
        rw [Nat.zero_add]
        obtain ⟨solved, least⟩ := least_of_hit after passed lowest
        exact ⟨solved, least,
          fun index low found place => not_refused_of_le passed shaped low place⟩
  · rintro ⟨solved, least, shaped⟩
    cases ending with
    | exhausted passed =>
        obtain ⟨input, place, member, solves⟩ := solved
        exact absurd solves ((passed input (List.mem_of_getElem? place)).2 _ member _)
    | refused before after passed rejected =>
        exfalso
        rcases Nat.lt_or_ge hit.sample before.length with early | late
        · exact not_solvedAt passed early solved
        · exact shaped _ late _ getElem?_at_length ((refused_iff settings _).mpr ⟨_, rejected⟩)
    | hit before after input seed margin passed _ lowest =>
        obtain ⟨found, isLeast⟩ := least_of_hit after passed lowest
        have same : toLex (before.length, seed) = toLex (hit.sample, hit.seed) :=
          le_antisymm (isLeast (mem_solvedPairs.mpr ⟨_, solved⟩))
            (least (mem_solvedPairs.mpr ⟨_, found⟩))
        obtain ⟨sample, chosen, value⟩ := hit
        obtain ⟨rfl, rfl⟩ := Prod.mk.inj (toLex.injective same)
        rw [found.unique stateless solved, Nat.zero_add]

/-- The error is that of a sample that is refused after all earlier ones were passed. -/
theorem error_iff (ending : Ending settings generate solver 0 samples result) (e : Error α) :
    result = .error e ↔ ∃ (index : Nat) (input : InputBox α), samples[index]? = some input ∧
      widths settings input = .error e ∧
      ∀ earlier < index, ∀ other, samples[earlier]? = some other →
        Passed settings generate solver other := by
  constructor
  · rintro rfl
    cases ending with
    | refused before after passed rejected =>
        refine ⟨before.length, _, getElem?_at_length, rejected, fun earlier early other place => ?_⟩
        rw [List.getElem?_append_left early] at place
        exact passed other (List.mem_of_getElem? place)
  · rintro ⟨index, input, place, rejected, passed⟩
    have refused := (refused_iff settings input).mpr ⟨e, rejected⟩
    cases ending with
    | exhausted all => exact absurd refused (all input (List.mem_of_getElem? place)).1
    | refused before after others found =>
        rcases Nat.lt_trichotomy index before.length with early | rfl | late
        · rw [List.getElem?_append_left early] at place
          exact absurd refused (others input (List.mem_of_getElem? place)).1
        · rw [getElem?_at_length] at place
          obtain rfl := Option.some.inj place
          rw [found] at rejected
          rw [Except.error.inj rejected]
        · have first := (passed _ late _ getElem?_at_length).1
          exact absurd ((refused_iff settings _).mpr ⟨_, found⟩) first
    | hit before after _ seed margin others shaped lowest =>
        exfalso
        rcases Nat.lt_or_ge before.length index with late | early
        · obtain ⟨solved, -⟩ := least_of_hit after others lowest
          obtain ⟨found, at_hit, member, solves⟩ := solved
          exact (passed _ late found at_hit).2 seed member margin solves
        · exact not_refused_of_le others shaped early place refused

/-- A sweep ends with an error exactly if a sample is refused and none before it has a seed with a
margin. -/
theorem isError_iff (ending : Ending settings generate solver 0 samples result) :
    (∃ e, result = .error e) ↔ ∃ index input, samples[index]? = some input ∧
      Refused settings input ∧
      ∀ earlier < index, ∀ seed margin,
        ¬SolvedAt settings generate solver samples earlier seed margin := by
  constructor
  · rintro ⟨e, rfl⟩
    cases ending with
    | refused before after passed rejected =>
        exact ⟨before.length, _, getElem?_at_length, (refused_iff settings _).mpr ⟨e, rejected⟩,
          fun _ early _ _ => not_solvedAt passed early⟩
  · rintro ⟨index, input, place, refused, unsolved⟩
    cases ending with
    | exhausted passed => exact absurd refused (passed input (List.mem_of_getElem? place)).1
    | refused _ _ _ _ => exact ⟨_, rfl⟩
    | hit before after _ seed margin passed shaped lowest =>
        exfalso
        rcases Nat.lt_or_ge before.length index with late | early
        · exact unsolved _ late seed margin (least_of_hit after passed lowest).1
        · exact not_refused_of_le passed shaped early place refused

theorem none_iff (ending : Ending settings generate solver 0 samples result) :
    result = .ok none ↔ ∀ input ∈ samples, Passed settings generate solver input := by
  constructor
  · rintro rfl
    cases ending with
    | exhausted passed => exact passed
  · intro passed
    cases ending with
    | exhausted _ => rfl
    | refused before after _ rejected =>
        have inside := passed _ (List.mem_append_right before List.mem_cons_self)
        exact absurd ((refused_iff settings _).mpr ⟨_, rejected⟩) inside.1
    | hit before after input seed margin _ _ lowest =>
        have inside := passed input (List.mem_append_right before List.mem_cons_self)
        cases lowest with
        | hit member solves _ => exact absurd solves (inside.2 seed member margin)

theorem unique (stateless : solver.Stateless)
    {other : Except (Error α) (Option (Solvable α))}
    (first : Ending settings generate solver 0 samples result)
    (second : Ending settings generate solver 0 samples other) : result = other := by
  match result with
  | .error e => exact ((second.error_iff e).mpr ((first.error_iff e).mp rfl)).symm
  | .ok none => exact (second.none_iff.mpr (first.none_iff.mp rfl)).symm
  | .ok (some found) =>
      exact ((second.hit_iff stateless found).mpr ((first.hit_iff stateless found).mp rfl)).symm

end Ending

/-- A sweep that reports a hit does so, and leaves the solver in the same state, whatever samples
come after it. -/
theorem exists_prefix_of_find {index : Nat} {samples : List (InputBox α)} {state next : σ}
    {hit : Solvable α}
    (found : find settings generate solver index samples state = (some (.ok (some hit)), next)) :
    ∃ before input after, samples = before ++ input :: after ∧
      hit.sample = index + before.length ∧
      ∀ later, find settings generate solver index (before ++ input :: later) state =
        (some (.ok (some hit)), next) := by
  induction samples generalizing index state with
  | nil => cases found
  | cons input rest ih =>
      rw [find] at found
      cases shaped : widths settings input with
      | error e =>
          rw [shaped] at found
          cases found
      | ok shape =>
          rw [shaped] at found
          dsimp only at found
          rcases searched : trySeeds (trySeed settings generate solver input shape)
            settings.seeds.count settings.seeds.first state with
              ⟨_ | _ | ⟨seed, margin⟩, after⟩
          · rw [searched] at found
            cases found
          · rw [searched] at found
            obtain ⟨before, last, unseen, rfl, place, same⟩ := ih found
            refine ⟨input :: before, last, unseen, rfl, ?_, fun later => ?_⟩
            · rw [place, List.length_cons]
              omega
            · rw [List.cons_append, find, shaped]
              dsimp only
              rw [searched]
              exact same later
          · rw [searched] at found
            cases found
            refine ⟨[], input, rest, rfl, rfl, fun later => ?_⟩
            rw [List.nil_append, find, shaped]
            dsimp only
            rw [searched]

theorem take_length_succ {before after : List (InputBox α)} {input : InputBox α} :
    (before ++ input :: after).take (before.length + 1) = before ++ [input] := by
  rw [List.take_length_add_append]
  rfl

end Outcomes

/-- A sweep with a solver whose answers depend on the program alone is a lexicographic search, in
whatever order seeds are tried. It reports the least pair of a sample and a seed whose network has
an optimum, unless a sample up to that one is refused. It fails exactly if a sample is refused and
no earlier one has such a seed, and finds nothing if every sample is passed. What comes after a hit
has no part in it, nor in what the solver is asked. There is a report unless an optimum has too few
values to order the bounds of a common margin. -/
theorem findSolvable_least {σ : Type} (settings : SweepSettings Float) (solver : Solver Float σ)
    (stateless : solver.Stateless) (samples : List (InputBox Float)) (state : σ) :
    let ended := (findSolvable settings solver samples state).1
    let solvedAt := SolvedAt settings Network.generate solver samples
    (settings.query.formulation.perCompetitor = true ∨ solver.FullLength →
      ∃ found, ended = some found) ∧
    ∀ found, ended = some found →
      (∀ result, Swept settings Network.generate solver 0 samples result ↔ result = found) ∧
      (∀ hit, found = .ok (some hit) ↔ solvedAt hit.sample hit.seed hit.margin ∧
        toLex (hit.sample, hit.seed) ∈
          lowerBounds (solvedPairs settings Network.generate solver samples) ∧
        ∀ index ≤ hit.sample, ∀ input, samples[index]? = some input → ¬Refused settings input) ∧
      ((∃ e, found = .error e) ↔ ∃ (index : Nat) (input : InputBox Float),
        samples[index]? = some input ∧ Refused settings input ∧
        ∀ earlier < index, ∀ seed margin, ¬solvedAt earlier seed margin) ∧
      (found = .ok none ↔ ∀ input ∈ samples, Passed settings Network.generate solver input) ∧
      ∀ hit next, findSolvable settings solver samples state = (some (.ok (some hit)), next) →
        ∀ later, findSolvable settings solver (samples.take (hit.sample + 1) ++ later) state =
          (some (.ok (some hit)), next) := by
  intro ended solvedAt
  refine ⟨fun full => exists_find Network.generate full 0 samples state, fun found same => ?_⟩
  have swept := find_swept settings Network.generate stateless 0 samples state same
  have ending := swept.ending stateless
  refine ⟨fun result => ⟨fun run => ?_, fun same => same ▸ swept⟩, ending.hit_iff stateless,
    ending.isError_iff, ending.none_iff, fun hit next found later => ?_⟩
  · exact (run.ending stateless).unique stateless ending
  · obtain ⟨before, input, after, rfl, place, same⟩ := exists_prefix_of_find found
    rw [place, Nat.zero_add, take_length_succ, List.append_assoc]
    exact same later

/-- Two outputs, and seeds from three on. -/
def pairSweep : SweepSettings Float where
  depth := 1
  outputs := some 2
  seeds := ⟨3, 7⟩
  activation := .identity
  query := default

/-- Gives every program an optimum of one. -/
def ready : Solver Float Unit :=
  .ofFunction "ready" fun p => .ok (.optimal ⟨Array.replicate p.vars.size 0, 1⟩)

theorem ready_fullLength : ready.FullLength := by
  intro p state solution next answer
  obtain rfl := Outcome.optimal.inj (Except.ok.inj (Prod.mk.inj answer).1)
  exact Array.size_replicate

/-- The first seed is reported where every seed has a margin. -/
theorem findSolvable_least_ready : ready.Stateless ∧ ready.FullLength ∧ ∃ hit : Solvable Float,
    hit.sample = 0 ∧ hit.seed = 3 ∧
      (findSolvable pairSweep ready [default] ()).1 = some (.ok (some hit)) ∧
      (∀ result, Swept pairSweep Network.generate ready 0 [default] result ↔
        result = .ok (some hit)) ∧
      SolvedAt pairSweep Network.generate ready [default] 0 3 hit.margin ∧
      toLex (0, 3) ∈ lowerBounds (solvedPairs pairSweep Network.generate ready [default]) := by
  have reported : ((findSolvable pairSweep ready [default] ()).1.bind (·.toOption.join)).map
      (fun hit => (hit.sample, hit.seed)) = some (0, 3) := by
    decide +kernel
  obtain ⟨returns, decides⟩ := findSolvable_least pairSweep ready (Solver.stateless_ofFunction _ _)
    [default] ()
  obtain ⟨found, ended⟩ := returns (.inr ready_fullLength)
  obtain ⟨swept, least, -⟩ := decides found ended
  rw [ended] at reported
  cases found with
  | error e => cases reported
  | ok result =>
      obtain ⟨hit, rfl, place⟩ := Option.map_eq_some_iff.mp reported
      obtain ⟨sample, seed⟩ := Prod.mk.inj place
      obtain ⟨solved, lowest, -⟩ := (least hit).mp rfl
      rw [sample, seed] at solved lowest
      exact ⟨Solver.stateless_ofFunction _ _, ready_fullLength, hit, sample, seed, ended, swept,
        solved, lowest⟩

end Sweep
end RobustMargin
