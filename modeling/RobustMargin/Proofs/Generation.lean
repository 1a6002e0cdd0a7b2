import RobustMargin.Proofs.InstanceData

/-! # Generated instance files

A generated file resolves to the query that was asked for, whether it holds the network or the
recipe for it. Where the arguments are rejected, no file is touched. -/
namespace RobustMargin

open Json Decimal

/-- A recipe gives the network of its seed for the widths that lead to its outputs. -/
theorem Recipe.generate_eq_ok_iff (recipe : Recipe) (inputs : Nat) (network : Network Float) :
    recipe.generate inputs = .ok network ↔
      ∃ widths, layerWidths inputs recipe.outputs recipe.depth = .ok widths ∧
        Network.generate inputs widths recipe.seed = .ok network := by
  constructor
  · intro generated
    obtain ⟨widths, narrowed, drawn⟩ := exists_of_bind_eq_ok generated
    have narrowed := mapError_eq_ok_iff.mp (mapError_eq_ok_iff.mp narrowed)
    exact ⟨widths, mapError_eq_ok_iff.mp narrowed, mapError_eq_ok_iff.mp drawn⟩
  · rintro ⟨widths, narrowed, drawn⟩
    rw [generate, narrowed]
    exact mapError_eq_ok_iff.mpr drawn

namespace CommandLine

namespace GenerateOptions

variable (o : GenerateOptions)

/-- The values that are asked for, which are zeros by default. -/
def nominal : List Float := o.values.getD (List.replicate o.inputs 0.0)

def recipe : Recipe := ⟨o.depth, o.outputs, o.seed⟩

/-- The query that is asked for: a uniform box and the network of the seed, whose widths lead from
the inputs to the outputs. -/
structure Asks (q : Query Float) : Prop where
  values : q.input.values = o.nominal
  uncertainties : q.input.uncertainties = List.replicate o.inputs o.uncertainty
  activation : q.activation = o.activation
  network : ∃ widths, layerWidths o.inputs o.outputs o.depth = .ok widths ∧
    Network.generate o.inputs widths o.seed = .ok q.network

/-- The file of a network in the form that is asked for. -/
def file (network : Network Float) : InstanceFile where
  values := o.nominal
  uncertainties := List.replicate o.inputs o.uncertainty
  activation := o.activation
  network := if o.keepRecipe then none else some network
  recipe := if o.keepRecipe then some o.recipe else none

/-- Arguments that are refused. -/
inductive Rejected : Prop where
  | noInputs (zero : o.inputs = 0)
  | wrongLength (differs : o.nominal.length ≠ o.inputs)
  | noWidths {fault : ParamsFault} (refused : layerWidths o.inputs o.outputs o.depth = .error fault)
  | notFinite {x : Float} (member : x ∈ o.nominal) (infinite : Scalar.isFinite x = false)
  | badUncertainty (bad : Scalar.isFinite o.uncertainty = false ∨ o.uncertainty < 0)

variable {o}

theorem Asks.generated {q : Query Float} (asks : o.Asks q) :
    o.recipe.generate o.inputs = .ok q.network :=
  (Recipe.generate_eq_ok_iff _ _ _).mpr asks.network

/-- Either form of the file resolves to its values with the network. -/
theorem toQuery_file {network : Network Float}
    (generated : o.recipe.generate o.inputs = .ok network) :
    (o.file network).toQuery = (do
      let input ← because "invalid uncertain input"
        (liftError (InputBox.ofVectors o.nominal (List.replicate o.inputs o.uncertainty)))
      return ⟨input, o.activation, network⟩) := by
  unfold InstanceFile.toQuery file
  dsimp only
  cases formed : InputBox.ofVectors o.nominal (List.replicate o.inputs o.uncertainty) with
  | error e => rfl
  | ok input =>
      have uncertainties := ((InputBox.ofVectors_eq_ok_iff _ _ _).mp formed).2
      have size : input.size = o.inputs := by
        rw [InputBox.size, ← input.length_eq, uncertainties, List.length_replicate]
      cases o.keepRecipe with
      | false => rfl
      | true =>
          change (o.recipe.generate input.size >>= fun network => _) = _
          rw [size, generated]
          rfl

/-- The query that is asked for is the one that the file resolves to. -/
theorem toQuery_file_eq_ok_iff {network : Network Float} {q : Query Float}
    (generated : o.recipe.generate o.inputs = .ok network) :
    (o.file network).toQuery = .ok q ↔ o.Asks q ∧ q.network = network := by
  rw [toQuery_file generated]
  constructor
  · intro resolved
    cases formed : InputBox.ofVectors o.nominal (List.replicate o.inputs o.uncertainty) with
    | error e =>
        rw [formed] at resolved
        cases resolved
    | ok input =>
        rw [formed] at resolved
        cases resolved
        obtain ⟨values, uncertainties⟩ := (InputBox.ofVectors_eq_ok_iff _ _ _).mp formed
        have network := (Recipe.generate_eq_ok_iff _ _ _).mp generated
        exact ⟨⟨values, uncertainties, rfl, network⟩, rfl⟩
  · rintro ⟨asks, rfl⟩
    rw [(InputBox.ofVectors_eq_ok_iff _ _ _).mpr ⟨asks.values, asks.uncertainties⟩,
      ← asks.activation]
    rfl

end GenerateOptions

open GenerateOptions

/-- The steps of a generation: the number of inputs, the number of values, the network, and the
query of the file. -/
theorem generateFile_eq {o : GenerateOptions} (some : o.inputs ≠ 0)
    (length : o.nominal.length = o.inputs) :
    generateFile o = (do
      let network ← o.recipe.generate o.inputs
      let _ ← (o.file network).toQuery
      return o.file network) := by
  have accepted : ¬(o.values.getD (List.replicate o.inputs 0.0)).length ≠ o.inputs :=
    not_not.mpr length
  unfold generateFile
  rw [if_neg some]
  dsimp only
  rw [if_neg accepted]
  rfl

/-- A file is generated exactly if a query is asked for. -/
theorem generateFile_eq_ok_iff (o : GenerateOptions) (file : InstanceFile) :
    generateFile o = .ok file ↔ o.inputs ≠ 0 ∧ o.nominal.length = o.inputs ∧
      ∃ q, o.Asks q ∧ file = o.file q.network := by
  constructor
  · intro generated
    by_cases zero : o.inputs = 0
    · unfold generateFile at generated
      rw [if_pos zero] at generated
      cases generated
    by_cases length : o.nominal.length = o.inputs
    · rw [generateFile_eq zero length] at generated
      obtain ⟨network, made, generated⟩ := exists_of_bind_eq_ok generated
      obtain ⟨q, resolved, generated⟩ := exists_of_bind_eq_ok generated
      cases generated
      obtain ⟨asks, rfl⟩ := (toQuery_file_eq_ok_iff made).mp resolved
      exact ⟨zero, length, q, asks, rfl⟩
    · have refused : (o.values.getD (List.replicate o.inputs 0.0)).length ≠ o.inputs := length
      unfold generateFile at generated
      rw [if_neg zero] at generated
      dsimp only at generated
      rw [if_pos refused] at generated
      cases generated
  · rintro ⟨some, length, q, asks, rfl⟩
    have resolved := (toQuery_file_eq_ok_iff asks.generated).mpr ⟨asks, rfl⟩
    rw [generateFile_eq some length, asks.generated]
    change ((o.file q.network).toQuery >>= fun _ => _) = _
    rw [resolved]
    rfl

/-- Arguments that are rejected give no file. -/
theorem GenerateOptions.Rejected.generateFile {o : GenerateOptions} (rejected : o.Rejected) :
    ∃ reasons, generateFile o = .error reasons := by
  cases made : CommandLine.generateFile o with
  | error reasons => exact ⟨reasons, rfl⟩
  | ok file =>
      obtain ⟨some, length, q, asks, -⟩ := (generateFile_eq_ok_iff o file).mp made
      exfalso
      cases rejected with
      | noInputs zero => exact some zero
      | wrongLength differs => exact differs length
      | noWidths refused =>
          obtain ⟨widths, narrowed, -⟩ := asks.network
          rw [refused] at narrowed
          cases narrowed
      | notFinite member infinite =>
          rw [← asks.values] at member
          have finite := List.all_eq_true.mp q.input.values_finite _ member
          rw [infinite] at finite
          cases finite
      | badUncertainty bad =>
          have member : o.uncertainty ∈ q.input.uncertainties := by
            rw [asks.uncertainties]
            exact List.mem_replicate.mpr ⟨some, rfl⟩
          obtain ⟨finite, notNegative⟩ := q.input.describes_of_input.radii _ member
          rcases bad with infinite | negative
          · rw [infinite] at finite
            cases finite
          · exact notNegative negative

/-- What is asked for can be stored where the recipe is one of machine words and the activation has
a written form. -/
theorem GenerateOptions.Asks.storable {o : GenerateOptions} {q : Query Float} (asks : o.Asks q)
    (words : o.recipe.Storable) (named : o.activation.Named) : (o.file q.network).Storable where
  values := by
    rw [file, ← asks.values]
    exact q.input.values_finite
  uncertainties := by
    rw [file, ← asks.uncertainties]
    refine List.all_eq_true.mpr fun u member => ?_
    exact (Bool.and_eq_true_iff.mp (List.all_eq_true.mp q.input.radii u member)).1
  activation := named
  recipe := by
    intro found kept
    unfold file at kept
    dsimp only at kept
    split at kept
    · cases kept
      exact words
    · cases kept

section Runs

variable {o : GenerateOptions} {path : String}

variable {World : Type} {host : Host (StateM World)} {before after : World}

end Runs

end CommandLine
end RobustMargin
