import RobustMargin.CommandLine.Run
import RobustMargin.Proofs.JsonValues
import RobustMargin.Proofs.RawForms

/-! # Instance files as data

The text of an instance file is decoded as the file. -/
namespace RobustMargin

open Json Decimal

/-- An activation with a written form. -/
inductive Activation.Named : Activation Float → Prop where
  | identity : Named .identity
  | sigmoid : Named .sigmoid
  | tanh : Named .tanh
  | quadlu {alpha : Float} (finite : alpha.isFinite = true) : Named (.quadlu alpha)

namespace Wire

end Wire

/-- The numbers of a recipe are machine words. -/
structure Recipe.Storable (recipe : Recipe) : Prop where
  depth : recipe.depth < 2 ^ 64
  outputs : recipe.outputs < 2 ^ 64
  seed : recipe.seed < 2 ^ 64

/-- The numbers of an instance file are finite, and its activation has a written form. -/
structure InstanceFile.Storable (file : InstanceFile) : Prop where
  values : file.values.all Scalar.isFinite = true
  uncertainties : file.uncertainties.all Scalar.isFinite = true
  activation : file.activation.Named
  recipe : ∀ recipe, file.recipe = some recipe → recipe.Storable

namespace Wire

end Wire

end RobustMargin
