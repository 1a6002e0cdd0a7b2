/-! # Hosts

What commands need of the world: files and a clock. -/
namespace RobustMargin

/-- File access that may fail with the text of a reason, and the time in milliseconds. -/
structure Host (m : Type → Type) where
  readFile : String → m (Except String String)
  writeFile : String → String → m (Except String Unit)
  milliseconds : m Float

/-- In a world where a text was just written to a path, the path is read as the text. -/
def Host.ReadsBack {World : Type} (host : Host (StateM World)) (path : String) : Prop :=
  ∀ text before after, (host.writeFile path text).run before = (.ok (), after) →
    ((host.readFile path).run after).1 = .ok text

end RobustMargin
