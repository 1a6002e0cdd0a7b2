/-! # File names

A path as the directory before the last slash and the name after it, and a name as a stem and the
ending after its last dot. -/
namespace RobustMargin.Text

structure FileName where
  /-- The path of the directory; empty where the path has no slash. -/
  directory : List Char
  /-- The last component, unless that is no name of a file. -/
  name : Option (List Char)
  deriving DecidableEq, Repr

namespace FileName

/-- Drops, from a reversed path, slashes and components that stay in the same directory. -/
def dropSlashes : List Char → List Char
  | '/' :: rest => dropSlashes rest
  | '.' :: '/' :: rest => dropSlashes rest
  | path => path

/-- The directory of a reversed path after its last component was taken off. -/
def directoryOf (reversed : List Char) : List Char :=
  match reversed with
  | [] => []
  | _ =>
      match dropSlashes reversed with
      | [] => ['/']
      | rest => rest.reverse

def ofPath (path : String) : FileName :=
  let reversed := dropSlashes path.toList.reverse
  let last := (reversed.takeWhile (· ≠ '/')).reverse
  if last = [] ∨ last = ['.'] ∨ last = ['.', '.'] then ⟨reversed.reverse, none⟩
  else ⟨directoryOf (reversed.dropWhile (· ≠ '/')), some last⟩

/-- The path of another name in the same directory. -/
def sibling (file : FileName) (name : String) : String :=
  if file.directory.isEmpty then name
  else if file.directory = ['/'] then "/" ++ name
  else String.ofList file.directory ++ "/" ++ name

/-- The name up to its last dot and the ending after it. A dot in front does not count. -/
def split (name : List Char) : List Char × Option (List Char) :=
  let reversed := name.reverse
  match reversed.dropWhile (· ≠ '.') with
  | [] => (name, none)
  | [_] => (name, none)
  | _ :: stem => (stem.reverse, some (reversed.takeWhile (· ≠ '.')).reverse)

def stem (file : FileName) : Option String :=
  file.name.map fun name => String.ofList (split name).1

def ending (file : FileName) : Option String :=
  file.name.bind fun name => (split name).2.map String.ofList

end FileName
end RobustMargin.Text
