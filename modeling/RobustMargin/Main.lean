import RobustMargin.CommandLine.Run

/-! # The command line program -/
open RobustMargin

/-- The text of a file failure. -/
def failureText : IO.Error → String
  | .noFileOrDirectory .. => "No such file or directory (os error 2)"
  | .permissionDenied .. => "Permission denied (os error 13)"
  | e => toString e

def systemHost : Host IO where
  readFile := fun path => do
    try return .ok (← IO.FS.readFile path) catch e => return .error (failureText e)
  writeFile := fun path text => do
    try
      IO.FS.writeFile path text
      return .ok ()
    catch e => return .error (failureText e)
  milliseconds := do return (← IO.monoNanosNow).toFloat / 1000000.0

def main (words : List String) : IO UInt32 := do
  let output ← CommandLine.run systemHost words
  IO.print output.out
  IO.eprint output.err
  return output.code.toUInt32
