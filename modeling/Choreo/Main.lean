import Choreo.Command.Outcome

/-!
# The program

Reads the files that are asked for, and prints what comes of them.
-/

namespace Choreo.Command

def faultOfError : IO.Error → ReadFault
  | .noFileOrDirectory .. => .missing
  | .inappropriateType _ 20 _ => .notDirectory
  | .inappropriateType .. => .directory
  | .invalidArgument _ 36 _ => .nameTooLong
  | e => .other (toString e)

def readFile (path : String) : IO (Except ReadFault String) := do
  if let some fault := pathFault? path then return .error fault
  try
    let bytes ← IO.FS.readBinFile path
    pure (Content.file bytes).text
  catch e => pure (.error (faultOfError e))

def readFiles (paths : List String) : IO (String → Except ReadFault String) := do
  let texts ← paths.mapM fun path => do pure (path, ← readFile path)
  pure fun path => (texts.lookup path).getD (.error .missing)

def complain (failure : Failure) : IO Unit := do
  IO.eprintln ("Error: " ++ failure.message)
  if let some cause := failure.cause then
    IO.eprintln ("\nCaused by:\n    " ++ cause)

end Choreo.Command

open Choreo.Command in
def main (arguments : List String) : IO UInt32 := do
  match Request.ofArguments? arguments with
  | none =>
    IO.eprintln usage
    pure 2
  | some request =>
    let outcome := execute (← readFiles request.paths) request
    IO.print outcome.text
    if let some failure := outcome.failure then
      complain failure
    pure outcome.exitCode
