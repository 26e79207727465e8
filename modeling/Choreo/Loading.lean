import Choreo.Files
import Choreo.Json.Reading
import Choreo.Schema.Scripts
import Choreo.Yaml.Reading

/-!
# Loading scripts

A script is read from a file in the notation that the end of its name tells.
-/

namespace Choreo

inductive Format
  | yaml
  | json
  deriving DecidableEq

namespace Format

/-- The part of a file's name behind its last point. A point at its head begins no such part. -/
def extension? (path : String) : Option String :=
  match (pathNames path).getLast? with
  | none | some ".." => none
  | some name =>
    let behind := name.toList.reverse.takeWhile (· != '.')
    if behind.length + 1 < name.length then some (String.ofList behind.reverse) else none

/-- The notation of a file with the given name. Upper case is as good as lower case. -/
def ofPath? (path : String) : Option Format := do
  let extension := String.ofList ((← extension? path).toList.map Char.toLower)
  if extension == "yaml" || extension == "yml" then some yaml
  else if extension == "json" then some json
  else none

end Format

inductive LoadError
  | unreadable (path : String) (fault : ReadFault)
  | yaml
  | json (error : DecodeError)
  | unsupported (path : String)

def LoadError.message : LoadError → String
  | unreadable path fault => "failed to read " ++ path ++ ": " ++ fault.message
  | yaml => "invalid YAML script"
  | json .malformed => "invalid JSON script"
  | json error => "invalid JSON script: " ++ error.message
  | unsupported path =>
    "unsupported script format for " ++ path ++ " (expected .yaml, .yml or .json)"

namespace Script

def ofYaml (source : String) : Except LoadError Script :=
  match Yaml.Tree.readWhole? source with
  | some script => pure script
  | none => throw .yaml

def ofJson (source : String) : Except LoadError Script := (Json.read source).mapError .json

/-- Loads a script, given how files are read. -/
def load (read : String → Except ReadFault String) (path : String) : Except LoadError Script := do
  match Format.ofPath? path with
  | none => throw (.unsupported path)
  | some format =>
    let source ← (read path).mapError (.unreadable path)
    match format with
    | .yaml => ofYaml source
    | .json => ofJson source

end Script

end Choreo
