import Choreo.Command.Arguments
import Choreo.Loading

/-!
# Outcomes

What comes of a request: the lines printed, and the failure it ends with, if it does. Files are seen
only through the way they are read.
-/

namespace Choreo.Command

structure Failure where
  message : String
  /-- What is behind the failure. -/
  cause : Option String := none

structure Outcome where
  lines : List String := []
  failure : Option Failure := none

namespace Outcome

def exitCode (o : Outcome) : UInt32 := if o.failure.isSome then 1 else 0

/-- All that is printed. -/
def text (o : Outcome) : String := String.join (o.lines.map (· ++ "\n"))

end Outcome

variable (read : String → Except ReadFault String)

def loadSettings : Option String → Except Failure Settings
  | none => pure {}
  | some path => do
    let source ← (read path).mapError fun fault =>
      { message := "Failed to read run config from " ++ path, cause := some fault.message }
    match Yaml.Tree.read? source with
    | some settings => pure settings
    | none => throw { message := "Failed to parse run config from " ++ path }

/-- The settings of a file, some of them replaced, if a run can begin with them. -/
def settingsFor (config : Option String) (ticks : Option UInt64) (step : Option Single) :
    Except Failure Settings := do
  let loaded ← loadSettings read config
  let settings :=
    { loaded with ticks := ticks.getD loaded.ticks, step := step.getD loaded.step }
  match settings.fault? with
  | some fault => throw { message := fault.message }
  | none => pure settings

def loadScript (path : String) : Except Failure Script :=
  (Script.load read path).mapError fun error =>
    { message := "Failed to load script from " ++ path, cause := some error.message }

def usage : String := "Usage: act [OPTIONS] <COMMAND>"

def helpLines : List String :=
  ["Run scripted entity behavior headlessly", "", usage, "", "Commands:",
    "  run    Simulate one entity running a script",
    "  check  Initialize a script and report configuration faults",
    "  help   Print this message or the help of the given subcommand(s)", "", "Options:",
    "  -v, --verbose  Verbose output", "      --json     Emit JSON lines instead of text",
    "  -h, --help     Print help", "  -V, --version  Print version"]

def versionLine : String := "act 0.1.0"

/-- The outcome of a report: faults are a failure. -/
def Outcome.ofReport (json : Bool) (name : String) (r : Report) : Outcome :=
  { lines := r.lines json name
    failure :=
      if r.isClean then none
      else some { message := toString r.faults.length ++ " configuration fault(s)" } }

def answer : Request → Except Failure Outcome
  | .help => pure { lines := helpLines }
  | .version => pure { lines := [versionLine] }
  | .run path config ticks step shown => do
    let settings ← settingsFor read config ticks step
    let script ← loadScript read path
    pure { lines := shown.lines (settings.run script) }
  | .check path config json => do
    let settings ← settingsFor read config none none
    let script ← loadScript read path
    pure (.ofReport json path (settings.check script))

/-- What comes of a request. -/
def execute (request : Request) : Outcome :=
  match answer read request with
  | .ok outcome => outcome
  | .error failure => { failure := some failure }

/-- The files that a request may need. -/
def Request.paths : Request → List String
  | .help | .version => []
  | .run script config .. | .check script config _ => script :: config.toList

end Choreo.Command
