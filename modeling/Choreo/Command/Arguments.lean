import Choreo.Number.Decimal
import Choreo.Run.Output

/-!
# Arguments

What a command line asks for. Arguments are taken one after another: a request for help ends the
reading, and so does a mistake, whichever comes first.
-/

namespace Choreo.Command

inductive Switch
  | verbose
  | json
  | help
  | version
  | config
  | ticks
  | step
  | all
  | trace
  deriving DecidableEq

namespace Switch

def long : Switch → String
  | verbose => "verbose"
  | json => "json"
  | help => "help"
  | version => "version"
  | config => "config"
  | ticks => "ticks"
  | step => "dt"
  | all => "all"
  | trace => "trace"

def short? : Switch → Option Char
  | verbose => some 'v'
  | help => some 'h'
  | version => some 'V'
  | config => some 'c'
  | json | ticks | step | all | trace => none

def takesValue : Switch → Bool
  | config | ticks | step => true
  | verbose | json | help | version | all | trace => false

/-- The switches that may stand before a command. -/
def general : List Switch := [verbose, json, help, version]

def ofRun : List Switch := [config, ticks, step, all, trace, verbose, json, help]

def ofCheck : List Switch := [config, verbose, json, help]

end Switch

/-- What an argument, or a part of one, says. -/
inductive Item
  | flag (s : Switch)
  | value (s : Switch) (text : String)
  | word (text : String)
  | mistake

/-- The form of an argument. -/
inductive Form
  | word
  /-- All arguments after this one are words. -/
  | closing
  /-- Switches, the last of which may wait for the next argument. -/
  | switches (items : List Item) (waiting : Option Switch)

namespace Form

/-- The switches behind a single dash. What stands behind one that takes a value is its value. -/
def bundle (known : List Switch) : List Char → List Item × Option Switch
  | [] => ([], none)
  | c :: rest =>
    match known.find? (·.short? == some c) with
    | none => ([.mistake], none)
    | some s =>
      if !s.takesValue then
        let (items, waiting) := bundle known rest
        (.flag s :: items, waiting)
      else
        match rest with
        | [] => ([], some s)
        | '=' :: text => ([.value s (String.ofList text)], none)
        | text => ([.value s (String.ofList text)], none)

/-- The switch behind two dashes, maybe with its value. -/
def named (known : List Switch) (cs : List Char) : List Item × Option Switch :=
  let name := String.ofList (cs.takeWhile (· != '='))
  match known.find? (·.long == name), cs.dropWhile (· != '=') with
  | none, _ => ([.mistake], none)
  | some s, [] => if s.takesValue then ([], some s) else ([.flag s], none)
  | some s, _ :: text =>
    if s.takesValue then ([.value s (String.ofList text)], none) else ([.mistake], none)

/-- The form of an argument among known switches. A single dash is a word. -/
def ofArgument (known : List Switch) (argument : String) : Form :=
  match argument.toList with
  | ['-', '-'] => closing
  | '-' :: '-' :: cs =>
    let (items, waiting) := named known cs
    switches items waiting
  | '-' :: c :: cs =>
    let (items, waiting) := bundle known (c :: cs)
    switches items waiting
  | _ => word

end Form

/-- What all arguments of a command say. A switch that waits for its value gets a word or none. -/
def items (known : List Switch) : (waiting : Option Switch) → List String → List Item
  | none, [] => []
  | some _, [] => [.mistake]
  | some s, argument :: rest =>
    match Form.ofArgument known argument with
    | .word => .value s argument :: items known none rest
    | .closing | .switches .. => [.mistake]
  | none, argument :: rest =>
    match Form.ofArgument known argument with
    | .word => .word argument :: items known none rest
    | .closing => rest.map .word
    | .switches found waiting => found ++ items known waiting rest

/-- What stands before the first word, and the word with what follows it. -/
def lead : List String → List Item × Option (String × List String)
  | [] => ([], none)
  | argument :: rest =>
    match Form.ofArgument Switch.general argument with
    | .word => ([], some (argument, rest))
    | .closing => (rest.map .word, none)
    | .switches found _ =>
      let (items, command) := lead rest
      (found ++ items, command)

/-- Why the reading of arguments ends early. -/
inductive Halt
  | help
  | version
  | mistake
  deriving DecidableEq

/-- What has been chosen so far. -/
structure Choices where
  verbose : Bool := false
  json : Bool := false
  all : Bool := false
  trace : Bool := false
  ticks : Option UInt64 := none
  step : Option Single := none
  config : Option String := none
  script : Option String := none

namespace Choices

/-- No choice may be made twice. -/
def choose (made : Bool) (c : Choices) : Except Halt Choices :=
  if made then throw .mistake else pure c

def addFlag (c : Choices) : Switch → Except Halt Choices
  | .help => throw .help
  | .version => throw .version
  | .verbose => choose c.verbose { c with verbose := true }
  | .json => choose c.json { c with json := true }
  | .all => choose c.all { c with all := true }
  | .trace => choose c.trace { c with trace := true }
  | .config | .ticks | .step => throw .mistake

def addValue (c : Choices) (text : String) : Switch → Except Halt Choices
  | .config => choose (c.config.isSome || text.isEmpty) { c with config := some text }
  | .ticks =>
    match naturalOfText? text with
    | some n => choose (c.ticks.isSome || UInt64.size ≤ n) { c with ticks := some (UInt64.ofNat n) }
    | none => throw .mistake
  | .step =>
    match Exact.ofText? text with
    | some x => choose c.step.isSome { c with step := some (Single.ofExact x) }
    | none => throw .mistake
  | _ => throw .mistake

def add (c : Choices) : Item → Except Halt Choices
  | .flag s => c.addFlag s
  | .value s text => c.addValue text s
  | .word text => choose (c.script.isSome || text.isEmpty) { c with script := some text }
  | .mistake => throw .mistake

def ofItems (items : List Item) : Except Halt Choices := items.foldlM add {}

end Choices

/-- What a command line can ask for. -/
inductive Request
  | help
  | version
  | run (script : String) (config : Option String) (ticks : Option UInt64) (step : Option Single)
      (shown : Selection)
  | check (script : String) (config : Option String) (json : Bool)

namespace Request

def runOf (json : Bool) (c : Choices) : Except Halt Request :=
  match c.script with
  | some script =>
    pure (.run script c.config c.ticks c.step { json := json || c.json, all := c.all, trace := c.trace })
  | none => throw .mistake

def checkOf (json : Bool) (c : Choices) : Except Halt Request :=
  match c.script with
  | some script => pure (.check script c.config (json || c.json))
  | none => throw .mistake

/-- Help may be asked for on one command. -/
def helpOn : List String → Except Halt Request
  | [] | ["run"] | ["check"] | ["help"] => throw .help
  | _ => throw .mistake

def read (arguments : List String) : Except Halt Request := do
  let (before, command) := lead arguments
  let general ← Choices.ofItems before
  match general.script, command with
  | none, some ("run", rest) =>
    runOf general.json (← Choices.ofItems (items Switch.ofRun none rest))
  | none, some ("check", rest) =>
    checkOf general.json (← Choices.ofItems (items Switch.ofCheck none rest))
  | none, some ("help", rest) => helpOn rest
  | _, _ => throw .mistake

/-- The request that the arguments make, unless they are mistaken. -/
def ofArguments? (arguments : List String) : Option Request :=
  match read arguments with
  | .ok request => some request
  | .error .help => some .help
  | .error .version => some .version
  | .error .mistake => none

end Request

end Choreo.Command
