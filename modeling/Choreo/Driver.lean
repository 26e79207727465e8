import Choreo.Script

/-!
# Drivers

A driver runs one script for one entity. It keeps the authored script apart from the one that runs,
so that it can be activated again after a respawn, and it can be given another script for one
activation.
-/

namespace Choreo

inductive Status
  /-- Never activated, or the last activation found no script. -/
  | idle
  | running
  /-- The script completed on its own. -/
  | finished
  /-- The script was ended early, by the entity or from outside. -/
  | stopped
  deriving DecidableEq

def Status.name : Status → String
  | idle => "idle"
  | running => "running"
  | finished => "finished"
  | stopped => "stopped"

structure Driver where
  default : Option Script
  /-- The script of the current or the last activation. -/
  script : Option Script := none
  status : Status := .idle
  /-- What the last activation that found a script found wrong with it. -/
  report : Report := {}

/-- Why an activation fails. -/
inductive ActivationError
  | missingScript
  deriving DecidableEq

def ActivationError.message : ActivationError → String
  | missingScript =>
    "no script to activate: the default script is missing and no override was given"

namespace Driver

def isRunning (d : Driver) : Bool := d.status == .running

/-- Ends the running script from outside. -/
def stop (d : Driver) : Driver × List Effect :=
  if !d.isRunning then (d, [])
  else
    match d.script with
    | none => ({ d with status := .stopped }, [.event .stopped])
    | some script =>
      let (script, effects) := script.finish
      ({ d with script := some script, status := .stopped }, effects ++ [.event .stopped])

/-- Checks and starts a script: the given one, or else the default. One that still runs is stopped
first. Nodes at fault do not keep a script from running. -/
def activate (w : Surroundings) (override : Option Script) (d : Driver) :
    (Driver × List Effect) × Except ActivationError Report :=
  let (d, closing) := d.stop
  match override <|> d.default with
  | none => (({ d with script := none, status := .idle }, closing), .error .missingScript)
  | some script =>
    let (script, report) := script.init w
    let (script, effects) := script.start w
    (({ d with script := some script, status := .running, report := report },
        closing ++ report.happenings.map .event ++ effects ++ [.event .activated]),
      .ok report)

/-- Advances the running script by one tick, or takes note that it has stopped. -/
def tick (m : Moment) (w : Surroundings) (d : Driver) : Driver × List Effect :=
  if !d.isRunning then (d, [])
  else
    match d.script with
    | none => ({ d with status := .idle }, [])
    | some script =>
      if script.hasStopped w then
        let (script, effects) := script.finish
        let (status, happening) : Status × Happening :=
          if w.active then (.finished, .finished) else (.stopped, .stopped)
        ({ d with script := some script, status := status }, effects ++ [.event happening])
      else
        let (script, effects) := script.update m w
        ({ d with script := some script }, effects)

/-- The calls through which an entity uses its driver. -/
inductive Call
  | activate (override : Option Script)
  | tick
  | stop

def call (m : Moment) (w : Surroundings) (d : Driver) : Call → Driver × List Effect
  | .activate override => (d.activate w override).1
  | .tick => d.tick m w
  | .stop => d.stop

end Driver

end Choreo
