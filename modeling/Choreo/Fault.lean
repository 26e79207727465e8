import Choreo.Surroundings
import Choreo.Path.Curve

/-!
# Faults

A node is checked once, when its script is activated. A node at fault counts as over from then on,
and the rest of the script runs without it.
-/

namespace Choreo

/-- The kinds of node a script is made of, in the order in which a script may number them. -/
inductive Kind
  | wait
  | moveBy
  | followPath
  | followBezier
  | jump
  | singleShot
  | barrage
  | attack
  | lob
  | walk
  | sequence
  | parallel
  | repeating
  deriving DecidableEq

namespace Kind

def all : List Kind :=
  [wait, moveBy, followPath, followBezier, jump, singleShot, barrage, attack, lob, walk, sequence,
    parallel, repeating]

def name : Kind → String
  | wait => "wait"
  | moveBy => "move_by"
  | followPath => "move_along_path"
  | followBezier => "move_along_bezier_path"
  | jump => "jump"
  | singleShot => "shoot_single"
  | barrage => "shoot_pattern"
  | attack => "melee_attack"
  | lob => "throw"
  | walk => "start_move_toward"
  | sequence => "sequence"
  | parallel => "parallel"
  | repeating => "repeat"

end Kind

/-- What a parameter fails to be. -/
inductive Demand
  | finite
  | positive
  deriving DecidableEq

def Demand.message : Demand → String
  | finite => "must be finite"
  | positive => "must be positive and finite"

/-- What is wrong with a node. -/
inductive Fault
  | missingChild
  | missingCapability (capability : Capability)
  | invalidParameter (parameter : String) (demand : Demand)
  | unusablePath (reason : PathFault)
  | nestedInFlatSequence
  deriving DecidableEq

namespace Fault

def message (kind : Kind) : Fault → String
  | missingChild => kind.name ++ " requires a child node"
  | missingCapability capability =>
    kind.name ++ " requires the `" ++ capability.name ++ "` intention on its owner"
  | invalidParameter parameter demand =>
    kind.name ++ ": `" ++ parameter ++ "` " ++ demand.message
  | unusablePath reason => kind.name ++ ": invalid path: " ++ reason.message
  | nestedInFlatSequence => "composite `" ++ kind.name ++ "` cannot appear in a flat sequence"

def require (w : Surroundings) (capability : Capability) : Except Fault Unit :=
  if w.has capability then pure () else throw (missingCapability capability)

def requireFinite (parameter : String) (value : Single) : Except Fault Unit :=
  if value.isFinite then pure () else throw (invalidParameter parameter .finite)

def requirePositive (parameter : String) (value : Single) : Except Fault Unit :=
  if value.isPositiveFinite then pure () else throw (invalidParameter parameter .positive)

def requirePath : Option PathFault → Except Fault Unit
  | none => pure ()
  | some reason => throw (unusablePath reason)

end Fault

end Choreo
