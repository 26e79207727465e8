import Choreo.Yaml.Place

/-!
# Tags

What a tag before a node says of its kind. Escapes spell a tag byte by byte, so it need not be a text,
and a zero byte ends it early.
-/

namespace Choreo.Yaml

structure Tag where
  bytes : List UInt8
  deriving DecidableEq

namespace Tag

def ofText (s : String) : Tag := ⟨s.toUTF8.toList⟩

/-- What stands before the first zero byte. -/
def upToZero (bytes : List UInt8) : List UInt8 := bytes.takeWhile (· != 0)

/-- The exclamation mark alone. -/
def bare : Tag := ofText "!"

def standard (name : String) : Tag := ofText ("tag:yaml.org,2002:" ++ name)

/-- A tag that is not one of the standard ones begins with an exclamation mark. -/
def isLocal (t : Tag) : Bool := t.bytes.head? == bare.bytes.head?

/-- The name in a local tag, if it is a text. -/
def name? (t : Tag) : Option String :=
  if t.isLocal then String.fromUTF8? ⟨t.bytes.tail.toArray⟩ else none

end Tag

/-- The local name before a node, if there is one. -/
def localName? (tag : Option Tag) : Option String := tag.bind Tag.name?

end Choreo.Yaml
