import Choreo.Number.Layout

/-!
# Plain values

The tree of maps, lists, texts, numbers, flags and nulls that a script is written as, before any
choice of notation. Maps keep the order and the repetitions of their keys.
-/

namespace Choreo

/-- What names an entry of a map: a text, or the place of a field. Anything else names nothing. -/
inductive Key
  | text (name : String)
  | index (place : Nat)
  | unreadable
  deriving DecidableEq

inductive Value
  | null
  | flag (b : Bool)
  /-- A zero, too, may be written with a minus. -/
  | integer (negative : Bool) (magnitude : Nat)
  | real (x : Double)
  | text (s : String)
  | list (items : List Value)
  | record (entries : List (Key × Value))

namespace Value

instance : Inhabited Value := ⟨.null⟩

/-- Every quantity that is written is a single. -/
def single (x : Single) : Value := real x.widen

def natural (n : Nat) : Value := integer false n

def ofInt (n : Int) : Value := integer (n < 0) n.natAbs

/-- A sign and a magnitude as a number. -/
def signed (negative : Bool) (magnitude : Nat) : Int := if negative then -magnitude else magnitude

def object (fields : List (String × Value)) : Value :=
  record (fields.map fun (name, v) => (.text name, v))

def option : Option Value → Value := (·.getD null)

mutual

/-- How deeply lists and maps are nested. -/
def depth : Value → Nat
  | null | flag _ | integer .. | real _ | text _ => 0
  | list items => depthOfItems items + 1
  | record entries => depthOfEntries entries + 1

def depthOfItems : List Value → Nat
  | [] => 0
  | v :: rest => max v.depth (depthOfItems rest)

def depthOfEntries : List (Key × Value) → Nat
  | [] => 0
  | (_, v) :: rest => max v.depth (depthOfEntries rest)

end

mutual

/-- Equality, with numbers compared as numbers: what is not a number equals nothing. -/
def agrees : Value → Value → Bool
  | null, null => true
  | flag a, flag b => a == b
  | integer s a, integer t b => signed s a == signed t b
  | real a, real b => a == b
  | text a, text b => a == b
  | list a, list b => itemsAgree a b
  | record a, record b => entriesAgree a b
  | _, _ => false

def itemsAgree : List Value → List Value → Bool
  | [], [] => true
  | a :: as, b :: bs => a.agrees b && itemsAgree as bs
  | _, _ => false

def entriesAgree : List (Key × Value) → List (Key × Value) → Bool
  | [], [] => true
  | (j, a) :: as, (k, b) :: bs => j == k && a.agrees b && entriesAgree as bs
  | _, _ => false

end

end Value

/-- Things that are written as plain values. -/
class Encode (α : Type) where
  encode : α → Value

export Encode (encode)

instance {α : Type} [Encode α] : Encode (List α) := ⟨fun items => .list (items.map encode)⟩

instance {α : Type} [Encode α] : Encode (Option α) := ⟨fun x => .option (x.map encode)⟩

instance : Encode Single := ⟨.single⟩

end Choreo
