import Choreo.Yaml.Outline

/-!
# YAML documents

A document as it is read: from a node on, with what the aliases stand for and how deep collections may
still be nested. An alias is followed when it is come upon, so what is passed over may be nested without
end. Where a document is read whole, its aliases may be followed only so often.
-/

namespace Choreo.Yaml

namespace Outline

mutual

/-- The anchored nodes and their marks, in the order of the text. -/
def anchored : Outline → List (Nat × Outline)
  | reference _ => []
  | o@(scalar marks _ _) => own marks o
  | o@(list marks items) => own marks o ++ anchoredItems items
  | o@(record marks entries) => own marks o ++ anchoredEntries entries

def own (marks : Marks) (o : Outline) : List (Nat × Outline) :=
  match marks.anchor with
  | some mark => [(mark, o)]
  | none => []

def anchoredItems : List Outline → List (Nat × Outline)
  | [] => []
  | o :: rest => anchored o ++ anchoredItems rest

def anchoredEntries : List (Outline × Outline) → List (Nat × Outline)
  | [] => []
  | (key, value) :: rest => anchored key ++ anchored value ++ anchoredEntries rest

end

mutual

/-- The number of events that tell a node: collections begin and end. -/
def events : Outline → Nat
  | reference _ => 1
  | scalar .. => 1
  | list _ items => 2 + itemEvents items
  | record _ entries => 2 + entryEvents entries

def itemEvents : List Outline → Nat
  | [] => 0
  | o :: rest => events o + itemEvents rest

def entryEvents : List (Outline × Outline) → Nat
  | [] => 0
  | (key, value) :: rest => events key + events value + entryEvents rest

end

/-- The nodes that aliases stand for, by their marks. Of several with one mark the last counts. -/
structure Targets where
  table : List (Nat × Outline)

def targets (o : Outline) : Targets := ⟨(anchored o).reverse⟩

/-- What a node stands for. -/
def resolve (targets : Targets) : Outline → Option Outline
  | reference mark => (targets.table.find? (·.1 == mark)).map (·.2)
  | o => some o

/-- What is left of a number of aliases to follow, once a node has been read whole. -/
def spend (targets : Targets) : (depth budget : Nat) → Outline → Option Nat
  | depth, budget, o => do
    let budget ←
      match o, budget with
      | reference _, 0 => none
      | reference _, budget + 1 => some budget
      | _, budget => some budget
    match resolve targets o, depth with
    | some (list _ items), depth + 1 => items.foldlM (spend targets depth) budget
    | some (record _ entries), depth + 1 =>
      entries.foldlM (fun budget (key, value) => do
        spend targets depth (← spend targets depth budget key) value) budget
    | _, _ => pure budget
  termination_by depth => depth

/-- Aliases may be followed so many times for each event of a document. -/
def repetitions : Nat := 100

end Outline

structure Tree where
  targets : Outline.Targets
  /-- How many levels of collections may be read. -/
  depth : Nat
  /-- The node, unless the text is empty. -/
  root : Option Outline

/-- What a tree is at its root. -/
inductive Face
  /-- What an empty text holds. -/
  | blank
  | scalar (tag : Option Tag) (style : Style) (text : String)
  | list (tag : Option Tag) (items : List Tree)
  | record (tag : Option Tag) (entries : List (Tree × Tree))
  /-- A collection that is nested too deeply. -/
  | unreadable

namespace Tree

def face (t : Tree) : Face :=
  match t.root with
  | none => .blank
  | some o =>
    let below (depth : Nat) (o : Outline) : Tree := { t with depth := depth, root := some o }
    match o.resolve t.targets, t.depth with
    | some (.scalar marks style text), _ => .scalar marks.tag style text
    | some (.list marks items), depth + 1 => .list marks.tag (items.map (below depth))
    | some (.record marks entries), depth + 1 =>
      .record marks.tag (entries.map fun (key, value) => (below depth key, below depth value))
    | _, _ => .unreadable

/-- Whether a tree can be read whole without following aliases too often. -/
def isBounded (t : Tree) : Bool :=
  match t.root with
  | none => true
  | some o => (o.spend t.targets t.depth (Outline.repetitions * o.events)).isSome

/-- Collections are read so many levels deep. -/
def depthLimit : Nat := 127

/-- The tree of a whole text. -/
def ofText? (text : String) : Option Tree := do
  let tokens ← tokens? text
  match ← Outline.stream? tokens.toList with
  | .empty => pure ⟨⟨[]⟩, depthLimit, none⟩
  | .document root => pure ⟨root.targets, depthLimit, some root⟩

end Tree

end Choreo.Yaml
