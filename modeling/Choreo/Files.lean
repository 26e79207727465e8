/-!
# Files

What a path leads to, and what goes wrong when a text is read from there.
-/

namespace Choreo

inductive ReadFault
  | missing
  | directory
  /-- A part of the path that is not the last is a file. -/
  | notDirectory
  | notText
  | nameTooLong
  /-- No name holds a zero character. -/
  | zeroInName
  | other (message : String)
  deriving DecidableEq

def ReadFault.message : ReadFault → String
  | missing => "No such file or directory (os error 2)"
  | directory => "Is a directory (os error 21)"
  | notDirectory => "Not a directory (os error 20)"
  | notText => "stream did not contain valid UTF-8"
  | nameTooLong => "File name too long (os error 36)"
  | zeroInName => "file name contained an unexpected NUL byte"
  | other message => message

inductive Content
  | directory
  | file (bytes : ByteArray)

def Content.text : Content → Except ReadFault String
  | directory => throw .directory
  | file bytes =>
    match String.fromUTF8? bytes with
    | some s => pure s
    | none => throw .notText

/-- The names along a path. An empty name or a dot leads nowhere else, so it is left out. -/
def pathNames (path : String) : List String :=
  (path.splitOn "/").filter fun name => name != "" && name != "."

/-- A name has so many bytes at most. -/
def nameLimit : Nat := 255

/-- A path has fewer bytes than this. -/
def pathLimit : Nat := 4096

/-- What is wrong with a path, whatever files there are. -/
def pathFault? (path : String) : Option ReadFault :=
  if path.toList.contains '\x00' then some .zeroInName
  else if pathLimit ≤ path.utf8ByteSize then some .nameTooLong
  else none

/-- Files and directories by the names that lead to them. -/
structure Files where
  entries : List (List String × Content)

namespace Files

def ofPaths (files : List (String × Content)) : Files :=
  ⟨files.map fun (path, content) => (pathNames path, content)⟩

/-- What stands at a place. A directory need not be listed if there is something in it. -/
def content? (files : Files) (place : List String) : Option Content :=
  match files.entries.find? (·.1 == place) with
  | some (_, content) => some content
  | none =>
    if place.isEmpty || files.entries.any (place.isPrefixOf ·.1) then some .directory else none

/-- Follows names from outside the files, where directories lie, but none that is known by its name. -/
def followOutside : List String → Except ReadFault Content
  | [] => pure .directory
  | name :: rest =>
    if nameLimit < name.utf8ByteSize then throw .nameTooLong
    else if name = ".." then followOutside rest
    else throw .missing

/-- Follows names from a place. -/
def follow (files : Files) (place : List String) : List String → Except ReadFault Content
  | [] =>
    match files.content? place with
    | some content => pure content
    | none => throw .missing
  | name :: rest =>
    match files.content? place with
    | some .directory =>
      if nameLimit < name.utf8ByteSize then throw .nameTooLong
      else if name ≠ ".." then files.follow (place ++ [name]) rest
      else if place.isEmpty then followOutside rest
      else files.follow place.dropLast rest
    | some (.file _) => throw .notDirectory
    | none => throw .missing

/-- What a path leads to. -/
def locate (files : Files) (path : String) : Except ReadFault Content :=
  if path.startsWith "/" then followOutside (pathNames path) else files.follow [] (pathNames path)

/-- Reads the text that a path leads to. -/
def read (files : Files) (path : String) : Except ReadFault String := do
  if let some fault := pathFault? path then throw fault
  if path.isEmpty then throw .missing
  match ← files.locate path with
  | .directory => throw .directory
  | .file bytes =>
    if path.endsWith "/" || path.endsWith "/." then throw .notDirectory
    (Content.file bytes).text

end Files

end Choreo
