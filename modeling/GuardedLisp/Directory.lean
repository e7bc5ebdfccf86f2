/-!
# Directories

A tree of named files and directories, and the place in it from which paths are followed.  A path
is followed name by name: an empty name and a dot stay, two dots go up, and any other name goes
down.  Nothing is below a file, so even a name that stays leads nowhere from there.

## Main definitions

* `Entry`: a file with its text, or a directory
* `Place`: a directory with those above it
* `Place.follow`: the entry that names lead to
* `Place.read`: the text of the file at a path, or why there is none
-/

namespace GuardedLisp

/-- Why a path leads to no text. -/
inductive PathFault where
  | missing
  | notDirectory
  | isDirectory
  | nameTooLong
deriving DecidableEq, Repr

/-- The wording of a fault, with its number. -/
def PathFault.message : PathFault → String
  | missing => "No such file or directory (os error 2)"
  | notDirectory => "Not a directory (os error 20)"
  | isDirectory => "Is a directory (os error 21)"
  | nameTooLong => "File name too long (os error 36)"

/-- What a name in a directory stands for. -/
inductive Entry where
  | file (text : String)
  | directory (entries : List (String × Entry))

instance : Inhabited Entry := ⟨.directory []⟩

namespace Entry

/-- The names in a directory.  A file has none. -/
def entries : Entry → List (String × Entry)
  | file _ => []
  | directory entries => entries

/-- Puts a file below a directory, where names lead.  Directories on the way are made. -/
def put (text : String) : List String → Entry → Entry
  | [], _ => file text
  | name :: names, entry =>
    let inner := (entry.entries.lookup name).getD default
    directory ((name, inner.put text names) :: entry.entries.filter fun other => other.1 ≠ name)

end Entry

/-- How many bytes a name in a directory may have. -/
def maxNameLength : Nat := 255

/-- How many bytes a whole path may have. -/
def maxPathLength : Nat := 4095

/-- The parts of a path between its slashes. -/
def pathNames : List Char → List (List Char)
  | [] => [[]]
  | c :: path =>
    if c = '/' then [] :: pathNames path
    else match pathNames path with
      | name :: names => (c :: name) :: names
      | [] => [[c]]

/-- A directory or file, and the directories above it, nearest first. -/
structure Place where
  entry : Entry
  above : List Entry := []

namespace Place

/-- The outermost directory. -/
def root (place : Place) : Place := ⟨place.above.getLastD place.entry, []⟩

/-- Goes where one name leads. -/
def enter (place : Place) (name : String) : Except PathFault Place :=
  match place.entry with
  | .file _ => .error .notDirectory
  | .directory entries =>
    if name = "" ∨ name = "." then .ok place
    else if name = ".." then
      match place.above with
      | outer :: above => .ok ⟨outer, above⟩
      | [] => .ok place
    else if maxNameLength < name.utf8ByteSize then .error .nameTooLong
    else match entries.lookup name with
      | some entry => .ok ⟨entry, place.entry :: place.above⟩
      | none => .error .missing

/-- Goes where names lead, one after the other. -/
def follow (place : Place) (names : List String) : Except PathFault Place :=
  names.foldlM enter place

/-- The text of the file at a path.  A path that starts with a slash is followed from the root. -/
def read (place : Place) (path : String) : Except PathFault String := do
  if path.isEmpty then throw .missing
  if maxPathLength < path.utf8ByteSize then throw .nameTooLong
  let start := if path.toList.head? = some '/' then place.root else place
  match (← start.follow ((pathNames path.toList).map String.ofList)).entry with
  | .file text => return text
  | .directory _ => throw .isDirectory

end Place

end GuardedLisp
