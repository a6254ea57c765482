import CodeMigration.Path

/-!
# Disks

A file system held in memory. A location is the row of names from the root; a path is followed piece
by piece from the working directory or the root, and every piece but the last has to lead through a
directory.
-/

namespace CodeMigration

/-- Why a file system refuses an access. -/
inductive DiskError where
  | notFound
  | alreadyExists
  | notDirectory
  | isDirectory
  | other (reason : String)
deriving DecidableEq

/-- The wording of an access error. -/
def DiskError.message : DiskError → String
  | .notFound => "No such file or directory (os error 2)"
  | .alreadyExists => "File exists (os error 17)"
  | .notDirectory => "Not a directory (os error 20)"
  | .isDirectory => "Is a directory (os error 21)"
  | .other reason => reason

/-- What stands at a location. -/
inductive DiskEntry where
  | directory
  | file (text : String)
deriving DecidableEq

/-- A file system with a working directory. -/
structure Disk where
  entries : List (List String × DiskEntry) := []
  workingDirectory : List String := []

namespace Disk

/-- What stands at a location; the root is a directory. -/
def entry? (d : Disk) (location : List String) : Option DiskEntry :=
  if location.isEmpty then some .directory else d.entries.lookup location

/-- Puts something at a location. -/
def put (d : Disk) (location : List String) (entry : DiskEntry) : Disk :=
  { d with entries := (location, entry) :: d.entries.filter (·.1 != location) }

/-- Follows the pieces of a path from a location. -/
def follow (d : Disk) : List String → List String → Except DiskError (List String)
  | location, [] => .ok location
  | location, piece :: rest =>
    match d.entry? location with
    | none => .error .notFound
    | some (.file _) => .error .notDirectory
    | some .directory =>
      if piece = "" ∨ piece = "." then d.follow location rest
      else if piece = ".." then d.follow location.dropLast rest
      else d.follow (location ++ [piece]) rest

/-- The location that a path leads to. -/
def locate (d : Disk) (path : String) : Except DiskError (List String) :=
  if path = "" then .error .notFound
  else d.follow (if Path.isAbsolute path then [] else d.workingDirectory) (Path.pieces path)

/-- The text of a file. -/
def read (d : Disk) (path : String) : Except DiskError String := do
  match d.entry? (← d.locate path) with
  | none => .error .notFound
  | some .directory => .error .isDirectory
  | some (.file text) => .ok text

/-- Writes a file in an existing directory. -/
def write (d : Disk) (path text : String) : Except DiskError Disk := do
  let location ← d.locate path
  match d.entry? location with
  | some .directory => .error .isDirectory
  | _ => return d.put location (.file text)

/-- Whether a path leads to a directory. -/
def isDirectory (d : Disk) (path : String) : Bool :=
  match d.locate path with
  | .ok location => d.entry? location == some .directory
  | .error _ => false

/-- Makes a directory in an existing one. -/
def makeDirectory (d : Disk) (path : String) : Except DiskError Disk := do
  let location ← d.locate path
  match d.entry? location with
  | some _ => .error .alreadyExists
  | none => return d.put location .directory

end Disk

end CodeMigration
