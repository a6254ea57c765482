/-!
# File paths

Paths are texts with `/` between their parts. Empty parts and single dots in the middle do not
count, so `d//x`, `d/./x` and `d/x` are the same path; a dot in front does, so `./x` and `x` are
different ones.
-/

namespace CodeMigration

namespace Path

/-- Adds a character in front of the first piece, or begins a new piece at a separator. -/
def addChar (c : Char) : List (List Char) → List (List Char)
  | [] => if c = '/' then [[], []] else [[c]]
  | piece :: rest => if c = '/' then [] :: piece :: rest else (c :: piece) :: rest

/-- The texts between the separators. -/
def pieces (path : String) : List String :=
  (path.toList.foldr addChar [[]]).map String.ofList

/-- Whether the path begins at the root of the file system. -/
def isAbsolute (path : String) : Bool := path.toList.head? == some '/'

/-- A part of a path that counts. -/
inductive Component where
  | root
  | current
  | parent
  | name (text : String)
deriving DecidableEq

/-- The component of a piece that is not the first. -/
def component? (piece : String) : Option Component :=
  if piece = "" ∨ piece = "." then none
  else if piece = ".." then some .parent
  else some (.name piece)

/-- The parts of a path that count. -/
def components (path : String) : List Component :=
  let first := if isAbsolute path then [Component.root]
    else if (pieces path).head? == some "." then [.current]
    else []
  first ++ (pieces path).filterMap component?

/-- Whether two paths have the same components. -/
def same (a b : String) : Bool := components a == components b

/-- The last component, if it is a name. -/
def fileName? (path : String) : Option String :=
  match (components path).getLast? with
  | some (.name text) => some text
  | _ => none

/-- Drops the empty pieces and dots at the end, but never the first piece. -/
def trimPieces (ps : List String) : List String :=
  match ps with
  | [] => []
  | first :: rest =>
    first :: (rest.reverse.dropWhile fun p => p == "" || p == ".").reverse

/-- Pieces put together again. -/
def ofPieces (ps : List String) : String :=
  if ps = [""] then "/" else "/".intercalate ps

/-- The path without its last component; the empty path and the root have none. -/
def parent? (path : String) : Option String :=
  let ps := trimPieces (pieces path)
  if ps = [""] then none else some (ofPieces (trimPieces ps.dropLast))

/-- A path below a directory; an absolute path stands for itself. -/
def join (directory path : String) : String :=
  if isAbsolute path then path
  else if directory = "" ∨ directory.toList.getLast? = some '/' then directory ++ path
  else directory ++ "/" ++ path

/-- The path with another last component. -/
def withFileName (path name : String) : String :=
  join (if (fileName? path).isSome then (parent? path).getD "" else path) name

/-- A file name at its last dot. A dot in front only does not count. -/
def splitName (name : String) : String × Option String :=
  let reversed := name.toList.reverse
  let ending := reversed.takeWhile (· != '.')
  match reversed.dropWhile (· != '.') with
  | '.' :: stem =>
    if stem.isEmpty then (name, none)
    else (String.ofList stem.reverse, some (String.ofList ending.reverse))
  | _ => (name, none)

/-- The file name up to its last dot. -/
def stem? (path : String) : Option String := (fileName? path).map fun n => (splitName n).1

/-- What follows the last dot of the file name. -/
def extension? (path : String) : Option String := (fileName? path).bind fun n => (splitName n).2

end Path

end CodeMigration
