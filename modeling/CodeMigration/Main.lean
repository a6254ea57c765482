import CodeMigration.CommandLine.Run

/-!
# The program

The command line on the real file system.
-/

namespace CodeMigration

namespace CommandLine

/-- The access error of a system error. -/
def diskError : IO.Error → DiskError
  | .noFileOrDirectory .. => .notFound
  | .alreadyExists .. => .alreadyExists
  | .inappropriateType _ code _ => if code = 21 then .isDirectory else .notDirectory
  | .permissionDenied _ code reason => .other (reason ++ " (os error " ++ toString code ++ ")")
  | e => .other (toString e)

/-- An access to the file system. -/
def attempt {α : Type} (action : IO α) : IO (Except DiskError α) := do
  match ← action.toBaseIO with
  | .ok a => return .ok a
  | .error e => return .error (diskError e)

/-- Whether a path leads to a directory. -/
def isDirectory (path : String) : IO Bool := do
  match ← attempt (IO.FS.realPath path) with
  | .ok real => real.isDir
  | .error _ => return false

/-- A host on the real file system. -/
def systemHost : Host IO where
  read path := attempt (IO.FS.readFile path)
  write path text := attempt (IO.FS.writeFile path text)
  makeDirectory path := attempt (IO.FS.createDir path)
  isDirectory path := isDirectory path
  out text := IO.print text
  err text := IO.eprint text

end CommandLine

end CodeMigration

/-- Runs the program on its arguments. -/
def main (arguments : List String) : IO UInt32 := do
  let code ← CodeMigration.CommandLine.run CodeMigration.CommandLine.systemHost arguments
  return UInt32.ofNat code
