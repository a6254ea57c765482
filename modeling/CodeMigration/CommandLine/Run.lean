import CodeMigration.Batch
import CodeMigration.CommandLine.Disk
import CodeMigration.CommandLine.Options
import CodeMigration.Configuration
import CodeMigration.Listing

/-!
# The command line

Loads a configuration, a class index and tree documents, runs the selected rules over the documents,
and writes what became of them. The file system and the two output streams are a parameter, so that
the same program runs on real files and on a disk in memory.
-/

namespace CodeMigration

namespace CommandLine

/-- What the program needs from its surroundings. -/
structure Host (m : Type → Type) where
  read : String → m (Except DiskError String)
  write : String → String → m (Except DiskError Unit)
  makeDirectory : String → m (Except DiskError Unit)
  isDirectory : String → m Bool
  out : String → m Unit
  err : String → m Unit

/-- A reason with the circumstances in front. -/
def within (circumstances reason : String) : String := circumstances ++ ": " ++ reason

variable {m : Type → Type} [Monad m]

/-- An access whose refusal is worded with its circumstances. -/
def access {α : Type} (circumstances : String) (action : m (Except DiskError α)) :
    ExceptT String m α :=
  ExceptT.mk do
    match ← action with
    | .ok a => return .ok a
    | .error e => return .error (within circumstances e.message)

/-- A result of the engine. -/
def engine {α : Type} (result : Except Error α) : ExceptT String m α :=
  ExceptT.mk (pure (result.mapError Error.message))

/-! ### Input -/

/-- The full wording of a configuration problem. -/
def configurationText (p : ConfigurationProblem) : String :=
  if p = .malformed then within p.message malformedText else p.message

/-- Reads the configuration file. -/
def readConfiguration (host : Host m) (path : String) : ExceptT String m Configuration := do
  let text ← access ("failed to read config " ++ path) (host.read path)
  ExceptT.mk (pure ((Configuration.parse text).mapError fun p =>
    within ("in config " ++ path) (configurationText p)))

/-- The configuration with what the options say in its place. -/
def override (o : Options) (c : Configuration) : Configuration :=
  { c with
    maxPasses := o.maxPasses.getD c.maxPasses
    revisitBound := o.revisitBound.getD c.revisitBound
    rules := if o.rules.isEmpty then c.rules else o.rules }

/-- The configuration of the run. -/
def loadConfiguration (host : Host m) (o : Options) : ExceptT String m Configuration := do
  let base ← match o.config with
    | some path => readConfiguration host path
    | none => pure {}
  let c := override o base
  ExceptT.mk (pure (c.check.mapError configurationText))
  return c

/-- The oracle of the run. -/
def loadOracle (host : Host m) (classIndex : Option String) : ExceptT String m Oracle := do
  match classIndex with
  | none => return .unknown
  | some path =>
    let text ← access ("failed to read class index " ++ path) (host.read path)
    match ClassIndex.parse? text with
    | some index => return .ofIndex index
    | none => throw (within ("invalid class index " ++ path) malformedText)

/-- Loads a tree document. The path in the document counts before that of the file. -/
def loadUnit (host : Host m) (path : String) : ExceptT String m SourceUnit := do
  let text ← access ("failed to read " ++ path) (host.read path)
  match Document.parse text with
  | .error e => throw (within ("failed to parse " ++ path) e.message)
  | .ok d =>
    let t ← engine (Tree.ofDocument { d with path := d.path.or (some path) })
    return { path, tree := t }

/-- Loads the tree documents: those that could be loaded, and the reports on the others with their
positions. -/
def loadUnits (host : Host m) : Nat → List String → m (List SourceUnit × List (Nat × FileReport))
  | _, [] => return ([], [])
  | index, path :: rest => do
    let loaded ← (loadUnit host path).run
    let (units, failed) ← loadUnits host (index + 1) rest
    match loaded with
    | .ok unit => return (unit :: units, failed)
    | .error reason => return (units, (index, .failed path reason) :: failed)

/-! ### Output -/

/-- Where a file is written: relative paths are kept below the directory, of absolute ones only the
file name. -/
def outputPath (directory path : String) : String :=
  if Path.isAbsolute path then Path.join directory ((Path.fileName? path).getD path)
  else Path.join directory path

/-- Makes a directory, or is content with an existing one. -/
def ensureDirectory (host : Host m) (path : String) : m (Except DiskError Unit) := do
  match ← host.makeDirectory path with
  | .ok _ => return .ok ()
  | .error e => if ← host.isDirectory path then return .ok () else return .error e

/-- Makes a directory and the missing ones above it, going up at most the given number of times. -/
def createWithin (host : Host m) : Nat → String → m (Except DiskError Unit)
  | 0, _ => return .error .notFound
  | n + 1, path => do
    if path = "" then return .ok ()
    else
      match ← ensureDirectory host path with
      | .error .notFound =>
        match Path.parent? path with
        | none => return .error .notFound
        | some parent =>
          match ← createWithin host n parent with
          | .ok _ => ensureDirectory host path
          | .error e => return .error e
      | result => return result

/-- Makes a directory and the missing ones above it. -/
def createDirectories (host : Host m) (path : String) : m (Except DiskError Unit) :=
  createWithin host (path.length + 1) path

/-- Writes a file and makes the directories above it. -/
def writeFile (host : Host m) (path text : String) : ExceptT String m Unit := do
  match Path.parent? path with
  | some parent => access ("failed to create " ++ parent) (createDirectories host parent)
  | none => pure ()
  access ("failed to write " ++ path) (host.write path text)

/-- Prints a tree as program text. -/
def printTree (host : Host m) (path : String) (t : Tree) : ExceptT String m Unit := do
  ExceptT.lift (host.out ("// " ++ path ++ "\n"))
  let text ← engine t.listing
  ExceptT.lift (host.out text)

/-- Prints an added file. -/
def printFile (host : Host m) (file : AddedFile) : m Unit := do
  host.out ("// added " ++ file.path ++ "\n")
  host.out file.content

/-- Writes a tree document and the added files below a directory. -/
def writeOutput (host : Host m) (directory path : String) (t : Tree) (files : List AddedFile) :
    ExceptT String m Unit := do
  let d ← engine t.toDocument
  writeFile host (outputPath directory path) d.text
  files.forM fun f => writeFile host (outputPath directory f.path) f.content

/-- Prints and writes what became of a file. -/
def emit (host : Host m) (o : Options) (report : FileReport) : ExceptT String m Unit := do
  match report.tree with
  | none => return ()
  | some t =>
    if o.print then printTree host report.path t
    match o.outputDir with
    | some directory => writeOutput host directory report.path t report.files
    | none => if o.print then ExceptT.lift (report.files.forM (printFile host))

/-- Reports on the files one by one; says whether all output was written. -/
def emitAll (host : Host m) (o : Options) : List FileReport → m Bool
  | [] => return true
  | report :: rest => do
    host.err (report.path ++ ": " ++ report.status.message ++ "\n")
    let written ← match ← (emit host o report).run with
      | .ok _ => pure true
      | .error reason => do
        host.err (report.path ++ ": error: " ++ reason ++ "\n")
        pure false
    return (← emitAll host o rest) && written

/-- The last line of a run. -/
def summary (r : BatchReport) : String :=
  toString r.migrated ++ " rewritten, " ++ toString r.unchanged ++ " unchanged, " ++
    toString r.skipped ++ " skipped, " ++ toString r.errors ++ " error(s)"

/-! ### The program -/

/-- The pipeline and the oracle of the run. -/
def prepare (host : Host m) (o : Options) : ExceptT String m (Pipeline × Oracle) := do
  let config ← loadConfiguration host o
  let oracle ← loadOracle host o.classIndex
  let rules ← engine config.selected
  let pipeline ← engine (Pipeline.withRules config.limits rules)
  return (pipeline, oracle)

/-- Runs the batch; says whether everything went well. -/
def execute (host : Host m) (o : Options) : ExceptT String m Bool := do
  let (pipeline, oracle) ← prepare host o
  ExceptT.lift do
    let (units, failed) ← loadUnits host 0 o.inputs
    let report := (Batch.run pipeline oracle false units).mergeFailed failed
    let written ← emitAll host o report.files
    host.err (summary report ++ "\n")
    return !report.hasErrors && written

/-- Runs the program and returns its exit status. -/
def run (host : Host m) (arguments : List String) : m Nat := do
  match Options.parse? arguments with
  | none => return 2
  | some o =>
    match ← (execute host o).run with
    | .ok true => return 0
    | .ok false => return 1
    | .error reason => do
      host.err ("error: " ++ reason ++ "\n")
      return 1

/-! ### In memory -/

/-- A disk and the texts written to the two streams. -/
structure Console where
  disk : Disk
  out : String := ""
  err : String := ""

/-- Changes the disk unless the change is refused. -/
def Console.change (f : Disk → Except DiskError Disk) : StateM Console (Except DiskError Unit) :=
  fun c =>
    match f c.disk with
    | .ok d => (.ok (), { c with disk := d })
    | .error e => (.error e, c)

/-- A host that keeps everything in memory. -/
def memoryHost : Host (StateM Console) where
  read path := return (← get).disk.read path
  write path text := Console.change (·.write path text)
  makeDirectory path := Console.change (·.makeDirectory path)
  isDirectory path := return (← get).disk.isDirectory path
  out text := modify fun c => { c with out := c.out ++ text }
  err text := modify fun c => { c with err := c.err ++ text }

end CommandLine

end CodeMigration
