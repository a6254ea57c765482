import CodeMigration.Document.Json
import CodeMigration.Document.Tree
import CodeMigration.Pipeline

/-!
# Batches

A pipeline run over many trees, each on its own: a tree whose run fails is given up as a whole and
has no influence on the others.
-/

namespace CodeMigration

/-- A tree and the file it was read from. -/
structure SourceUnit where
  path : String
  tree : Tree

/-- How the run of one file ended. -/
inductive FileStatus where
  | migrated
  | unchanged
  | skipped
  | failed (reason : String)
deriving DecidableEq

/-- The wording of a status. -/
def FileStatus.message : FileStatus → String
  | .migrated => "rewritten"
  | .unchanged => "unchanged"
  | .skipped => "skipped"
  | .failed reason => "error: " ++ reason

/-- The report on one file. Only a run that succeeded has a tree. -/
structure FileReport where
  path : String
  status : FileStatus
  tree : Option Tree := none
  files : List AddedFile := []
  passes : Nat := 0
  outcome : Option RunOutcome := none

namespace FileReport

/-- The report on a file that never reached the pipeline. -/
def failed (path reason : String) : FileReport := { path, status := .failed reason }

/-- The report on a run that succeeded. -/
def ofRun (path : String) (t : Tree) (run : RunReport) : FileReport where
  path := path
  status := if run.changed then .migrated else .unchanged
  tree := some t
  files := run.files
  passes := run.passes
  outcome := some run.outcome

end FileReport

/-- The reports on the files of a batch, in input order. -/
structure BatchReport where
  files : List FileReport

namespace BatchReport

/-- Number of files with a status. -/
def count (r : BatchReport) (test : FileStatus → Bool) : Nat := r.files.countP (test ·.status)

/-- Number of migrated files. -/
def migrated (r : BatchReport) : Nat := r.count (· == .migrated)

/-- Number of files without changes. -/
def unchanged (r : BatchReport) : Nat := r.count (· == .unchanged)

/-- Number of files that were not started. -/
def skipped (r : BatchReport) : Nat := r.count (· == .skipped)

/-- Number of files that failed. -/
def errors (r : BatchReport) : Nat :=
  r.count fun
    | .failed _ => true
    | _ => false

/-- Whether any file failed. -/
def hasErrors (r : BatchReport) : Bool := decide (0 < r.errors)

/-- Puts reports back at their positions among the others, one after the other. -/
def mergeFailed (r : BatchReport) (failed : List (Nat × FileReport)) : BatchReport :=
  ⟨failed.foldl (fun files (index, report) => files.insertIdx (min index files.length) report)
    r.files⟩

end BatchReport

namespace Batch

/-- The wording for a run that failed. -/
def failureText : Failure → String
  | .error e => e.message
  | .fault f => "panic: " ++ f.message

/-- Runs the pipeline over one tree. A cancelled batch starts no run. -/
def process (p : Pipeline) (oracle : Oracle) (cancelled : Bool) (unit : SourceUnit) :
    FileReport :=
  if cancelled then { path := unit.path, status := .skipped }
  else
    match p.run oracle unit.tree with
    | (t, .ok run) => .ofRun unit.path t run
    | (_, .error e) => .failed unit.path (failureText e)

/-- Runs the pipeline over all trees. -/
def run (p : Pipeline) (oracle : Oracle) (cancelled : Bool) (units : List SourceUnit) :
    BatchReport :=
  ⟨units.map (process p oracle cancelled)⟩

end Batch

end CodeMigration
