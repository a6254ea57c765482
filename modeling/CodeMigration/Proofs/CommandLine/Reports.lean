import CodeMigration.CommandLine.Run
import Mathlib.Control.Basic
import Mathlib.Data.List.Basic

/-!
# Reports in input order

The inputs that could not be loaded take no part in the batch. Their reports are inserted
afterwards, one by one, at positions that count all inputs. Position and length fit because
everything in front of a report is in place when its turn comes.
-/

namespace CodeMigration

namespace CommandLine

/-- An input after the attempt to load it: its tree, or the reason why there is none. -/
structure Attempt where
  path : String
  outcome : Except String Tree

namespace Attempt

/-- The input as a unit of the batch, if it could be loaded. -/
def unit? (a : Attempt) : Option SourceUnit :=
  match a.outcome with
  | .ok tree => some { path := a.path, tree }
  | .error _ => none

/-- The reports on the inputs that could not be loaded, with their positions. -/
def failures : Nat → List Attempt → List (Nat × FileReport)
  | _, [] => []
  | index, a :: rest =>
    match a.outcome with
    | .ok _ => failures (index + 1) rest
    | .error reason => (index, .failed a.path reason) :: failures (index + 1) rest

/-- The report on an input: the load error, or what the batch says about its tree. -/
def report (p : Pipeline) (oracle : Oracle) (cancelled : Bool) (a : Attempt) : FileReport :=
  match a.outcome with
  | .ok tree => Batch.process p oracle cancelled { path := a.path, tree }
  | .error reason => .failed a.path reason

variable {p : Pipeline} {oracle : Oracle} {cancelled : Bool}

lemma path_process (unit : SourceUnit) :
    (Batch.process p oracle cancelled unit).path = unit.path := by
  rw [Batch.process]
  split
  · rfl
  · split <;> rfl

@[simp] lemma path_report (a : Attempt) : (a.report p oracle cancelled).path = a.path := by
  rw [report]
  split
  · exact path_process _
  · rfl

/-- The position behind a front is never cut down to the length of the list. -/
lemma insertIdx_behind (front others : List FileReport) (r : FileReport) :
    (front ++ others).insertIdx (min front.length (front ++ others).length) r =
      front ++ r :: others := by
  rw [List.length_append, Nat.min_eq_left (Nat.le_add_right _ _)]
  induction front with
  | nil => exact List.insertIdx_zero
  | cons first front ih =>
    rw [List.cons_append, List.length_cons, List.insertIdx_succ_cons, ih, List.cons_append]

/-- With the reports on the inputs so far in place, those that are missing among the others get to
theirs. -/
lemma mergeFailed_failures (front : List FileReport) (rest : List Attempt) :
    BatchReport.mergeFailed
        ⟨front ++ (rest.filterMap unit?).map (Batch.process p oracle cancelled)⟩
        (failures front.length rest) =
      ⟨front ++ rest.map (report p oracle cancelled)⟩ := by
  induction rest generalizing front with
  | nil => rfl
  | cons a rest ih =>
    have hstep := ih (front ++ [a.report p oracle cancelled])
    rw [List.length_append, List.length_singleton, List.append_assoc, List.append_assoc,
      List.singleton_append, List.singleton_append] at hstep
    rw [List.map_cons, ← hstep, failures]
    cases hload : a.outcome with
    | ok tree => simp only [report, unit?, hload, List.filterMap_cons, List.map_cons]
    | error reason =>
      simp only [report, unit?, hload, List.filterMap_cons, BatchReport.mergeFailed,
        List.foldl_cons, insertIdx_behind]

lemma mergeFailed_run (attempts : List Attempt) :
    (Batch.run p oracle cancelled (attempts.filterMap unit?)).mergeFailed (failures 0 attempts) =
      ⟨attempts.map (report p oracle cancelled)⟩ := mergeFailed_failures [] attempts

end Attempt

variable {m : Type → Type} [Monad m]

/-- What comes of loading an input. -/
def loadTree (host : Host m) (path : String) : m (Except String Tree) :=
  (·.map SourceUnit.tree) <$> (loadUnit host path).run

/-- Tries to load an input. -/
def tryLoad (host : Host m) (path : String) : m Attempt := Attempt.mk path <$> loadTree host path

variable [LawfulMonad m]

/-- A unit carries the path of its input. -/
lemma run_loadUnit (host : Host m) (path : String) :
    (loadUnit host path).run = (·.map (SourceUnit.mk path)) <$> loadTree host path := by
  simp only [loadTree, loadUnit, ExceptT.run_bind, map_bind]
  refine bind_congr fun text => ?_
  cases text with
  | error reason => simp [Except.map]
  | ok text =>
    cases hparse : Document.parse text with
    | error e => simp [hparse, Except.map]
    | ok d =>
      cases htree : Tree.ofDocument { d with path := some (d.path.getD path) } with
      | error e => simp [hparse, htree, engine, Except.map, Except.mapError]
      | ok t => simp [hparse, htree, engine, Except.map, Except.mapError]

/-- Loading the inputs is to try all of them in order and to sort out what came of it. -/
lemma loadUnits_eq (host : Host m) (index : Nat) (inputs : List String) :
    loadUnits host index inputs =
      (fun attempts => (attempts.filterMap Attempt.unit?, Attempt.failures index attempts)) <$>
        inputs.mapM (tryLoad host) := by
  induction inputs generalizing index with
  | nil => simp [loadUnits, Attempt.failures]
  | cons path rest ih =>
    rw [loadUnits, List.mapM_cons, run_loadUnit, tryLoad]
    simp only [ih, map_eq_pure_bind, bind_assoc, pure_bind]
    refine bind_congr fun outcome => ?_
    cases outcome with
    | ok tree => simp [Except.map, Attempt.unit?, Attempt.failures]
    | error reason => simp [Except.map, Attempt.unit?, Attempt.failures, List.filterMap_cons]

/-- Every input is tried once, in order. -/
lemma map_path_mapM (host : Host m) (inputs : List String) :
    (·.map Attempt.path) <$> inputs.mapM (tryLoad host) =
      (fun _ => inputs) <$> inputs.mapM (tryLoad host) := by
  induction inputs with
  | nil => simp
  | cons path rest ih =>
    rw [List.mapM_cons, tryLoad]
    simp only [map_eq_pure_bind, bind_assoc, pure_bind] at ih ⊢
    refine bind_congr fun outcome => ?_
    have hrest := congrArg (List.cons path <$> ·) ih
    simpa only [map_eq_pure_bind, bind_assoc, pure_bind, List.map_cons] using hrest

/-- The reports on all inputs, as the program collects them: the batch is run on the inputs that
could be loaded, and the reports on the others are put in. -/
def collect (host : Host m) (inputs : List String) (p : Pipeline) (oracle : Oracle)
    (cancelled : Bool) : m (List FileReport) := do
  let (units, failed) ← loadUnits host 0 inputs
  return ((Batch.run p oracle cancelled units).mergeFailed failed).files

lemma collect_eq (host : Host m) (inputs : List String) (p : Pipeline) (oracle : Oracle)
    (cancelled : Bool) : collect host inputs p oracle cancelled =
      (·.map (Attempt.report p oracle cancelled)) <$> inputs.mapM (tryLoad host) := by
  simp only [collect, loadUnits_eq, map_eq_pure_bind, bind_assoc, pure_bind,
    Attempt.mergeFailed_run]

/-- A run reports on the inputs and then writes what the reports call for. -/
lemma execute_eq (host : Host m) (o : Options) : execute host o = (do
    let (p, oracle) ← prepare host o
    ExceptT.lift do
      let files ← collect host o.inputs p oracle false
      let written ← emitAll host o files
      host.err (summary ⟨files⟩ ++ "\n")
      return !BatchReport.hasErrors ⟨files⟩ && written) := by
  rw [execute]
  refine bind_congr fun prepared => congrArg ExceptT.lift ?_
  simp only [collect, bind_assoc, pure_bind]

/-- Whatever comes of loading them, the inputs and the reports on them correspond one by one: the
paths of the reports are the inputs, and the report at a position is the load error if the input at
that position could not be loaded and the report of the batch otherwise. -/
theorem reports_in_input_order (host : Host m) (inputs : List String) (p : Pipeline)
    (oracle : Oracle) (cancelled : Bool) :
    collect host inputs p oracle cancelled =
      (·.map (Attempt.report p oracle cancelled)) <$> inputs.mapM (tryLoad host) ∧
    (·.map FileReport.path) <$> collect host inputs p oracle cancelled =
      (fun _ => inputs) <$> collect host inputs p oracle cancelled ∧
    ∀ attempts : List Attempt, ∃ files,
      ((Batch.run p oracle cancelled (attempts.filterMap Attempt.unit?)).mergeFailed
        (Attempt.failures 0 attempts)).files = files ∧
      files.length = attempts.length ∧
      ∀ (i : Nat) (a : Attempt), attempts[i]? = some a →
        ∃ report, files[i]? = some report ∧ report.path = a.path ∧
          (∀ reason, a.outcome = .error reason → report = .failed a.path reason) ∧
          ∀ tree, a.outcome = .ok tree →
            report = Batch.process p oracle cancelled { path := a.path, tree } := by
  refine ⟨collect_eq host inputs p oracle cancelled, ?_, ?_⟩
  · have hpaths := map_path_mapM host inputs
    rw [collect_eq]
    simpa only [Functor.map_map, List.map_map, Function.comp_def, Attempt.path_report] using hpaths
  · intro attempts
    rw [Attempt.mergeFailed_run]
    refine ⟨_, rfl, List.length_map _, fun i a hi => ?_⟩
    refine ⟨a.report p oracle cancelled, ?_, Attempt.path_report a, ?_, ?_⟩
    · rw [List.getElem?_map, hi, Option.map_some]
    · intro reason hload
      rw [Attempt.report, hload]
    · intro tree hload
      rw [Attempt.report, hload]

/-- One document between a missing file and a broken one. -/
def sampleConsole : Console where
  disk :=
    { entries := [
        (["a.json"], .file "\x7b\"root\":\x7b\"syntax\":\x7b\"kind\":\"File\"\x7d\x7d\x7d"),
        (["b.json"], .file "broken")] }

theorem reports_in_input_order_sample :
    (collect memoryHost ["gone.json", "a.json", "b.json"] { limits := {} } .unknown false
        sampleConsole).1.map (fun report => (report.path, report.status)) =
      [("gone.json",
          .failed "failed to read gone.json: No such file or directory (os error 2)"),
        ("a.json", .unchanged),
        ("b.json", .failed "failed to parse b.json: malformed tree document: malformed JSON")] := by
  rw [(reports_in_input_order memoryHost ["gone.json", "a.json", "b.json"] { limits := {} } .unknown
    false).1]
  decide +kernel

end CommandLine

end CodeMigration
