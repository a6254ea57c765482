import CodeMigration.Proofs.CommandLine.Reports
import CodeMigration.Proofs.Path
import CodeMigration.Proofs.Tree.Edits

/-!
# What a run writes

On a disk in memory a run reads, then makes directories and writes files. `Disk.Course` records the
writes; directories come in between where they are missing. A file that was written is replaced only
by a later write to the same location.
-/

namespace CodeMigration

namespace Disk

variable {d d' d₁ : Disk} {path text : String} {l l' : List String} {e : DiskEntry}

/-! ### Single steps -/

lemma entry?_put (hl : l ≠ []) :
    entry? (d.put l e) l' = if l' = l then some e else d.entry? l' := by
  by_cases hroot : l' = []
  · rw [hroot, if_neg (Ne.symm hl)]
    rfl
  · have hopen : l'.isEmpty = false := by simpa using hroot
    rw [ entry?, entry?, hopen, put]
    by_cases heq : l' = l
    · rw [if_pos heq, heq]
      simp
    · have hother : (l' == l) = false := by simpa using heq
      rw [if_neg heq, if_neg Bool.false_ne_true, if_neg Bool.false_ne_true, List.lookup_cons,
        hother]
      show List.lookup l' (d.entries.filter _) = _
      induction d.entries with
      | nil => rfl
      | cons first rest ih =>
        obtain ⟨l₁, e₁⟩ := first
        rw [List.filter_cons]
        by_cases hl₁ : l₁ = l
        · have hskip : (l' == l₁) = false := by rw [hl₁]; exact hother
          rw [if_neg (by simpa using hl₁), ih, List.lookup_cons, hskip]
        · rw [if_pos (by simpa using hl₁), List.lookup_cons, List.lookup_cons, ih]

/-- A directory is made where there is nothing. -/
lemma makeDirectory_eq_ok (h : d.makeDirectory path = .ok d') :
    ∃ l, l ≠ [] ∧ d.entry? l = none ∧ d' = d.put l .directory := by
  obtain ⟨l, _, h⟩ := Except.bind_eq_ok_iff.mp h
  split at h
  · cases h
  · next hnone =>
    cases h
    refine ⟨l, ?_, hnone, rfl⟩
    rintro rfl
    cases hnone

/-- A file is written where its path leads to, but not over a directory. -/
lemma write_eq_ok (h : d.write path text = .ok d') :
    Path.resolve d.workingDirectory path ≠ [] ∧
      d' = d.put (Path.resolve d.workingDirectory path) (.file text) := by
  obtain ⟨l, hl, h⟩ := Except.bind_eq_ok_iff.mp h
  rw [← locate_eq_ok hl]
  split at h
  · cases h
  · next hentry =>
    cases h
    refine ⟨?_, rfl⟩
    rintro rfl
    exact hentry rfl

/-! ### Runs -/

/-- A disk is changed by writing the given texts to the given paths, one after the other, and making
directories in between. -/
inductive Course : Disk → List (String × String) → Disk → Prop
  | rest (d : Disk) : Course d [] d
  | makeDirectory {d d₁ d' : Disk} {path : String} {writes : List (String × String)}
    (h : d.makeDirectory path = .ok d₁) (hrest : Course d₁ writes d') : Course d writes d'
  | write {d d₁ d' : Disk} {path text : String} {writes : List (String × String)}
    (h : d.write path text = .ok d₁) (hrest : Course d₁ writes d') :
    Course d ((path, text) :: writes) d'

namespace Course

variable {writes writes' : List (String × String)}

lemma trans (h : Course d writes d₁) (h' : Course d₁ writes' d') :
    Course d (writes ++ writes') d' := by
  induction h with
  | rest => exact h'
  | makeDirectory hstep _ ih => exact .makeDirectory hstep (ih h')
  | write hstep _ ih => exact .write hstep (ih h')

/-- A file stays as it is while other locations are written to. -/
lemma keeps (h : Course d writes d')
    (hwrites : ∀ w ∈ writes, Path.resolve d.workingDirectory w.1 ≠ l)
    (hfile : d.entry? l = some (.file text)) : d'.entry? l = some (.file text) := by
  induction h with
  | rest => exact hfile
  | makeDirectory hstep _ ih =>
    obtain ⟨l₁, hl₁, hnone, rfl⟩ := makeDirectory_eq_ok hstep
    refine ih hwrites ?_
    have hne : l ≠ l₁ := by
      rintro rfl
      rw [hfile] at hnone
      cases hnone
    rw [entry?_put hl₁, if_neg hne, hfile]
  | write hstep _ ih =>
    obtain ⟨hroot, rfl⟩ := write_eq_ok hstep
    refine ih (fun w hw => hwrites w (List.mem_cons_of_mem _ hw)) ?_
    rw [entry?_put hroot, if_neg (Ne.symm (hwrites _ List.mem_cons_self)), hfile]

/-- What was written is there afterwards, unless something is written to the same location later. -/
lemma entry?_of_write (h : Course d writes d') (before : List (String × String))
    (w : String × String) (after : List (String × String))
    (hsplit : writes = before ++ w :: after)
    (hafter : ∀ v ∈ after, Path.resolve d.workingDirectory v.1 ≠
      Path.resolve d.workingDirectory w.1) :
    d'.entry? (Path.resolve d.workingDirectory w.1) = some (.file w.2) := by
  induction h generalizing before with
  | rest => simp at hsplit
  | makeDirectory hstep _ ih =>
    obtain ⟨_, _, _, rfl⟩ := makeDirectory_eq_ok hstep
    exact ih before hsplit hafter
  | write hstep hrest ih =>
    obtain ⟨hroot, rfl⟩ := write_eq_ok hstep
    cases before with
    | nil =>
      cases hsplit
      refine hrest.keeps hafter ?_
      rw [entry?_put hroot, if_pos rfl]
    | cons first before =>
      exact ih before (List.cons.inj hsplit).2 hafter

end Course

end Disk

namespace CommandLine

open Disk (Course)

variable {α β : Type}

/-! ### Programs on a disk in memory -/

/-- The program leaves the disk and the streams as they are. -/
def Reads (x : StateM Console α) : Prop := ∀ c, (x c).2 = c

/-- The program makes directories at most. -/
def Prepares (x : StateM Console α) : Prop := ∀ c, Course c.disk [] (x c).2.disk

/-- The program writes the given texts to the given paths; if it fails, the first few of them. -/
def Writes (x : ExceptT String (StateM Console) Unit) (writes : List (String × String)) : Prop :=
  ∀ c, ∃ done, done <+: writes ∧ Course c.disk done (x.run c).2.disk ∧
    ((x.run c).1 = .ok () → done = writes)

lemma Prepares.pure (a : α) : Prepares (pure a) := fun c => .rest c.disk

lemma Prepares.bind {x : StateM Console α} {f : α → StateM Console β} (hx : Prepares x)
    (hf : ∀ a, Prepares (f a)) : Prepares (x >>= f) := fun c =>
  (hx c).trans (hf (x c).1 (x c).2)

lemma Writes.pure : Writes (pure ()) [] :=
  fun c => ⟨[], List.prefix_rfl, .rest c.disk, fun _ => rfl⟩

lemma bind_apply (x : StateM Console α) (f : α → StateM Console β) (c : Console) :
    (x >>= f) c = f (x c).1 (x c).2 := rfl

lemma map_apply (f : α → β) (x : StateM Console α) (c : Console) :
    (f <$> x) c = (f (x c).1, (x c).2) := rfl

lemma run_lift_apply (x : StateM Console α) (c : Console) :
    (ExceptT.lift x : ExceptT String (StateM Console) α).run c = (.ok (x c).1, (x c).2) := rfl

/-- The next step of a program that can fail. -/
lemma run_bind_apply (x : ExceptT String (StateM Console) α)
    (f : α → ExceptT String (StateM Console) β) (c : Console) :
    (x >>= f).run c =
      match x.run c with
      | (.ok a, c') => (f a).run c'
      | (.error e, c') => (.error e, c') := by
  rw [ExceptT.run_bind, bind_apply]
  obtain ⟨result, c'⟩ := x.run c
  cases result <;> rfl

lemma Writes.bind {x : ExceptT String (StateM Console) Unit}
    {f : Unit → ExceptT String (StateM Console) Unit} {writes writes' : List (String × String)}
    (hx : Writes x writes) (hf : Writes (f ()) writes') : Writes (x >>= f) (writes ++ writes') := by
  intro c
  obtain ⟨done, hdone, hcourse, hall⟩ := hx c
  rw [run_bind_apply]
  generalize x.run c = end₁ at hcourse hall ⊢
  obtain ⟨result, c'⟩ := end₁
  cases result with
  | error e =>
    exact ⟨done, hdone.trans (List.prefix_append _ _), hcourse, fun hok => by cases hok⟩
  | ok _ =>
    obtain rfl := hall rfl
    obtain ⟨done', hdone', hcourse', hall'⟩ := hf c'
    exact ⟨done ++ done', (List.prefix_append_right_inj done).mpr hdone', hcourse.trans hcourse',
      fun hok => congrArg (done ++ ·) (hall' hok)⟩

/-- A disk in memory makes a directory or stays as it is. -/
lemma prepares_makeDirectory (path : String) : Prepares (memoryHost.makeDirectory path) := by
  intro c
  show Course c.disk [] (Console.change (·.makeDirectory path) c).2.disk
  rw [Console.change]
  split
  · next d hd => exact .makeDirectory hd (.rest d)
  · exact .rest c.disk

lemma prepares_ensureDirectory (path : String) : Prepares (ensureDirectory memoryHost path) := by
  refine (prepares_makeDirectory path).bind fun result => ?_
  split
  · exact .pure _
  · refine Prepares.bind (fun c => .rest c.disk) fun found => ?_
    split <;> exact .pure _

lemma prepares_createWithin (n : Nat) (path : String) :
    Prepares (createWithin memoryHost n path) := by
  induction n generalizing path with
  | zero => exact .pure _
  | succ n ih =>
    rw [createWithin]
    split
    · exact .pure _
    · refine (prepares_ensureDirectory path).bind fun result => ?_
      split
      · split
        · exact .pure _
        · refine (ih _).bind fun made => ?_
          split
          · exact prepares_ensureDirectory path
          · exact .pure _
      · exact .pure _

lemma run_access (circumstances : String) (action : StateM Console (Except DiskError α))
    (c : Console) : (access circumstances action).run c =
      ((action c).1.mapError fun e => within circumstances e.message, (action c).2) := by
  rw [access, ExceptT.run_mk, bind_apply]
  cases (action c).1 <;> rfl

lemma writes_createDirectories (circumstances path : String) :
    Writes (access circumstances (createDirectories memoryHost path)) [] := by
  intro c
  rw [run_access]
  exact ⟨[], List.prefix_rfl, prepares_createWithin _ path c, fun _ => rfl⟩

lemma writes_write (circumstances path text : String) :
    Writes (access circumstances (memoryHost.write path text)) [(path, text)] := by
  intro c
  rw [run_access]
  show ∃ done, _ ∧ Course c.disk done (Console.change (·.write path text) c).2.disk ∧
    ((Console.change (·.write path text) c).1.mapError _ = _ → _)
  rw [Console.change]
  split
  · next d hd => exact ⟨_, List.prefix_rfl, .write hd (.rest d), fun _ => rfl⟩
  · exact ⟨[], List.nil_prefix, .rest c.disk, fun hok => by cases hok⟩

lemma writes_writeFile (path text : String) :
    Writes (writeFile memoryHost path text) [(path, text)] := by
  rw [writeFile]
  split
  · exact (writes_createDirectories _ _).bind (writes_write _ path text)
  · exact Writes.bind (f := fun _ => _) .pure (writes_write _ path text)

lemma writes_lift {x : StateM Console Unit} (h : ∀ c, (x c).2.disk = c.disk) :
    Writes (ExceptT.lift x) [] := by
  intro c
  rw [run_lift_apply, h]
  exact ⟨[], List.prefix_rfl, .rest c.disk, fun _ => rfl⟩

lemma writes_engine {result : Except Error α} {f : α → ExceptT String (StateM Console) Unit}
    {writes : List (String × String)} (h : ∀ a, result = .ok a → Writes (f a) writes) :
    Writes (engine result >>= f) writes := by
  intro c
  rw [run_bind_apply]
  cases result with
  | error e => exact ⟨[], List.nil_prefix, .rest c.disk, fun hok => by cases hok⟩
  | ok a => exact h a rfl c

lemma writes_printTree (path : String) (t : Tree) : Writes (printTree memoryHost path t) [] :=
  (writes_lift fun _ => rfl).bind (writes_engine fun _ _ => writes_lift fun _ => rfl)

/-! ### What is to be written -/

/-- The files that a report gives rise to, by the paths that they have in the report: the rewritten
document and the added files. -/
def outputs (r : FileReport) : List (String × String) :=
  match r.tree.map Tree.toDocument with
  | some (.ok d) => (r.path, d.text) :: r.files.map fun f => (f.path, f.content)
  | some (.error _) => []
  | none => []

/-- Files with the paths that they get below a directory. -/
def placed (directory : String) (files : List (String × String)) : List (String × String) :=
  files.map fun f => (outputPath directory f.1, f.2)

variable {o : Options} {directory : String}

lemma writes_addedFiles (directory : String) (files : List AddedFile) :
    Writes (files.forM fun f => writeFile memoryHost (outputPath directory f.path) f.content)
      (placed directory (files.map fun f => (f.path, f.content))) := by
  induction files with
  | nil => exact .pure
  | cons f files ih => exact (writes_writeFile _ f.content).bind ih

lemma writes_writeOutput {r : FileReport} {t : Tree} (htree : r.tree = some t) :
    Writes (writeOutput memoryHost directory r.path t r.files) (placed directory (outputs r)) := by
  refine writes_engine fun d hd => ?_
  have houtputs : placed directory (outputs r) = [(outputPath directory r.path, d.text)] ++
      placed directory (r.files.map fun f => (f.path, f.content)) := by
    rw [outputs, htree, Option.map_some, hd]
    rfl
  rw [houtputs]
  exact (writes_writeFile _ _).bind (writes_addedFiles directory r.files)

/-- A report is written as a whole, or up to the first failure. -/
lemma writes_emit (hdirectory : o.outputDir = some directory) (r : FileReport) :
    Writes (emit memoryHost o r) (placed directory (outputs r)) := by
  rw [emit]
  cases htree : r.tree with
  | none =>
    rw [outputs, htree]
    exact .pure
  | some t =>
    rw [hdirectory]
    show Writes (if o.print = true then _ else _) _
    split
    · exact (writes_printTree r.path t).bind (writes_writeOutput htree)
    · exact writes_writeOutput htree

/-- One report after the other is written, up to failures in between. -/
lemma emitAll_course (hdirectory : o.outputDir = some directory) (reports : List FileReport)
    (c : Console) :
    ∃ writes, writes.Sublist (reports.flatMap outputs) ∧
      Course c.disk (placed directory writes) (emitAll memoryHost o reports c).2.disk ∧
      ((emitAll memoryHost o reports c).1 = true → writes = reports.flatMap outputs) := by
  induction reports generalizing c with
  | nil => exact ⟨[], List.Sublist.refl _, .rest c.disk, fun _ => rfl⟩
  | cons r rest ih =>
    obtain ⟨done, hdone, hcourse, hall⟩ :=
      writes_emit hdirectory r (memoryHost.err (r.path ++ ": " ++ r.status.message ++ "\n") c).2
    rw [placed, List.prefix_iff_eq_take, ← List.map_take] at hdone
    rw [emitAll, bind_apply, bind_apply]
    generalize (emit memoryHost o r).run
      (memoryHost.err (r.path ++ ": " ++ r.status.message ++ "\n") c).2 = end₁ at hcourse hall ⊢
    obtain ⟨result, c'⟩ := end₁
    have hcourse₁ : Course c.disk done c'.disk := hcourse
    cases result with
    | ok _ =>
      obtain ⟨writes, hwrites, hcourse', hall'⟩ := ih c'
      refine ⟨outputs r ++ writes, hwrites.append_left _, ?_, fun hok => ?_⟩
      · rw [placed, List.map_append]
        rw [hall rfl] at hcourse₁
        exact hcourse₁.trans hcourse'
      · have hrest : (emitAll memoryHost o rest c').1 = true := (Bool.and_eq_true_iff.mp hok).1
        rw [hall' hrest, List.flatMap_cons]
    | error reason =>
      obtain ⟨writes, hwrites, hcourse', hall'⟩ :=
        ih (memoryHost.err (r.path ++ ": error: " ++ reason ++ "\n") c').2
      refine ⟨(outputs r).take done.length ++ writes,
        (List.take_sublist _ _).append hwrites, ?_, fun hok => ?_⟩
      · rw [placed, List.map_append, ← hdone]
        exact hcourse₁.trans hcourse'
      · cases (Bool.and_eq_true_iff.mp hok).2

/-! ### Whole runs -/

lemma Reads.bind {x : ExceptT String (StateM Console) α}
    {f : α → ExceptT String (StateM Console) β} (hx : Reads x.run) (hf : ∀ a, Reads (f a).run) :
    Reads (x >>= f).run := by
  intro c
  have hend := hx c
  rw [run_bind_apply]
  generalize x.run c = end₁ at hend ⊢
  obtain ⟨result, c'⟩ := end₁
  obtain rfl : c' = c := hend
  cases result with
  | ok a => exact hf a c'
  | error e => rfl

/-- What succeeds has a first step that does. -/
lemma Reads.ok_of_bind {x : ExceptT String (StateM Console) α}
    {f : α → ExceptT String (StateM Console) β} (hx : Reads x.run) {c : Console} {b : β}
    (hok : ((x >>= f).run c).1 = .ok b) :
    ∃ a, (x.run c).1 = .ok a ∧ ((f a).run c).1 = .ok b := by
  have hend := hx c
  rw [run_bind_apply] at hok
  generalize x.run c = end₁ at hend hok ⊢
  obtain ⟨result, c'⟩ := end₁
  obtain rfl : c' = c := hend
  cases result with
  | ok a => exact ⟨a, rfl, hok⟩
  | error e => cases hok

lemma reads_result (result : Except String α) :
    Reads (ExceptT.mk (pure result) : ExceptT String (StateM Console) α).run := fun _ => rfl

lemma ok_of_engine {result : Except Error α} {c : Console} {a : α}
    (hok : ((engine result : ExceptT String (StateM Console) α).run c).1 = .ok a) :
    result = .ok a := by
  cases result with
  | ok a' =>
    cases hok
    rfl
  | error e => cases hok

lemma reads_access (circumstances path : String) :
    Reads (access circumstances (memoryHost.read path)).run := by
  intro c
  rw [run_access]
  rfl

lemma reads_loadConfiguration (o : Options) : Reads (loadConfiguration memoryHost o).run := by
  have hcheck : ∀ base, Reads (ExceptT.run (do
      let c := override o base
      ExceptT.mk (pure (c.check.mapError configurationText))
      return c : ExceptT String (StateM Console) Configuration)) :=
    fun base => (reads_result _).bind fun _ => reads_result _
  rw [loadConfiguration]
  split
  · exact ((reads_access _ _).bind fun _ => reads_result _).bind hcheck
  · exact (reads_result (.ok {})).bind hcheck

lemma reads_loadOracle (classIndex : Option String) :
    Reads (loadOracle memoryHost classIndex).run := by
  cases classIndex with
  | none => exact reads_result (.ok _)
  | some path =>
    refine (reads_access _ _).bind fun text => ?_
    split
    · exact reads_result (.ok _)
    · exact reads_result (.error _)

lemma reads_prepare (o : Options) : Reads (prepare memoryHost o).run :=
  (reads_loadConfiguration o).bind fun _ => (reads_loadOracle _).bind fun _ =>
    (reads_result _).bind fun _ => (reads_result _).bind fun _ => reads_result _

lemma reads_tryLoad (path : String) : Reads (tryLoad memoryHost path) := by
  have hload : Reads (loadUnit memoryHost path).run := by
    refine (reads_access _ _).bind fun text => ?_
    split
    · exact reads_result _
    · exact (reads_result _).bind fun _ => reads_result _
  exact hload

lemma mapM_of_reads {f : α → StateM Console β} (hf : ∀ a, Reads (f a)) (as : List α) (c : Console) :
    as.mapM f c = (as.map fun a => (f a c).1, c) := by
  induction as with
  | nil => rfl
  | cons a as ih =>
    rw [List.mapM_cons, bind_apply, bind_apply, hf a c, ih]
    rfl

lemma collect_apply (inputs : List String) (p : Pipeline) (oracle : Oracle) (cancelled : Bool)
    (c : Console) : collect memoryHost inputs p oracle cancelled c =
      (inputs.map fun path => (tryLoad memoryHost path c).1.report p oracle cancelled, c) := by
  rw [collect_eq, map_apply, mapM_of_reads reads_tryLoad, List.map_map]
  rfl

/-- The reports of a run: none when it does not get to the inputs, or else one on each of them. -/
def reports (c : Console) (o : Options) : List FileReport :=
  match ((prepare memoryHost o).run c).1 with
  | .ok (p, oracle) =>
    o.inputs.map fun path => (tryLoad memoryHost path c).1.report p oracle false
  | .error _ => []

/-- The disk after a run. -/
def finalDisk (c : Console) (o : Options) : Disk := ((execute memoryHost o).run c).2.disk

/-- A run writes outputs of its reports in order: all of them, or some when it fails. -/
lemma execute_course (hdirectory : o.outputDir = some directory) (c : Console) :
    ∃ writes, writes.Sublist ((reports c o).flatMap outputs) ∧
      Course c.disk (placed directory writes) (finalDisk c o) ∧
      (((execute memoryHost o).run c).1 = .ok true →
        writes = (reports c o).flatMap outputs) := by
  have hread := reads_prepare o c
  rw [finalDisk, execute_eq, run_bind_apply, reports]
  generalize (prepare memoryHost o).run c = end₁ at hread ⊢
  obtain ⟨result, c'⟩ := end₁
  obtain rfl : c' = c := hread
  cases result with
  | error e => exact ⟨[], List.Sublist.refl _, .rest _, fun hok => by cases hok⟩
  | ok prepared =>
    obtain ⟨p, oracle⟩ := prepared
    dsimp only
    rw [run_lift_apply, bind_apply, collect_apply]
    obtain ⟨writes, hwrites, hcourse, hall⟩ := emitAll_course hdirectory
      (o.inputs.map fun path => (tryLoad memoryHost path c').1.report p oracle false) c'
    refine ⟨writes, hwrites, hcourse, fun hok => hall ?_⟩
    have hdone := Except.ok.inj hok
    exact (Bool.and_eq_true_iff.mp hdone).2

end CommandLine

end CodeMigration
