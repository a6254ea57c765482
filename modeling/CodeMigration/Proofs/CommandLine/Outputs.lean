import CodeMigration.Proofs.CommandLine.Writing

/-!
# Where outputs go

Below the output directory a relative path is kept as a whole, and of an absolute path only the file
name. The location of an output is the place that this leads to from the directory, so that two
outputs clash exactly if what is kept of their paths leads to the same place.
-/

namespace CodeMigration

namespace CommandLine

open CodeMigration.Path (Heading heading resolve)

variable {c : Console} {o : Options} {directory path : String}

/-! ### Kept paths -/

/-- What counts of a path below the output directory. -/
def kept (path : String) : String :=
  if Path.isAbsolute path then (Path.fileName? path).getD path else path

/-- The location of the output directory. -/
def base (c : Console) (directory : String) : List String :=
  resolve c.disk.workingDirectory directory

/-- The location of an output. -/
def destination (c : Console) (directory path : String) : List String :=
  resolve c.disk.workingDirectory (outputPath directory path)

lemma outputPath_eq (directory path : String) :
    outputPath directory path = Path.join directory (kept path) := by
  rw [outputPath, kept]
  split <;> rfl

/-- An output goes where its kept path leads to from the output directory. -/
lemma destination_eq (c : Console) (directory path : String) :
    destination c directory path = resolve (base c directory) (kept path) := by
  rw [destination, outputPath_eq]
  cases habsolute : Path.isAbsolute (kept path) with
  | true =>
    rw [Path.join, if_pos habsolute]
    exact Path.resolve_of_isAbsolute habsolute _ _
  | false => exact Path.resolve_join habsolute

/-- Of an absolute path the file name is kept. -/
lemma heading_kept_of_isAbsolute {name : String} (habsolute : Path.isAbsolute path = true)
    (hname : Path.fileName? path = some name) :
    Path.isAbsolute (kept path) = false ∧ heading (kept path) = ⟨0, [name]⟩ := by
  have hplain : Path.Plain name :=
    Path.plain_of_mem_steps (List.mem_of_getLast? (Path.fileName?_eq_some_iff.mp hname))
  rw [kept, if_pos habsolute, hname, Option.getD_some, Path.heading, hplain.steps_eq]
  exact ⟨hplain.not_isAbsolute, rfl⟩

/-- Where a path names a file, the kept path is relative and ends in this name. -/
lemma heading_kept {name : String} (hname : Path.fileName? path = some name) :
    Path.isAbsolute (kept path) = false ∧
      ∃ up names, heading (kept path) = ⟨up, names ++ [name]⟩ := by
  cases habsolute : Path.isAbsolute path with
  | true =>
    obtain ⟨hrelative, hheading⟩ := heading_kept_of_isAbsolute habsolute hname
    exact ⟨hrelative, 0, [], hheading⟩
  | false =>
    rw [kept, if_neg (by simp [habsolute])]
    obtain ⟨cs, hsteps⟩ := List.getLast?_eq_some_iff.mp (Path.fileName?_eq_some_iff.mp hname)
    exact ⟨habsolute, _, _, Path.heading_of_steps hsteps⟩

/-- The location of an output whose path names a file. -/
lemma destination_eq_leadsTo {name : String} (hname : Path.fileName? path = some name)
    (c : Console) (directory : String) :
    destination c directory path = (heading (kept path)).leadsTo (base c directory) := by
  rw [destination_eq, Path.resolve_of_relative (heading_kept hname).1]

/-! ### Clashes -/

/-- Outputs that leave equally many directories share a location if they enter the same names. -/
lemma destination_eq_iff {path' name name' : String} (hname : Path.fileName? path = some name)
    (hname' : Path.fileName? path' = some name')
    (hup : (heading (kept path)).up = (heading (kept path')).up) :
    destination c directory path = destination c directory path' ↔
      (heading (kept path)).down = (heading (kept path')).down := by
  rw [destination_eq_leadsTo hname, destination_eq_leadsTo hname', Heading.leadsTo,
    Heading.leadsTo, hup]
  exact List.append_right_inj _

/-- What a run writes are the documents and added files of its reports, in order and all of them if
it succeeds. A file that it has written is there at the end, unless a later output has the same
location. Two outputs have the same location exactly if what is kept of their paths leads to the
same place from the output directory; where they leave equally many directories, exactly if they
enter the same names. -/
theorem written_until_same_place (c : Console) (hdirectory : o.outputDir = some directory) :
    ∃ writes : List (String × String),
      writes.Sublist ((reports c o).flatMap outputs) ∧
      (((execute memoryHost o).run c).1 = .ok true →
        writes = (reports c o).flatMap outputs) ∧
      c.disk.Course (placed directory writes) (finalDisk c o) ∧
      (∀ before w after, writes = before ++ w :: after →
        (∀ v ∈ after, destination c directory v.1 ≠ destination c directory w.1) →
        Disk.entry? (finalDisk c o) (destination c directory w.1) = some (.file w.2)) ∧
      ((((reports c o).flatMap outputs).map fun w => destination c directory w.1).Nodup →
        ∀ w ∈ writes,
          Disk.entry? (finalDisk c o) (destination c directory w.1) = some (.file w.2)) ∧
      (∀ path path', destination c directory path = destination c directory path' ↔
        resolve (base c directory) (kept path) = resolve (base c directory) (kept path')) ∧
      ∀ path path' name name', Path.fileName? path = some name →
        Path.fileName? path' = some name' →
        (heading (kept path)).up = (heading (kept path')).up →
        (destination c directory path = destination c directory path' ↔
          (heading (kept path)).down = (heading (kept path')).down) := by
  obtain ⟨writes, hwrites, hcourse, hall⟩ := execute_course hdirectory c
  have hlast : ∀ before w after, writes = before ++ w :: after →
      (∀ v ∈ after, destination c directory v.1 ≠
        destination c directory w.1) →
      Disk.entry? (finalDisk c o) (destination c directory w.1) = some (.file w.2) := by
    intro before w after hsplit hafter
    refine hcourse.entry?_of_write (placed directory before) (outputPath directory w.1, w.2)
      (placed directory after) ?_ ?_
    · rw [hsplit, placed, List.map_append, List.map_cons]
      rfl
    · intro v hv
      obtain ⟨v', hv', rfl⟩ := List.mem_map.mp hv
      exact hafter v' hv'
  refine ⟨writes, hwrites, hall, hcourse, hlast, ?_, ?_, ?_⟩
  · intro hnodup w hw
    obtain ⟨before, after, hsplit⟩ := List.append_of_mem hw
    refine hlast before w after hsplit fun v hv heq => ?_
    have hapart := hnodup.sublist (hwrites.map _)
    rw [hsplit, List.map_append, List.nodup_append] at hapart
    have hhead := hapart.2.1
    rw [List.map_cons, List.nodup_cons] at hhead
    exact hhead.1 (List.mem_map.mpr ⟨v, hv, heq⟩)
  · intro path path'
    rw [destination_eq, destination_eq]
  · intro path path' name name' hname hname' hup
    exact destination_eq_iff hname hname' hup

/-- The text of a document without program text, but with a path and a source. -/
def testDocument (path source : String) : String :=
  "\x7b\"path\":\"" ++ path ++ "\",\"source\":\"" ++ source ++
    "\",\"root\":\x7b\"syntax\":\x7b\"kind\":\"File\"\x7d\x7d\x7d"

/-- Two documents whose absolute paths end in the same name. -/
def clashConsole : Console where
  disk :=
    { workingDirectory := ["work"]
      entries := [(["work"], .directory),
        (["work", "a.json"], .file (testDocument "/p/x.phpt" "A")),
        (["work", "b.json"], .file (testDocument "/q/x.phpt" "B"))] }

/-- Both documents are inputs. -/
def clashOptions : Options where
  inputs := ["a.json", "b.json"]
  outputDir := some "out"

/-- The last output is there at the end. -/
theorem written_until_same_place_clash :
    Disk.entry? (finalDisk clashConsole clashOptions) ["work", "out", "xTest.php"] =
      some (.file "B") := by
  have hdirectory : clashOptions.outputDir = some "out" := rfl
  obtain ⟨writes, _, hall, _, hlast, _⟩ := written_until_same_place clashConsole hdirectory
  have hrun : ((execute memoryHost clashOptions).run clashConsole).1.toOption = some true := by
    decide +kernel
  cases hok : ((execute memoryHost clashOptions).run clashConsole).1 with
  | error reason =>
    rw [hok] at hrun
    cases hrun
  | ok written =>
    rw [hok] at hrun
    cases hrun
    have hend : ((reports clashConsole clashOptions).flatMap outputs).getLast? =
        some ("/q/xTest.php", "B") := by decide +kernel
    obtain ⟨before, hbefore⟩ := List.getLast?_eq_some_iff.mp hend
    have hplace : destination clashConsole "out" "/q/xTest.php" = ["work", "out", "xTest.php"] := by
      decide +kernel
    rw [← hplace]
    exact hlast before ("/q/xTest.php", "B") [] ((hall hok).trans hbefore) (by simp)

/-- The inputs are distinct, and yet the two added files share a location, so that the first of them
is lost. -/
theorem distinct_inputs_same_place :
    clashOptions.inputs.Nodup ∧
      ¬ (((reports clashConsole clashOptions).flatMap outputs).map
        fun w => destination clashConsole "out" w.1).Nodup ∧
      ("/p/xTest.php", "A") ∈ (reports clashConsole clashOptions).flatMap outputs ∧
      Disk.entry? (finalDisk clashConsole clashOptions)
        (destination clashConsole "out" "/p/xTest.php") = some (.file "B") := by
  decide +kernel

end CommandLine

end CodeMigration
