import CodeMigration.Proofs.Catalogue.AddedFiles
import CodeMigration.Proofs.CommandLine.Outputs

/-!
# Outputs below the output directory

Inputs and added files have paths that name files. Such a path is relative once it is kept, so its
output lies below the output directory unless the path climbs out of it: it does so exactly if the
names that it enters do not begin with those of the directories that it has left.
-/

namespace CodeMigration

namespace Path

/-- The location lies below the directory. -/
def Below (directory location : List String) : Prop :=
  ∃ rest, rest ≠ [] ∧ location = directory ++ rest

lemma Beside.fileName? {path path' : String} (h : Beside path path') :
    ∃ name, Path.fileName? path' = some name := by
  obtain ⟨_, cs, _, name', _, hsteps⟩ := h
  exact ⟨name', fileName?_eq_some_iff.mpr (by rw [hsteps, List.getLast?_concat])⟩

namespace Heading

/-- The directories that have been left have to be entered again. -/
lemma below_leadsTo_iff (h : Heading) (directory : List String) :
    Below directory (h.leadsTo directory) ↔
      Below (directory.drop (directory.length - h.up)) h.down := by
  have hsplit := List.take_append_drop (directory.length - h.up) directory
  constructor
  · rintro ⟨rest, hrest, heq⟩
    refine ⟨rest, hrest, ?_⟩
    rw [leadsTo] at heq
    nth_rewrite 3 [← hsplit] at heq
    rw [List.append_assoc] at heq
    exact List.append_cancel_left heq
  · rintro ⟨rest, hrest, heq⟩
    refine ⟨rest, hrest, ?_⟩
    rw [leadsTo, heq, ← List.append_assoc, hsplit]

end Heading

end Path

namespace Catalogue

variable {routes : List Route}

lemma mem_all_of_find {id : String} {r : Rule} (h : find routes id = .ok r) : r ∈ all routes := by
  rw [find] at h
  split at h
  · next hfind =>
    cases h
    exact List.mem_of_find?_eq_some hfind
  · cases h

/-- Only rules of the catalogue can be selected. -/
lemma mem_all_of_select {ids : List String} {rules : List Rule}
    (h : select routes ids = .ok rules) {r : Rule} (hr : r ∈ rules) : r ∈ all routes := by
  rw [select] at h
  split at h
  · cases h
    exact hr
  · next hsome =>
    clear hsome
    induction ids generalizing rules with
    | nil =>
      cases h
      cases hr
    | cons id ids ih =>
      rw [List.mapM_cons] at h
      obtain ⟨first, hfirst, h⟩ := Except.bind_eq_ok_iff.mp h
      obtain ⟨rest, hrest, h⟩ := Except.bind_eq_ok_iff.mp h
      cases h
      rcases List.mem_cons.mp hr with rfl | hr
      · exact mem_all_of_find hfirst
      · exact ih hr hrest

end Catalogue

/-- Arranged rules are the rules that were given. -/
lemma Rule.mem_of_arrange {rules order : List Rule} (h : arrange rules = .ok order) {r : Rule}
    (hr : r ∈ order) : r ∈ rules := by
  rw [arrange] at h
  split at h
  · cases h
    obtain ⟨i, _, hi⟩ := List.mem_filterMap.mp hr
    exact List.mem_of_getElem? hi
  · cases h

/-- A pipeline has no rules but those that were registered. -/
lemma Pipeline.mem_of_withRules {limits : Limits} {rules : List Rule} {p : Pipeline}
    (h : withRules limits rules = .ok p) {r : Rule} (hr : r ∈ p.rules) : r ∈ rules := by
  induction rules using List.reverseRecOn generalizing p with
  | nil =>
    cases h
    cases hr
  | append_singleton rules last ih =>
    rw [withRules_append] at h
    obtain ⟨p₀, hfirst, h⟩ := Except.bind_eq_ok_iff.mp h
    rw [addRule] at h
    split at h
    · cases h
    · obtain ⟨order, harrange, h⟩ := Except.bind_eq_ok_iff.mp h
      cases h
      rcases List.mem_append.mp (Rule.mem_of_arrange harrange hr) with hr | hr
      · exact List.mem_append_left _ (ih hfirst hr)
      · exact List.mem_append_right _ hr

namespace CommandLine

open CodeMigration.Path (Heading heading resolve)

variable {c : Console} {o : Options} {directory path : String} {p : Pipeline} {oracle : Oracle}

/-! ### Provenance -/

/-- The command line only runs rules of the catalogue. -/
lemma rules_of_prepare (h : ((prepare memoryHost o).run c).1 = .ok (p, oracle)) :
    ∃ routes, ∀ r ∈ p.rules, r ∈ Catalogue.all routes := by
  obtain ⟨config, _, h⟩ := (reads_loadConfiguration o).ok_of_bind h
  obtain ⟨oracle', _, h⟩ := (reads_loadOracle _).ok_of_bind h
  obtain ⟨rules, hselect, h⟩ := (reads_result _).ok_of_bind h
  obtain ⟨pipeline, hpipeline, h⟩ := (reads_result _).ok_of_bind h
  cases h
  refine ⟨config.routes, fun r hr => ?_⟩
  have hselect : config.selected = .ok rules := ok_of_engine hselect
  have hpipeline : Pipeline.withRules config.limits rules = .ok p := ok_of_engine hpipeline
  exact Catalogue.mem_all_of_select hselect (Pipeline.mem_of_withRules hpipeline hr)

/-- What could be loaded is the tree of a document. -/
lemma exists_document_of_tryLoad {t : Tree}
    (h : (tryLoad memoryHost path c).1.outcome = .ok t) : ∃ d, Tree.ofDocument d = .ok t := by
  have houtcome : ((loadUnit memoryHost path).run c).1.map SourceUnit.tree = .ok t := h
  cases hload : ((loadUnit memoryHost path).run c).1 with
  | error reason =>
    rw [hload] at houtcome
    cases houtcome
  | ok unit =>
    rw [hload] at houtcome
    cases houtcome
    obtain ⟨text, _, hload⟩ := (reads_access _ _).ok_of_bind hload
    split at hload
    · cases hload
    · obtain ⟨t, ht, hload⟩ := (reads_result _).ok_of_bind hload
      cases hload
      exact ⟨_, ok_of_engine ht⟩

/-- Added files come from a successful run on the tree of the input. -/
lemma Attempt.exists_run_of_mem_files {a : Attempt} {cancelled : Bool} {f : AddedFile}
    (hf : f ∈ (a.report p oracle cancelled).files) :
    ∃ t t' run, a.outcome = .ok t ∧ p.run oracle t = (t', .ok run) ∧ f ∈ run.files := by
  rw [report] at hf
  split at hf
  · next t hload =>
    rw [Batch.process] at hf
    split at hf
    · cases hf
    · split at hf
      · next t' run hrun => exact ⟨t, t', run, hload, hrun, hf⟩
      · cases hf
  · cases hf

/-- An output has the path of an input, or one beside the path of a tree that was loaded from an
input. -/
lemma path_of_mem_outputs {w : String × String} (hw : w ∈ (reports c o).flatMap outputs) :
    w.1 ∈ o.inputs ∨ ∃ input ∈ o.inputs, ∃ t source,
      (tryLoad memoryHost input c).1.outcome = .ok t ∧ t.origin.path = some source ∧
        Path.Beside source w.1 := by
  obtain ⟨r, hr, hw⟩ := List.mem_flatMap.mp hw
  rw [reports] at hr
  split at hr
  · next p oracle hprepare =>
    obtain ⟨routes, hrules⟩ := rules_of_prepare hprepare
    obtain ⟨input, hinput, rfl⟩ := List.mem_map.mp hr
    rw [outputs] at hw
    split at hw
    · rcases List.mem_cons.mp hw with rfl | hw
      · left
        rw [Attempt.path_report]
        exact hinput
      · right
        obtain ⟨f, hf, rfl⟩ := List.mem_map.mp hw
        obtain ⟨t, t', run, hload, hrun, hf⟩ := Attempt.exists_run_of_mem_files hf
        obtain ⟨d, hdoc⟩ := exists_document_of_tryLoad hload
        have htarget := Catalogue.TestFiles.path_of_mem_files hrules
          (Tree.Reachable.ofDocument hdoc).sound (Tree.whole_ofDocument hdoc) hrun hf
        obtain ⟨source, hsource, htarget⟩ := Option.bind_eq_some_iff.mp htarget
        exact ⟨input, hinput, t, source, hload, hsource,
          Catalogue.TestFiles.beside_targetPath? htarget⟩
    · cases hw
    · cases hw
  · cases hr

/-! ### Containment -/

/-- Every file that a run writes is a document, with the path of its input, or an added file beside
the path of a tree that was loaded. If the inputs name files, it goes below the output directory
unless its path is relative, leaves directories of the output directory and does not enter the same
ones again. -/
theorem written_below_iff (c : Console) (hdirectory : o.outputDir = some directory)
    (hinputs : ∀ path ∈ o.inputs, (Path.fileName? path).isSome) :
    ∃ writes : List (String × String),
      writes.Sublist ((reports c o).flatMap outputs) ∧
      c.disk.Course (placed directory writes) (finalDisk c o) ∧
      ∀ w ∈ writes,
        (w.1 ∈ o.inputs ∨ ∃ input ∈ o.inputs, ∃ t source,
          (tryLoad memoryHost input c).1.outcome = .ok t ∧ t.origin.path = some source ∧
            Path.Beside source w.1) ∧
        (Path.isAbsolute w.1 = true ∨ (heading w.1).up = 0 →
          Path.Below (base c directory) (destination c directory w.1)) ∧
        (Path.Below (base c directory) (destination c directory w.1) ↔
          Path.Below ((base c directory).drop
            ((base c directory).length - (heading (kept w.1)).up)) (heading (kept w.1)).down) := by
  obtain ⟨writes, hwrites, hcourse, _⟩ := execute_course hdirectory c
  refine ⟨writes, hwrites, hcourse, fun w hw => ?_⟩
  have hsource := path_of_mem_outputs (hwrites.subset hw)
  obtain ⟨name, hname⟩ : ∃ name, Path.fileName? w.1 = some name := by
    rcases hsource with hinput | ⟨_, _, _, _, _, _, hbeside⟩
    · exact Option.isSome_iff_exists.mp (hinputs _ hinput)
    · exact hbeside.fileName?
  refine ⟨hsource, fun hstays => ?_, ?_⟩
  · have hup : (heading (kept w.1)).up = 0 := by
      cases habsolute : Path.isAbsolute w.1 with
      | true => rw [(heading_kept_of_isAbsolute habsolute hname).2]
      | false =>
        rw [kept, if_neg (by simp [habsolute])]
        exact hstays.resolve_left (by simp [habsolute])
    obtain ⟨_, up, names, hheading⟩ := heading_kept hname
    rw [destination_eq_leadsTo hname, Heading.below_leadsTo_iff, hup, Nat.sub_zero,
      List.drop_length]
    exact ⟨_, by rw [hheading]; simp, rfl⟩
  · rw [destination_eq_leadsTo hname]
    exact Heading.below_leadsTo_iff _ _

/-- No path of these outputs climbs. -/
theorem written_below_iff_clash :
    ∃ writes : List (String × String),
      clashConsole.disk.Course (placed "out" writes) (finalDisk clashConsole clashOptions) ∧
      ∀ w ∈ writes, Path.Below (base clashConsole "out") (destination clashConsole "out" w.1) := by
  have hinputs : ∀ path ∈ clashOptions.inputs, (Path.fileName? path).isSome := by decide +kernel
  have hstays : ∀ w ∈ (reports clashConsole clashOptions).flatMap outputs,
      Path.isAbsolute w.1 = true ∨ (heading w.1).up = 0 := by decide +kernel
  have hdirectory : clashOptions.outputDir = some "out" := rfl
  obtain ⟨writes, hwrites, hcourse, hbelow⟩ :=
    written_below_iff clashConsole hdirectory hinputs
  exact ⟨writes, hcourse, fun w hw => (hbelow w hw).2.1 (hstays w (hwrites.subset hw))⟩

/-- One of the documents, by a path that leads out of the working directory and back. -/
def climbOptions : Options where
  inputs := ["../work/a.json"]
  outputDir := some "out"

/-- The document is not written below the output directory but beside it. -/
theorem climbing_path_leaves_directory :
    (∀ path ∈ climbOptions.inputs, (Path.fileName? path).isSome) ∧
      ¬ Path.Below (base clashConsole "out") (destination clashConsole "out" "../work/a.json") ∧
      ∃ text, ("../work/a.json", text) ∈ (reports clashConsole climbOptions).flatMap outputs ∧
        Disk.entry? (finalDisk clashConsole climbOptions)
          (destination clashConsole "out" "../work/a.json") = some (.file text) := by
  have hbase : base clashConsole "out" = ["work", "out"] := by decide +kernel
  have hplace : destination clashConsole "out" "../work/a.json" = ["work", "work", "a.json"] := by
    decide +kernel
  have hwritten : ∃ w ∈ (reports clashConsole climbOptions).flatMap outputs,
      w.1 = "../work/a.json" ∧ Disk.entry? (finalDisk clashConsole climbOptions)
        ["work", "work", "a.json"] = some (.file w.2) := by decide +kernel
  rw [hbase, hplace]
  refine ⟨by decide +kernel, ?_, ?_⟩
  · rintro ⟨rest, _, hrest⟩
    simp at hrest
  · obtain ⟨⟨path, text⟩, hmem, rfl, hfile⟩ := hwritten
    exact ⟨text, hmem, hfile⟩

end CommandLine

end CodeMigration
