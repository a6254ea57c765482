import CodeMigration.Proofs.Catalogue.Requests
import CodeMigration.Proofs.Path

/-!
# Paths of added files

Whatever rules of the catalogue a run has, the files it adds are named after the path of the tree.
Such a file is to stand beside the one with this path, under another name.
-/

namespace CodeMigration

namespace Path

/-- Two paths lead to files in one directory, as far as the paths tell. -/
def Beside (path path' : String) : Prop :=
  isAbsolute path' = isAbsolute path ∧ ∃ cs name name',
    steps path = cs ++ [.name name] ∧ steps path' = cs ++ [.name name']

/-- The part of a file name up to its last dot is a part of the name. -/
lemma mem_of_mem_splitName {name : String} {c : Char} (h : c ∈ (splitName name).1.toList) :
    c ∈ name.toList := by
  rw [splitName] at h
  have hsub := (List.dropWhile_sublist (l := name.toList.reverse) (· != '.')).subset
  split at h
  · next stem hstem =>
    split at h
    · exact h
    · rw [String.toList_ofList, List.mem_reverse] at h
      exact List.mem_reverse.mp (hsub (hstem ▸ List.mem_cons_of_mem _ h))
  · exact h

end Path

/-- Removing duplicates adds nothing. -/
lemma Pipeline.mem_of_mem_distinctFiles {done files : List AddedFile} {f : AddedFile}
    (h : f ∈ distinctFiles done files) : f ∈ done ∨ f ∈ files := by
  induction files generalizing done with
  | nil => exact Or.inl (List.mem_reverse.mp h)
  | cons g rest ih =>
    rw [distinctFiles] at h
    split at h
    · exact (ih h).imp_right (List.mem_cons_of_mem g)
    · rcases ih h with hdone | hrest
      · rcases List.mem_cons.mp hdone with rfl | hdone
        · exact Or.inr List.mem_cons_self
        · exact Or.inl hdone
      · exact Or.inr (List.mem_cons_of_mem g hrest)

namespace Catalogue.TestFiles

open CodeMigration.Tree
open CodeMigration.Pass (Application Story)

variable {t t' : Tree} {oracle : Oracle} {routes : List Route} {path target : String}

/-- The name of the file for a stem is a file name as it stands. -/
lemma plain_fileName {stem : String} (hfree : '/' ∉ stem.toList) :
    Path.Plain (fileName stem) := by
  obtain ⟨ending, hname, hending, hlong⟩ : ∃ ending, fileName stem = stem ++ ending ∧
      '/' ∉ ending.toList ∧ 2 < ending.toList.length := by
    rw [fileName]
    split
    · exact ⟨_, rfl, by decide, by decide⟩
    · exact ⟨_, rfl, by decide, by decide⟩
  have hchars : (fileName stem).toList = stem.toList ++ ending.toList := by
    rw [hname, String.toList_append]
  have hne : ∀ text : String, text.toList.length ≤ 2 → fileName stem ≠ text := by
    rintro text hshort rfl
    rw [hchars, List.length_append] at hshort
    omega
  refine ⟨?_, ?_⟩
  · rw [Path.component?, if_neg (not_or.mpr ⟨hne "" (by decide), hne "." (by decide)⟩),
      if_neg (hne ".." (by decide))]
  · rw [hchars, List.mem_append, not_or]
    exact ⟨hfree, hending⟩

/-- The file for a tester file stands beside it. -/
lemma beside_targetPath? (h : targetPath? path = some target) : Path.Beside path target := by
  rw [targetPath?] at h
  split at h
  · rw [Path.stem?] at h
    obtain ⟨stem, hstem, rfl⟩ := Option.map_eq_some_iff.mp h
    obtain ⟨name, hname, rfl⟩ := Option.map_eq_some_iff.mp hstem
    obtain ⟨cs, hsteps⟩ := List.getLast?_eq_some_iff.mp (Path.fileName?_eq_some_iff.mp hname)
    have hplain : Path.Plain name := Path.plain_of_mem_steps (by rw [hsteps]; simp)
    have hfree : '/' ∉ (Path.splitName name).1.toList := fun hin =>
      hplain.free (Path.mem_of_mem_splitName hin)
    obtain ⟨htarget, habsolute⟩ := Path.withFileName_eq (plain_fileName hfree) hsteps
    exact ⟨habsolute, cs, _, _, hsteps, htarget⟩
  · cases h

/-! ### Runs -/

/-- Only what the path of the tree calls for has been asked for. -/
structure Sourced (source? : Option String) (w : Workspace) : Prop where
  sound : w.tree.Sound
  whole : w.tree.Whole
  origin : w.tree.origin.path = source?
  files : ∀ f ∈ w.files, source?.bind targetPath? = some f.path

variable {source? : Option String}

lemma path_of_mem_pending {f : AddedFile} (h : f ∈ pending t) :
    t.origin.path.bind targetPath? = some f.path := by
  rw [pending] at h
  split at h
  · cases h
  · split at h
    · next path text hpath _ =>
      rw [List.mem_singleton.mp h]
      exact hpath
    · cases h

section applications

variable {σ : PassSetting} (hrules : ∀ r ∈ σ.rules, r ∈ all routes) {a : Application}
  {s s' : PassState}
include hrules

lemma Sourced.happens (ha : a.Happens σ) (h : Sourced source? a.before.toWorkspace) :
    Sourced source? a.after.toWorkspace := by
  have hr := hrules _ ha.mem
  have hbalance :=
    ha.balance (accounts_of_mem_all hr) (actsByCommands_of_mem_all hr) h.sound h.whole
  have horigin := ha.origin (actsByCommands_of_mem_all hr) h.sound
  refine ⟨hbalance.sound, hbalance.whole, ?_, ?_⟩
  · rw [horigin, h.origin]
  · obtain ⟨new, hnew, hpending⟩ := files_after_happens hrules ha h.sound
    intro f hf
    rw [hnew] at hf
    rcases List.mem_append.mp hf with hf | hf
    · exact h.files f hf
    · rw [← h.origin]
      exact path_of_mem_pending (hpending f hf)

lemma Sourced.story {apps : List Application} (hstory : Story σ s apps s')
    (h : Sourced source? s.toWorkspace) : Sourced source? s'.toWorkspace := by
  induction hstory with
  | rest hidles =>
    rw [hidles.1]
    exact h
  | step hidles ha _ ih =>
    rw [← hidles.1] at h
    exact ih (h.happens hrules ha)

end applications

section runs

variable {p : Pipeline} (hrules : ∀ r ∈ p.rules, r ∈ all routes)
include hrules

lemma Sourced.chronicle {k : Nat} {w w' : Workspace} {stats : List PassStats}
    {apps : List Application} (hchronicle : p.Chronicle oracle k w stats apps w')
    (h : Sourced source? w) : Sourced source? w' := by
  induction hchronicle with
  | done k w => exact h
  | @pass k w w₁ w' stats rest apps later s _ hstory hend _ _ ih =>
    have hdecorated : Sourced source? { w with tree := (w.tree.decorate oracle).1 } :=
      ⟨h.sound.edited (w.tree.edited_decorate oracle), h.whole, h.origin, h.files⟩
    have hpass := hdecorated.story (σ := p.setting oracle (k + 1)) hrules hstory
    rw [hend] at hpass
    exact ih hpass

/-- The files that a run of rules of the catalogue adds are named after the path of the tree. -/
lemma path_of_mem_files (hsound : t.Sound) (hwhole : t.Whole) {report : RunReport}
    (hrun : p.run oracle t = (t', .ok report)) {f : AddedFile} (hf : f ∈ report.files) :
    t.origin.path.bind targetPath? = some f.path := by
  rw [Pipeline.run] at hrun
  split at hrun
  · next outcome stats w' hpasses =>
    cases hrun
    obtain ⟨new, apps, _, hchronicle⟩ := Pipeline.exists_chronicle_of_passesFrom hpasses
    have hstart : Sourced t.origin.path { tree := t } := ⟨hsound, hwhole, rfl, by simp⟩
    refine (hstart.chronicle hrules hchronicle).files f ?_
    exact (Pipeline.mem_of_mem_distinctFiles hf).resolve_left List.not_mem_nil
  · cases hrun

end runs

end Catalogue.TestFiles

end CodeMigration
