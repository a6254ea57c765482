import CodeMigration.Proofs.Catalogue.Acts
import CodeMigration.Proofs.Document.Numbering
import CodeMigration.Proofs.Pipeline

/-!
# Runs of the migrations

Every selection of migrations runs through on the tree of every document.
-/

namespace CodeMigration

namespace Catalogue

variable {oracle : Oracle} {routes : List Route} {ids : List String} {r : Rule}

/-! ### Selections -/

lemma after_of_mem_all (hr : r ∈ all routes) : r.after = [] := by
  revert r
  simp [all, Forms.rule, Assertions.rule, TestCases.rule, RequestParameters.rule, Controls.rule,
    TestFiles.rule, Routes.rule]

lemma nodup_ids (routes : List Route) : ((all routes).map (·.id)).Nodup := by
  show ([Forms.rule.id, Assertions.rule.id, TestCases.rule.id, RequestParameters.rule.id,
    Controls.rule.id, TestFiles.rule.id, "explicit_route_annotation"] : List String).Nodup
  decide

lemma exists_find {id : String} (hid : id ∈ (all routes).map (·.id)) :
    ∃ r ∈ all routes, find routes id = .ok r ∧ r.id = id := by
  obtain ⟨r, hr, hrid⟩ := List.mem_map.mp hid
  obtain ⟨q, hq⟩ : ∃ q, (all routes).find? (·.id == id) = some q := by
    rw [← Option.isSome_iff_exists, List.find?_isSome]
    exact ⟨r, hr, beq_iff_eq.mpr hrid⟩
  have hqid : (q.id == id) = true := List.find?_some (p := fun r : Rule => r.id == id) hq
  refine ⟨q, List.mem_of_find?_eq_some hq, ?_, beq_iff_eq.mp hqid⟩
  rw [find, hq]

lemma exists_mapM_find (hids : ids ⊆ (all routes).map (·.id)) :
    ∃ rules, ids.mapM (find routes) = .ok rules ∧ rules ⊆ all routes ∧ rules.map (·.id) = ids := by
  induction ids with
  | nil => exact ⟨[], rfl, by simp, rfl⟩
  | cons id ids ih =>
    obtain ⟨hid, hrest⟩ := List.cons_subset.mp hids
    obtain ⟨r, hr, hfind, rfl⟩ := exists_find hid
    obtain ⟨rules, hok, hsub, rfl⟩ := ih hrest
    refine ⟨r :: rules, ?_, List.cons_subset.mpr ⟨hr, hsub⟩, rfl⟩
    rw [List.mapM_cons, hfind, hok]
    rfl

/-- Distinct identifiers select distinct migrations. -/
lemma exists_select (hids : ids ⊆ (all routes).map (·.id)) (hnodup : ids.Nodup) :
    ∃ rules, select routes ids = .ok rules ∧ rules ⊆ all routes ∧ (rules.map (·.id)).Nodup := by
  cases hempty : ids.isEmpty with
  | true =>
    refine ⟨all routes, ?_, List.Subset.refl _, nodup_ids routes⟩
    rw [select, if_pos hempty]
  | false =>
    obtain ⟨rules, hok, hsub, rfl⟩ := exists_mapM_find hids
    refine ⟨rules, ?_, hsub, hnodup⟩
    rw [select, if_neg (by simp [hempty]), hok]

/-! ### Runs -/

lemma tame_of_mem_all (hcontroller : oracle.isSubtype Controls.controller Controls.control = false)
    (hcase : oracle.isSubtype TestCases.phpUnitCase Controls.control = false)
    (hr : r ∈ all routes) : r.Tame (gauge oracle) oracle := by
  simp only [all, List.mem_cons, List.not_mem_nil, or_false] at hr
  rcases hr with rfl | rfl | rfl | rfl | rfl | rfl | rfl
  · exact Forms.tame
  · exact Assertions.tame
  · exact TestCases.tame hcase
  · exact RequestParameters.tame
  · exact Controls.tame hcontroller
  · exact TestFiles.tame
  · exact Routes.tame routes

/-- A limit of replacements that does not wrap around is not zero. -/
lemma replacementLimit_pos {σ : PassSetting} (hrules : 0 < σ.rules.length)
    (hfits : σ.rules.length * (σ.revisitBound.toNat + 1) < UInt32.size) :
    1 ≤ Pass.replacementLimit σ := by
  have hallowance : Pass.allowance σ = σ.rules.length * (σ.revisitBound.toNat + 1) := by
    rw [Pass.allowance, Nat.max_eq_right hrules]
  rw [UInt32.le_iff_toNat_le, Pass.toNat_replacementLimit (hallowance ▸ hfits), hallowance]
  exact Nat.mul_pos hrules (Nat.succ_pos _)

/-- A test case that reads a request parameter, checks it and is run at the end of the file. -/
def sampleDocument : Document where
  path := some "tests/Sample.phpt"
  root := .plain .file [
    .plain (.classDecl "Sample" (some "Tester\\TestCase") []) [
      .plain (.method "testPage") [
        .plain .expression [
          .plain (.staticCall "Tester\\Assert" "same") [
            .plain (.int 1) [],
            .plain (.methodCall "getParameter") [
              .plain (.variableRef "request") [], .plain (.string "page") []]]]]],
    .plain .expression [
      .plain (.methodCall "run") [.plain (.instantiation "Sample") []]]]

/-- The route to its method. -/
def sampleRoute : Route where
  className := "Sample"
  method := "testPage"
  path := "/page"
  httpMethods := ["get"]

/-- A presenter that makes a form. -/
def formDocument : Document where
  root := .plain .file [
    .plain (.classDecl "Page" none [Forms.presenter]) [
      .plain (.method "show") [
        .plain .expression [.plain (.instantiation Forms.form) []]]]]

/-- The error that a run over a document ends with, if it does. -/
def errorOfRun? (p : Pipeline) (oracle : Oracle) (d : Document) : Option Error :=
  match Tree.ofDocument d with
  | .ok t =>
    match p.run oracle t with
    | (_, .error (.error e)) => some e
    | _ => none
  | .error _ => none

lemma exists_run_of_errorOfRun? {p : Pipeline} {oracle : Oracle} {d : Document} {e : Error}
    (h : errorOfRun? p oracle d = some e) :
    ∃ t t', Tree.ofDocument d = .ok t ∧ p.run oracle t = (t', .error (.error e)) := by
  rw [errorOfRun?] at h
  split at h
  · next t hdoc =>
    split at h
    · next t' e' hrun =>
      cases h
      exact ⟨t, t', hdoc, hrun⟩
    · cases h
  · cases h

end Catalogue

end CodeMigration
