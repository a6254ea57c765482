import CodeMigration.Proofs.Catalogue.Commands
import CodeMigration.Proofs.Catalogue.Discards
import CodeMigration.Proofs.Pipeline.Chronicle

/-!
# Nothing else is lost

The migrations discard what `Discards` lists and no more, over a whole run.
-/

namespace CodeMigration

namespace Catalogue

variable {p : Pipeline} {routes : List Route} {t t' : Tree}

/-- The balance of a run of migrations on the tree of a document. -/
lemma balance_of_run {oracle : Oracle} {d : Document} {report : RunReport}
    (hrules : ∀ r ∈ p.rules, r ∈ all routes) (hdoc : Tree.ofDocument d = .ok t)
    (hrun : p.run oracle t = (t', .ok report)) :
    ∃ apps w', p.Chronicle oracle 0 { tree := t } report.stats apps w' ∧ w'.tree = t' ∧
      t.Balance (fun m => ∃ a ∈ apps, a.before.tree.isAttached m = true ∧
        a.after.tree.isLive m = false ∧
          Discards oracle a.before.tree.checkpoint a.node m a.rule) t' := by
  obtain ⟨apps, w', hchronicle, rfl⟩ := Pipeline.exists_chronicle_of_run hrun
  have haccounts : ∀ r ∈ p.rules,
      r.Accounts (fun oracle t n m => Discards oracle t n m r) ∧ r.ActsByCommands :=
    fun r hr => ⟨accounts_of_mem_all (hrules r hr), actsByCommands_of_mem_all (hrules r hr)⟩
  have hbalance := hchronicle.balance haccounts (Tree.Reachable.ofDocument hdoc).sound
    (Tree.whole_ofDocument hdoc)
  exact ⟨apps, w', hchronicle, rfl, hbalance⟩

/-- A run of migrations that succeeds leaves no node detached, and a node of the document that is
not attached any more was discarded by one of its applications: it was attached when the rule was
applied, is dead afterwards, and lay in a part of the tree that the rule discards there. -/
theorem run_accounts_for_nodes (oracle : Oracle) (routes : List Route) (p : Pipeline)
    (hrules : ∀ r ∈ p.rules, r ∈ all routes) {d : Document} {t t' : Tree} {report : RunReport}
    (hdoc : Tree.ofDocument d = .ok t) (hrun : p.run oracle t = (t', .ok report)) :
    (∀ m, t'.isLive m = true → t'.isAttached m = true) ∧
      ∃ apps w', p.Chronicle oracle 0 { tree := t } report.stats apps w' ∧ w'.tree = t' ∧
        ∀ m < t.size, t'.isAttached m = false →
          ∃ a ∈ apps, a.before.tree.isAttached m = true ∧ a.after.tree.isLive m = false ∧
            Discards oracle a.before.tree.checkpoint a.node m a.rule := by
  obtain ⟨apps, w', hchronicle, htree, hbalance⟩ := balance_of_run hrules hdoc hrun
  have hattached := hbalance.whole.isAttached hbalance.sound.linked
  refine ⟨fun m hm => (hattached m).trans hm, apps, w', hchronicle, htree, fun m hm hout => ?_⟩
  have hlinked := (Tree.Reachable.ofDocument hdoc).sound.linked
  have hlive : t.isLive m = true := by
    refine hlinked.isLive_of_attached ?_
    rwa [← hlinked.mem_nodes_iff, Tree.nodes_ofDocument hdoc, List.mem_range]
  rw [hattached] at hout
  exact hbalance.lost m hlive hout

/-- The tree of a document before and after a run, if the run succeeds. -/
def treesOfRun? (p : Pipeline) (oracle : Oracle) (d : Document) : Option (Tree × Tree) :=
  match Tree.ofDocument d with
  | .ok t =>
    match p.run oracle t with
    | (t', .ok _) => some (t, t')
    | _ => none
  | .error _ => none

lemma exists_run_of_treesOfRun? {oracle : Oracle} {d : Document}
    (h : treesOfRun? p oracle d = some (t, t')) :
    ∃ report, Tree.ofDocument d = .ok t ∧ p.run oracle t = (t', .ok report) := by
  rw [treesOfRun?] at h
  split at h
  · next t₁ hdoc =>
    split at h
    · next t₂ report hrun =>
      cases h
      exact ⟨report, hdoc, hrun⟩
    · cases h
  · cases h

/-- A control that assigns a template variable and shows a file. -/
def shownControl : Document where
  root := .plain .file [
    .plain (.classDecl "PollControl" (some Controls.control) []) [
      .plain (.method "render") [
        .plain .expression [
          .plain .assignment [
            .plain (.propertyFetch "question") [
              .plain (.propertyFetch "template") [.plain (.variableRef "this") []]],
            .plain (.variableRef "q") []]],
        .plain .expression [
          .plain (.methodCall "render") [
            .plain (.propertyFetch "template") [.plain (.variableRef "this") []],
            .plain (.string "poll.latte") []]]]]]

/-- The migration of controls alone, with a depth of visits that suffices for small trees. -/
def controlsOnly : Pipeline where
  limits := { depth := 16 }
  rules := [Controls.rule]

/-- Both statements of the control are gone, the value and the file are still there. -/
theorem run_accounts_for_nodes_control :
    (∀ r ∈ controlsOnly.rules, r ∈ all []) ∧
    ∃ t t' report, Tree.ofDocument shownControl = .ok t ∧
      controlsOnly.run .unknown t = (t', .ok report) ∧
      (List.range t.size).filter (!t'.isAttached ·) = [3, 4, 5, 6, 7, 9, 10, 11, 12] ∧
      ∃ apps w', controlsOnly.Chronicle .unknown 0 { tree := t } report.stats apps w' ∧
        ∃ a ∈ apps, a.before.tree.isAttached 3 = true ∧ a.after.tree.isLive 3 = false ∧
          Discards .unknown a.before.tree.checkpoint a.node 3 a.rule := by
  have hrules : ∀ r ∈ controlsOnly.rules, r ∈ all [] := by simp [controlsOnly, all]
  have hcount : (treesOfRun? controlsOnly .unknown shownControl).map
      (fun trees => (List.range trees.1.size).filter (!trees.2.isAttached ·)) =
        some [3, 4, 5, 6, 7, 9, 10, 11, 12] := by decide +kernel
  obtain ⟨⟨t, t'⟩, htrees, hgone⟩ := Option.map_eq_some_iff.mp hcount
  obtain ⟨report, hdoc, hrun⟩ := exists_run_of_treesOfRun? htrees
  dsimp only at hgone
  have hmem : 3 ∈ (List.range t.size).filter (!t'.isAttached ·) := by
    rw [hgone]
    decide
  rw [List.mem_filter, List.mem_range, Bool.not_eq_true'] at hmem
  obtain ⟨_, apps, w', hchronicle, _, hlost⟩ :=
    run_accounts_for_nodes .unknown [] controlsOnly hrules hdoc hrun
  exact ⟨hrules, t, t', report, hdoc, hrun, hgone, apps, w', hchronicle, hlost 3 hmem.1 hmem.2⟩

end Catalogue

end CodeMigration
