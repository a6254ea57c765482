import CodeMigration.Batch
import CodeMigration.Proofs.Pipeline

/-!
# Files that are reported as unchanged
-/

namespace CodeMigration

lemma Batch.process_unchanged {p : Pipeline} {oracle : Oracle} {cancelled : Bool}
    {unit : SourceUnit} (hstatus : (process p oracle cancelled unit).status = .unchanged) :
    ∃ outcome stats w', p.passesFrom oracle p.limits.maxPasses [] { tree := unit.tree } =
        .ok (outcome, stats) w' ∧ (stats.map (·.mutations)).sum = 0 ∧
      (process p oracle cancelled unit).tree = some w'.tree := by
  rw [process] at hstatus ⊢
  split at hstatus
  · cases hstatus
  · next hgo =>
    rw [if_neg hgo]
    rw [Pipeline.run] at hstatus ⊢
    cases hpasses : p.passesFrom oracle p.limits.maxPasses [] { tree := unit.tree } with
    | ok result w' =>
      obtain ⟨outcome, stats⟩ := result
      refine ⟨outcome, stats, w', rfl, ?_, rfl⟩
      simp only [hpasses, FileReport.ofRun] at hstatus
      split at hstatus
      · cases hstatus
      · next hsame =>
        rw [Bool.not_eq_true, RunReport.changed, Bool.or_eq_false_iff,
          RunReport.mutations_eq_sum] at hsame
        exact Nat.eq_zero_of_not_pos (of_decide_eq_false hsame.1)
    | error e w' =>
      simp only [hpasses, FileReport.failed] at hstatus
      cases hstatus

/-- A pass without changes has entered every attached node once, has taken it to every rule that
accepts it and has left the slots alone; so a file that is reported as unchanged still has the
document it came with, provided that the rules do not touch positions and formatting data. -/
theorem quiet_pass_keeps_tree :
    (∀ (σ : PassSetting) (w w' : Workspace) (stats : PassStats), w.tree.Reachable →
      (∀ r ∈ σ.rules, r.ActsByCommands) → Pass.run σ w = .ok stats w' → stats.mutations = 0 →
      stats = .ofLog (Pass.trace σ w) ∧
      stats.visited = {n | w.tree.Reaches w.tree.root n}.ncard ∧
      (∀ n, w.tree.Reaches w.tree.root n →
        (Pass.trace σ w).filterMap (Event.offerOf? n) = Pass.due σ w.tree n) ∧
      (∀ n, ¬ w.tree.Reaches w.tree.root n →
        (Pass.trace σ w).filterMap (Event.offerOf? n) = []) ∧
      w'.tree.root = w.tree.root ∧ w'.tree.revision = w.tree.revision ∧
      ∀ n < w.tree.size, w'.tree.slot? n = w.tree.slot? n) ∧
    ∀ (p : Pipeline) (oracle : Oracle) (cancelled : Bool) (unit : SourceUnit),
      unit.tree.Reachable → (∀ r ∈ p.rules, r.ActsByCommands ∧ r.KeepsExtras) →
      (Batch.process p oracle cancelled unit).status = .unchanged →
      ∃ t, (Batch.process p oracle cancelled unit).tree = some t ∧
        t.toDocument = unit.tree.toDocument := by
  refine ⟨?_, ?_⟩
  · intro σ w w' stats ht hrules hrun hquiet
    obtain ⟨⟨s, hs, hcalm⟩, hstats, htour⟩ := Pass.run_quiet hrules ht.sound hrun hquiet
    have hkept : w.tree.Kept w'.tree := hs ▸ hcalm.kept
    refine ⟨hstats, ?_, htour.inside, htour.outside, hkept.root, hkept.revision, hkept.slot⟩
    rw [hstats, htour.visited_eq]
  · intro p oracle cancelled unit ht hrules hstatus
    obtain ⟨outcome, stats, w', hpasses, hsum, htree⟩ := Batch.process_unchanged hstatus
    refine ⟨w'.tree, htree, ?_⟩
    rcases Pipeline.passesFrom_quiet hpasses hsum with rfl | ⟨stats, hpass, hquiet⟩
    · rfl
    · obtain ⟨hrun, _⟩ := Pipeline.onePass_eq_ok_iff.mp hpass
      have hsound := ht.sound.edited (unit.tree.edited_decorate oracle)
      obtain ⟨⟨s, hs, hcalm⟩, _⟩ :=
        Pass.run_quiet (fun r hr => (hrules r hr).1) hsound hrun hquiet
      rw [← hs]
      refine Tree.toDocument_kept ht.sound.linked hcalm.sound.linked ?_ fun n hn => ?_
      · exact (unit.tree.kept_decorate oracle).trans hcalm.kept
      · rw [hcalm.extras (fun r hr => (hrules r hr).2) n hn, Tree.extras, Tree.extras,
          Tree.attribute?_decorate _ ht.sound _ (by simp [Decoration.records]),
          Tree.attribute?_decorate _ ht.sound _ (by simp [Decoration.records])]

/-- A rule that allocates a node and then gives up. -/
def sampleRule : Rule where
  id := "sample"
  kinds := [.null]
  apply _ _ n := do
    let _ ← Action.add .null
    Action.refuse (.invalidMutation n .notFree)

lemma sampleRule_actsByCommands : sampleRule.ActsByCommands := fun _ _ _ w => w.tree.edited_add _

lemma sampleRule_keepsExtras : sampleRule.KeepsExtras := fun _ _ _ _ _ _ _ => rfl

/-- A pipeline of this rule only. -/
def samplePipeline : Pipeline where
  limits := { depth := 5 }
  rules := [sampleRule]

theorem quiet_pass_keeps_tree_sample :
    (∃ stats w', Pass.run (samplePipeline.setting .unknown 1) ⟨Tree.sampleTree, []⟩ =
      .ok stats w' ∧ stats.recovered = 3 ∧ w'.tree.revision = Tree.sampleTree.revision) ∧
    ∃ t, (Batch.process samplePipeline .unknown false ⟨"a.php", Tree.sampleTree⟩).tree = some t ∧
      t.toDocument = Tree.sampleTree.toDocument := by
  have hrules : ∀ r ∈ samplePipeline.rules, r.ActsByCommands ∧ r.KeepsExtras := by
    intro r hr
    rw [List.mem_singleton.mp hr]
    exact ⟨sampleRule_actsByCommands, sampleRule_keepsExtras⟩
  refine ⟨?_, ?_⟩
  · obtain ⟨stats, w', hok, hrun⟩ := EStateM.exists_eq_ok
      (x := Pass.run (samplePipeline.setting .unknown 1) ⟨Tree.sampleTree, []⟩)
      (P := fun stats _ => stats.mutations == 0 && stats.recovered == 3) (by decide +kernel)
    rw [Bool.and_eq_true, beq_iff_eq, beq_iff_eq] at hrun
    have hkept := quiet_pass_keeps_tree.1 _ _ w' stats Tree.reachable_sampleTree
      (fun r hr => (hrules r hr).1) hok hrun.1
    exact ⟨stats, w', hok, hrun.2, hkept.2.2.2.2.2.1⟩
  · exact quiet_pass_keeps_tree.2 samplePipeline .unknown false _ Tree.reachable_sampleTree hrules
      (by decide +kernel)

end CodeMigration
