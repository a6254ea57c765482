import CodeMigration.Pipeline
import CodeMigration.Proofs.Decoration
import CodeMigration.Proofs.Pass.Quiet
import CodeMigration.Proofs.Pass.Tame
import CodeMigration.Proofs.Rule.Order

/-!
# Runs of a pipeline

A run without changes is at most one pass, and a quiet one. A run with tame rules succeeds, whatever
the number of passes, as soon as the depth of visits suffices.
-/

namespace CodeMigration

lemma RunReport.mutations_eq_sum (r : RunReport) :
    r.mutations = (r.stats.map (·.mutations)).sum := by
  rw [mutations, List.sum_eq_foldr, List.foldr_map]

namespace Pipeline

variable {p : Pipeline} {oracle : Oracle} {w w' : Workspace}

/-! ### Passes -/

/-- The setting of a pass of the pipeline. -/
def setting (p : Pipeline) (oracle : Oracle) (pass : Nat) : PassSetting where
  rules := p.rules
  oracle := oracle
  pass := pass
  revisitBound := p.limits.revisitBound
  depth := p.limits.depth

lemma onePass_eq_ok_iff {pass : Nat} {stats : PassStats} :
    p.onePass oracle pass w = .ok stats w' ↔
      Pass.run (p.setting oracle pass) { w with tree := (w.tree.decorate oracle).1 } =
        .ok stats w' ∧ w'.tree.validate = .ok () := by
  rw [onePass, EStateM.bind_eq_ok_iff]
  constructor
  · rintro ⟨_, w₁, hupdate, h⟩
    cases hupdate
    obtain ⟨stats₁, w₂, hrun, h⟩ := EStateM.bind_eq_ok_iff.mp h
    obtain ⟨t, w₃, htree, h⟩ := EStateM.bind_eq_ok_iff.mp h
    cases htree
    cases hvalid : w₂.tree.validate with
    | ok _ =>
      simp only [hvalid] at h
      cases h
      exact ⟨hrun, hvalid⟩
    | error e =>
      simp only [hvalid] at h
      cases h
  · rintro ⟨hrun, hvalid⟩
    refine ⟨(), _, rfl, EStateM.bind_eq_ok_iff.mpr ⟨stats, w', hrun, ?_⟩⟩
    refine EStateM.bind_eq_ok_iff.mpr ⟨w'.tree, w', rfl, ?_⟩
    simp only [hvalid]
    rfl

/-- The changes of the earlier passes are among those that are reported. -/
lemma sum_le_of_passesFrom {left : Nat} {done stats : List PassStats} {outcome : RunOutcome}
    (hok : p.passesFrom oracle left done w = .ok (outcome, stats) w') :
    (done.map (·.mutations)).sum ≤ (stats.map (·.mutations)).sum := by
  induction left generalizing done w with
  | zero =>
    cases hok
    simp
  | succ left ih =>
    rw [passesFrom] at hok
    obtain ⟨pass, w₁, _, hok⟩ := EStateM.bind_eq_ok_iff.mp hok
    split at hok
    · have hle := ih hok
      rw [List.map_cons, List.sum_cons] at hle
      exact Nat.le_trans (Nat.le_add_left _ _) hle
    · cases hok
      simp [List.sum_reverse]

/-- A run without changes is no pass at all or a single quiet one. -/
lemma passesFrom_quiet {left : Nat} {stats : List PassStats} {outcome : RunOutcome}
    (hok : p.passesFrom oracle left [] w = .ok (outcome, stats) w')
    (hquiet : (stats.map (·.mutations)).sum = 0) :
    w' = w ∨ ∃ s, p.onePass oracle 1 w = .ok s w' ∧ s.mutations = 0 := by
  cases left with
  | zero =>
    cases hok
    exact Or.inl rfl
  | succ left =>
    rw [passesFrom] at hok
    obtain ⟨s, w₁, hpass, hok⟩ := EStateM.bind_eq_ok_iff.mp hok
    split at hok
    · next hchanged =>
      have hle := sum_le_of_passesFrom hok
      rw [hquiet] at hle
      simp [PassStats.changed] at hchanged hle
      omega
    · next hsame =>
      cases hok
      exact Or.inr ⟨s, hpass, by simpa [PassStats.changed] using hsame⟩

/-! ### Runs with tame rules -/

/-- The pipeline with another depth of visits. -/
def withDepth (p : Pipeline) (d : Nat) : Pipeline :=
  { p with limits := { p.limits with depth := d } }

section tame

variable {g : Gauge} (hrules : ∀ r ∈ p.rules, r.Tame g oracle)
  (hroom : ∀ pass, ∀ r ∈ p.rules, r.Replaces oracle →
    1 ≤ Pass.replacementLimit (p.setting oracle pass))
  (hbound : 1 ≤ p.limits.revisitBound)
include hrules hroom hbound

lemma onePass_tame (h : w.tree.Sound) (pass : Nat) :
    ∃ stats w', (∃ N, ∀ d ≥ N, (p.withDepth d).onePass oracle pass w = .ok stats w') ∧
      stats.recovered = 0 ∧ w'.tree.Sound := by
  have hsound : (w.tree.decorate oracle).1.Sound := h.edited (w.tree.edited_decorate oracle)
  obtain ⟨stats, w', ⟨N, hrun⟩, hclean, hsound'⟩ :=
    Pass.run_tame (σ := p.setting oracle pass) hrules (hroom pass) hbound
      (w := { w with tree := (w.tree.decorate oracle).1 }) hsound
  refine ⟨stats, w', ⟨N, fun d hd => ?_⟩, hclean, hsound'⟩
  exact onePass_eq_ok_iff.mpr ⟨hrun d hd, hsound'.linked.validate_eq_ok⟩

lemma passesFrom_tame (left : Nat) (done : List PassStats) (h : w.tree.Sound)
    (hdone : ∀ s ∈ done, s.recovered = 0) :
    ∃ outcome stats w', (∃ N, ∀ d ≥ N,
        (p.withDepth d).passesFrom oracle left done w = .ok (outcome, stats) w') ∧
      (∀ s ∈ stats, s.recovered = 0) ∧ w'.tree.Sound := by
  induction left generalizing done w with
  | zero =>
    refine ⟨.boundExceeded, done.reverse, w, ⟨0, fun _ _ => rfl⟩, fun s hs => ?_, h⟩
    exact hdone s (List.mem_reverse.mp hs)
  | succ left ih =>
    obtain ⟨s, w₁, ⟨N₁, hpass⟩, hclean, hsound⟩ :=
      onePass_tame hrules hroom hbound h (done.length + 1)
    have hdone' : ∀ q ∈ s :: done, q.recovered = 0 := by
      intro q hq
      rcases List.mem_cons.mp hq with rfl | hq
      · exact hclean
      · exact hdone q hq
    cases hchanged : s.changed with
    | true =>
      obtain ⟨outcome, stats, w', ⟨N₂, hrest⟩, hspec⟩ := ih (s :: done) hsound hdone'
      refine ⟨outcome, stats, w', ⟨max N₁ N₂, fun d hd => ?_⟩, hspec⟩
      rw [passesFrom, EStateM.bind_eq_ok_iff]
      refine ⟨s, w₁, hpass d (Nat.le_trans (Nat.le_max_left _ _) hd), ?_⟩
      rw [if_pos hchanged]
      exact hrest d (Nat.le_trans (Nat.le_max_right _ _) hd)
    | false =>
      refine ⟨.converged, (s :: done).reverse, w₁, ⟨N₁, fun d hd => ?_⟩, fun q hq => ?_, hsound⟩
      · rw [passesFrom, EStateM.bind_eq_ok_iff]
        refine ⟨s, w₁, hpass d hd, ?_⟩
        rw [if_neg (by simp [hchanged])]
        rfl
      · exact hdone' q (List.mem_reverse.mp hq)

/-- A run with tame rules ends without an error in a tree that passes the check. -/
lemma run_tame {t : Tree} (h : t.Sound) :
    ∃ t' report, (∃ N, ∀ d ≥ N, (p.withDepth d).run oracle t = (t', .ok report)) ∧
      (∀ s ∈ report.stats, s.recovered = 0) ∧ t'.validate = .ok () := by
  obtain ⟨outcome, stats, w', ⟨N, hpasses⟩, hclean, hsound⟩ :=
    passesFrom_tame hrules hroom hbound p.limits.maxPasses [] (w := { tree := t }) h (by simp)
  refine ⟨w'.tree, ⟨outcome, stats, distinctFiles [] w'.files⟩, ⟨N, fun d hd => ?_⟩, hclean,
    hsound.linked.validate_eq_ok⟩
  have hrun : (p.withDepth d).passesFrom oracle (p.withDepth d).limits.maxPasses []
      { tree := t } = .ok (outcome, stats) w' := hpasses d hd
  rw [run, hrun]

end tame

end Pipeline

end CodeMigration
