import CodeMigration.Proofs.Catalogue.Idle

/-!
# Runs that have converged

A run of migrations that ends with a quiet pass has reached a fixed point: once decorations find no
further types, another run is a single pass that changes nothing and asks for no file.
-/

namespace CodeMigration

namespace Pipeline

variable {p : Pipeline} {oracle : Oracle} {w w' : Workspace}

lemma run_eq_ok {t t' : Tree} {report : RunReport} (hrun : p.run oracle t = (t', .ok report)) :
    ∃ outcome stats w', p.passesFrom oracle p.limits.maxPasses [] { tree := t } =
        .ok (outcome, stats) w' ∧ t' = w'.tree ∧
      report = ⟨outcome, stats, distinctFiles [] w'.files⟩ := by
  rw [run] at hrun
  split at hrun
  · next outcome stats w' hok =>
    cases hrun
    exact ⟨outcome, stats, w', hok, rfl, rfl⟩
  · cases hrun

/-- A run that converged ended with a quiet pass over a sound tree. -/
lemma exists_last_pass (hrules : ∀ r ∈ p.rules, r.ActsByCommands) {left : Nat}
    {done stats : List PassStats} (hw : w.tree.Sound)
    (hok : p.passesFrom oracle left done w = .ok (.converged, stats) w') :
    ∃ w₀ pass s, w₀.tree.Sound ∧ p.onePass oracle pass w₀ = .ok s w' ∧ s.mutations = 0 := by
  induction left generalizing done w with
  | zero => cases hok
  | succ left ih =>
    rw [passesFrom] at hok
    obtain ⟨s, w₁, hpass, hok⟩ := EStateM.bind_eq_ok_iff.mp hok
    split at hok
    · have hsound := hw.edited (w.tree.edited_decorate oracle)
      exact ih (Pass.sound_run hrules hsound (onePass_eq_ok_iff.mp hpass).1) hok
    · next hsame =>
      cases hok
      exact ⟨w, _, s, hw, hpass, by simpa [PassStats.changed] using hsame⟩

/-- A run whose first pass is quiet changes nothing. -/
lemma mutations_of_quiet {t t' : Tree} {report : RunReport}
    (hrun : p.run oracle t = (t', .ok report))
    (hquiet : ∀ s w', p.onePass oracle 1 { tree := t } = .ok s w' → s.mutations = 0) :
    report.mutations = 0 := by
  obtain ⟨outcome, stats, w', hok, rfl, rfl⟩ := run_eq_ok hrun
  cases hleft : p.limits.maxPasses with
  | zero =>
    rw [hleft] at hok
    cases hok
    rfl
  | succ left =>
    rw [hleft, passesFrom] at hok
    obtain ⟨s, w₁, hpass, hok⟩ := EStateM.bind_eq_ok_iff.mp hok
    have hnone := hquiet s w₁ hpass
    rw [if_neg (by simp [PassStats.changed, hnone])] at hok
    cases hok
    simp [RunReport.mutations, hnone]

/-- A run whose first pass is quiet ends with it. -/
lemma run_of_quiet {t : Tree} {s : PassStats} (hpasses : p.limits.maxPasses ≠ 0)
    (hpass : p.onePass oracle 1 { tree := t } = .ok s w') (hquiet : s.mutations = 0) :
    p.run oracle t = (w'.tree, .ok ⟨.converged, [s], distinctFiles [] w'.files⟩) := by
  obtain ⟨left, hleft⟩ := Nat.exists_eq_succ_of_ne_zero hpasses
  have hok : p.passesFrom oracle p.limits.maxPasses [] { tree := t } =
      .ok (.converged, [s]) w' := by
    rw [hleft, passesFrom, EStateM.bind_eq_ok_iff]
    refine ⟨s, w', hpass, ?_⟩
    rw [if_neg (by simp [PassStats.changed, hquiet])]
    rfl
  rw [run, hok]

end Pipeline

namespace Catalogue

variable {oracle : Oracle} {routes : List Route} {t : Tree}

/-- A tree that was decorated before a quiet pass is near to itself decorated once more, if no
further types are found. -/
lemma near_decorate {t₀ : Tree} (ht₀ : t₀.Sound) (ht : t.Sound)
    (hnear : Near (t₀.decorate oracle).1 t)
    (htyped : (t.decorate oracle).2.typed = 0) : Near t (t.decorate oracle).1 := by
  have hother : ∀ n {key}, ¬ Decoration.records key →
      (t.decorate oracle).1.attribute? n key = t.attribute? n key :=
    fun n {key} hkey => Tree.attribute?_decorate oracle ht n hkey
  have hflag : ∀ n key, ¬ Decoration.records key →
      (t.decorate oracle).1.attributes.flag n key = t.attributes.flag n key :=
    fun n key hkey => Tree.flag_decorate oracle ht n hkey
  refine ⟨⟨rfl, rfl⟩, rfl, Tree.resolvedType_decorate ht htyped, fun n => ?_, fun n _ => ?_,
    fun n key hkey h => (hflag n key hkey).trans h, fun n h => Or.inl ?_, fun n => ?_⟩
  · exact Tree.attribute?_decorate_again ht₀ ht hnear.alike (by decide) (hnear.classes n)
  · exact hflag n _ (by simp [Decoration.records])
  · rwa [hflag n _ (by simp [Decoration.records])] at h
  · rw [Tree.extras, hother n (by simp [Decoration.records]),
      hother n (by simp [Decoration.records]), Tree.extras]

/-- After a quiet pass another one over the same tree is quiet and asks for no file, if no further
types are found. -/
lemma exists_quiet_pass {p : Pipeline} (hsub : p.rules ⊆ all routes) (hsteady : oracle.Steady)
    {w w₁ : Workspace} (hw : w.tree.Sound) {pass : Nat} {stats : PassStats}
    (hpass : p.onePass oracle pass w = .ok stats w₁) (hquiet : stats.mutations = 0)
    (htyped : (w₁.tree.decorate oracle).2.typed = 0) (pass' : Nat) :
    ∃ stats' w₂, p.onePass oracle pass' ⟨w₁.tree, []⟩ = .ok stats' w₂ ∧ stats'.mutations = 0 ∧
      w₂.files = [] ∧ w₂.tree.toDocument = w₁.tree.toDocument := by
  obtain ⟨hrun, _⟩ := Pipeline.onePass_eq_ok_iff.mp hpass
  have hu : (w.tree.decorate oracle).1.Sound := hw.edited (w.tree.edited_decorate oracle)
  obtain ⟨hidle, hnear, hsound, hanswered⟩ := idle_of_quiet hu hsub hsteady hrun hquiet
  have hnear' := near_decorate hw hsound hnear htyped
  have hsound' := hsound.edited (w₁.tree.edited_decorate oracle)
  have halike := (hnear.trans hnear').alike
  have hkeeps : Pass.KeepsUp (p.setting oracle pass) (p.setting oracle pass') _ _ _ _ :=
    keepsUp_idle hu hsub hsteady [] rfl rfl rfl hsteady (hidle.near hsteady (hnear.trans hnear'))
      (hanswered.near hnear')
  have hstart : Beside (w.tree.decorate oracle).1 (w₁.tree.decorate oracle).1 []
      ⟨(w.tree.decorate oracle).1, w.files⟩ ⟨(w₁.tree.decorate oracle).1, []⟩ :=
    ⟨.refl _, hu, .refl _, hsound', rfl⟩
  obtain ⟨stats', w₂, hrun', _, hmutations, _, _, hend⟩ := hkeeps.run hrun
    (quiet_trace hrun hquiet) (Tree.Reaches.refl _) halike hstart
  refine ⟨stats', w₂, Pipeline.onePass_eq_ok_iff.mpr ⟨hrun', hend.sound'.linked.validate_eq_ok⟩,
    hmutations.trans hquiet, hend.files, ?_⟩
  have hdone := hnear'.trans hend.near'
  exact Tree.toDocument_alike hsound.linked hend.sound'.linked hdone.alike hdone.origin hdone.extras

/-- A converged run has reached a fixed point: as soon as a decoration finds no new type in the
resulting tree, another run takes one pass, which changes nothing and asks for no file, and the
document of the tree stays the same. -/
theorem converged_is_fixpoint
    (horacle : oracle = .unknown ∨ ∃ index, oracle = .ofIndex index) (routes : List Route)
    {ids : List String} (hids : ids ⊆ (all routes).map (·.id)) (hnodup : ids.Nodup)
    (limits : Limits) :
    ∃ rules p, select routes ids = .ok rules ∧ Pipeline.withRules limits rules = .ok p ∧
      ∀ {t t₂ : Tree} {report : RunReport}, t.Reachable → p.run oracle t = (t₂, .ok report) →
        report.outcome = .converged → (t₂.decorate oracle).2.typed = 0 →
        ∃ t₃ stats, p.run oracle t₂ = (t₃, .ok ⟨.converged, [stats], []⟩) ∧
          stats.mutations = 0 ∧ t₃.toDocument = t₂.toDocument := by
  have hsteady : oracle.Steady := by
    rcases horacle with rfl | ⟨index, rfl⟩
    · exact Oracle.steady_unknown
    · exact Oracle.steady_ofIndex index
  obtain ⟨rules, hselect, hsub, hdistinct⟩ := exists_select hids hnodup
  refine ⟨rules, { limits, rules }, hselect,
    Pipeline.withRules_of_free (fun r hr => after_of_mem_all (hsub hr)) hdistinct, ?_⟩
  intro t t₂ report ht hrun hconverged htyped
  obtain ⟨outcome, stats, w₂, hpasses, rfl, rfl⟩ := Pipeline.run_eq_ok hrun
  obtain rfl : outcome = .converged := hconverged
  obtain ⟨w, pass, s, hw, hpass, hquiet⟩ := Pipeline.exists_last_pass
    (fun r hr => actsByCommands_of_mem_all (hsub hr)) ht.sound hpasses
  obtain ⟨s', w₃, hpass', hquiet', hfiles, hdocument⟩ :=
    exists_quiet_pass hsub hsteady hw hpass hquiet htyped 1
  have hsome : limits.maxPasses ≠ 0 := by
    intro hzero
    rw [hzero] at hpasses
    cases hpasses
  refine ⟨w₃.tree, s', ?_, hquiet', hdocument⟩
  rw [Pipeline.run_of_quiet hsome hpass' hquiet', hfiles]
  rfl

/-- An index that knows the class of the sample. -/
def sampleOracle : Oracle := .ofIndex ⟨[("Sample", { parents := ["Tester\\TestCase"] })]⟩

theorem converged_is_fixpoint_sample :
    ∃ rules p t t₂ t₃ report stats, select [sampleRoute] [] = .ok rules ∧
      Pipeline.withRules ⟨3, 1, 20⟩ rules = .ok p ∧ Tree.ofDocument sampleDocument = .ok t ∧
      p.run sampleOracle t = (t₂, .ok report) ∧ report.mutations = 4 ∧
      p.run sampleOracle t₂ = (t₃, .ok ⟨.converged, [stats], []⟩) ∧ stats.mutations = 0 ∧
      t₃.toDocument = t₂.toDocument := by
  have horacle : sampleOracle = .unknown ∨ ∃ index, sampleOracle = .ofIndex index :=
    Or.inr ⟨_, rfl⟩
  obtain ⟨rules, p, hselect, hp, hfix⟩ :=
    converged_is_fixpoint horacle [sampleRoute] (List.nil_subset _) List.nodup_nil ⟨3, 1, 20⟩
  have hrun : (match Tree.ofDocument sampleDocument,
      (select [sampleRoute] []).bind (Pipeline.withRules ⟨3, 1, 20⟩) with
      | .ok t, .ok p =>
        match p.run sampleOracle t with
        | (t₂, .ok report) => report.outcome == .converged && report.mutations == 4 &&
          (t₂.decorate sampleOracle).2.typed == 0
        | _ => false
      | _, _ => false) = true := by decide +kernel
  rw [hselect, Except.bind, hp] at hrun
  split at hrun
  · next t p' hdoc hp' =>
    cases hp'
    split at hrun
    · next t₂ report hok =>
      simp only [Bool.and_eq_true, beq_iff_eq] at hrun
      obtain ⟨⟨hconverged, hmutations⟩, htyped⟩ := hrun
      obtain ⟨t₃, stats, hagain⟩ := hfix (Tree.Reachable.ofDocument hdoc) hok hconverged htyped
      exact ⟨rules, p, t, t₂, t₃, report, stats, hselect, hp, hdoc, hok, hmutations, hagain⟩
    · cases hrun
  · cases hrun

end Catalogue

end CodeMigration
