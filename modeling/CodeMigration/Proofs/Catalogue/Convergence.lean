import CodeMigration.Proofs.Catalogue.Fixpoint
import CodeMigration.Proofs.Catalogue.Settled
import CodeMigration.Proofs.Document.Numbering
import CodeMigration.Proofs.Document.Counterparts

/-!
# Convergence without types

Without types one pass does all the work of the migrations, and the document it leaves is done with:
a tree with the same outline but without any marks is left alone as well.
-/

namespace CodeMigration

namespace Catalogue

open Pass (accepts)

variable {routes : List Route} {rules : List Rule} {p : Pipeline} {t t' : Tree} {a b n : NodeId}

/-! ### Trees with the same outline -/

section matching

variable (hm : t.Matching t')
include hm

lemma mirrors_of_matching : Mirrors (t.Counterpart t') t t' where
  construct? h := Or.inl (h.construct? hm)
  environment h := by rw [callsEnvironment, h.construct? hm, callsEnvironment]
  row h _ := h.children hm
  body h _ := ⟨[], _, rfl, by simp, h.children hm⟩

lemma stands_of_counterpart (h : t.Counterpart t' a b) : Stands (t.Counterpart t') t a t' b where
  construct? := h.construct? hm
  row _ _ := h.children hm
  top := Tree.Counterpart.any_eq (h.parent? hm) fun _ _ h => by rw [h.hasKind hm, h.hasKind hm]
  owner _ := Tree.Counterpart.bind_eq (h.enclosing? hm .classDecl) fun _ _ h => h.qualifiedClass? hm

/-- Without marks there are no more test cases than with marks. -/
lemma testCases_of_matching (hflag : ∀ n, t'.attributes.flag n .processed = false) :
    TestCases.testCases .unknown t' ⊆ TestCases.testCases .unknown t := by
  intro full hfull
  rw [TestCases.testCases, List.mem_filterMap] at hfull ⊢
  obtain ⟨b, hb, hname⟩ := hfull
  obtain ⟨hb, hcase⟩ := List.mem_filter.mp hb
  obtain ⟨a, h⟩ := Tree.Counterpart.exists_left hm (hm.linked'.mem_nodes_iff.mp hb)
  refine ⟨a, List.mem_filter.mpr ⟨hm.linked.mem_nodes_iff.mpr (h.attached hm).1, ?_⟩, ?_⟩
  · rw [TestCases.isTestCase, h.construct? hm] at hcase
    rw [TestCases.isTestCase]
    split at hcase
    · next hc =>
      rw [hflag, Bool.false_or] at hcase
      rw [Bool.or_assoc, hcase, Bool.or_true]
    · cases hcase
  · rw [← h.qualifiedClass? hm, hname]

/-- A tree with the same outline as an idle one is idle. -/
lemma idle_of_matching (hl : Lawful t) (hl' : Lawful t')
    (hcases : TestCases.testCases .unknown t' ⊆ TestCases.testCases .unknown t)
    (hidle : Idle routes .unknown rules t) : Idle routes .unknown rules t' := by
  intro m hmem hr b hb hacc
  obtain ⟨a, h⟩ := Tree.Counterpart.exists_left hm hb
  have ha := (h.attached hm).1
  have hkind : t'.kind? b = t.kind? a := by rw [Tree.kind?, h.construct? hm, Tree.kind?]
  rw [accepts, hkind] at hacc
  refine acts_of_stands (mirrors_of_matching hm) (stands_of_counterpart hm h) hmem hcases hacc ?_
    ?_ ?_ (hidle m hmem hr a ha hacc)
  · exact hl.routed a ha
  · exact hl.enclosingClass? ha
  · intro hk
    exact hl'.enclosingClass? hb (hkind.trans hk)

end matching

/-! ### Decorations -/

lemma Lawful.decorate (h : Lawful t) (ht : t.Sound) (oracle : Oracle) :
    Lawful (t.decorate oracle).1 where
  routed n hn hk hflag := by
    rw [Tree.flag_decorate _ ht _ (by simp [Decoration.records])] at hflag
    exact h.routed n hn hk hflag
  classes n hn hk := by
    have halike : t.Alike (t.decorate oracle).1 := ⟨rfl, rfl⟩
    rw [halike.enclosing?, Tree.enclosingClass_decorate oracle ht n]
    split
    · exact Or.inr rfl
    · exact h.classes n hn hk
  migrated n name parent interfaces hn hc hflag := by
    rw [Tree.flag_decorate _ ht _ (by simp [Decoration.records])] at hflag
    exact h.migrated n name parent interfaces hn hc hflag

lemma outline_decorate (oracle : Oracle) (ht : t.Sound) :
    (t.decorate oracle).1.outline t.root = t.outline t.root := by
  have halike : t.Alike (t.decorate oracle).1 := ⟨rfl, rfl⟩
  refine Tree.outline_alike halike (fun n => ?_) t.root
  rw [Tree.extras, Tree.attribute?_decorate _ ht _ (by simp [Decoration.records]),
    Tree.attribute?_decorate _ ht _ (by simp [Decoration.records]), Tree.extras]

/-- A decoration leaves an idle tree idle. -/
lemma Idle.decorate (h : Idle routes .unknown rules t) (ht : t.Sound) (hl : Lawful t) :
    Idle routes .unknown rules (t.decorate .unknown).1 := by
  have hm : t.Matching (t.decorate .unknown).1 :=
    ⟨ht.linked, (ht.edited (t.edited_decorate .unknown)).linked, outline_decorate .unknown ht⟩
  refine idle_of_matching hm hl (hl.decorate ht .unknown) ?_ h
  have halike : t.Alike (t.decorate .unknown).1 := ⟨rfl, rfl⟩
  have hflag : ∀ n, t.kind? n = some .classDecl →
      (t.decorate .unknown).1.attributes.flag n .processed = t.attributes.flag n .processed :=
    fun n _ => Tree.flag_decorate _ ht _ (by simp [Decoration.records])
  rw [TestCases.testCases_alike halike hflag]
  exact List.Subset.refl _

/-- The tree of a document carries no flags. -/
lemma flag_of_plain (h : t.Plain) (n : NodeId) {key : AttributeKey} (hspan : key ≠ .span)
    (hlayout : key ≠ .layout) : t.attributes.flag n key = false := by
  have hnone := h.keys n key hspan hlayout
  rw [Tree.attribute?] at hnone
  simp [Attributes.flag, hnone]

/-- A tree without marks is lawful. -/
lemma lawful_of_plain (h : t.Plain) : Lawful t := by
  refine ⟨fun n _ _ hflag => ?_, fun n _ _ => ?_, fun n _ _ _ _ _ hflag => ?_⟩
  · rw [flag_of_plain h n (by decide) (by decide)] at hflag
    cases hflag
  · exact Or.inl (h.keys n _ (by decide) (by decide))
  · rw [flag_of_plain h n (by decide) (by decide)] at hflag
    cases hflag

/-! ### Passes -/

section passes

variable (hsub : p.rules ⊆ all routes) {w w' : Workspace}
include hsub

/-- One pass settles a lawful tree. -/
lemma onePass_settles {pass : Nat} {stats : PassStats} (hw : w.tree.Reachable)
    (hl : Lawful w.tree) (hpass : p.onePass .unknown pass w = .ok stats w') :
    w'.tree.Reachable ∧ Lawful w'.tree ∧ Idle routes .unknown p.rules w'.tree := by
  obtain ⟨hrun, _⟩ := Pipeline.onePass_eq_ok_iff.mp hpass
  have hreach : (w.tree.decorate .unknown).1.Reachable := by
    obtain ⟨cmds, _, hcmds⟩ := w.tree.edited_decorate .unknown
    rw [hcmds]
    exact hw.runAll cmds
  exact run_settled (σ := p.setting .unknown pass) hsub rfl hreach
    (hl.decorate hw.sound .unknown) hrun

/-- A pass over a tree that is idle once it is decorated changes nothing. -/
lemma onePass_of_idle {pass : Nat} {stats : PassStats} (hw : w.tree.Sound)
    (hidle : Idle routes .unknown p.rules (w.tree.decorate .unknown).1)
    (hpass : p.onePass .unknown pass w = .ok stats w') : stats.mutations = 0 := by
  obtain ⟨hrun, _⟩ := Pipeline.onePass_eq_ok_iff.mp hpass
  exact (quiet_of_idle (σ := p.setting .unknown pass) (hw.edited (w.tree.edited_decorate .unknown))
    hsub Oracle.steady_unknown hidle hrun).1

/-- Two passes are enough. -/
lemma passesFrom_settles {left : Nat} {outcome : RunOutcome} {stats : List PassStats}
    (hw : w.tree.Reachable) (hl : Lawful w.tree)
    (hok : p.passesFrom .unknown (left + 2) [] w = .ok (outcome, stats) w') :
    outcome = .converged ∧ stats.length ≤ 2 ∧ w'.tree.Reachable ∧ Lawful w'.tree ∧
      Idle routes .unknown p.rules w'.tree := by
  rw [Pipeline.passesFrom] at hok
  obtain ⟨s₁, w₁, hpass₁, hok⟩ := EStateM.bind_eq_ok_iff.mp hok
  obtain ⟨hw₁, hl₁, hidle₁⟩ := onePass_settles hsub hw hl hpass₁
  split at hok
  · rw [Pipeline.passesFrom] at hok
    obtain ⟨s₂, w₂, hpass₂, hok⟩ := EStateM.bind_eq_ok_iff.mp hok
    have hquiet := onePass_of_idle hsub hw₁.sound (hidle₁.decorate hw₁.sound hl₁) hpass₂
    rw [if_neg (by simp [PassStats.changed, hquiet])] at hok
    cases hok
    exact ⟨rfl, by simp, onePass_settles hsub hw₁ hl₁ hpass₂⟩
  · cases hok
    exact ⟨rfl, by simp, hw₁, hl₁, hidle₁⟩

end passes

/-! ### Rules that need types -/

/-- Without types such a rule leaves every node alone. -/
lemma sharp_without_types {r : Rule} (hr : r = Forms.rule ∨ r = RequestParameters.rule)
    {w : Workspace} (hacc : accepts w.tree r n = true) (pass : Nat) :
    Sharp (r.apply .unknown pass n) w n false false := by
  have hn : n < w.tree.size := by
    rw [accepts, Option.any_eq_true] at hacc
    obtain ⟨k, hk, _⟩ := hacc
    exact Tree.lt_size_of_kind? hk
  rcases hr with rfl | rfl
  · have hforms := Forms.sharp .unknown pass hn
    rwa [Forms.acts_unknown] at hforms
  · have hparameters := RequestParameters.sharp .unknown pass hn
    rwa [RequestParameters.reads_unknown] at hparameters

/-- Without types no migration puts another node in the place of a node. -/
lemma not_replaces_without_types {r : Rule} (hr : r ∈ all routes) : ¬ r.Replaces .unknown := by
  intro hreplaces
  obtain ⟨pass, m, w, new, w', hacc, hok⟩ := hreplaces
  have hforms := eq_forms_of_replaces hr ⟨pass, m, w, new, w', hacc, hok⟩
  rcases sharp_without_types (Or.inl hforms) hacc pass with ⟨_, _, hok', _⟩ | ⟨hfalse, _⟩
  · cases hok.symm.trans hok'
  · cases hfalse

section needs

variable {σ : PassSetting} {r : Rule} {o : Outcome} (horacle : σ.oracle = .unknown)
  (hr : r = Forms.rule ∨ r = RequestParameters.rule)
include horacle hr

lemma offer_without_types {s s₁ : PassState} (hacc : accepts s.tree r n = true)
    (hok : Pass.offer σ r n s = .ok o s₁) : o = .unchanged := by
  have hsharp : Sharp (r.apply σ.oracle σ.pass n) ⟨s.tree.checkpoint, s.files⟩ n false false := by
    rw [horacle]
    exact sharp_without_types hr (w := ⟨s.tree.checkpoint, s.files⟩) hacc σ.pass
  rcases Pass.offer_eq_ok_iff.mp hok with ⟨o₀, w, happ, hjudge, rfl⟩ | ⟨_, _, _, _, rfl, _⟩
  · rcases hsharp with ⟨_, w', happ', hrests⟩ | ⟨hfalse, _⟩
    · rw [happ'] at happ
      cases happ
      have hsame : Pass.judge r.id n s.tree.revision w.tree.commit .unchanged = .ok .unchanged :=
        Pass.judge_unchanged_iff.mpr ⟨rfl, hrests.edited.2⟩
      exact Except.ok.inj (hjudge.symm.trans hsame)
    · cases hfalse
  · rfl

/-- Without types no offer to such a rule in a pass is a change. -/
lemma trace_without_types (hsub : σ.rules ⊆ all routes) {w w' : Workspace} {stats : PassStats}
    (hrun : Pass.run σ w = .ok stats w') {order : VisitOrder}
    (he : Event.offered r.id order n o ∈ Pass.trace σ w) : o = .unchanged := by
  have hmem : r ∈ all routes := by
    rcases hr with rfl | rfl <;> simp [all]
  have hoffer : ∀ {s s₁ : PassState} {r' : Rule} {m : NodeId} {o' : Outcome}, r' ∈ σ.rules →
      (∀ order n o, Event.offered r.id order n o ∈ s.log → o = .unchanged) →
      accepts s.tree r' m = true → Pass.offer σ r' m s = .ok o' s₁ →
      ∀ order n o, Event.offered r.id order n o ∈ s₁.log → o = .unchanged := by
    intro s s₁ r' m o' hr' hlog hacc hok order n o he
    have ho := hok
    rcases Pass.offer_eq_ok_iff.mp hok with ⟨_, _, _, _, rfl⟩ | ⟨_, _, _, _, _, rfl⟩
    · rcases List.mem_cons.mp he with he | he
      · obtain ⟨hid, _, _, rfl⟩ := Event.offered.inj he
        obtain rfl := List.inj_on_of_nodup_map (nodup_ids routes) hmem (hsub hr') hid
        exact offer_without_types horacle hr hacc ho
      · exact hlog order n o he
    · rcases List.mem_cons.mp he with he | he
      · cases he
      · exact hlog order n o he
  have hinvariant : Pass.Invariant σ (fun _ => True) Set.univ fun _ log =>
      ∀ order n o, Event.offered r.id order n o ∈ log → o = .unchanged := by
    refine ⟨fun _ _ => trivial, ?_, fun _ _ _ => trivial, ?_, ?_⟩
    · intro w log m hlog order n o he
      exact hlog order n o (List.mem_of_ne_of_mem Event.noConfusion he)
    · intro s s₁ r' m o' hr' _ hlog hacc hok _
      exact ⟨hoffer hr' hlog hacc hok, fun _ _ => trivial⟩
    · intro s s₁ s₂ r' m hr' _ hlog hacc hok _ hfinish
      have hlog' := hoffer hr' hlog hacc hok
      rw [(Pass.finishRemoval_of_workspace rfl hfinish).1]
      exact hlog'
  exact hinvariant.run hrun trivial trivial (fun _ _ _ he => absurd he List.not_mem_nil) order n o
    (List.mem_reverse.mpr he)

end needs

/-! ### Runs -/

/-- A run over a tree that is idle once it is decorated changes nothing. -/
lemma run_of_idle (hsub : p.rules ⊆ all routes) (ht : t.Sound)
    (hidle : Idle routes .unknown p.rules (t.decorate .unknown).1) {report : RunReport}
    (hrun : p.run .unknown t = (t', .ok report)) : report.mutations = 0 := by
  exact Pipeline.mutations_of_quiet hrun fun _ _ hpass =>
    onePass_of_idle hsub (w := { tree := t }) ht hidle hpass

/-- Without types a tree that is read from the document of a lawful and idle tree is left alone. -/
lemma idle_reloaded {d : Document} {t₁ : Tree} (ht : t.Sound) (hl : Lawful t)
    (hidle : Idle routes .unknown rules t) (hdoc : t.toDocument = .ok d)
    (hload : Tree.ofDocument d = .ok t₁) :
    Idle routes .unknown rules (t₁.decorate .unknown).1 := by
  obtain ⟨hplain, houtline⟩ := Tree.outline_ofDocument hload
  have hsound := (Tree.Reachable.ofDocument hload).sound
  have hroot : d.root = t.outline t.root := by
    rw [Tree.toDocument, ht.linked.validate_eq_ok] at hdoc
    cases hdoc
    rfl
  have hm : t.Matching (t₁.decorate .unknown).1 := by
    refine ⟨ht.linked, (hsound.edited (t₁.edited_decorate .unknown)).linked, ?_⟩
    exact (outline_decorate .unknown hsound).trans (houtline.trans hroot)
  refine idle_of_matching hm hl ((lawful_of_plain hplain).decorate hsound .unknown)
    (testCases_of_matching hm fun n => ?_) hidle
  rw [Tree.flag_decorate _ hsound _ (by simp [Decoration.records])]
  exact flag_of_plain hplain n (by decide) (by decide)

/-- Without types every selection of migrations converges on the tree of every document after at
most two passes, and no offer to a rule that needs types changes anything. A run on the tree that is
read from the resulting document, without any marks, changes nothing. -/
theorem untyped_run_converges (routes : List Route) {ids : List String}
    (hids : ids ⊆ (all routes).map (·.id)) (hnodup : ids.Nodup) (limits : Limits)
    (hbound : 1 ≤ limits.revisitBound) (hpasses : 2 ≤ limits.maxPasses) {d : Document} {t : Tree}
    (hdoc : Tree.ofDocument d = .ok t) :
    ∃ rules p, select routes ids = .ok rules ∧ Pipeline.withRules limits rules = .ok p ∧
      (∀ (σ : PassSetting) (w w' : Workspace) (stats : PassStats), σ.rules = p.rules →
        σ.oracle = .unknown → Pass.run σ w = .ok stats w' →
        ∀ r, r = Forms.rule ∨ r = RequestParameters.rule → ∀ order n o,
          Event.offered r.id order n o ∈ Pass.trace σ w → o = .unchanged) ∧
      ∃ t' report d',
        (∃ N, ∀ depth ≥ N, (p.withDepth depth).run .unknown t = (t', .ok report)) ∧
        report.outcome = .converged ∧ report.passes ≤ 2 ∧ t'.toDocument = .ok d' ∧
        ∀ t₁, Tree.ofDocument d' = .ok t₁ → ∃ t₂ report',
          (∃ N, ∀ depth ≥ N, (p.withDepth depth).run .unknown t₁ = (t₂, .ok report')) ∧
          report'.mutations = 0 := by
  obtain ⟨rules, hselect, hsub, hdistinct⟩ := exists_select hids hnodup
  have htame : ∀ r ∈ rules, r.Tame (gauge .unknown) .unknown :=
    fun r hr => tame_of_mem_all rfl rfl (hsub hr)
  have hsucceeds := fun {t : Tree} (ht : t.Sound) =>
    Pipeline.run_tame (p := { limits, rules }) htame
      (fun _ r hr h => absurd h (not_replaces_without_types (hsub hr))) hbound ht
  refine ⟨rules, { limits, rules }, hselect,
    Pipeline.withRules_of_free (fun r hr => after_of_mem_all (hsub hr)) hdistinct, ?_, ?_⟩
  · intro σ w w' stats hrules horacle hrun r hr order n o he
    have hsub' : σ.rules ⊆ all routes := by
      rw [hrules]
      exact hsub
    exact trace_without_types horacle hr hsub' hrun he
  · have ht := Tree.Reachable.ofDocument hdoc
    obtain ⟨t', report, ⟨N, hrun⟩, _, hvalid⟩ := hsucceeds ht.sound
    obtain ⟨outcome, stats, w', hok, rfl, rfl⟩ := Pipeline.run_eq_ok (hrun N (Nat.le_refl N))
    obtain ⟨left, hleft⟩ : ∃ left, limits.maxPasses = left + 2 := Nat.exists_eq_add_of_le' hpasses
    have hmax : (Pipeline.withDepth { limits, rules } N).limits.maxPasses = left + 2 := hleft
    rw [hmax] at hok
    obtain ⟨hconverged, hshort, hreach, hl, hidle⟩ := passesFrom_settles
      (p := Pipeline.withDepth { limits, rules } N) hsub (w := { tree := t }) ht
      (lawful_of_plain (Tree.outline_ofDocument hdoc).1) hok
    obtain ⟨d', hd'⟩ : ∃ d', w'.tree.toDocument = .ok d' := by
      rw [Tree.toDocument, hvalid]
      exact ⟨_, rfl⟩
    refine ⟨w'.tree, _, d', ⟨N, hrun⟩, hconverged, hshort, hd', fun t₁ hload => ?_⟩
    have hsound := (Tree.Reachable.ofDocument hload).sound
    obtain ⟨t₂, report', ⟨M, hagain⟩, _⟩ := hsucceeds hsound
    refine ⟨t₂, report', ⟨M, hagain⟩, ?_⟩
    exact run_of_idle (p := Pipeline.withDepth { limits, rules } M) hsub hsound
      (idle_reloaded hreach.sound hl hidle hd' hload) (hagain M (Nat.le_refl M))

theorem untyped_run_converges_sample :
    ∃ t rules p t' report d', Tree.ofDocument sampleDocument = .ok t ∧
      select [sampleRoute] [] = .ok rules ∧ Pipeline.withRules {} rules = .ok p ∧
      (∃ N, ∀ depth ≥ N, (p.withDepth depth).run .unknown t = (t', .ok report)) ∧
      report.outcome = .converged ∧ report.passes ≤ 2 ∧ t'.toDocument = .ok d' ∧
      ∀ t₁, Tree.ofDocument d' = .ok t₁ → ∃ t₂ report',
        (∃ N, ∀ depth ≥ N, (p.withDepth depth).run .unknown t₁ = (t₂, .ok report')) ∧
        report'.mutations = 0 := by
  obtain ⟨t, hdoc, -⟩ := Tree.exists_ofDocument (d := sampleDocument) (by decide +kernel)
  obtain ⟨rules, p, hselect, hp, _, t', report, d', hspec⟩ :=
    untyped_run_converges [sampleRoute] (List.nil_subset _) List.nodup_nil {} (by decide)
      (by decide) hdoc
  exact ⟨t, rules, p, t', report, d', hdoc, hselect, hp, hspec⟩

end Catalogue

end CodeMigration
