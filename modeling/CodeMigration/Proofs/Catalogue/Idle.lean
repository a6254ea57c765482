import CodeMigration.Proofs.Catalogue.Acts
import CodeMigration.Proofs.Catalogue.Run
import CodeMigration.Proofs.Pass.Abreast

/-!
# Idle trees

A tree is idle when no migration has anything to change in it. A quiet pass shows that the tree it
found is idle, and a pass over an idle tree is quiet.
-/

namespace CodeMigration

namespace Tree

lemma attribute?_setFlag (t : Tree) (n m : NodeId) {key key' : AttributeKey} (hkey : key' ≠ key) :
    (t.setAttribute n key (.flag true)).attribute? m key' = t.attribute? m key' := by
  show (t.attributes.set n key (.flag true)).get? m key' = _
  rw [Attributes.get?_set, if_neg fun h => hkey h.2]
  rfl

lemma flag_setFlag (t : Tree) (n m : NodeId) (key key' : AttributeKey) :
    (t.setAttribute n key (.flag true)).attributes.flag m key' =
      if m = n ∧ key' = key then true else t.attributes.flag m key' := by
  show (t.attributes.set n key (.flag true)).flag m key' = _
  rw [Attributes.flag, Attributes.get?_set]
  split
  · rfl
  · rfl

end Tree

namespace Catalogue

open Pass (Quiet accepts)

variable {routes : List Route} {oracle : Oracle} {σ σ' : PassSetting} {s s₁ : PassState}
  {n : NodeId} {o : Outcome} {m : Migration} {w w₁ : Workspace} {stats : PassStats}

/-- Nothing is to be changed by those of the rules that are migrations. -/
def Idle (routes : List Route) (oracle : Oracle) (rules : List Rule) (t : Tree) : Prop :=
  ∀ m ∈ migrations routes, m.rule ∈ rules → ∀ n, t.Reaches t.root n →
    accepts t m.rule n = true → m.acts oracle t n = false

/-- No file is asked for by those of the rules that are migrations. -/
def Answered (routes : List Route) (rules : List Rule) (t : Tree) : Prop :=
  ∀ m ∈ migrations routes, m.rule ∈ rules → ∀ n, t.Reaches t.root n →
    accepts t m.rule n = true → m.asks t n = false

lemma Idle.near {rules : List Rule} {t t' : Tree} (h : Idle routes oracle rules t)
    (horacle : oracle.Steady) (hnear : Near t t') : Idle routes oracle rules t' := by
  intro m hm hr n hn hacc
  rw [hnear.alike.reaches, hnear.alike.root] at hn
  rw [Pass.accepts_alike hnear.alike] at hacc
  rw [m.acts_near horacle hnear, h m hm hr n hn hacc]

lemma Answered.near {rules : List Rule} {t t' : Tree} (h : Answered routes rules t)
    (hnear : Near t t') : Answered routes rules t' := by
  intro m hm hr n hn hacc
  rw [hnear.alike.reaches, hnear.alike.root] at hn
  rw [Pass.accepts_alike hnear.alike] at hacc
  rw [← Bool.not_eq_true]
  intro hasks
  have hasks' := m.asks_near hnear hasks
  rw [h m hm hr n hn hacc] at hasks'
  cases hasks'

lemma Near.attached {t t' : Tree} (h : Near t t') (hn : t.Reaches t.root n) :
    t'.Reaches t'.root n := by
  rwa [h.alike.reaches, h.alike.root]

/-! ### Offers -/

lemma near_checkpoint (t : Tree) : Near t t.checkpoint :=
  ⟨⟨rfl, rfl⟩, rfl, fun _ => rfl, fun _ => rfl, fun _ _ => rfl, fun _ _ _ h => h,
    fun _ h => Or.inl h, fun _ => rfl⟩

lemma near_commit (t : Tree) : Near t t.commit :=
  ⟨⟨rfl, rfl⟩, rfl, fun _ => rfl, fun _ => rfl, fun _ _ => rfl, fun _ _ _ h => h,
    fun _ h => Or.inl h, fun _ => rfl⟩

lemma Rests.near {asks : Bool} {w' : Workspace} (h : Rests asks w n w') :
    Near w.tree w'.tree := by
  have hkept : ∀ key k key', ¬ Decoration.records key' → w.tree.attributes.flag k key' = true →
      (w.tree.setAttribute n key (.flag true)).attributes.flag k key' = true := by
    intro key k key' _ hflag
    rw [Tree.flag_setFlag]
    split
    · rfl
    · exact hflag
  have hextras : ∀ key k, key ≠ .span → key ≠ .layout →
      (w.tree.setAttribute n key (.flag true)).extras k = w.tree.extras k := by
    intro key k hspan hlayout
    rw [Tree.extras, Tree.attribute?_setFlag _ _ _ hspan.symm,
      Tree.attribute?_setFlag _ _ _ hlayout.symm, Tree.extras]
  cases h with
  | still => exact .refl w.tree
  | routed hannotated =>
    refine ⟨⟨rfl, rfl⟩, rfl, fun k => Tree.attribute?_setFlag _ _ _ (by decide),
      fun k => Tree.attribute?_setFlag _ _ _ (by decide), fun k _ => ?_, hkept .hasRoute,
      fun k hk => ?_, fun k => hextras _ k (by decide) (by decide)⟩
    · rw [Tree.flag_setFlag, if_neg fun h => by cases h.2]
    · rw [Tree.flag_setFlag] at hk
      split at hk
      · next hkn => exact Or.inr (hkn.1 ▸ hannotated)
      · exact Or.inl hk
  | filed _ hfile file =>
    refine ⟨⟨rfl, rfl⟩, rfl, fun k => Tree.attribute?_setFlag _ _ _ (by decide),
      fun k => Tree.attribute?_setFlag _ _ _ (by decide), fun k hk => ?_, hkept .processed,
      fun k hk => ?_, fun k => hextras _ k (by decide) (by decide)⟩
    · rw [Tree.flag_setFlag, if_neg]
      rintro ⟨rfl, _⟩
      exact hk hfile
    · rw [Tree.flag_setFlag, if_neg fun h => by cases h.2] at hk
      exact Or.inl hk

lemma Rests.edited {asks : Bool} {w' : Workspace} (h : Rests asks w n w') :
    w.tree.Edited w'.tree ∧ w'.tree.revision = w.tree.revision := by
  cases h with
  | still => exact ⟨.refl _, rfl⟩
  | routed _ => exact ⟨Tree.edited_setAttribute _ _ _ _, rfl⟩
  | filed _ _ _ => exact ⟨Tree.edited_setAttribute _ _ _ _, rfl⟩

section offers

variable (horacle : σ.oracle.Steady) (ht : s.tree.Sound) (hn : s.tree.Reaches s.tree.root n)
  (hacc : accepts s.tree m.rule n = true)
include horacle ht hn hacc

/-- An offer where there is nothing to change. -/
lemma offer_rests (hidle : m.acts σ.oracle s.tree n = false) :
    ∃ t files, Pass.offer σ m.rule n s = .ok .unchanged { s with
        tree := t, files := files
        log := .offered m.rule.id m.rule.order n .unchanged :: s.log } ∧
      Near s.tree t ∧ t.Sound ∧ (m.asks s.tree n = false → files = s.files) ∧
      m.asks t n = false := by
  have hopen := near_checkpoint s.tree
  rcases m.sharp σ.oracle σ.pass (w := ⟨s.tree.checkpoint, s.files⟩) ht.checkpoint hn hacc with
    ⟨_, w', happ, hrests⟩ | ⟨hacts, _⟩
  · have hclose := near_commit w'.tree
    obtain ⟨hedited, hrevision⟩ := hrests.edited
    refine ⟨w'.tree.commit, w'.files, Pass.offer_eq_ok_iff.mpr (Or.inl ⟨.unchanged, w', happ, ?_,
      rfl⟩), (hopen.trans hrests.near).trans hclose, (ht.checkpoint.edited hedited).commit,
      fun hasks => ?_, ?_⟩
    · exact Pass.judge_unchanged_iff.mpr ⟨rfl, hrevision⟩
    · cases hrests with
      | still => rfl
      | routed _ => rfl
      | filed hasks' _ _ =>
        rw [m.asks_near hopen hasks'] at hasks
        cases hasks
    · have hasks := m.asks_apply σ.oracle σ.pass happ
      rw [← Bool.not_eq_true] at hasks ⊢
      exact fun h => hasks (m.asks_near hclose h)
  · rw [m.acts_near horacle hopen, hidle] at hacts
    cases hacts

/-- In a quiet pass nothing is changed, so there was nothing to change. -/
lemma acts_of_quiet (hok : Pass.offer σ m.rule n s = .ok o s₁) (hquiet : Quiet s₁.log) :
    m.acts σ.oracle s.tree n = false := by
  rw [← Bool.not_eq_true]
  intro hacts
  have hopen := near_checkpoint s.tree
  rw [← m.acts_near horacle hopen] at hacts
  obtain ⟨o₁, w', happ, _⟩ := m.yields σ.oracle σ.pass (w := ⟨s.tree.checkpoint, s.files⟩)
    ht.checkpoint hn hacc
  have hchange : o₁ ≠ .unchanged := by
    rcases m.sharp σ.oracle σ.pass (w := ⟨s.tree.checkpoint, s.files⟩) ht.checkpoint hn hacc with
      ⟨hidle, _⟩ | ⟨_, hends⟩
    · rw [hacts] at hidle
      cases hidle
    · exact hends o₁ w' happ
  rcases Pass.offer_eq_ok_iff.mp hok with ⟨o₀, w₀, happ₀, hjudge, rfl⟩ | ⟨e, w₀, happ₀, _⟩
  · rw [happ] at happ₀
    cases happ₀
    have hunchanged : o = .unchanged := by
      have hevent := hquiet _ List.mem_cons_self
      simpa [Event.isMutation, Outcome.isChange] using hevent
    subst hunchanged
    exact hchange (Pass.judge_unchanged_iff.mp hjudge).1
  · rw [happ] at happ₀
    cases happ₀

end offers

/-! ### Passes -/

lemma exists_migration {r : Rule} (hr : r ∈ all routes) : ∃ m ∈ migrations routes, m.rule = r := by
  rw [← map_rule_migrations] at hr
  exact List.mem_map.mp hr

lemma eq_of_id {m' : Migration} (hm : m ∈ migrations routes) (hm' : m' ∈ migrations routes)
    (hid : m.rule.id = m'.rule.id) : m = m' := by
  have hnodup := nodup_ids routes
  rw [← map_rule_migrations, List.map_map] at hnodup
  exact List.inj_on_of_nodup_map hnodup hm hm' hid

section passes

variable {u : Tree} (hu : u.Sound) (hsub : σ.rules ⊆ all routes) (horacle : σ.oracle.Steady)
include hu hsub horacle

omit hsub horacle in
lemma attached_child {t : Tree} (halike : u.Alike t) {c : NodeId} {i : Nat}
    (hn : u.Reaches u.root n) (hc : t.child? n i = some c) : u.Reaches u.root c := by
  rw [halike.child?] at hc
  exact hn.trans (hu.linked.link_of_child? hc).reaches

/-- What the log of a quiet pass shows of the tree it found, and of the files it asked for. -/
def Shown (routes : List Route) (oracle : Oracle) (u t : Tree) (log : List Event) : Prop :=
  ∀ e ∈ log, ∀ m ∈ migrations routes, ∀ n, e.offerOf? n = some (m.rule.id, m.rule.order) →
    m.acts oracle u n = false ∧ m.asks t n = false

lemma invariant_shown : Pass.Invariant σ Quiet {n | u.Reaches u.root n} fun w log =>
    Near u w.tree ∧ w.tree.Sound ∧ Shown routes σ.oracle u w.tree log := by
  refine .of_unchanged (fun hsuffix hquiet => hquiet.suffix hsuffix) ?_
    (fun hI hn hc => attached_child hu hI.1.alike hn hc) ?_
  · rintro w log n ⟨hnear, ht, hshown⟩
    refine ⟨hnear, ht, fun e he m hm k hk => ?_⟩
    rcases List.mem_cons.mp he with rfl | he
    · cases hk
    · exact hshown e he m hm k hk
  · rintro s s₁ r n o hr hn ⟨hnear, ht, hshown⟩ hacc hok hquiet
    obtain ⟨m, hm, rfl⟩ := exists_migration (hsub hr)
    have hn' := hnear.attached hn
    have hidle := acts_of_quiet horacle ht hn' hacc hok hquiet
    obtain ⟨t, files, hok', hnear', ht', _, hasks⟩ := offer_rests horacle ht hn' hacc hidle
    rw [hok'] at hok
    cases hok
    refine ⟨rfl, hnear.trans hnear', ht', fun e he m' hm' k hk => ?_⟩
    rcases List.mem_cons.mp he with rfl | he
    · rw [Event.offerOf?] at hk
      split at hk
      · next hkn =>
        obtain rfl := hkn
        obtain ⟨hid, _⟩ := Prod.mk.inj (Option.some.inj hk)
        obtain rfl := eq_of_id hm hm' hid
        rw [m.acts_near horacle hnear] at hidle
        exact ⟨hidle, hasks⟩
      · cases hk
    · obtain ⟨hacts, hasks'⟩ := hshown e he m' hm' k hk
      refine ⟨hacts, ?_⟩
      rw [← Bool.not_eq_true] at hasks' ⊢
      exact fun h => hasks' (m'.asks_near hnear' h)

omit hu hsub horacle in
lemma quiet_trace (hrun : Pass.run σ w = .ok stats w₁) (hquiet : stats.mutations = 0) :
    Quiet (Pass.trace σ w).reverse := by
  obtain ⟨_, s, _, rfl, _, htrace⟩ := Pass.run_eq_ok hrun
  rw [htrace, List.reverse_reverse]
  intro e he
  simpa using List.countP_eq_zero.mp hquiet e he

/-- A quiet pass found an idle tree, and leaves it with all files asked for. -/
lemma idle_of_quiet {files : List AddedFile} (hrun : Pass.run σ ⟨u, files⟩ = .ok stats w₁)
    (hquiet : stats.mutations = 0) :
    Idle routes σ.oracle σ.rules u ∧ Near u w₁.tree ∧ w₁.tree.Sound ∧
      Answered routes σ.rules w₁.tree := by
  have hcommands : ∀ r ∈ σ.rules, r.ActsByCommands :=
    fun r hr => actsByCommands_of_mem_all (hsub hr)
  obtain ⟨_, _, htour⟩ := Pass.run_quiet hcommands hu hrun hquiet
  have hnil : Shown routes σ.oracle u u [] := fun e he => absurd he List.not_mem_nil
  obtain ⟨hnear, hsound, hshown⟩ := (invariant_shown hu hsub horacle).run hrun
    (quiet_trace hrun hquiet) (Tree.Reaches.refl _) ⟨.refl u, hu, hnil⟩
  -- every node has been taken to every rule that is due
  have hall : ∀ m ∈ migrations routes, m.rule ∈ σ.rules → ∀ n, u.Reaches u.root n →
      accepts u m.rule n = true → m.acts σ.oracle u n = false ∧ m.asks w₁.tree n = false := by
    intro m hm hr n hn hacc
    have hdue : (m.rule.id, m.rule.order) ∈ Pass.due σ u n := by
      refine List.mem_map_of_mem (f := fun r : Rule => (r.id, r.order)) (List.mem_filter.mpr
        ⟨List.mem_append_left _ (List.mem_filter.mpr ⟨hr, ?_⟩), hacc⟩)
      simp [m.pre]
    rw [← htour.inside n hn] at hdue
    obtain ⟨e, he, hoffer⟩ := List.mem_filterMap.mp hdue
    exact hshown e (List.mem_reverse.mpr he) m hm n hoffer
  refine ⟨fun m hm hr n hn hacc => (hall m hm hr n hn hacc).1, hnear, hsound, ?_⟩
  intro m hm hr n hn hacc
  rw [hnear.alike.reaches, hnear.alike.root] at hn
  rw [Pass.accepts_alike hnear.alike] at hacc
  exact (hall m hm hr n hn hacc).2

/-- A pass over an idle tree is quiet. -/
lemma quiet_of_idle {files : List AddedFile} (hidle : Idle routes σ.oracle σ.rules u)
    (hrun : Pass.run σ ⟨u, files⟩ = .ok stats w₁) :
    stats.mutations = 0 ∧ Near u w₁.tree ∧ w₁.tree.Sound := by
  have hinvariant : Pass.Invariant σ (fun _ => True) {n | u.Reaches u.root n} fun w log =>
      Near u w.tree ∧ w.tree.Sound ∧ Quiet log := by
    refine .of_unchanged (fun _ _ => trivial) (fun hI => ⟨hI.1, hI.2.1, hI.2.2.cons rfl⟩)
      (fun hI hn hc => attached_child hu hI.1.alike hn hc) ?_
    rintro s s₁ r n o hr hn ⟨hnear, ht, hquiet⟩ hacc hok _
    obtain ⟨m, hm, rfl⟩ := exists_migration (hsub hr)
    have hn' := hnear.attached hn
    have hidle' := hidle.near horacle hnear m hm hr n hn' hacc
    obtain ⟨t, files, hok', hnear', ht', _⟩ := offer_rests horacle ht hn' hacc hidle'
    rw [hok'] at hok
    cases hok
    exact ⟨rfl, hnear.trans hnear', ht', hquiet.cons rfl⟩
  obtain ⟨hnear, hsound, hquiet⟩ := hinvariant.run hrun trivial (Tree.Reaches.refl _)
    ⟨.refl u, hu, fun e he => absurd he List.not_mem_nil⟩
  refine ⟨?_, hnear, hsound⟩
  obtain ⟨_, s, _, rfl, _, htrace⟩ := Pass.run_eq_ok hrun
  rw [htrace, List.reverse_reverse] at hquiet
  exact List.countP_eq_zero.mpr fun e he => by simp [hquiet e he]

/-- Two passes, one that changes nothing in `u` and one that changes nothing in `u'` and asks for no
file. -/
structure Beside (u u' : Tree) (files : List AddedFile) (w w' : Workspace) : Prop where
  near : Near u w.tree
  sound : w.tree.Sound
  near' : Near u' w'.tree
  sound' : w'.tree.Sound
  files : w'.files = files

/-- A pass over an idle tree keeps up with a quiet pass over a tree that looks the same. -/
lemma keepsUp_idle {u' : Tree} (files : List AddedFile) (hrules : σ'.rules = σ.rules)
    (hbound : σ'.revisitBound = σ.revisitBound) (hdepth : σ'.depth = σ.depth)
    (horacle' : σ'.oracle.Steady)
    (hidle : Idle routes σ'.oracle σ.rules u') (hanswered : Answered routes σ.rules u') :
    Pass.KeepsUp σ σ' (fun _ => False) Quiet {n | u.Reaches u.root n} fun w _ w' =>
      Beside u u' files w w' := by
  have hoffer : ∀ {s s' s₁ : PassState} {r : Rule} {n : NodeId} {o : Outcome}, r ∈ σ.rules →
      u.Reaches u.root n → Pass.Abreast (fun w _ w' => Beside u u' files w w') s s' →
      accepts s.tree r n = true → Pass.offer σ r n s = .ok o s₁ → Quiet s₁.log →
      o = .unchanged ∧ ∃ s₁', Pass.offer σ' r n s' = .ok o s₁' ∧
        Pass.Abreast (fun w _ w' => Beside u u' files w w') s₁ s₁' := by
    intro s s' s₁ r n o hr hn ha hacc hok hquiet
    obtain ⟨hnear, ht, hnear', ht', hfiles⟩ := ha.work
    obtain ⟨m, hm, rfl⟩ := exists_migration (hsub hr)
    have hn₁ := hnear.attached hn
    obtain ⟨t, fs, hok₁, hnear₁, ht₁, _⟩ :=
      offer_rests horacle ht hn₁ hacc (acts_of_quiet horacle ht hn₁ hacc hok hquiet)
    rw [hok₁] at hok
    cases hok
    have hn₂ : s'.tree.Reaches s'.tree.root n := by
      rw [ha.toAlike.reaches, ha.toAlike.root]
      exact hn₁
    have hacc₂ : accepts s'.tree m.rule n = true := by rwa [Pass.accepts_alike ha.toAlike]
    obtain ⟨t', fs', hok₂, hnear₂, ht₂, hsame, _⟩ := offer_rests horacle' ht' hn₂ hacc₂
      (hidle.near horacle' hnear' m hm hr n hn₂ hacc₂)
    have hfiles' : fs' = files := (hsame (hanswered.near hnear' m hm hr n hn₂ hacc₂)).trans hfiles
    have halike : t.Alike t' := (hnear₁.alike.symm.trans ha.toAlike).trans hnear₂.alike
    exact ⟨rfl, _, hok₂, ha.step halike.slots halike.root
      ⟨hnear.trans hnear₁, ht₁, hnear'.trans hnear₂, ht₂, hfiles'⟩⟩
  refine ⟨?_, hbound, ?_, hdepth, fun hsuffix hquiet => hquiet.suffix hsuffix, fun hQ => hQ, ?_, ?_,
    ?_, ?_⟩
  · rw [hrules]
    exact Padded.refl σ.rules
  · rw [Pass.replacementLimit, Pass.replacementLimit, hrules, hbound]
    exact UInt32.le_refl _
  · exact fun ha hn hc => attached_child hu ha.work.near.alike hn hc
  · intro s s' s₁ r n o hr hn ha hacc hok hquiet
    obtain ⟨rfl, s₁', hok', ha'⟩ := hoffer hr hn ha hacc hok hquiet
    exact ⟨s₁', hok', ha', fun _ hk => absurd hk List.not_mem_nil⟩
  · intro s s' s₁ s₂ r n hr hn ha hacc hok hquiet _
    obtain ⟨hremoved, _⟩ := hoffer hr hn ha hacc hok hquiet
    cases hremoved
  · exact fun hq => hq.elim

end passes

end Catalogue

end CodeMigration
