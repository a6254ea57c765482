import CodeMigration.Proofs.Catalogue.TestSuites
import CodeMigration.Proofs.Document.Splice

/-!
# Runs that migrate test cases

The test cases are looked up again in the half-migrated tree for every statement, and the row that
is being walked shrinks on the way. But a class that has been migrated stays a test case by its
mark, and no test case goes with a statement, so the names that are found never change
(`Tidied.mem_testCases_iff`), and a pass is a filter with one condition for all statements
(`realizes_migrate`).
-/

namespace CodeMigration

namespace Catalogue.TestCases

open CodeMigration.Tree
open Pass (accepts)

variable {oracle : Oracle} {cases : List String} {t t' t₀ : Tree} {n x : NodeId} {w : Workspace}

/-! ### Steps -/

/-- `t'` is `t` with the other parent for the class `n`, or without the statement `n`. -/
structure Tidied (oracle : Oracle) (t : Tree) (n : NodeId) (t' : Tree) : Prop where
  reform : Reform t n t'
  kind : t.kind? n ≠ some .namespaceDecl
  link : ∀ {p c}, t'.Link p c → t.Link p c
  root : t'.root = t.root
  construct? : ∀ x, t'.construct? x = t.construct? x ∨ x = n ∧ ∃ name parent interfaces,
    t.construct? x = some (.classDecl name (some parent) interfaces) ∧
    ClassName.same parent testerCase = true ∧
    t'.construct? x = some (.classDecl name (some phpUnitCase) interfaces)
  extras : ∀ x, t'.Reaches t'.root x → t'.extras x = t.extras x
  row : ∀ x, t'.children x = t.children x ∨
    Drops oracle t n ∧ t.Link x n ∧ t'.children x = put n [] (t.children x)
  case : ∀ x, t'.Reaches t'.root x → isTestCase oracle t' x = isTestCase oracle t x
  stays : ∀ x, t.Reaches t.root x → t'.Reaches t'.root x ∨ Drops oracle t n ∧ t.Reaches n x

lemma Reparents.tidied (h : Reparents t n t') (ht : t.Sound) : Tidied oracle t n t' := by
  have hr := h.relabelled
  have hreform := h.reform ht
  obtain ⟨name, parent, interfaces, hc, hparent, rfl⟩ := h
  have hkind : t.kind? n = some .classDecl := kind?_of_construct hc
  have hnew := construct?_setConstruct_self (c := .classDecl name (some phpUnitCase) interfaces) hc
  have hnamed : Relabelled {n} ∅ t
      (t.setConstruct n (.classDecl name (some phpUnitCase) interfaces)) :=
    (Relabelled.refl t).setConstruct (Set.mem_singleton n) hkind
  refine ⟨hreform, by simp [hkind], fun h => hr.link ▸ h, hr.root, fun x => ?_,
    fun x _ => ?_, fun x => Or.inl (hr.children x), fun x _ => ?_,
    fun x hx => Or.inl (by rwa [hr.reaches, hr.root])⟩
  · by_cases hx : x = n
    · exact Or.inr ⟨hx, name, parent, interfaces, hx ▸ hc, hparent, hx ▸ hnew⟩
    · exact Or.inl (hr.construct? x hx)
  · rw [Tree.extras, Tree.attribute?_setFlag _ _ _ (by decide),
      Tree.attribute?_setFlag _ _ _ (by decide),
      hnamed.attribute? ht x .span (by decide) (Or.inl (Set.notMem_empty x)),
      hnamed.attribute? ht x .layout (by decide) (Or.inl (Set.notMem_empty x)), Tree.extras]
  · rw [isTestCase, Tree.flag_setFlag]
    by_cases hx : x = n
    · rw [hx, show (Tree.setAttribute _ n _ _).construct? n = _ from hnew, isTestCase, hc]
      simp [hparent]
    · rw [hr.construct? x hx, if_neg fun h => hx h.1, flag_setConstruct ht _ _ _ (by decide),
        isTestCase]

lemma Drops.tidied (hdrops : Drops oracle t n) (ht : t.Sound)
    (hok : t.remove n = .ok t') : Tidied oracle t n t' := by
  obtain ⟨p, hlink, -⟩ := (Option.any_eq_true ..).mp hdrops.isTopLevel
  obtain ⟨hroot, -, hchildren⟩ := ht.linked.children_remove hok
  obtain ⟨_, hsplice⟩ := spliced_of_replaceWithMany ht.linked ht.distinct
    ((ht.linked.remove_iff_replaceWithMany hlink).mp hok)
  have hreform := reform_remove ht hlink hdrops.kind hok
  have ht' := hreform.sound
  have hocc := occupied_remove ht hlink hok
  have hspares : t.Spares t' := .remove ht hok
  have hout : ∀ {x}, t'.Reaches t'.root x → ¬ t.Reaches n x :=
    hsplice.not_reaches_of_attached ht.linked ht'.linked
  refine ⟨hreform, by simp [hdrops.kind], fun {q c} hq => ?_, hroot,
    fun x => Or.inl (hsplice.construct? x), fun x hx => hsplice.extras x (hout hx), fun x => ?_,
    fun x hx => ?_, fun x hx => ?_⟩
  · rw [← ht'.linked.mem_children_iff, hchildren, mem_put] at hq
    rcases hq with ⟨_, hnone⟩ | ⟨hq, _⟩
    · cases hnone
    · exact (ht.linked.mem_children_iff q c).mp hq
  · by_cases hx : t.Link x n
    · exact Or.inr ⟨hdrops, hx, hchildren x⟩
    · rw [← ht.linked.mem_children_iff] at hx
      exact Or.inl ((hchildren x).trans (put_of_not_mem hx))
  · have hxn : x ≠ n := by
      rintro rfl
      exact hout hx (Reaches.refl x)
    have hlive := ht'.linked.isLive_of_attached hx
    have hflag : t'.attributes.flag x .processed = t.attributes.flag x .processed := by
      rw [Bool.eq_iff_iff]
      exact ⟨hreform.flag (by decide) hxn,
        hspares.flags x .processed (by simp [Decoration.records]) (not_gone_of_isLive hlive)⟩
    rw [isTestCase, hsplice.construct?, hflag, isTestCase]
  · by_cases hnx : t.Reaches n x
    · exact Or.inr ⟨hdrops, hnx⟩
    · exact Or.inl (hocc.attached ht.linked ht'.linked ⟨hx, hnx⟩)

namespace Tidied

variable (h : Tidied oracle t n t')
include h

lemma kind?_eq (x : NodeId) : t'.kind? x = t.kind? x := by
  rcases h.construct? x with hsame | ⟨_, _, _, _, hc, _, hc'⟩
  · rw [Tree.kind?, hsame, Tree.kind?]
  · rw [kind?_of_construct hc, kind?_of_construct hc', Construct.kind, Construct.kind]

lemma reparented_eq (x : NodeId) :
    (t'.construct? x).map reparented = (t.construct? x).map reparented := by
  rcases h.construct? x with hsame | ⟨_, name, parent, interfaces, hc, hparent, hc'⟩
  · rw [hsame]
  · rw [hc, hc']
    simp [reparented, hparent]

lemma reaches {a : NodeId} (hx : t'.Reaches a x) : t.Reaches a x :=
  Relation.ReflTransGen.mono (fun _ _ => h.link) _ _ hx

lemma attached (hx : t'.Reaches t'.root x) : t.Reaches t.root x := h.root ▸ h.reaches hx

variable (ht : t.WellLinked)
include ht

/-- A node that stays keeps its parent. -/
lemma isTopLevel_eq (hx : t'.Reaches t'.root x) : isTopLevel t' x = isTopLevel t x := by
  rw [isTopLevel, isTopLevel]
  cases hp : t'.parent? x with
  | none =>
    have hroot := hx.eq_of_free hp
    rw [← hroot, h.root, ht.root_free]
    rfl
  | some p =>
    rw [show t.parent? x = some p from h.link hp, Option.any_some, Option.any_some, Tree.hasKind,
      Tree.hasKind, h.kind?_eq, Tree.hasKind, Tree.hasKind]

omit ht in
lemma qualifiedClass?_eq (hx : t'.Reaches t'.root x) (hcase : isTestCase oracle t x = true) :
    t'.qualifiedClass? x = t.qualifiedClass? x := by
  obtain ⟨name, parent, interfaces, hc⟩ := exists_classDecl hcase
  rcases h.construct? x with hsame | ⟨_, _, _, _, hc, _, hc'⟩
  · exact h.reform.qualifiedClass? h.kind hx hc (hsame.trans hc)
  · exact h.reform.qualifiedClass? h.kind hx hc hc'

variable (hs : Suited oracle cases t)
include hs

/-- No test case goes, as there is none below a statement that is dropped. -/
lemma attached_of_isTestCase (hx : t.Reaches t.root x) (hcase : isTestCase oracle t x = true) :
    t'.Reaches t'.root x := by
  rcases h.stays x hx with hx' | ⟨hdrops, hnx⟩
  · exact hx'
  · have hn : t.Reaches t.root n := by
      rcases hx.total hnx with hn | hn
      · exact hn
      · rw [hn.eq_of_free ht.root_free]
    rw [hs.clear hn hdrops.isTopLevel hdrops.kind hnx] at hcase
    cases hcase

/-- The names of the test cases are the same in the tree that is tidied. -/
lemma mem_testCases_iff {name : String} :
    name ∈ testCases oracle t' ↔ name ∈ testCases oracle t := by
  rw [TestCases.mem_testCases_iff h.reform.sound.linked, TestCases.mem_testCases_iff ht]
  refine exists_congr fun m => ⟨fun ⟨hm, hcase, hname⟩ => ?_, fun ⟨hm, hcase, hname⟩ => ?_⟩
  · rw [h.case m hm] at hcase
    exact ⟨h.attached hm, hcase, (h.qualifiedClass?_eq hm hcase).symm.trans hname⟩
  · have hm' := h.attached_of_isTestCase ht hs hm hcase
    exact ⟨hm', (h.case m hm').trans hcase, (h.qualifiedClass?_eq hm' hcase).trans hname⟩

lemma suited : Suited oracle cases t' where
  names name := (h.mem_testCases_iff ht hs).trans (hs.names name)
  clear hx htop hkind hm := by
    rw [h.isTopLevel_eq ht hx] at htop
    rw [h.kind?_eq] at hkind
    rw [h.case _ (hx.trans hm)]
    exact hs.clear (h.attached hx) htop hkind (h.reaches hm)

/-- What is to become of the document stays the same. -/
lemma migrate_outline_eq (hx : t'.Reaches t'.root x) :
    migrate cases (t'.outline x) = migrate cases (t.outline x) := by
  have ht' := h.reform.sound.linked
  induction x using ht'.induction_up with | hstep x ih =>
  obtain ⟨c, hc⟩ := t.exists_construct? (ht.lt_size_of_reaches (h.attached hx))
  obtain ⟨c', hc'⟩ := t'.exists_construct? (ht'.lt_size_of_reaches hx)
  have hsame : reparented c' = reparented c := by
    have hsame := h.reparented_eq x
    rw [hc, hc'] at hsame
    exact Option.some_inj.mp hsame
  have hbelow : ∀ y ∈ t'.children x,
      migrate cases (t'.outline y) = migrate cases (t.outline y) := fun y hy =>
    ih y hy (hx.trans ((ht'.mem_children_iff x y).mp hy).reaches)
  -- a statement that is dropped is filtered out anyway
  have hrow : (t'.children x).filter (fun y =>
      !(holdsStatements c && !cases.isEmpty && isSetup cases (t.outline y))) =
        (t.children x).filter fun y =>
          !(holdsStatements c && !cases.isEmpty && isSetup cases (t.outline y)) := by
    rcases h.row x with hrow | ⟨hdrops, hlink, hrow⟩
    · rw [hrow]
    · rw [hrow]
      refine filter_put_nil ?_ _
      have hdropped := hdrops.dropped
      rw [isDropped_eq ht hs.names hdrops.kind, isTopLevel_of_link hlink hc,
        ← Bool.and_assoc] at hdropped
      rw [hdropped, Bool.not_true]
  rw [migrate_outline ht' hc', migrate_outline ht hc, hsame, h.extras x hx, ← hrow,
    ← holdsStatements_reparented c', hsame, holdsStatements_reparented]
  congr 1
  rw [List.filter_congr fun y hy => by
    rw [← isSetup_migrate (t'.outline y), hbelow y hy, isSetup_migrate]]
  exact List.map_congr_left fun y hy => hbelow y (List.mem_of_mem_filter hy)

lemma isSetup_outline_eq (hx : t'.Reaches t'.root x) :
    isSetup cases (t'.outline x) = isSetup cases (t.outline x) := by
  rw [← isSetup_migrate, h.migrate_outline_eq ht hs hx, isSetup_migrate]

end Tidied

/-! ### Nodes that are left alone -/

/-- The migration of test cases has nothing to change at a node. -/
def Still (oracle : Oracle) (t : Tree) (x : NodeId) : Prop :=
  accepts t rule x = true → acts oracle t x = false

lemma Still.near (h : Still oracle t x) (hnear : Near t t') : Still oracle t' x := by
  intro hacc
  rw [Pass.accepts_alike hnear.alike] at hacc
  rw [acts_near hnear, h hacc]

lemma Drops.near (h : Drops oracle t n) (hnear : Near t t') : Drops oracle t' n where
  kind := (congrFun hnear.alike.kind? n).trans h.kind
  dropped := by
    have hclass : t.hasKind n .classDecl = false := by simp [Tree.hasKind, h.kind]
    have hacts : acts oracle t' n = acts oracle t n := acts_near hnear n
    rw [acts, acts, hnear.alike.hasKind, hclass] at hacts
    exact hacts.trans h.dropped

lemma Suited.near (h : Suited oracle cases t) (hnear : Near t t') : Suited oracle cases t' :=
  h.alike hnear.alike fun n hn => hnear.processed n (by simp [hn])

/-- What a step at `n` keeps in a suited tree. -/
structure Keeps (oracle : Oracle) (cases : List String) (t : Tree) (n : NodeId) (t' : Tree) :
    Prop where
  suited : Suited oracle cases t'
  outline : migrate cases (t'.outline t'.root) = migrate cases (t.outline t.root)
  still : ∀ x, t.Outside n x → Still oracle t x → Still oracle t' x

lemma Keeps.refl (hs : Suited oracle cases t) : Keeps oracle cases t n t :=
  ⟨hs, rfl, fun _ _ hx => hx⟩

lemma Keeps.near {t₁ t₂ : Tree} (h : Keeps oracle cases t₁ n t₂) (h₀ : Near t t₁)
    (h₁ : Near t₂ t') : Keeps oracle cases t n t' where
  suited := h.suited.near h₁
  outline := by
    rw [h₁.alike.root, outline_alike h₁.alike h₁.extras, h.outline, h₀.alike.root,
      outline_alike h₀.alike h₀.extras]
  still x hx hstill := by
    have hx₁ : t₁.Outside n x := by
      refine ⟨h₀.attached hx.attached, ?_⟩
      rw [h₀.alike.reaches]
      exact hx.out
    exact (h.still x hx₁ (hstill.near h₀)).near h₁

lemma Tidied.keeps (h : Tidied oracle t n t') (ht : t.WellLinked) (hs : Suited oracle cases t) :
    Keeps oracle cases t n t' where
  suited := h.suited ht hs
  outline := by
    rw [h.migrate_outline_eq ht hs (Reaches.refl t'.root), h.root]
  still x hx hstill hacc := by
    have hs' := h.suited ht hs
    have hx' : t'.Reaches t'.root x := (h.stays x hx.attached).resolve_right fun hnx => hx.out hnx.2
    rw [accepts, h.kind?_eq] at hacc
    have hidle := hstill hacc
    rw [acts, Tree.hasKind] at hidle ⊢
    rw [h.kind?_eq]
    split
    · next hclass =>
      rw [if_pos hclass] at hidle
      have hsame := (h.construct? x).resolve_right fun hxn => hx.ne hxn.1
      rwa [actsOnClass, hsame]
    · next hclass =>
      rw [if_neg hclass] at hidle
      have hkind : t.kind? x = some .expression := TestCases.kind?_of_accepts hacc hclass
      rw [isDropped_eq ht hs.names hkind] at hidle
      rwa [isDropped_eq h.reform.sound.linked hs'.names ((h.kind?_eq x).trans hkind),
        h.isTopLevel_eq ht hx', h.isSetup_outline_eq ht hs hx']

/-! ### Offers -/

section offers

variable {σ : PassSetting} {s s₁ s₂ : PassState} {o : Outcome} (ht : s.tree.Sound)
  (hn : s.tree.Reaches s.tree.root n) (hacc : accepts s.tree rule n = true)
include ht hn hacc

/-- An offer does on a checkpoint what an application does. -/
lemma offer_does (hok : Pass.offer σ rule n s = .ok o s₁) :
    ∃ t', Does σ.oracle s.tree.checkpoint n o t' ∧ s₁.tree = t'.commit := by
  rcases Pass.offer_eq_ok_iff.mp hok with ⟨o₀, w, happ, hjudge, rfl⟩ | ⟨e, w, happ, _⟩
  · have hdoes := ensures_does σ.pass (w := ⟨s.tree.checkpoint, s.files⟩) hacc o₀ w
      happ
    refine ⟨w.tree, ?_, rfl⟩
    match o₀, hdoes, hjudge with
    | .unchanged, hdoes, hjudge =>
      have hrevision : s.tree.checkpoint.commit.revision = s.tree.revision := rfl
      rw [hdoes.1, Pass.judge, if_pos hrevision] at hjudge
      cases hjudge
      exact hdoes
    | .mutated, hdoes, hjudge =>
      cases hjudge
      exact hdoes
    | .removed, hdoes, hjudge =>
      cases hjudge
      exact hdoes
  · obtain ⟨_, _, happ', _⟩ := yields_apply σ.oracle σ.pass
      (w := ⟨s.tree.checkpoint, s.files⟩) (ht.linked.lt_size_of_reaches hn)
    cases happ'.symm.trans happ

variable (hs : Suited σ.oracle cases s.tree)
include hs

/-- An offer keeps what there is to keep, and leaves the node alone if it does nothing. -/
lemma keeps_offer (hok : Pass.offer σ rule n s = .ok o s₁) :
    Keeps σ.oracle cases s.tree n s₁.tree ∧ (o = .unchanged → Still σ.oracle s₁.tree n) ∧
      (o = .removed → Near s.tree s₁.tree ∧ Drops σ.oracle s₁.tree n) := by
  have hnear := near_checkpoint s.tree
  obtain ⟨t', hdoes, hcommit⟩ := offer_does ht hn hacc hok
  have hnear' : Near t' s₁.tree := hcommit ▸ near_commit t'
  cases o with
  | unchanged =>
    obtain ⟨rfl, hidle⟩ := hdoes
    refine ⟨(Keeps.refl (hs.near hnear)).near hnear hnear', fun _ => ?_, nofun⟩
    exact Still.near (fun _ => hidle) hnear'
  | mutated =>
    have htidied : Tidied σ.oracle s.tree.checkpoint n t' := hdoes.tidied ht.checkpoint
    exact ⟨(htidied.keeps ht.checkpoint.linked (hs.near hnear)).near hnear hnear', nofun, nofun⟩
  | removed =>
    obtain ⟨rfl, hdrops⟩ := hdoes
    refine ⟨(Keeps.refl (hs.near hnear)).near hnear hnear', nofun, fun _ => ?_⟩
    exact ⟨hnear.trans hnear', hdrops.near hnear'⟩
  | replaced _ => cases hdoes
  | expanded _ => cases hdoes

lemma keeps_removal (ht₁ : s₁.tree.Reachable) (hok : Pass.offer σ rule n s = .ok .removed s₁)
    (hfinish : Pass.finishRemoval rule.id n s₁ = .ok () s₂) :
    Keeps σ.oracle cases s.tree n s₂.tree := by
  obtain ⟨hkeeps, _, hremoved⟩ := keeps_offer ht hn hacc hs hok
  obtain ⟨hnear, hdrops⟩ := hremoved rfl
  rcases Pass.finishRemoval_eq_ok_iff.mp hfinish with ⟨hdead, _⟩ | ⟨_, _, t₂, hremove, rfl⟩
  · rw [ht₁.sound.linked.isLive_of_attached (hnear.attached hn)] at hdead
    cases hdead
  · have htidied := hdrops.tidied ht₁.sound hremove
    exact (htidied.keeps ht₁.sound.linked hkeeps.suited).near hnear (.refl t₂)

end offers

/-! ### Passes -/

lemma slotLocal (oracle : Oracle) : rule.SlotLocal oracle := by
  refine .of_commands rfl editsOnly.reshapes.actsByCommands ?_
  intro pass n t files o w _ _ hacc happ
  have hdoes := ensures_does pass (w := ⟨t.checkpoint, files⟩) hacc o w happ
  cases o with
  | unchanged =>
    rw [hdoes.1]
    exact .of_same rfl fun _ _ _ => rfl
  | mutated =>
    have hr := hdoes.relabelled
    exact .of_same hr.root fun p _ _ => hr.children p
  | removed =>
    rw [hdoes.1]
    exact Or.inr (.of_same rfl fun _ _ _ => rfl)
  | replaced _ => cases hdoes
  | expanded _ => cases hdoes

variable {σ : PassSetting} {p : Pipeline} {stats : PassStats}

/-- Every offer keeps what is to become of the document, and settles its node. -/
lemma settles_migrate (hrules : σ.rules = [rule]) :
    Pass.Settles σ (fun t => Suited σ.oracle cases t ∧ t₀.Follows (migrate cases) t)
      (Still σ.oracle) := by
  have hrule : ∀ r ∈ σ.rules, r = rule := by simp [hrules]
  have hreshapes : rule.Reshapes := editsOnly.reshapes
  refine ⟨?_, ?_, ?_⟩
  · rintro s s₁ r n o hr ht ⟨hs, hfollows⟩ hn hacc hok ho
    obtain rfl := hrule r hr
    obtain ⟨hkeeps, _⟩ := keeps_offer ht.sound hn hacc hs hok
    exact ⟨⟨hkeeps.suited, Pass.follows_offer hreshapes hfollows hok fun _ => hkeeps.outline⟩,
      hkeeps.still⟩
  · rintro s s₁ s₂ r n hr ht ⟨hs, hfollows⟩ hn hacc hok hfinish
    obtain rfl := hrule r hr
    obtain ⟨_, ht₁, _⟩ := Pass.offer_slotLocal (slotLocal σ.oracle) ht hn hacc hok
    have hkeeps := keeps_removal ht.sound hn hacc hs ht₁ hok hfinish
    exact ⟨⟨hkeeps.suited,
      Pass.follows_removal hreshapes hfollows hok hfinish fun _ => hkeeps.outline⟩, hkeeps.still⟩
  · rintro v s s' n current lineage lineage' ht ⟨hs, _⟩ hn hok
    rw [hrules, List.filter_cons, if_pos (by decide), List.filter_nil] at hok
    rcases Pass.round_cons_eq_ok_iff.mp hok with ⟨hacc, hok⟩ | ⟨hacc, o, s₁, hoffer, hok⟩
    · cases hok
      intro hacc'
      rw [hacc] at hacc'
      cases hacc'
    · obtain ⟨_, hidle, _⟩ := keeps_offer ht.sound hn hacc hs hoffer
      obtain ⟨_, hdoes, _⟩ := offer_does ht.sound hn hacc hoffer
      cases o with
      | unchanged =>
        cases hok
        exact hidle rfl
      | mutated => cases hok
      | removed =>
        obtain ⟨_, hend⟩ := Pass.afterRemoved_eq_ok_iff.mp hok
        cases hend
      | replaced _ => cases hdoes
      | expanded _ => cases hdoes

/-- Where nothing is left to do, the migration of the document changes nothing. -/
lemma migrate_of_still (ht : t.WellLinked) (hs : Suited oracle cases t)
    (hstill : ∀ n, t.Reaches t.root n → Still oracle t n) (hx : t.Reaches t.root x) :
    migrate cases (t.outline x) = t.outline x := by
  induction x using ht.induction_up with | hstep x ih =>
  obtain ⟨c, hc⟩ := t.exists_construct? (ht.lt_size_of_reaches hx)
  have hsame : reparented c = c := by
    refine reparented_eq_self fun name parent interfaces hclass => ?_
    subst hclass
    have hkind : t.kind? x = some .classDecl := kind?_of_construct hc
    have hidle := hstill x hx (by rw [accepts, hkind]; rfl)
    rwa [acts, if_pos (by simp [Tree.hasKind, hkind]), actsOnClass, hc] at hidle
  have hrow : (t.children x).filter (fun y =>
      !(holdsStatements c && !cases.isEmpty && isSetup cases (t.outline y))) = t.children x := by
    rw [List.filter_eq_self]
    intro y hy
    have hlink := (ht.mem_children_iff x y).mp hy
    rw [Bool.not_eq_true', ← Bool.not_eq_true]
    intro hsetup
    have hkind := kind?_of_isSetup ht (Bool.and_eq_true_iff.mp hsetup).2
    have hidle := hstill y (hx.trans hlink.reaches) (by rw [accepts, hkind]; rfl)
    rw [acts, if_neg (by simp [Tree.hasKind, hkind]), isDropped_eq ht hs.names hkind,
      isTopLevel_of_link hlink hc, ← Bool.and_assoc, hsetup] at hidle
    cases hidle
  rw [migrate_outline ht hc, hsame, hrow, outline_eq ht, hc]
  congr 1
  refine List.map_congr_left fun y hy => ih y hy ?_
  exact hx.trans ((ht.mem_children_iff x y).mp hy).reaches

/-- A pipeline with the rule for test cases alone migrates the documents with these test cases. -/
lemma realizes_migrate (oracle : Oracle) (cases : List String) (hrules : p.rules = [rule]) :
    p.Realizes oracle (Suited oracle cases) (migrate cases) where
  decorate {t} ht hs := by
    refine hs.alike ⟨rfl, rfl⟩ fun n _ => ?_
    exact Tree.flag_decorate _ ht _ (by simp [Decoration.records])
  pass {t₀ pass w w' stats} _ ht hs hfollows hrun := by
    have hlocal : ∀ r ∈ (p.setting oracle pass).rules, r.SlotLocal oracle := by
      intro r hr
      rw [show (p.setting oracle pass).rules = [rule] from hrules] at hr
      rw [List.mem_singleton.mp hr]
      exact slotLocal oracle
    obtain ⟨ht', ⟨hs', hfollows'⟩, hstill⟩ := Pass.run_settles hlocal
      (settles_migrate hrules) ht ⟨hs, hfollows⟩ hrun
    exact ⟨ht', hs', hfollows', migrate_of_still ht'.sound.linked hs' hstill (Reaches.refl _)⟩

/-! ### Runs -/

/-- A run with the rule for test cases alone, over a document without test cases in the statements
right below files and namespaces, gives every class that extends the tester's test case the other
parent, and filters the rows of files and namespaces of exactly the statements that set the tester
up, if there is a test case at all; without one it changes nothing. -/
theorem run_filters_setup (oracle : Oracle) (limits : Limits) (hbound : 1 ≤ limits.revisitBound)
    (hpasses : 1 ≤ limits.maxPasses) {d : Document} {t : Tree} (hdoc : ofDocument d = .ok t)
    (hclear : ∀ x ∈ d.root.preorder, holdsStatements x.construct = true →
      ∀ e ∈ x.children, e.construct = .expression →
        ∀ y ∈ e.preorder, declaresCase oracle y.construct = false) :
    ∃ p, Pipeline.withRules limits [rule] = .ok p ∧
      ∃ t' report, (∃ N, ∀ depth ≥ N, (p.withDepth depth).run oracle t = (t', .ok report)) ∧
        t'.toDocument = .ok (migrated oracle d) ∧
        ((∀ x ∈ d.root.preorder, declaresCase oracle x.construct = false) →
          migrated oracle d = d) := by
  have htame : ∀ r ∈ [rule], r.Tame (gauge .unknown) oracle := by
    intro r hr
    rw [List.mem_singleton.mp hr]
    exact tame rfl
  have hroom : ∀ pass, ∀ r ∈ [rule], r.Replaces oracle →
      1 ≤ Pass.replacementLimit (Pipeline.setting { limits, rules := [rule] } oracle pass) := by
    intro pass r hr hreplaces
    rw [List.mem_singleton.mp hr] at hreplaces
    exact absurd hreplaces not_replaces
  have ht : Pipeline.UnderWay (Suited oracle (caseNames oracle none d.root))
      (migrate (caseNames oracle none d.root)) t t :=
    ⟨.ofDocument hdoc, suited_ofDocument hdoc hclear, .refl (Reachable.ofDocument hdoc).sound⟩
  obtain ⟨t', report, ⟨N, hrun⟩, _⟩ := Pipeline.run_tame (p := { limits, rules := [rule] }) htame
    hroom hbound ht.reachable.sound
  obtain ⟨hunderway, hdone⟩ := (realizes_migrate oracle _ rfl).run (outline_ofDocument hdoc).1
    hpasses ht (hrun N (Nat.le_refl N))
  refine ⟨{ limits, rules := [rule] }, Pipeline.withRules_singleton rfl, t', report, ⟨N, hrun⟩,
    hunderway.follows.toDocument hdoc hdone, fun hnone => ?_⟩
  have hnames : caseNames oracle none d.root = [] := caseNames_eq_nil_iff.mpr hnone
  rw [migrated, hnames, migrate_of_caseNames_eq_nil hnames]

/-- A test case between statements; another class is run, and one is loaded in a function call. -/
def suiteDocument (parent : String) (setup : List DocNode) : Document where
  root := .plain .file [
    .plain (.namespaceDecl "App") (setup ++ [
      .plain (.classDecl "PageTest" (some parent) []) [.plain (.method "testShow") []],
      .plain .expression [
        .plain (.functionCall "register") [.plain (.functionCall "require") []]],
      .plain .expression [
        .plain (.methodCall "run") [.plain (.instantiation "App\\Page") []]]])]

theorem run_filters_setup_suite :
    ∃ t p t' report,
      ofDocument (suiteDocument "\\Tester\\TestCase" [
        .plain .expression [.plain (.functionCall "require") []],
        .plain .expression [.plain (.staticCall "Tester\\Environment" "setup") []],
        .plain .expression [
          .plain (.methodCall "run") [.plain (.instantiation "\\App\\PageTest") []]]]) = .ok t ∧
      Pipeline.withRules {} [rule] = .ok p ∧
      (∃ N, ∀ depth ≥ N, (p.withDepth depth).run .unknown t = (t', .ok report)) ∧
      t'.toDocument = .ok (suiteDocument phpUnitCase []) := by
  generalize hd : suiteDocument "\\Tester\\TestCase" _ = d
  obtain ⟨t, hdoc, -⟩ := exists_ofDocument (d := d) (by rw [← hd]; decide +kernel)
  obtain ⟨p, hp, t', report, hrun, hdocument, _⟩ :=
    run_filters_setup .unknown {} (by decide) (by decide) hdoc (by rw [← hd]; decide +kernel)
  refine ⟨t, p, t', report, hdoc, hp, hrun, hdocument.trans (congrArg Except.ok ?_)⟩
  rw [← hd]
  decide +kernel

end Catalogue.TestCases

end CodeMigration
