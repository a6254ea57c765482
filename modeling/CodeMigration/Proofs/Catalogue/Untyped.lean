import CodeMigration.Proofs.Catalogue.Rework

/-!
# Migrations without types

Where an application without types changes something, it leaves a reworked tree behind (`Rework`),
or it says that a statement right below a file or a namespace is to go.
-/

namespace CodeMigration

namespace Catalogue

variable {t t' t₁ : Tree} {n : NodeId} {w : Workspace}

/-- What an application without types does to the tree, by the outcome it reports. -/
def Reworks (t : Tree) (n : NodeId) : Outcome → Tree → Prop
  | .unchanged, _ => True
  | .mutated, t' => Rework t n [n] t'
  | .removed, t' => t' = t ∧ t.kind? n = some .expression ∧ TestCases.isTopLevel t n = true
  | .replaced _, _ => False
  | .expanded _, _ => False

lemma ensures_unchanged : Action.Ensures (pure .unchanged) w (Reworks t n) :=
  Action.Ensures.pure trivial

lemma construct?_setConstruct_self {c d : Construct} (hc : t.construct? n = some d) :
    (t.setConstruct n c).construct? n = some c := by
  rw [Tree.construct?_setConstruct, if_pos rfl, hc, Option.map_some]

/-! ### Assertions -/

namespace Assertions

lemma ensures_dropFirst (ht : w.tree.Sound) (hkind : w.tree.kind? n = some .staticCall) :
    (dropFirst n).Ensures w fun _ t' => w.tree.Graft n [] t' := by
  have hstart := Tree.Graft.start ht n []
  refine Action.Ensures.tree_bind ?_
  split
  · next first hfirst =>
    refine Action.Ensures.edit fun t' hok => ?_
    have hlink := ht.linked.link_of_child? hfirst
    refine hstart.shift (Tree.shifted_removeChild ht.linked hok) ?_ (fun _ => Or.inl rfl) ?_
    · intro r hr
      cases hr
    · intro r hr hmethod
      obtain rfl := hr.unique hlink
      simp [hkind] at hmethod
  · exact Action.Ensures.pure hstart

lemma rework_retarget {className method : String} (ht : t.Sound) (hg : t.Graft n [] t₁)
    (hc : t.construct? n = some (.staticCall className method))
    (htester : isTester .unknown className = true) (name : String) :
    Rework t n [n] (t₁.setConstruct n (.staticCall phpUnit name)) := by
  have hkind := kind?_of_construct hc
  have hlt := Tree.lt_size_of_kind? hkind
  have hc₁ := (hg.construct? n hlt).trans hc
  have hnew := construct?_setConstruct_self (c := .staticCall phpUnit name) hc₁
  have hkind₁ : t₁.kind? n = some .staticCall := kind?_of_construct hc₁
  have hr : Relabelled {n} ∅ t₁ (t₁.setConstruct n (.staticCall phpUnit name)) :=
    (Relabelled.refl t₁).setConstruct (Set.mem_singleton n) hkind₁
  have hreform : Reform t n (t₁.setConstruct n (.staticCall phpUnit name)) := by
    refine reform_of_graft ht hg hr ?_ ?_ ?_ <;> simp
  refine hreform.rework_renamed ht (hr.root.trans hg.root) hkind rfl ?_ ?_ ?_ ?_
  · -- neither class sets the tester up
    simp only [isTester, Oracle.unknown, Bool.or_false, ClassName.same, beq_iff_eq] at htester
    simp only [callsEnvironment, hnew, hc, ClassName.same, htester]
    decide
  · intro p hp
    rw [Tree.children_setConstruct]
    exact hg.children p (ht.linked.lt_size_of_reaches hp.attached) hp.ne (by simp)
  · intro _ _ _ _ h
    simp [hnew] at h
  · intro _ h
    obtain ⟨_, _, _, h⟩ := exists_classDecl h
    simp [hnew] at h

lemma ensures_apply (pass : Nat) (ht : w.tree.Sound) :
    (apply .unknown pass n).Ensures w (Reworks w.tree n) := by
  refine Action.Ensures.require_bind (Action.Ensures.tree_bind ?_)
  split
  · next className method hc =>
    split
    · next htester =>
      split
      · next target _ =>
        rw [retarget]
        split
        · refine (ensures_dropFirst ht (kind?_of_construct hc)).bind fun _ w₁ hg => ?_
          exact Action.Ensures.update_bind
            (Action.Ensures.pure (rework_retarget ht hg hc htester _))
        · have hstart := Tree.Graft.start ht n []
          exact Action.Ensures.update_bind
            (Action.Ensures.pure (rework_retarget ht hstart hc htester _))
      · exact ensures_unchanged
    · exact ensures_unchanged
  · exact ensures_unchanged

end Assertions

/-! ### Test cases -/

namespace TestCases

variable {oracle : Oracle}

/-- The class `n` gets the other parent and a mark. -/
def Reparents (t : Tree) (n : NodeId) (t' : Tree) : Prop :=
  ∃ name parent interfaces, t.construct? n = some (.classDecl name (some parent) interfaces) ∧
    ClassName.same parent testerCase = true ∧
    t' = (t.setConstruct n
      (.classDecl name (some phpUnitCase) interfaces)).setAttribute n .processed (.flag true)

/-- Only the class itself changes. -/
lemma Reparents.relabelled (h : Reparents t n t') : Relabelled {n} {n} t t' := by
  obtain ⟨name, parent, interfaces, hc, _, rfl⟩ := h
  have hkind : t.kind? n = some .classDecl := kind?_of_construct hc
  have hnamed : Relabelled {n} {n} t
      (t.setConstruct n (.classDecl name (some phpUnitCase) interfaces)) :=
    (Relabelled.refl t).setConstruct (Set.mem_singleton n) hkind
  exact hnamed.setFlag (Set.mem_singleton n) (by decide)

lemma Reparents.reform (h : Reparents t n t') (ht : t.Sound) : Reform t n t' :=
  reform_of_graft ht (Tree.Graft.start ht n []) h.relabelled (by simp) (by simp) (by simp)

lemma Reparents.rework (h : Reparents t n t') (ht : t.Sound) : Rework t n [n] t' := by
  have hr := h.relabelled
  have hreform := h.reform ht
  obtain ⟨name, parent, interfaces, hc, hparent, rfl⟩ := h
  have hkind : t.kind? n = some .classDecl := kind?_of_construct hc
  have hnew := construct?_setConstruct_self (c := .classDecl name (some phpUnitCase) interfaces) hc
  refine hreform.rework_renamed ht hr.root hkind rfl ?_ (fun p _ => hr.children p) ?_ ?_
  · simp only [callsEnvironment, hc]
    rw [show (Tree.setAttribute _ n _ _).construct? n = _ from hnew]
  · intro _ _ _ _ h _
    cases hnew.symm.trans h
    rfl
  · intro _ _
    refine ⟨?_, name, some parent, some phpUnitCase, interfaces, interfaces, hc, hnew⟩
    simp [isTestCase, hc, hparent]

/-- The node `n` is a statement that is dropped. -/
structure Drops (oracle : Oracle) (t : Tree) (n : NodeId) : Prop where
  kind : t.kind? n = some .expression
  dropped : isDropped oracle t n = true

lemma Drops.isTopLevel (h : Drops oracle t n) : isTopLevel t n = true := by
  have hdropped := h.dropped
  rw [isDropped, Bool.and_eq_true] at hdropped
  exact hdropped.1

/-- What an application does, by the outcome it reports. -/
def Does (oracle : Oracle) (t : Tree) (n : NodeId) : Outcome → Tree → Prop
  | .unchanged, t' => t' = t ∧ acts oracle t n = false
  | .mutated, t' => Reparents t n t'
  | .removed, t' => t' = t ∧ Drops oracle t n
  | .replaced _, _ => False
  | .expanded _, _ => False

lemma ensures_does (pass : Nat) (hacc : Pass.accepts w.tree rule n = true) :
    (apply oracle pass n).Ensures w (Does oracle w.tree n) := by
  refine Action.Ensures.require_bind (Action.Ensures.tree_bind ?_)
  split
  · next hclass =>
    rw [applyToClass]
    split
    · next hc =>
      split
      · next hparent =>
        exact Action.Ensures.update_bind (Action.Ensures.update_bind
          (Action.Ensures.pure ⟨_, _, _, hc, hparent, rfl⟩))
      · next hparent =>
        refine Action.Ensures.pure ⟨rfl, ?_⟩
        rw [acts, if_pos hclass, actsOnClass, hc]
        simpa using hparent
    · next hnone =>
      refine Action.Ensures.pure ⟨rfl, ?_⟩
      rw [acts, if_pos hclass, actsOnClass]
      split
      · next hc => exact absurd hc (hnone _ _ _)
      · rfl
  · next hclass =>
    split
    · next hdropped =>
      exact Action.Ensures.pure ⟨rfl, TestCases.kind?_of_accepts hacc hclass, hdropped⟩
    · next hkept =>
      refine Action.Ensures.pure ⟨rfl, ?_⟩
      rw [acts, if_neg hclass]
      simpa using hkept

lemma ensures_apply (pass : Nat) (ht : w.tree.Sound) (hacc : Pass.accepts w.tree rule n = true) :
    (apply .unknown pass n).Ensures w (Reworks w.tree n) := by
  refine (ensures_does pass hacc).mono fun o t' hdoes => ?_
  cases o with
  | unchanged => trivial
  | mutated => exact hdoes.rework ht
  | removed => exact ⟨hdoes.1, hdoes.2.kind, hdoes.2.isTopLevel⟩
  | replaced _ => exact hdoes
  | expanded _ => exact hdoes

end TestCases

/-! ### Routes -/

namespace Routes

section building

variable {a : NodeId} (h : t.Graft a [] w.tree)
include h

lemma ensures_items (httpMethods : List String) :
    Action.Ensures (httpMethods.mapM fun (m : String) => do
        let value ← Action.add (.string (m.map Char.toUpper))
        Action.addWithChildren (.arrayItem false) [value]) w fun items t' =>
      t.Graft a [] t' ∧ ∀ i ∈ items, t.size ≤ i := by
  refine Action.Ensures.mapM (fun m _ w' h' => ?_) h
  refine (Action.ensures_add h' rfl).bind ?_
  rintro value w₁ ⟨h₁, hvalue⟩
  refine (Action.ensures_addWithChildren h₁ rfl ?_ ?_).mono fun id t' hid => hid.1
  · simpa using hvalue
  · simp

lemma ensures_buildMethods (httpMethods : List String) :
    (buildMethods httpMethods).Ensures w fun ids t' =>
      t.Graft a [] t' ∧ ∀ i ∈ ids, t.size ≤ i := by
  rw [buildMethods]
  split
  · exact Action.Ensures.pure ⟨h, by simp⟩
  · refine (ensures_items h httpMethods).bind ?_
    rintro items w₁ ⟨h₁, hitems⟩
    refine (Action.ensures_add h₁ rfl).bind ?_
    rintro key w₂ ⟨h₂, hkey⟩
    refine (Action.ensures_addWithChildren h₂ rfl ?_ ?_).bind ?_
    · exact fun x hx => Or.inl (hitems x hx)
    · simp
    rintro list w₃ ⟨⟨h₃, hlist⟩, -⟩
    refine (Action.ensures_addWithChildren h₃ rfl ?_ ?_).bind ?_
    · simp [hkey, hlist]
    · simp
    rintro item w₄ ⟨⟨h₄, hitem⟩, -⟩
    exact Action.Ensures.pure ⟨h₄, by simpa using hitem⟩

lemma ensures_buildDocTag (route : Route) :
    (buildDocTag route).Ensures w fun id t' =>
      (t.Graft a [] t' ∧ t.size ≤ id) ∧ t'.construct? id = some (.docTag routeClass) := by
  refine (Action.ensures_add h rfl).bind ?_
  rintro path w₁ ⟨h₁, hpath⟩
  refine (ensures_buildMethods h₁ route.httpMethods).bind ?_
  rintro methods w₂ ⟨h₂, hmethods⟩
  refine Action.ensures_addWithChildren h₂ rfl ?_ ?_
  · intro x hx
    rcases List.mem_cons.mp hx with rfl | hx
    · exact Or.inl hpath
    · exact Or.inl (hmethods x hx)
  · simp

end building

lemma rework_annotated {t₂ : Tree} {tag : NodeId} (ht : t.Sound) (hn : t.Reaches t.root n)
    (hkind : t.kind? n = some .method) (hg : t.Graft t.size [] t₁) (htag : t.size ≤ tag)
    (hc : t₁.construct? tag = some (.docTag routeClass))
    (hok : t₁.insertChild n 0 tag = .ok t₂) :
    Rework t n [n] (t₂.setAttribute n .hasRoute (.flag true)) := by
  have hlt := ht.linked.lt_size_of_reaches hn
  obtain ⟨hs, hrow⟩ := Tree.shifted_insertChild hg.sound.linked hok
  have hg₂ : t.Graft n [] t₂ := by
    refine (hg.anchor n).shift hs ?_ (fun _ => Or.inl rfl) ?_
    · rintro r ⟨⟩
      exact Or.inr ⟨rfl, htag⟩
    · intro r hr
      exact absurd (ht.linked.link_lt hr).2 (Nat.not_lt.mpr htag)
  have hkey : AttributeKey.hasRoute ≠ .enclosingClass := by decide
  have hr : Relabelled ∅ {n} t₂ (t₂.setAttribute n .hasRoute (.flag true)) :=
    (Relabelled.refl t₂).setFlag (Set.mem_singleton n) hkey
  have hreform := reform_of_graft (n := n) ht hg₂ hr (by simp) (by simp) (by simp)
  have hsame : ∀ x < t.size, t₁.children x = t.children x :=
    fun x hx => hg.children x hx (Nat.ne_of_lt hx) (by simp)
  have htag' : (t₂.setAttribute n .hasRoute (.flag true)).construct? tag =
      some (.docTag routeClass) := (hs.construct? tag).trans hc
  have hrow' : (t₂.setAttribute n .hasRoute (.flag true)).children n = tag :: t.children n := by
    rw [← hsame n hlt]
    exact hrow
  refine hreform.rework_tagged ht (hr.root.trans hg₂.root) hn hkind ?_ ?_ hrow' ?_ ?_
  · intro x hx
    exact (hr.construct? x (Set.notMem_empty x)).trans (hg₂.construct? x hx)
  · intro x hx hne
    rw [hr.children, hs.children x hne, hsame x hx]
  · exact kind?_of_construct htag'
  · rw [isAnnotated, hrow', List.any_cons, htag']
    simp [ClassName.same]

lemma ensures_apply (routes : List Route) (oracle : Oracle) (pass : Nat) (ht : w.tree.Sound)
    (hn : w.tree.Reaches w.tree.root n) (hkind : w.tree.kind? n = some .method) :
    (apply routes oracle pass n).Ensures w (Reworks w.tree n) := by
  refine Action.Ensures.tree_bind ?_
  split
  · exact ensures_unchanged
  · refine Action.Ensures.require_bind (Action.Ensures.tree_bind ?_)
    split
    · exact Action.Ensures.update_bind ensures_unchanged
    · split
      · exact ensures_unchanged
      · next route _ =>
        have hstart := Tree.Graft.start ht w.tree.size []
        refine (ensures_buildDocTag hstart route).bind ?_
        rintro tag w₁ ⟨⟨hg, htag⟩, hc⟩
        refine (Action.Ensures.edit (Q := fun _ t₂ => w₁.tree.insertChild n 0 tag = .ok t₂)
          fun _ hok => hok).bind fun _ w₂ hok => ?_
        refine Action.Ensures.update_bind (Action.Ensures.pure ?_)
        exact rework_annotated ht hn hkind hg htag hc hok

end Routes

/-! ### Controls -/

namespace Controls

/-- What a template statement hands over stands below no declaration but the method. -/
lemma Hands.scopes {method s v : NodeId} {st : TemplateStatement} (h : Hands t method st s v)
    (ht : t.WellLinked) : (∀ r, t.Link r v → t.kind? r ≠ some .method) ∧
      ∀ k : Kind, k.declares = true → t.enclosing? v k = t.within? method k := by
  obtain ⟨e, hse, hev, hkind⟩ := exists_link_of_part ht h.statement h.part
  have hs := kind?_of_templateStatement? h.statement
  constructor
  · intro r hr
    obtain rfl := hr.unique hev
    rcases hkind with hkind | hkind <;> simp [hkind]
  · intro k hk
    have hne : t.hasKind s k = false := by
      rw [Tree.hasKind, hs]
      cases k <;> cases hk <;> rfl
    have hne' : t.hasKind e k = false := by
      rcases hkind with hkind | hkind <;> rw [Tree.hasKind, hkind] <;> cases k <;> cases hk <;> rfl
    rw [ht.enclosing?_of_link hev, hne', if_neg Bool.false_ne_true, ht.enclosing?_of_link hse, hne,
      if_neg Bool.false_ne_true, ht.enclosing?_of_link h.link, Tree.within?]

section gathering

variable {method file : NodeId} {moved : List NodeId} (ht : t.Sound)
  (h : t.Graft method moved w.tree)
  (hmoved : ∀ v ∈ moved, ∀ r, t.Link r v → t.kind? r ≠ some .method)
include h hmoved

lemma ensures_release {v : NodeId} (hv : v ∈ moved) :
    (release v).Ensures w fun _ t' => t.Graft method moved t' := by
  refine Action.Ensures.tree_bind ?_
  split
  · next p hp =>
    refine Action.Ensures.edit fun t' hok => ?_
    refine h.shift (Tree.shifted_detach h.sound.linked hok) ?_ (fun hlt => ?_) ?_
    · intro r hr
      cases hr
    · rcases h.link hp with hold | ⟨hnew, _⟩ | ⟨ha, _⟩
      · exact Or.inr ⟨v, hv, hold⟩
      · exact absurd hlt (Nat.not_lt.mpr hnew)
      · exact Or.inl ha
    · intro r hr hr'
      exact absurd hr' (hmoved v hv r hr)
  · exact Action.Ensures.pure h

lemma ensures_buildVariables {assigned : List (String × NodeId)}
    (hassigned : ∀ entry ∈ assigned, entry.2 ∈ moved) :
    (buildVariables assigned).Ensures w fun ids t' =>
      t.Graft method moved t' ∧ ∀ i ∈ ids, t.size ≤ i := by
  rw [buildVariables]
  split
  · exact Action.Ensures.pure ⟨h, by simp⟩
  · have hitems : Action.Ensures (assigned.mapM fun entry => Action.addItem entry.1 entry.2) w
        fun items t' => t.Graft method moved t' ∧ ∀ i ∈ items, t.size ≤ i := by
      refine Action.Ensures.mapM (fun entry hentry w' h' => ?_) h
      exact Action.ensures_addItem h' entry.1 (Or.inr (hassigned entry hentry)) hmoved
    refine hitems.bind ?_
    rintro items w₁ ⟨h₁, hitems⟩
    refine (Action.ensures_addWithChildren h₁ rfl ?_ hmoved).bind ?_
    · exact fun x hx => Or.inl (hitems x hx)
    rintro array w₂ ⟨⟨h₂, harray⟩, -⟩
    exact Action.Ensures.pure ⟨h₂, by simpa using harray⟩

lemma ensures_buildReturn (hfile : file ∈ moved) {assigned : List (String × NodeId)}
    (hassigned : ∀ entry ∈ assigned, entry.2 ∈ moved) :
    (buildReturn file assigned).Ensures w fun id t' => t.Graft method moved t' ∧ t.size ≤ id := by
  refine (Action.ensures_add h rfl).bind ?_
  rintro this w₁ ⟨h₁, hthis⟩
  refine (ensures_buildVariables h₁ hmoved hassigned).bind ?_
  rintro array w₂ ⟨h₂, harray⟩
  refine (Action.ensures_addWithChildren h₂ rfl ?_ hmoved).bind ?_
  · intro x hx
    simp only [List.cons_append, List.nil_append, List.mem_cons] at hx
    rcases hx with rfl | rfl | hx
    · exact Or.inl hthis
    · exact Or.inr hfile
    · exact Or.inl (harray x hx)
  rintro call w₃ ⟨⟨h₃, hcall⟩, -⟩
  refine (Action.ensures_addWithChildren h₃ rfl ?_ hmoved).mono fun id t' hid => hid.1
  simpa using Or.inl hcall

include ht

lemma ensures_gather (hmem : file ∈ moved)
    (hassigned : ∀ entry ∈ (templateUse t method).assigned, entry.2 ∈ moved) :
    (gather method (templateUse t method) file).Ensures w fun _ t' =>
      t.Graft method moved t' := by
  have hreleased : Action.Ensures
      ((templateUse t method).assigned.forM fun entry => release entry.2) w
      fun _ t' => t.Graft method moved t' := by
    refine Action.Ensures.forM (fun entry hentry w' h' => ?_) h
    exact ensures_release h' hmoved (hassigned entry hentry)
  refine hreleased.bind fun _ w₁ h₁ => ?_
  refine (ensures_release h₁ hmoved hmem).bind fun _ w₂ h₂ => ?_
  have hremoved : Action.Ensures
      ((templateUse t method).statements.forM fun s => Action.edit (Edit.removeChild method s)) w₂
      fun _ t' => t.Graft method moved t' := by
    refine Action.Ensures.forM (fun s hs w' h' => Action.Ensures.edit fun t' hok => ?_) h₂
    refine h'.shift (Tree.shifted_removeChild h'.sound.linked hok) ?_ (fun _ => Or.inl rfl) ?_
    · intro r hr
      cases hr
    · intro r _ _
      simp [kind?_of_mem_statements hs]
  refine hremoved.bind fun _ w₃ h₃ => ?_
  refine (ensures_buildReturn h₃ hmoved hmem hassigned).bind ?_
  rintro id w₄ ⟨h₄, hid⟩
  refine Action.Ensures.edit fun t' hok => ?_
  refine h₄.shift (Tree.shifted_pushChild h₄.sound.linked hok) ?_ (fun _ => Or.inl rfl) ?_
  · rintro r ⟨⟩
    exact Or.inr ⟨rfl, hid⟩
  · intro r hr
    exact absurd (ht.linked.link_lt hr).2 (Nat.not_lt.mpr hid)

end gathering

lemma rework_converted {t' : Tree} {method file : NodeId} {name name' parent : String}
    {interfaces : List String} (ht : t.Sound) (hn : t.Reaches t.root n)
    (hc : t.construct? n = some (.classDecl name (some parent) interfaces))
    (hcontrol : isControl .unknown parent = true) (hm : t.Link n method)
    (hmethod : t.kind? method = some .method)
    (hfile : (templateUse t method).file = some file)
    (hg : t.Graft method (file :: (templateUse t method).assigned.map (·.2)) t₁)
    (hr : Relabelled {n, method} ∅ t₁ t')
    (hnew : t'.construct? n = some (.classDecl name' (some controller) interfaces)) :
    Rework t n [n] t' := by
  have hkind : t.kind? n = some .classDecl := kind?_of_construct hc
  have hhands := fun v (hv : v ∈ file :: (templateUse t method).assigned.map (·.2)) =>
    hands_of_mem ht.linked hfile hv
  have hreform : Reform t n t' := by
    refine reform_of_graft ht hg hr ?_ ?_ ?_
    · intro v hv
      obtain ⟨st, s, hs⟩ := hhands v hv
      exact ⟨hn.trans (hm.reaches.trans (hs.link.reaches.trans (hs.reaches ht.linked))),
        (hs.scopes ht.linked).2⟩
    · rintro x (rfl | rfl)
      · exact Or.inl rfl
      · exact Or.inr ⟨hmethod, hm.reaches⟩
    · simp
  -- a control has not been migrated as a test case
  have hunmarked : Lawful t → t'.attributes.flag n .processed = false := by
    intro hl
    rw [← Bool.not_eq_true]
    intro hflag
    have hsame := hr.attribute? hg.sound n .processed (by decide) (Or.inl (Set.notMem_empty n))
    rw [Tree.attribute?, Tree.attribute?] at hsame
    rw [Attributes.flag, hsame] at hflag
    have hparent := hl.migrated n name parent interfaces hn hc
      (ht.distinct.flag_trimmed hg.trimmed hflag)
    rw [hparent] at hcontrol
    revert hcontrol
    decide
  refine hreform.rework_renamed ht (hr.root.trans hg.root) hkind rfl ?_ ?_ ?_ ?_
  · simp only [callsEnvironment, hnew, hc]
  · intro p hp
    rw [hr.children]
    refine hg.children p (ht.linked.lt_size_of_reaches hp.attached) ?_ ?_
    · rintro rfl
      exact hp.out hm.reaches
    · intro v hv hlink
      obtain ⟨st, s, hs⟩ := hhands v hv
      obtain ⟨q, hq, hqv⟩ := hs.below ht.linked hm.reaches
      exact hp.out (hlink.unique hqv ▸ hq)
  · intro hl _ _ _ _ hflag
    simp [hunmarked hl] at hflag
  · intro hl hcase
    simp only [TestCases.isTestCase, hnew, hunmarked hl, Oracle.unknown, Bool.false_or,
      Bool.or_false] at hcase
    have hother : ClassName.same controller TestCases.testerCase = false := by decide
    simp [hother] at hcase

lemma ensures_convert {method file : NodeId} {name parent : String} {interfaces : List String}
    (ht : w.tree.Sound) (hn : w.tree.Reaches w.tree.root n)
    (hc : w.tree.construct? n = some (.classDecl name (some parent) interfaces))
    (hcontrol : isControl .unknown parent = true) (hm : w.tree.Link n method)
    (hmethod : w.tree.kind? method = some .method)
    (hfile : (templateUse w.tree method).file = some file) :
    (convert n method (templateUse w.tree method) file name interfaces).Ensures w
      (Reworks w.tree n) := by
  have hstart := Tree.Graft.start ht method (file :: (templateUse w.tree method).assigned.map (·.2))
  have hgather := ensures_gather ht hstart (fun v hv => ?_) List.mem_cons_self fun entry hentry =>
    List.mem_cons_of_mem file (List.mem_map_of_mem (f := Prod.snd) hentry)
  · refine hgather.bind fun _ w₁ hg => ?_
    refine Action.Ensures.update_bind (Action.Ensures.update_bind (Action.Ensures.pure ?_))
    obtain ⟨hlt, hlt'⟩ := ht.linked.link_lt hm
    have hkind₁ : ∀ x < w.tree.size, w₁.tree.kind? x = w.tree.kind? x := fun x hx => by
      rw [Tree.kind?, hg.construct? x hx, Tree.kind?]
    have hr₁ : Relabelled {n, method} ∅ w₁.tree
        (w₁.tree.setConstruct method (.method (actionName name))) :=
      (Relabelled.refl _).setConstruct (by simp) ((hkind₁ method hlt').trans hmethod)
    refine rework_converted ht hn hc hcontrol hm hmethod hfile hg (hr₁.setConstruct (by simp) ?_)
      (construct?_setConstruct_self (d := .classDecl name (some parent) interfaces) ?_)
    · rw [hkind₁ n hlt, kind?_of_construct hc]
      rfl
    · rw [Tree.construct?_setConstruct, if_neg, hg.construct? n hlt, hc]
      rintro rfl
      cases (kind?_of_construct hc).symm.trans hmethod
  · obtain ⟨st, s, hs⟩ := hands_of_mem ht.linked hfile hv
    exact (hs.scopes ht.linked).1

lemma ensures_apply (pass : Nat) (ht : w.tree.Sound) (hn : w.tree.Reaches w.tree.root n) :
    (apply .unknown pass n).Ensures w (Reworks w.tree n) := by
  refine Action.Ensures.require_bind (Action.Ensures.tree_bind ?_)
  split
  · next name parent interfaces hc =>
    split
    · next hcontrol =>
      split
      · next method hmethod =>
        dsimp only
        split
        · next file hfile =>
          have hm : w.tree.Link n method :=
            (ht.linked.mem_children_iff n method).mp (List.mem_of_find?_eq_some hmethod)
          have hrender := List.find?_some hmethod
          rw [beq_iff_eq] at hrender
          exact ensures_convert ht hn hc hcontrol hm (kind?_of_construct hrender) hfile
        · exact ensures_unchanged
      · exact ensures_unchanged
    · exact ensures_unchanged
  · exact ensures_unchanged

end Controls

/-! ### The list of migrations -/

/-- A migration without types reworks the tree, or leaves it to rest. -/
lemma ensures_migration (pass : Nat) {routes : List Route} {m : Migration}
    (hm : m ∈ migrations routes)
    (ht : w.tree.Sound) (hn : w.tree.Reaches w.tree.root n)
    (hacc : Pass.accepts w.tree m.rule n = true) :
    (m.rule.apply .unknown pass n).Ensures w fun o t' =>
      m.acts .unknown w.tree n = true → Reworks w.tree n o t' := by
  simp only [migrations, List.mem_cons, List.not_mem_nil, or_false] at hm
  rcases hm with rfl | rfl | rfl | rfl | rfl | rfl | rfl
  · intro o w' _ hacts
    cases (Forms.acts_unknown w.tree n).symm.trans hacts
  · exact (Assertions.ensures_apply pass ht).mono fun o t' h _ => h
  · exact (TestCases.ensures_apply pass ht hacc).mono fun o t' h _ => h
  · intro o w' _ hacts
    cases (RequestParameters.reads_unknown w.tree n).symm.trans hacts
  · exact (Controls.ensures_apply pass ht hn).mono fun o t' h _ => h
  · intro o w' _ hacts
    cases hacts
  · have hkind := kind?_of_accepts rfl hacc
    exact (Routes.ensures_apply routes .unknown pass ht hn hkind).mono fun o t' h _ => h

end Catalogue

end CodeMigration
