import CodeMigration.Proofs.Catalogue.Mirror
import CodeMigration.Proofs.Pass.Slotwise
import CodeMigration.Proofs.Rule.Grafts

/-!
# What migrations change

Without types a migration that changes a node grafts new nodes into its subtree, gives the node and
perhaps a method below it another name, and marks the node. `Rework` says what follows for the whole
tree: the marks stay lawful, no test case comes about, and a node outside that was left alone is
left alone.
-/

namespace CodeMigration

namespace Catalogue

variable {t t' t'' t₁ : Tree} {n m : NodeId}

/-! ### Other names -/

/-- The nodes of `named` stand for something else of the same kind, and the nodes of `marked` carry
other flags. -/
structure Relabelled (named marked : Set NodeId) (t t' : Tree) : Prop where
  sound : t.Sound → t'.Sound
  root : t'.root = t.root
  parent? : ∀ x, t'.parent? x = t.parent? x
  children : ∀ x, t'.children x = t.children x
  kind? : ∀ x, t'.kind? x = t.kind? x
  construct? : ∀ x, x ∉ named → t'.construct? x = t.construct? x
  attribute? : t.Sound → ∀ x key, key ≠ .resolvedType → x ∉ marked ∨ key = .enclosingClass →
    t'.attribute? x key = t.attribute? x key

namespace Relabelled

variable {named marked : Set NodeId}

lemma refl (t : Tree) : Relabelled named marked t t :=
  ⟨id, rfl, fun _ => rfl, fun _ => rfl, fun _ => rfl, fun _ _ => rfl, fun _ _ _ _ _ => rfl⟩

lemma trans (h : Relabelled named marked t t') (h' : Relabelled named marked t' t'') :
    Relabelled named marked t t'' where
  sound hs := h'.sound (h.sound hs)
  root := h'.root.trans h.root
  parent? x := (h'.parent? x).trans (h.parent? x)
  children x := (h'.children x).trans (h.children x)
  kind? x := (h'.kind? x).trans (h.kind? x)
  construct? x hx := (h'.construct? x hx).trans (h.construct? x hx)
  attribute? hs x key hkey hx :=
    (h'.attribute? (h.sound hs) x key hkey hx).trans (h.attribute? hs x key hkey hx)

lemma setConstruct (h : Relabelled named marked t t') (hn : n ∈ named) {c : Construct}
    (hkind : t.kind? n = some c.kind) : Relabelled named marked t (t'.setConstruct n c) := by
  have hkind' : t'.kind? n = some c.kind := (h.kind? n).trans hkind
  obtain ⟨old, hold, hsame⟩ := Option.map_eq_some_iff.mp hkind'
  refine h.trans ⟨fun hs => ?_, ?_, fun x => ?_, fun x => ?_, fun x => ?_, fun x hx => ?_,
    fun hs x key hkey _ => ?_⟩
  · exact hs.edited (Tree.reshaped_setConstruct (Tree.lt_size_of_kind? hkind') c).edited
  · exact Tree.root_setConstruct n c
  · exact Tree.parent?_setConstruct n c x
  · exact Tree.children_setConstruct n c x
  · rw [Tree.kind?, Tree.construct?_setConstruct]
    split
    · next hx => rw [hx, hkind', hold]; rfl
    · rfl
  · rw [Tree.construct?_setConstruct, if_neg]
    rintro rfl
    exact hx hn
  · rw [Tree.attribute?, Tree.setConstruct, Tree.attributes_modifySlot]
    show (t'.attributes.erase n .resolvedType).get? x key = _
    rw [hs.distinct.get?_erase, if_neg fun h => hkey h.2, Tree.attribute?]

lemma setFlag (h : Relabelled named marked t t') (hn : n ∈ marked) {key : AttributeKey}
    (hkey : key ≠ .enclosingClass) :
    Relabelled named marked t (t'.setAttribute n key (.flag true)) := by
  refine h.trans ⟨fun hs => hs.edited (t'.edited_setAttribute n key _), rfl, fun _ => rfl,
    fun _ => rfl, fun _ => rfl, fun _ _ => rfl, fun _ x key' _ hx => ?_⟩
  show (t'.attributes.set n key (.flag true)).get? x key' = _
  rw [Attributes.get?_set, if_neg, Tree.attribute?]
  rintro ⟨rfl, rfl⟩
  rcases hx with hx | hx
  · exact hx hn
  · exact hkey hx

lemma link (h : Relabelled named marked t t') : t'.Link = t.Link := by
  funext p c
  rw [Tree.Link, h.parent?, Tree.Link]

lemma reaches (h : Relabelled named marked t t') : t'.Reaches = t.Reaches := by
  funext p c
  rw [Tree.Reaches, h.link, Tree.Reaches]

end Relabelled

/-! ### Whole trees -/

/-- What a graft with other names in the subtree of `n` leaves alone. -/
structure Reform (t : Tree) (n : NodeId) (t' : Tree) : Prop where
  sound : t'.Sound
  kind? : ∀ x < t.size, t'.kind? x = t.kind? x
  construct? : ∀ x < t.size, x ≠ n → t.kind? x ≠ some .method ∨ ¬ t.Reaches n x →
    t'.construct? x = t.construct? x
  fresh : ∀ x, t.size ≤ x → (t'.kind? x).any Kind.declares = false
  scopes : ∀ x < t.size, t'.Reaches t'.root x → t.Reaches t.root x ∧
    ∀ k : Kind, k.declares = true → t'.enclosing? x k = t.enclosing? x k
  tags : ∀ {p c}, t.Link p c → t.kind? p = some .method → t.kind? c = some .docTag → t'.Link p c
  attribute? : ∀ x key, key ≠ .resolvedType → x ≠ n ∨ key = .enclosingClass →
    t'.attribute? x key = t.attribute? x key ∨ t'.attribute? x key = none

lemma reform_of_graft {a : NodeId} {moved : List NodeId} {named marked : Set NodeId} (ht : t.Sound)
    (hg : t.Graft a moved t₁) (hr : Relabelled named marked t₁ t')
    (hmoved : ∀ v ∈ moved, t.Reaches t.root v ∧
      ∀ k : Kind, k.declares = true → t.enclosing? v k = t.within? a k)
    (hnamed : ∀ x ∈ named, x = n ∨ (t.kind? x = some .method ∧ t.Reaches n x))
    (hmarked : ∀ x ∈ marked, x = n) : Reform t n t' := by
  have hsound := hr.sound hg.sound
  have henclosing : ∀ x k, t'.enclosing? x k = t₁.enclosing? x k := by
    intro x
    induction x using hsound.linked.wellFounded.induction with
    | _ x ih =>
      intro k
      cases hx : t'.parent? x with
      | none =>
        rw [Tree.WellLinked.enclosing?_of_free hx,
          Tree.WellLinked.enclosing?_of_free (hr.parent? x ▸ hx)]
      | some p =>
        have hp : t₁.Link p x := by rwa [Tree.Link, ← hr.parent?]
        rw [hsound.linked.enclosing?_of_link hx, hg.sound.linked.enclosing?_of_link hp, ih p hx,
          Tree.hasKind, hr.kind?, Tree.hasKind]
  refine ⟨hsound, fun x hx => ?_, fun x hx hne hcase => ?_, fun x hx => ?_,
    fun x hx hattached => ?_, fun hl hp hc => hr.link ▸ hg.tags hl hp hc,
    fun x key hkey hx => ?_⟩
  · rw [hr.kind?, Tree.kind?, hg.construct? x hx, Tree.kind?]
  · rw [hr.construct?, hg.construct? x hx]
    intro hmem
    rcases hnamed x hmem with hxn | ⟨hmethod, hreach⟩
    · exact hne hxn
    · exact hcase.elim (fun h => h hmethod) fun h => h hreach
  · rw [hr.kind?]
    exact hg.fresh x hx
  · rw [hr.reaches, hr.root] at hattached
    obtain ⟨hattached', hsame⟩ := (hg.scopes ht hmoved hattached).1 hx
    exact ⟨hattached', fun k hk => (henclosing x k).trans (hsame k hk)⟩
  · have hother : x ∉ marked ∨ key = .enclosingClass :=
      hx.imp_left fun hne hmem => hne (hmarked x hmem)
    rw [hr.attribute? hg.sound x key hkey hother]
    exact ht.distinct.get?_trimmed hg.trimmed x key

lemma exists_classDecl {oracle : Oracle} (h : TestCases.isTestCase oracle t m = true) :
    ∃ name parent interfaces, t.construct? m = some (.classDecl name (some parent) interfaces) := by
  rw [TestCases.isTestCase] at h
  split at h
  · next hc => exact ⟨_, _, _, hc⟩
  · cases h

namespace Reform

variable (h : Reform t n t')
include h

/-- A declaration that is attached afterwards was attached before. -/
lemma lt_size {k : Kind} (hx : t'.kind? m = some k) (hk : k.declares = true) : m < t.size := by
  by_contra hge
  have hfresh := h.fresh m (Nat.not_lt.mp hge)
  rw [hx, Option.any_some, hk] at hfresh
  cases hfresh

lemma flag {key : AttributeKey} (hkey : key ≠ .resolvedType) (hm : m ≠ n)
    (hflag : t'.attributes.flag m key = true) : t.attributes.flag m key = true := by
  rw [Attributes.flag] at hflag ⊢
  rcases h.attribute? m key hkey (Or.inl hm) with hget | hget
  · rw [Tree.attribute?, Tree.attribute?] at hget
    rwa [hget] at hflag
  · rw [Tree.attribute?] at hget
    rw [hget] at hflag
    cases hflag

variable (ht : t.Sound)
include ht

/-- A method that carries an annotation keeps it. -/
lemma isAnnotated (hn : t.kind? n ≠ some .docTag) (hm : t.kind? m = some .method)
    (hannotated : Routes.isAnnotated t m = true) : Routes.isAnnotated t' m = true := by
  rw [Routes.isAnnotated, List.any_eq_true] at hannotated ⊢
  obtain ⟨c, hc, hroute⟩ := hannotated
  have hlink : t.Link m c := (ht.linked.mem_children_iff m c).mp hc
  have htag : t.kind? c = some .docTag := by
    split at hroute
    · next hc => exact kind?_of_construct hc
    · cases hroute
  refine ⟨c, (h.sound.linked.mem_children_iff m c).mpr (h.tags hlink hm htag), ?_⟩
  have hne : c ≠ n := by
    rintro rfl
    exact hn htag
  rwa [h.construct? c (ht.linked.link_lt hlink).2 hne (Or.inl (by simp [htag]))]

lemma lawful (hl : Lawful t) (hn : t.kind? n ≠ some .docTag)
    (hrouted : t.kind? n = some .method → t'.attributes.flag n .hasRoute = true →
      Routes.isAnnotated t' n = true)
    (hmigrated : ∀ name parent interfaces,
      t'.construct? n = some (.classDecl name (some parent) interfaces) →
      t'.attributes.flag n .processed = true → parent = TestCases.phpUnitCase) : Lawful t' where
  routed x hx hk hflag := by
    have hlt := h.lt_size hk rfl
    obtain ⟨hattached, _⟩ := h.scopes x hlt hx
    rw [h.kind? x hlt] at hk
    by_cases hxn : x = n
    · rw [hxn] at hk hflag ⊢
      exact hrouted hk hflag
    · exact h.isAnnotated ht hn hk
        (hl.routed x hattached hk (h.flag (by decide) hxn hflag))
  classes x hx hk := by
    have hlt := h.lt_size hk rfl
    obtain ⟨hattached, hsame⟩ := h.scopes x hlt hx
    rw [h.kind? x hlt] at hk
    rw [hsame .classDecl rfl]
    rcases h.attribute? x .enclosingClass (by decide) (Or.inr rfl) with hget | hget
    · rw [hget]
      exact hl.classes x hattached hk
    · exact Or.inl hget
  migrated x name parent interfaces hx hc hflag := by
    by_cases hxn : x = n
    · rw [hxn] at hc hflag
      exact hmigrated name parent interfaces hc hflag
    · have hk := kind?_of_construct hc
      have hlt := h.lt_size hk rfl
      obtain ⟨hattached, _⟩ := h.scopes x hlt hx
      rw [h.kind? x hlt] at hk
      rw [h.construct? x hlt hxn (Or.inl (by simp [hk, Construct.kind]))] at hc
      exact hl.migrated x name parent interfaces hattached hc
        (h.flag (by decide) hxn hflag)

omit ht in
/-- A class keeps its full name, if it keeps its own. -/
lemma qualifiedClass? (hn : t.kind? n ≠ some .namespaceDecl) {x : NodeId}
    (hx : t'.Reaches t'.root x) {name : String} {parent parent' : Option String}
    {interfaces interfaces' : List String}
    (hc : t.construct? x = some (.classDecl name parent interfaces))
    (hc' : t'.construct? x = some (.classDecl name parent' interfaces')) :
    t'.qualifiedClass? x = t.qualifiedClass? x := by
  have hlt := Tree.lt_size_of_kind? (kind?_of_construct hc)
  obtain ⟨hattached, hsame⟩ := h.scopes x hlt hx
  have hname : (t'.enclosing? x .namespaceDecl).bind t'.name? =
      (t.enclosing? x .namespaceDecl).bind t.name? := by
    rw [hsame .namespaceDecl rfl]
    cases hns : t.enclosing? x .namespaceDecl with
    | none => rfl
    | some ns =>
      have hkind : t.kind? ns = some .namespaceDecl := by
        simpa [Tree.hasKind] using List.find?_some hns
      have hne : ns ≠ n := by
        rintro rfl
        exact hn hkind
      rw [Option.bind_some, Option.bind_some, Tree.name?, Tree.name?,
        h.construct? ns (Tree.lt_size_of_kind? hkind) hne (Or.inl (by simp [hkind]))]
  rw [Tree.qualifiedClass?, hc', hname, Tree.qualifiedClass?, hc]

/-- No test case comes about. -/
lemma testCases_subset (hn : t.kind? n ≠ some .namespaceDecl)
    (hcase : TestCases.isTestCase .unknown t' n = true → TestCases.isTestCase .unknown t n = true ∧
      ∃ name parent parent' interfaces interfaces',
        t.construct? n = some (.classDecl name parent interfaces) ∧
        t'.construct? n = some (.classDecl name parent' interfaces')) :
    TestCases.testCases .unknown t' ⊆ TestCases.testCases .unknown t := by
  intro full hfull
  rw [TestCases.testCases, List.mem_filterMap] at hfull ⊢
  obtain ⟨x, hx, hname⟩ := hfull
  obtain ⟨hx, hxcase⟩ := List.mem_filter.mp hx
  rw [h.sound.linked.mem_nodes_iff] at hx
  obtain ⟨className, parent, interfaces, hc⟩ := exists_classDecl hxcase
  have hlt := h.lt_size (kind?_of_construct hc) rfl
  obtain ⟨hattached, _⟩ := h.scopes x hlt hx
  have hx' : x ∈ t.nodes := ht.linked.mem_nodes_iff.mpr hattached
  by_cases hxn : x = n
  · rw [hxn] at hxcase hx hx' hname
    obtain ⟨hwas, _, _, _, _, _, hc, hc'⟩ := hcase hxcase
    exact ⟨n, List.mem_filter.mpr ⟨hx', hwas⟩, h.qualifiedClass? hn hx hc hc' ▸ hname⟩
  · have hkind : t.kind? x = some .classDecl := by
      rw [← h.kind? x hlt]
      exact kind?_of_construct hc
    have hsame := h.construct? x hlt hxn (Or.inl (by simp [hkind]))
    have hwas : TestCases.isTestCase .unknown t x = true := by
      rw [hsame] at hc
      rw [TestCases.isTestCase, hsame, hc] at hxcase
      rw [TestCases.isTestCase, hc]
      simp only [Bool.or_eq_true] at hxcase ⊢
      exact hxcase.imp_left (Or.imp_left (h.flag (by decide) hxn))
    exact ⟨x, List.mem_filter.mpr ⟨hx', hwas⟩,
      h.qualifiedClass? hn hx (hsame ▸ hc) hc ▸ hname⟩

omit ht in
/-- What was no class has not become one. -/
lemma construct?_ne_classDecl {k : Kind} (hkind : t.kind? n = some k) (hk : k ≠ .classDecl)
    (name : String) (parent : Option String) (interfaces : List String) :
    t'.construct? n ≠ some (.classDecl name parent interfaces) := by
  intro hc
  have hkind' := (h.kind? n (Tree.lt_size_of_kind? hkind)).trans hkind
  rw [kind?_of_construct hc] at hkind'
  exact hk (Option.some.inj hkind').symm

lemma testCases_subset_of_ne_classDecl {k : Kind} (hkind : t.kind? n = some k)
    (hk : k ≠ .classDecl) (hns : k ≠ .namespaceDecl) :
    TestCases.testCases .unknown t' ⊆ TestCases.testCases .unknown t := by
  refine h.testCases_subset ht (by simpa [hkind] using hns) fun hcase => ?_
  obtain ⟨_, _, _, hc⟩ := exists_classDecl hcase
  exact absurd hc (h.construct?_ne_classDecl hkind hk _ _ _)

/-- A node outside stands where it stood. -/
lemma stands {row : List NodeId} (hocc : t.Occupied n row t') {F : NodeId → Prop}
    (hrow : t.Outside n m → t.kind? m ≠ some .file → t.kind? m ≠ some .namespaceDecl →
      t'.children m = t.children m ∧ ∀ c ∈ t.children m, F c) (hm : t.Outside n m) :
    Stands (fun a b => a = b ∧ F a) t m t' m := by
  have hconstruct : ∀ {x}, t.Outside n x → t'.construct? x = t.construct? x := fun {x} hx =>
    h.construct? x (ht.linked.lt_size_of_reaches hx.attached) hx.ne (Or.inr hx.out)
  have hkind : ∀ {x}, t.Outside n x → t'.kind? x = t.kind? x := fun hx => by
    rw [Tree.kind?, hconstruct hx, Tree.kind?]
  have hscopes : ∀ {x}, t.Outside n x → ∀ k : Kind, k.declares = true →
      t'.enclosing? x k = t.enclosing? x k := fun {x} hx =>
    (h.scopes x (ht.linked.lt_size_of_reaches hx.attached)
      (hocc.attached ht.linked h.sound.linked hx)).2
  -- what is around a node outside is outside
  have habove : ∀ {x y k}, t.Outside n x → t.enclosing? x k = some y → t.Outside n y := by
    intro x y k hx hy
    obtain ⟨p, hp, hyp⟩ := ht.linked.mem_ancestors_iff.mp (List.mem_of_find?_eq_some hy)
    have hyx : t.Reaches y x := hyp.trans hp.reaches
    refine ⟨?_, fun hny => hx.out (hny.trans hyx)⟩
    rcases hyx.total hx.attached with hroot | hroot
    · rw [hroot.eq_of_free ht.linked.root_free]
    · exact hroot
  refine ⟨hconstruct hm, fun hfile hns => ?_, ?_, fun _ => ?_⟩
  · obtain ⟨hsame, hF⟩ := hrow hm hfile hns
    rw [hsame]
    exact List.forall₂_same.mpr fun c hc => ⟨rfl, hF c hc⟩
  · rw [TestCases.isTopLevel, hocc.parent? ht.linked h.sound.linked hm, TestCases.isTopLevel]
    cases hp : t.parent? m with
    | none => rfl
    | some p =>
      have hout : t.Outside n p := hm.above ht.linked hp
      rw [Option.any_some, Option.any_some, Tree.hasKind, Tree.hasKind, hkind hout, Tree.hasKind,
        Tree.hasKind]
  · rw [owner?, owner?, hscopes hm .classDecl rfl]
    cases hc : t.enclosing? m .classDecl with
    | none => rfl
    | some c =>
      have hout := habove hm hc
      have hname : (t'.enclosing? c .namespaceDecl).bind t'.name? =
          (t.enclosing? c .namespaceDecl).bind t.name? := by
        rw [hscopes hout .namespaceDecl rfl]
        cases hns : t.enclosing? c .namespaceDecl with
        | none => rfl
        | some ns =>
          rw [Option.bind_some, Option.bind_some, Tree.name?, Tree.name?,
            hconstruct (habove hout hns)]
      rw [Option.bind_some, Option.bind_some, Tree.qualifiedClass?, hconstruct hout, hname,
        Tree.qualifiedClass?]

end Reform

/-! ### Reworked trees -/

/-- The nodes of `F` look the same in both trees. -/
lemma mirrors_same {F : NodeId → Prop}
    (hname : ∀ x, F x → t'.construct? x = t.construct? x ∨
      ∃ k, isRenamed k = true ∧ t.kind? x = some k ∧ t'.kind? x = some k)
    (henv : ∀ x, F x → callsEnvironment t' x = callsEnvironment t x)
    (hrow : ∀ x, F x → (t.kind? x).any isTransparent = true → t'.children x = t.children x)
    (hbody : ∀ x, F x → t.kind? x = some .method → ∃ tags, t'.children x = tags ++ t.children x ∧
      ∀ y ∈ tags, t'.kind? y = some .docTag)
    (hbelow : ∀ x, F x → (t.kind? x).any isTransparent = true ∨ t.kind? x = some .method →
      ∀ c ∈ t.children x, F c) : Mirrors (fun a b => a = b ∧ F a) t t' where
  construct? := by
    rintro a _ ⟨rfl, ha⟩
    exact hname a ha
  environment := by
    rintro a _ ⟨rfl, ha⟩
    exact henv a ha
  row := by
    rintro a _ ⟨rfl, ha⟩ hk
    rw [hrow a ha hk]
    exact List.forall₂_same.mpr fun c hc => ⟨rfl, hbelow a ha (Or.inl hk) c hc⟩
  body := by
    rintro a _ ⟨rfl, ha⟩ hk
    obtain ⟨tags, hchildren, htags⟩ := hbody a ha hk
    refine ⟨tags, t.children a, hchildren, htags, ?_⟩
    exact List.forall₂_same.mpr fun c hc => ⟨rfl, hbelow a ha (Or.inr hk) c hc⟩

/-- What a migration at `n` that leaves the row in its place does to the tree. -/
structure Rework (t : Tree) (n : NodeId) (row : List NodeId) (t' : Tree) : Prop where
  occupied : t.Occupied n row t'
  lawful : Lawful t → Lawful t'
  cases : Lawful t → TestCases.testCases .unknown t' ⊆ TestCases.testCases .unknown t
  mirror : ∃ R, Mirrors R t t' ∧ ∀ m, t.Outside n m → Stands R t m t' m

namespace Reform

variable (h : Reform t n t') (ht : t.Sound)
include h ht

lemma construct?_outside (hm : t.Outside n m) : t'.construct? m = t.construct? m :=
  h.construct? m (ht.linked.lt_size_of_reaches hm.attached) hm.ne (Or.inr hm.out)

lemma environment_outside (hm : t.Outside n m) : callsEnvironment t' m = callsEnvironment t m := by
  rw [callsEnvironment, h.construct?_outside ht hm, callsEnvironment]

/-- Another name for a class or a static call. -/
lemma rework_renamed (hroot : t'.root = t.root) {k : Kind} (hkind : t.kind? n = some k)
    (hk : isRenamed k = true) (henv : callsEnvironment t' n = callsEnvironment t n)
    (hrows : ∀ p, t.Outside n p → t'.children p = t.children p)
    (hmigrated : Lawful t → ∀ name parent interfaces,
      t'.construct? n = some (.classDecl name (some parent) interfaces) →
      t'.attributes.flag n .processed = true → parent = TestCases.phpUnitCase)
    (hcase : Lawful t → TestCases.isTestCase .unknown t' n = true →
      TestCases.isTestCase .unknown t n = true ∧ ∃ name parent parent' interfaces interfaces',
        t.construct? n = some (.classDecl name parent interfaces) ∧
        t'.construct? n = some (.classDecl name parent' interfaces')) : Rework t n [n] t' := by
  have hplain : t.kind? n ≠ some .docTag ∧ t.kind? n ≠ some .namespaceDecl ∧
      t.kind? n ≠ some .method ∧ (t.kind? n).any isTransparent = false := by
    rw [hkind]
    cases k <;> cases hk <;> simp [isTransparent]
  have hocc : t.Occupied n [n] t' := .of_same hroot fun p hp hout => hrows p ⟨hp, hout⟩
  have hchild : ∀ x, t.Outside n x → ∀ c ∈ t.children x, t.Outside n c ∨ c = n := by
    intro x hx c hc
    by_cases hcn : c = n
    · exact Or.inr hcn
    · exact Or.inl (hx.child ((ht.linked.mem_children_iff x c).mp hc) hcn)
  refine ⟨hocc, fun hl => ?_, fun hl => ?_, _,
    mirrors_same (F := fun x => t.Outside n x ∨ x = n) ?_ ?_ ?_ ?_ ?_, fun m hm => ?_⟩
  · exact h.lawful ht hl hplain.1 (fun hm => absurd hm hplain.2.2.1) (hmigrated hl)
  · exact h.testCases_subset ht hplain.2.1 (hcase hl)
  · rintro x (hx | rfl)
    · exact Or.inl (h.construct?_outside ht hx)
    · exact Or.inr ⟨k, hk, hkind, (h.kind? x (Tree.lt_size_of_kind? hkind)).trans hkind⟩
  · rintro x (hx | rfl)
    · exact h.environment_outside ht hx
    · exact henv
  · rintro x (hx | rfl) hk
    · exact hrows x hx
    · rw [hplain.2.2.2] at hk
      cases hk
  · rintro x (hx | rfl) hk
    · exact ⟨[], hrows x hx, by simp⟩
    · exact absurd hk hplain.2.2.1
  · rintro x (hx | rfl) hk
    · exact hchild x hx
    · rw [hplain.2.2.2] at hk
      exact hk.elim (fun hk => by cases hk) fun hk => absurd hk hplain.2.2.1
  · exact h.stands ht hocc (fun hm _ _ => ⟨hrows m hm, hchild m hm⟩) hm

/-- A method with an annotation in front. -/
lemma rework_tagged (hroot : t'.root = t.root) (hn : t.Reaches t.root n)
    (hkind : t.kind? n = some .method)
    (hsame : ∀ x < t.size, t'.construct? x = t.construct? x)
    (hrows : ∀ x < t.size, x ≠ n → t'.children x = t.children x) {tag : NodeId}
    (hrow : t'.children n = tag :: t.children n) (htag : t'.kind? tag = some .docTag)
    (hannotated : Routes.isAnnotated t' n = true) : Rework t n [n] t' := by
  have hlt : ∀ {x}, t.Reaches t.root x → x < t.size := fun hx => ht.linked.lt_size_of_reaches hx
  have hocc : t.Occupied n [n] t' := .of_same hroot fun p hp hout => by
    refine hrows p (hlt hp) ?_
    rintro rfl
    exact hout (Tree.Reaches.refl p)
  have hchild : ∀ x, t.Reaches t.root x → ∀ c ∈ t.children x, t.Reaches t.root c :=
    fun x hx c hc => hx.trans ((ht.linked.mem_children_iff x c).mp hc).reaches
  refine ⟨hocc, fun hl => ?_, fun _ => ?_, _,
    mirrors_same (F := fun x => t.Reaches t.root x) ?_ ?_ ?_ ?_ ?_, fun m hm => ?_⟩
  · exact h.lawful ht hl (by simp [hkind]) (fun _ _ => hannotated)
      fun _ _ _ hc => absurd hc (h.construct?_ne_classDecl hkind (by decide) _ _ _)
  · exact h.testCases_subset_of_ne_classDecl ht hkind (by decide) (by decide)
  · exact fun x hx => Or.inl (hsame x (hlt hx))
  · intro x hx
    rw [callsEnvironment, hsame x (hlt hx), callsEnvironment]
  · intro x hx hk
    refine hrows x (hlt hx) ?_
    rintro rfl
    rw [hkind] at hk
    cases hk
  · intro x hx hk
    by_cases hxn : x = n
    · refine ⟨[tag], hxn ▸ hrow, fun y hy => ?_⟩
      rw [List.mem_singleton.mp hy, htag]
    · exact ⟨[], hrows x (hlt hx) hxn, by simp⟩
  · exact fun x hx _ => hchild x hx
  · refine h.stands ht hocc (fun hm _ _ => ⟨hrows m (hlt hm.attached) hm.ne, ?_⟩) hm
    exact hchild m hm.attached

/-- A statement right below a file or a namespace was taken out. -/
lemma rework_removed (hocc : t.Occupied n [] t') (hn : t.Reaches t.root n)
    (hkind : t.kind? n = some .expression) (htop : TestCases.isTopLevel t n = true) :
    Rework t n [] t' := by
  -- nothing but a file or a namespace has lost a child
  have hrows : ∀ x, t.Outside n x → t.kind? x ≠ some .file → t.kind? x ≠ some .namespaceDecl →
      t'.children x = t.children x ∧ ∀ c ∈ t.children x, t.Outside n c := by
    intro x hx hfile hns
    have hnot : n ∉ t.children x := by
      intro hmem
      have hlink : t.parent? n = some x := (ht.linked.mem_children_iff x n).mp hmem
      rw [TestCases.isTopLevel, hlink, Option.any_some, Bool.or_eq_true, Tree.hasKind, Tree.hasKind,
        beq_iff_eq, beq_iff_eq] at htop
      exact htop.elim hfile hns
    refine ⟨?_, fun c hc => hx.child ((ht.linked.mem_children_iff x c).mp hc) ?_⟩
    · rw [hocc.children x hx.attached hx.out, Tree.put_of_not_mem hnot]
    · rintro rfl
      exact hnot hc
  have hlooked : ∀ {x}, (t.kind? x).any isTransparent = true ∨ t.kind? x = some .method →
      t.kind? x ≠ some .file ∧ t.kind? x ≠ some .namespaceDecl := by
    intro x hx
    constructor <;> intro hk <;> simp [hk, isTransparent] at hx
  refine ⟨hocc, fun hl => ?_, fun _ => ?_, _,
    mirrors_same (F := fun x => t.Outside n x) ?_ ?_ ?_ ?_ ?_, fun m hm => ?_⟩
  · exact h.lawful ht hl (by simp [hkind]) (fun hm => by simp [hkind] at hm)
      fun _ _ _ hc => absurd hc (h.construct?_ne_classDecl hkind (by decide) _ _ _)
  · exact h.testCases_subset_of_ne_classDecl ht hkind (by decide) (by decide)
  · exact fun x hx => Or.inl (h.construct?_outside ht hx)
  · exact fun x hx => h.environment_outside ht hx
  · intro x hx hk
    obtain ⟨hfile, hns⟩ := hlooked (Or.inl hk)
    exact (hrows x hx hfile hns).1
  · intro x hx hk
    obtain ⟨hfile, hns⟩ := hlooked (Or.inr hk)
    exact ⟨[], (hrows x hx hfile hns).1, by simp⟩
  · intro x hx hk
    obtain ⟨hfile, hns⟩ := hlooked hk
    exact (hrows x hx hfile hns).2
  · exact h.stands ht hocc (fun hm hfile hns => hrows m hm hfile hns) hm

end Reform

end Catalogue

end CodeMigration
