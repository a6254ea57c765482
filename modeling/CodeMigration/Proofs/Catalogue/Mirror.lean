import CodeMigration.Proofs.Catalogue.Idle
import Mathlib.Data.List.Forall2

/-!
# What migrations look at

Without types a migration looks at a node, at a few levels of calls and statements below it, and at
the declarations around it. `Mirrors` relates the nodes of two trees that look the same in this way,
up to what migrations change themselves, and `Stands` says what has to agree at a node for the
migrations to leave it alone in both trees (`acts_of_stands`).
-/

namespace CodeMigration

namespace Catalogue

/-! ### Migrations that need types -/

lemma Forms.acts_unknown (t : Tree) (n : NodeId) : acts .unknown t n = false := by
  have hnone : inPresenter .unknown t n = false := by
    rw [inPresenter]
    cases t.enclosingClass? n <;> rfl
  rw [acts, hnone, Bool.and_false, Bool.false_and]

lemma RequestParameters.reads_unknown (t : Tree) (n : NodeId) :
    readsParameter .unknown t n = false := by
  rw [readsParameter]
  cases t.child? n 0 <;> simp [Oracle.unknown]

/-! ### Related rows -/

section rows

variable {α β : Type} {R : α → β → Prop} {l : List α} {l' : List β} {f : α → Bool} {g : β → Bool}
  (h : List.Forall₂ R l l') (hfg : ∀ a b, R a b → f a = g b)
include h hfg

lemma any_forall₂ : l.any f = l'.any g := by
  induction h with
  | nil => rfl
  | cons hab _ ih => simp only [List.any_cons, hfg _ _ hab, ih]

lemma any_getElem?_forall₂ (i : Nat) : (l[i]?).any f = (l'[i]?).any g := by
  induction h generalizing i with
  | nil => simp
  | cons hab _ ih =>
    cases i with
    | zero => simpa using hfg _ _ hab
    | succ i => simpa using ih i

omit hfg in
lemma any_find?_forall₂ {p : α → Bool} {q : β → Bool} (hpq : ∀ a b, R a b → p a = q b)
    (hfg : ∀ a b, R a b → p a = true → f a = g b) : (l.find? p).any f = (l'.find? q).any g := by
  induction h with
  | nil => rfl
  | @cons a b _ _ hab _ ih =>
    rw [List.find?_cons, List.find?_cons, ← hpq _ _ hab]
    cases hp : p a with
    | true => simpa using hfg _ _ hab hp
    | false => exact ih

end rows

/-! ### Mirrors -/

/-- Whether a node is a call that sets the tester up. -/
def callsEnvironment (t : Tree) (n : NodeId) : Bool :=
  match t.construct? n with
  | some (.staticCall className _) => ClassName.same className TestCases.testerEnvironment
  | _ => false

/-- Kinds of nodes that migrations look through. -/
def isTransparent (k : Kind) : Bool := k == .expression || k == .methodCall || k == .propertyFetch

/-- Kinds of nodes that migrations give other names. -/
def isRenamed (k : Kind) : Bool := k == .classDecl || k == .staticCall

/-- Related nodes stand for the same, apart from the names of classes and of static calls. So do the
rows below nodes that migrations look through, and the bodies of methods apart from annotations in
front. -/
structure Mirrors (R : NodeId → NodeId → Prop) (t t' : Tree) : Prop where
  construct? : ∀ {a b}, R a b → t'.construct? b = t.construct? a ∨
    ∃ k, isRenamed k = true ∧ t.kind? a = some k ∧ t'.kind? b = some k
  environment : ∀ {a b}, R a b → callsEnvironment t' b = callsEnvironment t a
  row : ∀ {a b}, R a b → (t.kind? a).any isTransparent = true →
    List.Forall₂ R (t.children a) (t'.children b)
  body : ∀ {a b}, R a b → t.kind? a = some .method → ∃ tags row, t'.children b = tags ++ row ∧
    (∀ x ∈ tags, t'.kind? x = some .docTag) ∧ List.Forall₂ R (t.children a) row

variable {t t' : Tree} {R : NodeId → NodeId → Prop} {a b : NodeId}

namespace Mirrors

variable (h : Mirrors R t t')
include h

/-- What does not depend on the names of classes and static calls is the same. -/
lemma reads {α : Type} {f : Option Construct → α} {d : α} (hR : R a b)
    (hf : ∀ c : Construct, isRenamed c.kind = true → f (some c) = d) :
    f (t.construct? a) = f (t'.construct? b) := by
  rcases h.construct? hR with hsame | ⟨k, hk, ha, hb⟩
  · rw [hsame]
  · obtain ⟨c, hc, rfl⟩ := Option.map_eq_some_iff.mp ha
    obtain ⟨c', hc', hkind⟩ := Option.map_eq_some_iff.mp hb
    rw [hc, hc', hf c hk, hf c' (hkind ▸ hk)]

lemma isConstruct (hR : R a b) {c : Construct} (hc : isRenamed c.kind = false) :
    (t.construct? a == some c) = (t'.construct? b == some c) := by
  refine h.reads (f := fun o => o == some c) (d := false) hR fun c' hc' => ?_
  rw [beq_eq_false_iff_ne]
  intro heq
  cases heq
  rw [hc] at hc'
  cases hc'

lemma kind? (hR : R a b) : t'.kind? b = t.kind? a := by
  rcases h.construct? hR with hsame | ⟨k, _, ha, hb⟩
  · rw [Tree.kind?, hsame, Tree.kind?]
  · rw [ha, hb]

lemma hasKind (hR : R a b) (k : Kind) : t.hasKind a k = t'.hasKind b k := by
  rw [Tree.hasKind, ← h.kind? hR, Tree.hasKind]

lemma any_child? (hR : R a b) (hk : (t.kind? a).any isTransparent = true) (i : Nat)
    {f g : NodeId → Bool} (hfg : ∀ x y, R x y → f x = g y) :
    (t.child? a i).any f = (t'.child? b i).any g :=
  any_getElem?_forall₂ (h.row hR hk) hfg i

end Mirrors

lemma bind_beq_some {α β : Type} [BEq β] (o : Option α) (f : α → Option β) (c : β) :
    (o.bind f == some c) = o.any fun x => f x == some c := by
  cases o <;> rfl

lemma any_isTransparent {n : NodeId} {c : Construct} (hc : t.construct? n = some c)
    (hk : isTransparent c.kind = true) : (t.kind? n).any isTransparent = true := by
  rw [kind?_of_construct hc]
  exact hk

/-! ### Names of types -/

namespace Assertions

/-- Whether a construct names a type. -/
def namesType : Option Construct → Bool
  | some (.string _) => true
  | some (.classConstant _ constant) => decide (constant = "class")
  | _ => false

lemma isSome_typeTarget? (arguments : List NodeId) :
    (typeTarget? t arguments).isSome = (arguments[0]?).any fun x => namesType (t.construct? x) := by
  rw [typeTarget?]
  cases arguments[0]? with
  | none => rfl
  | some x =>
    rw [Option.bind_some, Option.any_some]
    cases t.construct? x with
    | none => rfl
    | some c =>
      cases c with
      | string value =>
        dsimp only [namesType]
        cases builtinTypes.lookup (value.map Char.toLower) <;> rfl
      | classConstant className constant =>
        dsimp only [namesType]
        split
        · next h => simp [h]
        · next h => simp [h]
      | _ => rfl

end Assertions

/-! ### Statements that set the tester up -/

namespace TestCases

/-- Whether a construct makes an object of one of the classes. -/
def isNewCase (cases : List String) : Option Construct → Bool
  | some (.instantiation className) => cases.contains (ClassName.normalize className)
  | _ => false

lemma isBootstrap_methodCall {cases : List String} {e : NodeId} {name : String}
    (he : t.construct? e = some (.methodCall name)) :
    isBootstrap t cases e =
      (name == "run" && (t.child? e 0).any fun x => isNewCase cases (t.construct? x)) := by
  rw [isBootstrap, he]
  cases t.child? e 0 with
  | none => rfl
  | some x => rfl

lemma isBootstrap_mono {cases cases' : List String} (hsub : cases' ⊆ cases) {e : NodeId}
    (h : isBootstrap t cases' e = true) : isBootstrap t cases e = true := by
  by_cases hcall : ∃ name, t.construct? e = some (.methodCall name)
  · obtain ⟨name, hname⟩ := hcall
    rw [isBootstrap_methodCall hname, Bool.and_eq_true, Option.any_eq_true] at h ⊢
    obtain ⟨hrun, x, hx, hnew⟩ := h
    refine ⟨hrun, x, hx, ?_⟩
    cases hc : t.construct? x with
    | none => simp [hc, isNewCase] at hnew
    | some c =>
      cases c with
      | instantiation className =>
        simp only [hc, isNewCase, List.contains_iff_mem] at hnew ⊢
        exact hsub hnew
      | _ => simp [hc, isNewCase] at hnew
  · rw [isBootstrap] at h ⊢
    split at h
    · exact h
    · exact h
    · next name hname => exact absurd ⟨name, hname⟩ hcall
    · cases h

end TestCases

/-! ### Templates -/

namespace Controls

/-- Whether a statement shows a template file. -/
def shows (t : Tree) (s : NodeId) : Bool :=
  t.hasKind s .expression && (t.child? s 0).any fun e =>
    match t.construct? e with
    | some (.methodCall name) => decide (name = "render" ∨ name = "setFile") &&
      ((t.child? e 0).any (isTemplate t) && (t.child? e 1).isSome)
    | _ => false

lemma shows_iff (s : NodeId) :
    shows t s = true ↔ ∃ file, templateStatement? t s = some (.display (some file)) := by
  rw [shows, templateStatement?]
  cases t.hasKind s .expression with
  | false => simp
  | true =>
    cases t.child? s 0 with
    | none => simp
    | some e =>
      simp only [Bool.true_and, Option.any_some, if_true]
      cases hc : t.construct? e with
      | none => simp
      | some c =>
        cases c with
        | methodCall name =>
          simp only [Bool.and_eq_true, decide_eq_true_eq]
          split
          · next hshown => simp [hshown, Option.isSome_iff_exists]
          · next hnot => simpa using fun hname htemplate => absurd ⟨hname, htemplate⟩ hnot
        | assignment =>
          simp only [Bool.false_eq_true, false_iff]
          rintro ⟨file, hfile⟩
          split at hfile
          · split at hfile
            · split at hfile <;> cases hfile
            · cases hfile
          · cases hfile
        | _ => simp

lemma isSome_file_foldl (l : List NodeId) (u : TemplateUse) :
    (l.foldl (fun u s => u.add t s) u).file.isSome = (u.file.isSome || l.any (shows t)) := by
  induction l generalizing u with
  | nil => simp
  | cons s l ih =>
    have hadd : (u.add t s).file.isSome = (u.file.isSome || shows t s) := by
      have hshows := shows_iff (t := t) s
      rw [TemplateUse.add]
      split
      · next hs => simp_all
      · next file hs =>
        cases file <;> simp_all
      · next hs => simp_all
    rw [List.foldl_cons, ih, hadd, List.any_cons, Bool.or_assoc]

/-- A control shows a file exactly if a statement of its `render` method does. -/
lemma isSome_file? (n : NodeId) :
    (file? t n).isSome = (renderMethod? t n).any fun m => (t.children m).any (shows t) := by
  rw [file?]
  cases renderMethod? t n with
  | none => rfl
  | some m =>
    show (templateUse t m).file.isSome = _
    rw [templateUse, isSome_file_foldl]
    rfl

end Controls

namespace Mirrors

variable (h : Mirrors R t t')
include h

lemma isTemplate (hR : R a b) : Controls.isTemplate t a = Controls.isTemplate t' b := by
  have hhead := h.isConstruct hR (c := .propertyFetch "template") rfl
  rw [Controls.isTemplate, Controls.isTemplate, hhead]
  by_cases ha : t.construct? a = some (.propertyFetch "template")
  · rw [bind_beq_some, bind_beq_some, h.any_child? hR (any_isTransparent ha rfl)]
    exact fun x y hxy => h.isConstruct hxy rfl
  · rw [← hhead, beq_eq_false_iff_ne.mpr ha, Bool.false_and, Bool.false_and]

lemma shows (hR : R a b) : Controls.shows t a = Controls.shows t' b := by
  rw [Controls.shows, Controls.shows, ← h.hasKind hR]
  cases hk : t.hasKind a .expression with
  | false => rw [Bool.false_and, Bool.false_and]
  | true =>
    have hkind : t.kind? a = some .expression := by simpa [Tree.hasKind] using hk
    rw [Bool.true_and, Bool.true_and, h.any_child? hR (by rw [hkind]; rfl)]
    intro e e' he
    rcases h.construct? he with hsame | ⟨k, hrenamed, hek, hek'⟩
    · rw [hsame]
      split
      · next name hname =>
        have htransparent := any_isTransparent hname rfl
        rw [h.any_child? he htransparent 0 fun x y hxy => h.isTemplate hxy]
        have hfile := h.any_child? he htransparent 1 (f := fun _ => true) (g := fun _ => true)
          fun _ _ _ => rfl
        rw [Option.any_true, Option.any_true] at hfile
        rw [hfile]
      · rfl
    · obtain ⟨c, hc, rfl⟩ := Option.map_eq_some_iff.mp hek
      obtain ⟨c', hc', hkind'⟩ := Option.map_eq_some_iff.mp hek'
      rw [hc, hc']
      cases c <;> cases hrenamed <;> cases c' <;> cases hkind' <;> rfl

/-- A statement sets the tester up in both trees or in none. -/
lemma isBootstrap (hR : R a b) (cases : List String) :
    TestCases.isBootstrap t cases a = TestCases.isBootstrap t' cases b := by
  rcases h.construct? hR with hsame | ⟨k, hrenamed, hk, hk'⟩
  · by_cases hcall : ∃ name, t.construct? a = some (.methodCall name)
    · obtain ⟨name, hname⟩ := hcall
      rw [TestCases.isBootstrap_methodCall hname,
        TestCases.isBootstrap_methodCall (hsame.trans hname),
        h.any_child? hR (any_isTransparent hname rfl)]
      intro x y hxy
      refine h.reads (f := TestCases.isNewCase cases) (d := false) hxy fun c hc => ?_
      cases c <;> cases hc <;> rfl
    · rw [TestCases.isBootstrap, TestCases.isBootstrap, hsame]
      split
      · rfl
      · rfl
      · next name hname => exact absurd ⟨name, hname⟩ hcall
      · rfl
  · have henv := h.environment hR
    obtain ⟨c, hc, rfl⟩ := Option.map_eq_some_iff.mp hk
    obtain ⟨c', hc', hkind⟩ := Option.map_eq_some_iff.mp hk'
    rw [callsEnvironment, callsEnvironment, hc, hc'] at henv
    rw [TestCases.isBootstrap, TestCases.isBootstrap, hc, hc']
    cases c <;> cases hrenamed <;> cases c' <;> cases hkind
    · rfl
    · exact henv.symm

/-- The same `render` methods show a file. -/
lemma showsBody (hR : R a b) (ha : t.construct? a = some (.method "render")) :
    (t.children a).any (Controls.shows t) = (t'.children b).any (Controls.shows t') := by
  obtain ⟨tags, row, hchildren, htags, hrow⟩ := h.body hR (kind?_of_construct ha)
  have hnone : tags.any (Controls.shows t') = false := by
    rw [List.any_eq_false]
    intro x hx
    simp [Controls.shows, Tree.hasKind, htags x hx]
  rw [hchildren, List.any_append, hnone, Bool.false_or]
  exact any_forall₂ hrow fun x y hxy => h.shows hxy

end Mirrors

/-! ### Nodes that are left alone -/

/-- What is known of the marks on a tree: a method that is marked carries its annotation, the class
recorded for a method is the one around it, and a class that is marked has been migrated. -/
structure Lawful (t : Tree) : Prop where
  routed : ∀ n, t.Reaches t.root n → t.kind? n = some .method →
    t.attributes.flag n .hasRoute = true → Routes.isAnnotated t n = true
  classes : ∀ n, t.Reaches t.root n → t.kind? n = some .method →
    t.attribute? n .enclosingClass = none ∨
      t.attribute? n .enclosingClass = (t.enclosing? n .classDecl).map .node
  migrated : ∀ n name parent interfaces, t.Reaches t.root n →
    t.construct? n = some (.classDecl name (some parent) interfaces) →
    t.attributes.flag n .processed = true → parent = TestCases.phpUnitCase

lemma Lawful.enclosingClass? (h : Lawful t) {n : NodeId} (hn : t.Reaches t.root n)
    (hkind : t.kind? n = some .method) : t.enclosingClass? n = t.enclosing? n .classDecl := by
  rw [Tree.enclosingClass?]
  rcases h.classes n hn hkind with hnone | hclass
  · rw [hnone]
    rfl
  · rw [hclass]
    cases t.enclosing? n .classDecl with
    | none => rfl
    | some c =>
      simp only [Option.map_some, Option.bind_some, AttributeValue.asNode?, Option.filter_some]
      split <;> rfl

/-- The full name of the class around a node. -/
def owner? (t : Tree) (n : NodeId) : Option String :=
  (t.enclosing? n .classDecl).bind t.qualifiedClass?

/-- The node `b` of `t'` stands where the node `a` of `t` stands: for the same, above a related row,
in the same place. -/
structure Stands (R : NodeId → NodeId → Prop) (t : Tree) (a : NodeId) (t' : Tree) (b : NodeId) :
    Prop where
  construct? : t'.construct? b = t.construct? a
  row : t.kind? a ≠ some .file → t.kind? a ≠ some .namespaceDecl →
    List.Forall₂ R (t.children a) (t'.children b)
  top : TestCases.isTopLevel t' b = TestCases.isTopLevel t a
  owner : t.kind? a = some .method → owner? t' b = owner? t a

section stands

variable (h : Mirrors R t t') (hs : Stands R t a t' b)
include h hs

lemma Assertions.acts_stands : acts .unknown t' b = acts .unknown t a := by
  rw [acts, acts, hs.construct?]
  split
  · next className method hc =>
    have hkind := kind?_of_construct hc
    have hrow : List.Forall₂ R (t.arguments a) (t'.arguments b) := by
      have hkind' := kind?_of_construct (hs.construct?.trans hc)
      rw [Tree.arguments, hkind, Tree.arguments, hkind']
      exact hs.row (by simp [hkind, Construct.kind]) (by simp [hkind, Construct.kind])
    have hcontains : ∀ t l negated, containsTarget? .unknown t l negated = none := by
      intro t l negated
      rw [containsTarget?]
      cases l[1]? <;> rfl
    have htype : (typeTarget? t' (t'.arguments b)).isSome =
        (typeTarget? t (t.arguments a)).isSome := by
      rw [isSome_typeTarget?, isSome_typeTarget?]
      refine (any_getElem?_forall₂ hrow (fun x y hxy => ?_) 0).symm
      refine h.reads (f := namesType) (d := false) hxy fun c hc => ?_
      cases c <;> cases hc <;> rfl
    congr 1
    rw [target?, target?]
    simp only [hcontains]
    split
    · rfl
    · split
      · rfl
      · split
        · exact htype
        · rfl
  · rfl

lemma TestCases.isDropped_stands (hcases : testCases .unknown t' ⊆ testCases .unknown t)
    (hkind : t.kind? a = some .expression) (hdropped : isDropped .unknown t' b = true) :
    isDropped .unknown t a = true := by
  simp only [isDropped, Bool.and_eq_true, hs.top] at hdropped ⊢
  obtain ⟨htop, hsome, hboot⟩ := hdropped
  have hrow := hs.row (by simp [hkind]) (by simp [hkind])
  refine ⟨htop, ?_, ?_⟩
  · rw [Bool.not_eq_true', ← Bool.not_eq_true, List.isEmpty_iff] at hsome ⊢
    intro hnil
    rw [hnil] at hcases
    exact hsome (List.subset_nil.mp hcases)
  · rw [Option.any_eq_true] at hboot
    obtain ⟨e, he, hboot⟩ := hboot
    rw [Tree.child?, any_getElem?_forall₂ hrow fun x y hxy => h.isBootstrap hxy _,
      Option.any_eq_true]
    exact ⟨e, he, isBootstrap_mono hcases hboot⟩

omit h hs in
lemma TestCases.kind?_of_accepts (hacc : Pass.accepts t rule a = true)
    (hclass : ¬ t.hasKind a .classDecl = true) : t.kind? a = some .expression := by
  rw [Pass.accepts, Option.any_eq_true] at hacc
  obtain ⟨k, hk, hmem⟩ := hacc
  rw [Tree.hasKind, hk] at hclass
  simp only [rule, List.contains_iff_mem, List.mem_cons, List.not_mem_nil, or_false] at hmem
  rcases hmem with rfl | rfl
  · exact absurd rfl hclass
  · exact hk

lemma TestCases.acts_stands (hcases : testCases .unknown t' ⊆ testCases .unknown t)
    (hacc : Pass.accepts t rule a = true) (hacts : acts .unknown t' b = true) :
    acts .unknown t a = true := by
  have hkind' : t'.hasKind b = t.hasKind a := by
    funext k
    rw [Tree.hasKind, Tree.kind?, hs.construct?, Tree.hasKind, Tree.kind?]
  rw [acts, hkind'] at hacts
  rw [acts]
  split at hacts
  · next hclass =>
    rw [if_pos hclass]
    rwa [actsOnClass, hs.construct?] at hacts
  · next hclass =>
    rw [if_neg hclass]
    exact isDropped_stands h hs hcases (kind?_of_accepts hacc hclass) hacts

lemma Controls.acts_stands : acts .unknown t' b = acts .unknown t a := by
  rw [acts, acts, hs.construct?]
  split
  · next name parent interfaces hc =>
    have hkind := kind?_of_construct hc
    have hrow := hs.row (by simp [hkind, Construct.kind]) (by simp [hkind, Construct.kind])
    congr 1
    rw [isSome_file?, isSome_file?]
    refine (any_find?_forall₂ hrow (fun x y hxy => h.isConstruct hxy rfl) ?_).symm
    intro x y hxy hx
    exact h.showsBody hxy (by simpa using hx)
  · rfl

/-- Whether a construct is the tag of a route. -/
def Routes.isRouteTag : Option Construct → Bool
  | some (.docTag name) => ClassName.same name routeClass
  | _ => false

lemma Routes.isAnnotated_stands (hkind : t.kind? a = some .method) :
    isAnnotated t' b = isAnnotated t a := by
  have hrow := hs.row (by simp [hkind]) (by simp [hkind])
  refine (any_forall₂ hrow fun x y hxy => ?_).symm
  refine h.reads (f := isRouteTag) (d := false) hxy fun c hc => ?_
  cases c <;> cases hc <;> rfl

lemma Routes.acts_stands (routes : List Route) (hkind : t.kind? a = some .method)
    (hrouted : t.attributes.flag a .hasRoute = true → isAnnotated t a = true)
    (hclass : t.enclosingClass? a = t.enclosing? a .classDecl)
    (hclass' : t'.enclosingClass? b = t'.enclosing? b .classDecl)
    (hidle : acts routes t a = false) : acts routes t' b = false := by
  have hroute : routeFor? routes t' b = routeFor? routes t a := by
    have howner := hs.owner hkind
    rw [owner?, owner?] at howner
    rw [routeFor?, hclass', howner, Tree.name?, hs.construct?, routeFor?, hclass, Tree.name?]
  rw [acts, isAnnotated_stands h hs hkind, hroute]
  rw [acts] at hidle
  grind

/-- Without types a node is left alone where it stands for the same and in the same place as one
that is left alone. -/
lemma acts_of_stands {routes : List Route} {m : Migration} (hm : m ∈ migrations routes)
    (hcases : TestCases.testCases .unknown t' ⊆ TestCases.testCases .unknown t)
    (hacc : Pass.accepts t m.rule a = true)
    (hrouted : t.kind? a = some .method → t.attributes.flag a .hasRoute = true →
      Routes.isAnnotated t a = true)
    (hclass : t.kind? a = some .method → t.enclosingClass? a = t.enclosing? a .classDecl)
    (hclass' : t.kind? a = some .method → t'.enclosingClass? b = t'.enclosing? b .classDecl)
    (hidle : m.acts .unknown t a = false) : m.acts .unknown t' b = false := by
  simp only [migrations, List.mem_cons, List.not_mem_nil, or_false] at hm
  rcases hm with rfl | rfl | rfl | rfl | rfl | rfl | rfl
  · exact Forms.acts_unknown t' b
  · exact (Assertions.acts_stands h hs).trans hidle
  · rw [← Bool.not_eq_true] at hidle ⊢
    exact fun hacts => hidle (TestCases.acts_stands h hs hcases hacc hacts)
  · exact RequestParameters.reads_unknown t' b
  · exact (Controls.acts_stands h hs).trans hidle
  · rfl
  · have hkind : t.kind? a = some .method := kind?_of_accepts rfl hacc
    exact Routes.acts_stands h hs routes hkind (hrouted hkind) (hclass hkind) (hclass' hkind) hidle

end stands

end Catalogue

end CodeMigration
