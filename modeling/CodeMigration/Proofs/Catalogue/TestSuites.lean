import CodeMigration.Proofs.Catalogue.Transforms

/-!
# Test cases in documents

In the document the migration of test cases gives every test case the other parent, and drops the
statements that set the tester up from the rows of files and namespaces (`TestCases.migrate`). The
tree of a document has the test cases with the names found there, and none in a statement right
below a file or a namespace if there is none in the document (`suited_ofDocument`).
-/

namespace CodeMigration

namespace Catalogue.TestCases

open CodeMigration.Tree

variable {oracle : Oracle} {cases : List String} {t t' : Tree} {n x : NodeId} {c : Construct}
  {space : Option String}

/-! ### Documents -/

/-- Whether the rows of a construct are filtered. -/
def holdsStatements : Construct → Bool
  | .file | .namespaceDecl _ => true
  | _ => false

/-- Whether a construct declares a test case. -/
def declaresCase (oracle : Oracle) : Construct → Bool
  | .classDecl _ (some parent) _ =>
    ClassName.same parent testerCase || oracle.isSubtype (ClassName.normalize parent) testerCase
  | _ => false

/-- A construct with the other parent if it extends the tester's test case. -/
def reparented : Construct → Construct
  | .classDecl name (some parent) interfaces =>
    if ClassName.same parent testerCase then .classDecl name (some phpUnitCase) interfaces
    else .classDecl name (some parent) interfaces
  | c => c

/-- The full name of the test case that a construct in a namespace declares. -/
def caseName (oracle : Oracle) (space : Option String) (c : Construct) : List String :=
  match c with
  | .classDecl name _ _ =>
    if declaresCase oracle c then [ClassName.qualified space name] else []
  | _ => []

mutual

/-- The full names of the test cases in a node of a document in a namespace. -/
def caseNames (oracle : Oracle) (space : Option String) : DocNode → List String
  | .node c children _ _ =>
    caseName oracle space c ++ caseNamesRow oracle (c.spaceBelow space) children

/-- The full names of the test cases in a row. -/
def caseNamesRow (oracle : Oracle) (space : Option String) : List DocNode → List String
  | [] => []
  | d :: ds => caseNames oracle space d ++ caseNamesRow oracle space ds

end

/-- Whether an expression loads a file, calls the environment of the tester, or runs a new object of
one of the classes. -/
def setsUp (cases : List String) : DocNode → Bool
  | .node (.functionCall name) _ _ _ => loaders.contains name
  | .node (.staticCall className _) _ _ _ => ClassName.same className testerEnvironment
  | .node (.methodCall name) (.node (.instantiation className) _ _ _ :: _) _ _ =>
    name == "run" && cases.contains (ClassName.normalize className)
  | _ => false

/-- Whether a statement sets the tester up. -/
def isSetup (cases : List String) : DocNode → Bool
  | .node .expression (e :: _) _ _ => setsUp cases e
  | _ => false

mutual

/-- A node of a document in which the test cases `cases` are declared, migrated. -/
def migrate (cases : List String) : DocNode → DocNode
  | .node c children span layout =>
    .node (reparented c) (migrateRow cases (holdsStatements c && !cases.isEmpty) children) span
      layout

/-- A row of nodes, without the statements that set the tester up if it is filtered. -/
def migrateRow (cases : List String) (filtered : Bool) : List DocNode → List DocNode
  | [] => []
  | d :: ds =>
    if filtered && isSetup cases d then migrateRow cases filtered ds
    else migrate cases d :: migrateRow cases filtered ds

end

/-- A migrated document. -/
def migrated (oracle : Oracle) (d : Document) : Document :=
  { d with root := migrate (caseNames oracle none d.root) d.root }

lemma caseNamesRow_eq (ds : List DocNode) :
    caseNamesRow oracle space ds = ds.flatMap (caseNames oracle space) := by
  induction ds with
  | nil => rw [caseNamesRow, List.flatMap_nil]
  | cons d ds ih => rw [caseNamesRow, List.flatMap_cons, ih]

lemma migrateRow_eq (filtered : Bool) (ds : List DocNode) : migrateRow cases filtered ds =
    (ds.filter fun d => !(filtered && isSetup cases d)).map (migrate cases) := by
  induction ds with
  | nil => rw [migrateRow, List.filter_nil, List.map_nil]
  | cons d ds ih =>
    rw [migrateRow, List.filter_cons, ih]
    cases filtered && isSetup cases d <;> rfl

lemma reparented_eq_self (hc : ∀ name parent interfaces,
    c = .classDecl name (some parent) interfaces → ClassName.same parent testerCase = false) :
    reparented c = c := by
  cases c with
  | classDecl name parent interfaces =>
    cases parent with
    | none => rfl
    | some parent =>
      rw [reparented, hc name parent interfaces rfl]
      rfl
  | _ => rfl

lemma caseName_eq_nil_iff : caseName oracle space c = [] ↔ declaresCase oracle c = false := by
  cases c with
  | classDecl name parent interfaces =>
    rw [caseName]
    split
    · next hcase => simp [hcase]
    · next hcase => simp [hcase]
  | _ => exact iff_of_true rfl rfl

mutual

/-- Every test case has a name. -/
lemma caseNames_eq_nil_iff : ∀ {d : DocNode} {space : Option String},
    caseNames oracle space d = [] ↔ ∀ x ∈ d.preorder, declaresCase oracle x.construct = false
  | .node c children span layout, space => by
    rw [caseNames, List.append_eq_nil_iff, caseName_eq_nil_iff, caseNamesRow_eq_nil_iff,
      DocNode.preorder, List.forall_mem_cons]
    rfl

lemma caseNamesRow_eq_nil_iff : ∀ {ds : List DocNode} {space : Option String},
    caseNamesRow oracle space ds = [] ↔
      ∀ x ∈ DocNode.preorderList ds, declaresCase oracle x.construct = false
  | [], _ => by simp [caseNamesRow, DocNode.preorderList]
  | d :: ds, _ => by
    rw [caseNamesRow, List.append_eq_nil_iff, caseNames_eq_nil_iff, caseNamesRow_eq_nil_iff,
      DocNode.preorderList, List.forall_mem_append]

end

mutual

/-- Without test cases there is nothing to migrate. -/
lemma migrate_of_caseNames_eq_nil : ∀ {d : DocNode} {space : Option String},
    caseNames oracle space d = [] → migrate [] d = d
  | .node c children span layout, space, hnone => by
    rw [caseNames, List.append_eq_nil_iff] at hnone
    have hsame : reparented c = c := by
      refine reparented_eq_self fun name parent interfaces hc => ?_
      have hcase := caseName_eq_nil_iff.mp hnone.1
      rw [hc, declaresCase, Bool.or_eq_false_iff] at hcase
      exact hcase.1
    rw [migrate, hsame, List.isEmpty_nil, Bool.not_true, Bool.and_false,
      migrateRow_of_caseNames_eq_nil hnone.2]

lemma migrateRow_of_caseNames_eq_nil : ∀ {ds : List DocNode} {space : Option String},
    caseNamesRow oracle space ds = [] → migrateRow [] false ds = ds
  | [], _, _ => by rw [migrateRow]
  | d :: ds, space, hnone => by
    rw [caseNamesRow, List.append_eq_nil_iff] at hnone
    rw [migrateRow, Bool.false_and, if_neg Bool.false_ne_true,
      migrate_of_caseNames_eq_nil hnone.1, migrateRow_of_caseNames_eq_nil hnone.2]

end

lemma exists_reparented (name : String) (parent : Option String) (interfaces : List String) :
    ∃ parent', reparented (.classDecl name parent interfaces) =
      .classDecl name parent' interfaces := by
  cases parent with
  | none => exact ⟨none, rfl⟩
  | some parent =>
    rw [reparented]
    split
    · exact ⟨_, rfl⟩
    · exact ⟨_, rfl⟩

lemma holdsStatements_reparented (c : Construct) :
    holdsStatements (reparented c) = holdsStatements c := by
  cases c with
  | classDecl name parent interfaces =>
    obtain ⟨_, hparent⟩ := exists_reparented name parent interfaces
    rw [hparent]
    rfl
  | _ => rfl

lemma migrateRow_cons (d : DocNode) (ds : List DocNode) :
    migrateRow cases false (d :: ds) = migrate cases d :: migrateRow cases false ds := by
  rw [migrateRow, Bool.false_and]
  rfl

/-- What sets the tester up is not touched. -/
lemma setsUp_migrate (e : DocNode) : setsUp cases (migrate cases e) = setsUp cases e := by
  obtain ⟨c, children, span, layout⟩ := e
  rw [migrate]
  cases c with
  | methodCall name =>
    cases children with
    | nil => rfl
    | cons x row =>
      obtain ⟨c, children, _, _⟩ := x
      show setsUp cases (.node _ (migrateRow cases false (_ :: row)) span layout) = _
      rw [migrateRow_cons, migrate]
      cases c with
      | classDecl name parent interfaces =>
        obtain ⟨_, hparent⟩ := exists_reparented name parent interfaces
        rw [hparent]
        rfl
      | _ => rfl
  | classDecl name parent interfaces =>
    obtain ⟨_, hparent⟩ := exists_reparented name parent interfaces
    rw [hparent]
    rfl
  | _ => rfl

lemma isSetup_migrate (d : DocNode) : isSetup cases (migrate cases d) = isSetup cases d := by
  obtain ⟨c, children, span, layout⟩ := d
  rw [migrate]
  cases c with
  | expression =>
    cases children with
    | nil => rfl
    | cons e row =>
      show isSetup cases (.node _ (migrateRow cases false (e :: row)) span layout) = _
      rw [migrateRow_cons]
      exact setsUp_migrate e
  | classDecl name parent interfaces =>
    obtain ⟨_, hparent⟩ := exists_reparented name parent interfaces
    rw [hparent]
    rfl
  | _ => rfl

/-! ### Trees -/

lemma setsUp_outline (ht : t.WellLinked) (e : NodeId) :
    setsUp cases (t.outline e) = isBootstrap t cases e := by
  rw [outline_eq ht, isBootstrap, child?]
  cases hc : t.construct? e with
  | none => rfl
  | some c =>
    cases c with
    | methodCall name =>
      cases t.children e with
      | nil => simp [setsUp]
      | cons x row =>
        rw [List.map_cons, outline_eq ht]
        cases hx : t.construct? x with
        | none => simp [setsUp, hx]
        | some c => cases c <;> simp [setsUp, hx]
    | _ => rfl

lemma isSetup_outline (ht : t.WellLinked) (x : NodeId) : isSetup cases (t.outline x) =
    (t.hasKind x .expression && (t.child? x 0).any (isBootstrap t cases)) := by
  rw [outline_eq ht, hasKind, kind?, child?]
  cases hc : t.construct? x with
  | none => rfl
  | some c =>
    cases c with
    | expression =>
      cases t.children x with
      | nil => rfl
      | cons e row =>
        rw [List.map_cons]
        exact setsUp_outline ht e
    | _ => rfl

lemma kind?_of_isSetup (ht : t.WellLinked) (h : isSetup cases (t.outline x) = true) :
    t.kind? x = some .expression := by
  rw [isSetup_outline ht, Bool.and_eq_true, Tree.hasKind, beq_iff_eq] at h
  exact h.1

lemma migrate_outline (ht : t.WellLinked) (hc : t.construct? x = some c) :
    migrate cases (t.outline x) = .node (reparented c)
      (((t.children x).filter fun y =>
        !(holdsStatements c && !cases.isEmpty && isSetup cases (t.outline y))).map fun y =>
          migrate cases (t.outline y)) (t.extras x).1 (t.extras x).2 := by
  rw [outline_eq ht, hc, Option.getD_some, migrate, migrateRow_eq, List.filter_map, List.map_map]
  rfl

lemma isTopLevel_of_link {p : NodeId} (hlink : t.Link p x) (hp : t.construct? p = some c) :
    isTopLevel t x = holdsStatements c := by
  rw [isTopLevel, hlink, Option.any_some, hasKind, hasKind, kind?_of_construct hp]
  cases c <;> rfl

lemma isBootstrap_congr {cases' : List String} (h : ∀ name, name ∈ cases' ↔ name ∈ cases)
    (e : NodeId) : isBootstrap t cases' e = isBootstrap t cases e := by
  rw [Bool.eq_iff_iff]
  exact ⟨isBootstrap_mono fun name => (h name).mp, isBootstrap_mono fun name => (h name).mpr⟩

/-- Which statements are dropped depends on the names of the test cases only. -/
lemma isDropped_eq (ht : t.WellLinked) (h : ∀ name, name ∈ testCases oracle t ↔ name ∈ cases)
    (hkind : t.kind? x = some .expression) : isDropped oracle t x =
      (isTopLevel t x && (!cases.isEmpty && isSetup cases (t.outline x))) := by
  have hempty : (testCases oracle t).isEmpty = cases.isEmpty := by
    rw [Bool.eq_iff_iff, List.isEmpty_iff, List.isEmpty_iff, List.eq_nil_iff_forall_not_mem,
      List.eq_nil_iff_forall_not_mem]
    simp only [h]
  have hboot : isBootstrap t (testCases oracle t) = isBootstrap t cases :=
    funext fun e => isBootstrap_congr h e
  have hstatement : t.hasKind x .expression = true := by simp [Tree.hasKind, hkind]
  rw [isSetup_outline ht, hstatement, Bool.true_and, isDropped]
  simp only [hempty, hboot]

/-! ### Names of test cases -/

/-- A class that is not marked shows whether it is a test case. -/
lemma isTestCase_of_unmarked (hflag : t.attributes.flag n .processed = false) :
    isTestCase oracle t n = (t.construct? n).any (declaresCase oracle) := by
  rw [isTestCase, hflag]
  cases t.construct? n with
  | none => rfl
  | some c =>
    cases c with
    | classDecl name parent interfaces => cases parent <;> rfl
    | _ => rfl

section unmarked

variable (ht : t.WellLinked) (hclean : ∀ n, t.attributes.flag n .processed = false) {name : String}
include hclean

lemma mem_caseName_iff (hc : t.construct? x = some c) :
    name ∈ caseName oracle (t.space? x) c ↔
      isTestCase oracle t x = true ∧ t.qualifiedClass? x = some name := by
  rw [isTestCase_of_unmarked (hclean x), hc, Option.any_some]
  cases c with
  | classDecl className parent interfaces =>
    rw [caseName, qualifiedClass?_of_class hc, Option.some_inj]
    split
    · next hcase => rw [hcase, List.mem_singleton, eq_comm, eq_self, true_and]
    · next hcase => simp [hcase]
  | _ => simp [caseName, declaresCase]

include ht

/-- In the tree of a document the test cases below a node are those in its outline. -/
lemma mem_caseNames_outline (hx : t.Reaches t.root x) :
    name ∈ caseNames oracle (t.space? x) (t.outline x) ↔
      ∃ m, t.Reaches x m ∧ isTestCase oracle t m = true ∧ t.qualifiedClass? m = some name := by
  induction x using ht.induction_up with | hstep x ih =>
  obtain ⟨c, hc⟩ := t.exists_construct? (ht.lt_size_of_reaches hx)
  have hbelow : name ∈ caseNamesRow oracle (c.spaceBelow (t.space? x))
      ((t.children x).map t.outline) ↔ ∃ y, t.Link x y ∧ ∃ m, t.Reaches y m ∧
        isTestCase oracle t m = true ∧ t.qualifiedClass? m = some name := by
    rw [caseNamesRow_eq, List.flatMap_map, List.mem_flatMap]
    refine exists_congr fun y => ?_
    rw [ht.mem_children_iff]
    refine and_congr_right fun hlink => ?_
    rw [← ht.space?_of_link hlink hc]
    exact ih y ((ht.mem_children_iff x y).mpr hlink) (hx.trans hlink.reaches)
  rw [outline_eq ht, hc, Option.getD_some, caseNames, List.mem_append, hbelow,
    mem_caseName_iff hclean hc]
  constructor
  · rintro (hown | ⟨y, hlink, m, hm, hcase⟩)
    · exact ⟨x, Reaches.refl x, hown⟩
    · exact ⟨m, hlink.reaches.trans hm, hcase⟩
  · rintro ⟨m, hm, hcase⟩
    rcases Relation.ReflTransGen.cases_head hm with rfl | ⟨y, hlink, hm⟩
    · exact Or.inl hcase
    · exact Or.inr ⟨y, hlink, m, hm, hcase⟩

end unmarked

lemma mem_testCases_iff (ht : t.WellLinked) {name : String} : name ∈ testCases oracle t ↔
    ∃ m, t.Reaches t.root m ∧ isTestCase oracle t m = true ∧ t.qualifiedClass? m = some name := by
  rw [testCases, List.mem_filterMap]
  refine exists_congr fun m => ?_
  rw [List.mem_filter, ht.mem_nodes_iff, and_assoc]

/-! ### What is kept -/

/-- The test cases have the names `cases`, and there is none in a statement right below a file or a
namespace. -/
structure Suited (oracle : Oracle) (cases : List String) (t : Tree) : Prop where
  names : ∀ name, name ∈ testCases oracle t ↔ name ∈ cases
  clear : ∀ {x m}, t.Reaches t.root x → isTopLevel t x = true → t.kind? x = some .expression →
    t.Reaches x m → isTestCase oracle t m = false

lemma Suited.alike (h : Suited oracle cases t) (halike : t.Alike t')
    (hflag : ∀ n, t.kind? n = some .classDecl →
      t'.attributes.flag n .processed = t.attributes.flag n .processed) :
    Suited oracle cases t' where
  names name := by rw [testCases_alike halike hflag, h.names]
  clear hx htop hkind hm := by
    rw [halike.reaches, halike.root] at hx
    rw [isTopLevel, halike.parent?, halike.hasKind] at htop
    rw [halike.kind?] at hkind
    rw [halike.reaches] at hm
    rw [isTestCase_alike halike hflag]
    exact h.clear hx htop hkind hm

lemma suited_ofDocument {d : Document} (hdoc : ofDocument d = .ok t)
    (hclear : ∀ x ∈ d.root.preorder, holdsStatements x.construct = true →
      ∀ e ∈ x.children, e.construct = .expression →
        ∀ y ∈ e.preorder, declaresCase oracle y.construct = false) :
    Suited oracle (caseNames oracle none d.root) t := by
  obtain ⟨hplain, houtline⟩ := outline_ofDocument hdoc
  have ht := (Reachable.ofDocument hdoc).sound.linked
  have hclean : ∀ n, t.attributes.flag n .processed = false := fun n =>
    flag_of_plain hplain n (by decide) (by decide)
  have hlisted : ∀ {x m}, t.Reaches x m → t.outline m ∈ (t.outline x).preorder := by
    intro x m hm
    rw [← map_outline_preorder ht (Nat.le_add_left t.size _)]
    exact List.mem_map_of_mem (ht.mem_descendants_iff.mpr hm)
  have hconstruct : ∀ {x c}, t.construct? x = some c → (t.outline x).construct = c := by
    intro x c hc
    rw [outline_eq ht, hc]
    rfl
  refine ⟨fun name => ?_, fun {x m} hx htop hkind hm => ?_⟩
  · rw [mem_testCases_iff ht, ← houtline, ← ht.space?_root]
    exact (mem_caseNames_outline ht hclean (Reaches.refl t.root)).symm
  · obtain ⟨p, hlink, -⟩ := (Option.any_eq_true ..).mp htop
    have hp := ht.attached_of_link hlink hx
    obtain ⟨c, hc⟩ := t.exists_construct? (ht.lt_size_of_reaches hp)
    rw [isTopLevel_of_link hlink hc] at htop
    obtain ⟨k, hk, hexpression⟩ := Option.map_eq_some_iff.mp hkind
    have hchild : t.outline x ∈ (t.outline p).children := by
      rw [outline_eq ht p]
      exact List.mem_map_of_mem ((ht.mem_children_iff p x).mpr hlink)
    have hnone := hclear (t.outline p) (houtline ▸ hlisted hp) (by rwa [hconstruct hc])
      (t.outline x) hchild (by rw [hconstruct hk]; cases k <;> cases hexpression; rfl)
      (t.outline m) (hlisted hm)
    rw [isTestCase_of_unmarked (hclean m)]
    cases hy : t.construct? m with
    | none => rfl
    | some c' => rwa [hconstruct hy] at hnone

end Catalogue.TestCases

end CodeMigration
