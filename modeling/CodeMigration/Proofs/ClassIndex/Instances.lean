import CodeMigration.Proofs.ClassIndex.Hops
import CodeMigration.Proofs.Pass.Inquiry

/-!
# Instances

Two graphs decide whether a node is an instance of a class. The edges of the first lead from a class
with an entry in the index to its parents and interfaces (`ClassIndex.Declares`). Those of the
second lead from a class that the attached tree declares to the classes in its clauses, where the
last declaration of a name counts (`Tree.Declares`); they matter only for classes without an entry.

Main statement: a node is an instance of a class exactly when its type is a class from which the
other one can be reached in the first graph, or a class without an entry from which the second graph
leads to a class with that property. No question asked before changes the answer.
-/

namespace CodeMigration

open Relation

/-! ### Edges of the index -/

/-- By its entry in the index, `c` is a class with the parent or the interface `d`. -/
def ClassIndex.Declares (index : ClassIndex) (c d : String) : Prop :=
  ∃ entry, index.get? c = some entry ∧
    ∃ mention ∈ entry.parents ++ entry.interfaces, ClassName.normalize mention = d

lemma ClassIndex.step_eq_declares (index : ClassIndex) :
    Search.Step index.step = index.Declares := by
  funext c d
  rw [Search.Step, ClassIndex.step, ClassIndex.Declares, eq_iff_iff]
  cases index.get? c <;> simp [ClassEntry.supertypes, or_and_right, exists_or]

lemma ClassIndex.isSubtype_iff_declares {index : ClassIndex} {name candidate : String} :
    index.isSubtype name candidate = true ↔
      ReflTransGen index.Declares (ClassName.normalize name) (ClassName.normalize candidate) := by
  rw [isSubtype_iff, step_eq_declares, reflTransGen_iff_eq_or_transGen,
    eq_comm (a := ClassName.normalize name)]

/-! ### Edges of the tree -/

namespace Tree

variable {t : Tree} {c d name : String}

/-- Of the nodes of the tree, `id` is the last one that declares the class `c`. -/
def LastDeclaration (t : Tree) (c : String) (id : NodeId) : Prop :=
  ∃ before after, t.nodes = before ++ id :: after ∧ t.qualifiedClass? id = some c ∧
    ∀ later ∈ after, t.qualifiedClass? later ≠ some c

/-- By the clauses of its last declaration, `c` extends or implements `d`. -/
def Declares (t : Tree) (c d : String) : Prop :=
  ∃ id name parent interfaces, t.LastDeclaration c id ∧
    t.construct? id = some (.classDecl name parent interfaces) ∧
    ∃ mention ∈ parent.toList ++ interfaces, ClassName.normalize mention = d

/-- The class that a node declares, with the supertypes of its clauses. -/
def declaration? (t : Tree) (id : NodeId) : Option (String × List String) :=
  match t.construct? id with
  | some (.classDecl _ parent interfaces) =>
    (t.qualifiedClass? id).map (·, clauses parent interfaces)
  | _ => none

lemma declaredClasses_eq (t : Tree) :
    t.declaredClasses = (t.nodes.filterMap t.declaration?).reverse := rfl

lemma declaration?_eq_some_iff {id : NodeId} {supertypes : List String} :
    t.declaration? id = some (c, supertypes) ↔ t.qualifiedClass? id = some c ∧
      ∃ name parent interfaces, t.construct? id = some (.classDecl name parent interfaces) ∧
        supertypes = clauses parent interfaces := by
  rw [declaration?]
  split
  · next hconstruct => simp [hconstruct, eq_comm]
  · next hother =>
    simp only [reduceCtorEq, false_iff, not_and, not_exists]
    intro _ name parent interfaces hconstruct
    exact absurd hconstruct (hother name parent interfaces)

/-- Every class declaration has a full name, and nothing else has one. -/
lemma exists_declaration?_iff {id : NodeId} :
    (∃ supertypes, t.declaration? id = some (c, supertypes)) ↔ t.qualifiedClass? id = some c := by
  constructor
  · rintro ⟨supertypes, h⟩
    exact (declaration?_eq_some_iff.mp h).1
  · intro h
    have hclass := h
    rw [qualifiedClass?] at hclass
    split at hclass
    · next name parent interfaces hconstruct =>
      exact ⟨_, declaration?_eq_some_iff.mpr ⟨h, name, parent, interfaces, hconstruct, rfl⟩⟩
    · cases hclass

/-- In a list of pairs read from behind, the last pair of a key is found. -/
lemma lookup_reverse_filterMap {α β : Type} {f : α → Option (String × β)} {l : List α} {b : β} :
    (l.filterMap f).reverse.lookup c = some b ↔
      ∃ before a after, l = before ++ a :: after ∧ f a = some (c, b) ∧
        ∀ later ∈ after, ∀ b', f later ≠ some (c, b') := by
  rw [List.lookup_eq_some_iff]
  constructor
  · rintro ⟨l₁, l₂, hl, hfirst⟩
    rw [List.reverse_eq_iff, List.reverse_append, List.reverse_cons, List.append_assoc,
      List.singleton_append, List.filterMap_eq_append_iff] at hl
    obtain ⟨front, back, rfl, _, hback⟩ := hl
    obtain ⟨gap, a, after, rfl, _, ha, hafter⟩ := List.filterMap_eq_cons_iff.mp hback
    refine ⟨front ++ gap, a, after, by simp, ha, ?_⟩
    intro later hlater b' hb'
    have hmem : (c, b') ∈ l₁ := by
      rw [← List.mem_reverse, ← hafter]
      exact List.mem_filterMap.mpr ⟨later, hlater, hb'⟩
    simpa using hfirst _ hmem
  · rintro ⟨before, a, after, rfl, ha, hafter⟩
    refine ⟨(after.filterMap f).reverse, (before.filterMap f).reverse, ?_, ?_⟩
    · simp [ha]
    · rintro ⟨c', b'⟩ hp
      obtain ⟨later, hlater, hb'⟩ := List.mem_filterMap.mp (List.mem_reverse.mp hp)
      rw [bne_iff_ne]
      rintro rfl
      exact hafter later hlater b' hb'

/-- The clauses found for a class are those of its last declaration. -/
lemma lookup_declaredClasses {supertypes : List String} :
    t.declaredClasses.lookup c = some supertypes ↔
      ∃ id name parent interfaces, t.LastDeclaration c id ∧
        t.construct? id = some (.classDecl name parent interfaces) ∧
        supertypes = clauses parent interfaces := by
  rw [declaredClasses_eq, lookup_reverse_filterMap]
  constructor
  · rintro ⟨before, id, after, hnodes, hid, hlast⟩
    obtain ⟨hname, name, parent, interfaces, hconstruct, hclauses⟩ :=
      declaration?_eq_some_iff.mp hid
    refine ⟨id, name, parent, interfaces, ⟨before, after, hnodes, hname, ?_⟩, hconstruct, hclauses⟩
    intro later hlater hsame
    obtain ⟨supertypes', h⟩ := exists_declaration?_iff.mpr hsame
    exact hlast later hlater supertypes' h
  · rintro ⟨id, name, parent, interfaces, ⟨before, after, hnodes, hname, hlast⟩, hconstruct,
      hclauses⟩
    refine ⟨before, id, after, hnodes, ?_, ?_⟩
    · exact declaration?_eq_some_iff.mpr ⟨hname, name, parent, interfaces, hconstruct, hclauses⟩
    · intro later hlater supertypes' h
      exact hlast later hlater (declaration?_eq_some_iff.mp h).1

lemma step_eq_declares (t : Tree) :
    Search.Step (fun c => (t.declaredClasses.lookup c).getD []) = t.Declares := by
  funext c d
  rw [Search.Step, eq_iff_iff]
  constructor
  · intro hd
    cases hlookup : t.declaredClasses.lookup c with
    | none => simp [hlookup] at hd
    | some supertypes =>
      obtain ⟨id, name, parent, interfaces, hlast, hconstruct, rfl⟩ :=
        lookup_declaredClasses.mp hlookup
      rw [hlookup, Option.getD_some, clauses, List.mem_map] at hd
      exact ⟨id, name, parent, interfaces, hlast, hconstruct, hd⟩
  · rintro ⟨id, name, parent, interfaces, hlast, hconstruct, hmention⟩
    rw [lookup_declaredClasses.mpr ⟨id, name, parent, interfaces, hlast, hconstruct, rfl⟩,
      Option.getD_some, clauses, List.mem_map]
    exact hmention

/-- The supertypes that the tree declares for a class are what its declarations lead to. -/
lemma mem_declaredSupertypes_iff :
    d ∈ t.declaredSupertypes name ↔ TransGen t.Declares (ClassName.normalize name) d := by
  have htargets : ∀ c, (t.declaredClasses.lookup c).getD [] ⊆ t.declaredClasses.flatMap (·.2) := by
    intro c d hd
    cases hlookup : t.declaredClasses.lookup c with
    | none => simp [hlookup] at hd
    | some supertypes =>
      obtain ⟨l₁, l₂, hclasses, _⟩ := List.lookup_eq_some_iff.mp hlookup
      rw [hclasses]
      simp only [hlookup, Option.getD_some] at hd
      exact List.mem_flatMap.mpr ⟨_, List.mem_append_right _ List.mem_cons_self, hd⟩
  rw [declaredSupertypes, Search.mem_breadthFirst_iff htargets (Nat.lt_succ_self _),
    step_eq_declares]

/-- Declarations lead to names without separators in front. -/
lemma normalize_of_transGen (h : TransGen t.Declares c d) : ClassName.normalize d = d := by
  obtain ⟨_, _, _, _, _, _, _, _, mention, _, rfl⟩ := TransGen.tail'_iff.mp h
  exact ClassName.normalize_normalize mention

end Tree

/-! ### Questions asked before -/

/-- The table of answers after a row of questions. -/
def MemoIndex.asked (index : ClassIndex) (questions : List (String × String)) : MemoIndex :=
  questions.foldl (fun m question => (m.isSubtype question.1 question.2).2) { index }

lemma MemoIndex.faithful_asked (index : ClassIndex) (questions : List (String × String)) :
    (asked index questions).Faithful ∧ (asked index questions).index = index := by
  induction questions using List.reverseRecOn with
  | nil => exact ⟨faithful_fresh index, rfl⟩
  | append_singleton questions question ih =>
    obtain ⟨hfaithful, hindex⟩ := ih
    obtain ⟨_, hnext, hsame⟩ := hfaithful.isSubtype question.1 question.2
    rw [asked, List.foldl_append]
    exact ⟨hnext, hsame.trans hindex⟩

lemma MemoIndex.isSubtype_asked (index : ClassIndex) (questions : List (String × String))
    (name candidate : String) :
    ((asked index questions).isSubtype name candidate).1 = index.isSubtype name candidate := by
  obtain ⟨hfaithful, hindex⟩ := faithful_asked index questions
  rw [(hfaithful.isSubtype name candidate).1, hindex]

/-! ### Instances -/

lemma ClassIndex.isInstance_eq_true_iff {index : ClassIndex} {t : Tree} {n : NodeId}
    {candidate : String} :
    index.isInstance t n candidate = true ↔
      ∃ type, index.typeOf? t n = some type ∧ type.category = .object ∧
        (index.isSubtype type.name candidate = true ∨
          index.get? type.name = none ∧
            ∃ p ∈ t.declaredSupertypes type.name, index.isSubtype p candidate = true) := by
  rw [isInstance]
  cases index.typeOf? t n with
  | none => simp
  | some type =>
    cases hcategory : type.category with
    | scalar => simp [TypeDescriptor.className?, TypeDescriptor.isObject, hcategory]
    | object =>
      simp [TypeDescriptor.className?, TypeDescriptor.isObject, hcategory, contains]

/-! ### Discarded nodes -/

/-- What the oracle calls an instance of a class has not been discarded. -/
def Oracle.SeesOnlyLive (oracle : Oracle) : Prop :=
  ∀ t n candidate, oracle.isInstance t n candidate = true → t.isLive n = true

lemma Oracle.seesOnlyLive_unknown : Oracle.unknown.SeesOnlyLive := by
  intro t n candidate h
  cases h

lemma Oracle.seesOnlyLive_ofIndex (index : ClassIndex) : (Oracle.ofIndex index).SeesOnlyLive := by
  intro t n candidate h
  obtain ⟨type, htype, _⟩ := ClassIndex.isInstance_eq_true_iff.mp h
  exact (ClassIndex.typeWithin?_succ_eq_some_iff.mp htype).1

/-! ### Reachability -/

/-- A node is an instance of a class exactly when its type is a class from which the other one can
be reached along the entries of the index, or a class without an entry whose declarations in the
tree lead, in one or more steps, to a class from which it can be reached so. The answers of the
index do not depend on what has been asked before, so neither does this one. -/
theorem Oracle.isInstance_iff_reaches (index : ClassIndex) (t : Tree) (n : NodeId)
    (candidate : String) (before : String → String → List (String × String)) :
    ((Oracle.ofIndex index).isInstance t n candidate = true ↔
      ∃ type, (Oracle.ofIndex index).typeOf t n = some type ∧ type.category = .object ∧
        (ReflTransGen index.Declares (ClassName.normalize type.name)
            (ClassName.normalize candidate) ∨
          index.get? type.name = none ∧
            ∃ p, TransGen t.Declares (ClassName.normalize type.name) p ∧
              ReflTransGen index.Declares p (ClassName.normalize candidate))) ∧
    (Oracle.consulting index fun c d =>
        ((MemoIndex.asked index (before c d)).isSubtype c d).1).isInstance t n candidate =
      (Oracle.ofIndex index).isInstance t n candidate := by
  constructor
  · rw [Oracle.ofIndex, ClassIndex.isInstance_eq_true_iff]
    refine exists_congr fun type => and_congr_right fun _ => and_congr_right fun _ =>
      or_congr ClassIndex.isSubtype_iff_declares (and_congr_right fun _ => exists_congr fun p => ?_)
    rw [Tree.mem_declaredSupertypes_iff]
    refine and_congr_right fun hp => ?_
    rw [ClassIndex.isSubtype_iff_declares, Tree.normalize_of_transGen hp]
  · rw [← Oracle.consulting_isSubtype]
    simp only [MemoIndex.isSubtype_asked]

end CodeMigration
