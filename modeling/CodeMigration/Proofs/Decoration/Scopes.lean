import CodeMigration.Proofs.Decoration.Types
import Mathlib.Data.List.Induction

/-!
# What a decoration records

The scope of a node is given by the nodes above it: from the outermost to the innermost, each
namespace, class, method and function among them opens a region (`Tree.scopeAround`). The decoration
passes scopes down instead and comes to the same result (`Decoration.scope_of_mem_place`).

A scope also knows a full class name. It is built from the names as they are written, and that of a
class declaration from names without leading separators, so the two agree when no name has such a
separator and the scope belongs to the namespace around the class
(`Tree.qualifiedClass?_scopeAround`).
-/

namespace CodeMigration

/-! ### Names -/

/-- The name is written from the global namespace. -/
def ClassName.IsAbsolute (name : String) : Prop := name.toList.head? = some '\\'

lemma ClassName.normalize_of_not_isAbsolute {name : String} (h : ¬ IsAbsolute name) :
    normalize name = name := by
  cases hname : name.toList with
  | nil => rw [normalize, hname, List.dropWhile_nil, ← hname, String.ofList_toList]
  | cons c rest =>
    have hc : (c == '\\') = false := by
      rw [beq_eq_false_iff_ne]
      rintro rfl
      exact h (by rw [IsAbsolute, hname, List.head?_cons])
    rw [normalize, hname, List.dropWhile_cons, hc, if_neg (by decide), ← hname,
      String.ofList_toList]

/-! ### Regions -/

/-- What a node of a kind opens for what is below it. -/
def Kind.scopeKind? : Kind → Option ScopeKind
  | .namespaceDecl => some .namespaceDecl
  | .classDecl => some .classDecl
  | .method | .function => some .function
  | _ => none

/-- The scope inside regions that lie one in the other, outermost first. -/
def Scope.inside (regions : List ScopeFrame) : Scope :=
  regions.foldl (fun s f => s.nest f.kind f.name) .file

lemma Scope.inside_append (regions : List ScopeFrame) (f : ScopeFrame) :
    inside (regions ++ [f]) = (inside regions).nest f.kind f.name := by
  simp [inside]

@[simp] lemma Scope.frames_inside (regions : List ScopeFrame) :
    (inside regions).frames = regions.reverse := by
  induction regions using List.reverseRecOn with
  | nil => rfl
  | append_singleton regions f ih => simp [inside_append, nest, ih]

namespace Tree

variable {t : Tree} {n p c : NodeId}

/-- The region that a node opens for what is below it. -/
def region? (t : Tree) (n : NodeId) : Option ScopeFrame :=
  ((t.kind? n).bind Kind.scopeKind?).bind fun kind => (t.name? n).map (⟨kind, ·⟩)

/-- The scope of a node by the nodes above it. -/
def scopeAround (t : Tree) (n : NodeId) : Scope :=
  Scope.inside ((t.ancestors n).reverse.filterMap t.region?)

@[simp] lemma frames_scopeAround (t : Tree) (n : NodeId) :
    (t.scopeAround n).frames = (t.ancestors n).filterMap t.region? := by
  simp [scopeAround, List.filterMap_reverse]

lemma kind_of_region? {f : ScopeFrame} (h : t.region? n = some f) :
    ∃ k, t.kind? n = some k ∧ k.scopeKind? = some f.kind := by
  obtain ⟨kind, hkind, h⟩ := Option.bind_eq_some_iff.mp h
  obtain ⟨k, hk, hscope⟩ := Option.bind_eq_some_iff.mp hkind
  obtain ⟨name, _, rfl⟩ := Option.map_eq_some_iff.mp h
  exact ⟨k, hk, hscope⟩

/-- Whatever opens a region has a name. -/
lemma region?_of_kind {k : Kind} {kind : ScopeKind} (hn : t.hasKind n k = true)
    (hk : k.scopeKind? = some kind) :
    ∃ name, t.name? n = some name ∧ t.region? n = some ⟨kind, name⟩ := by
  rw [hasKind, beq_iff_eq] at hn
  have hname : ∃ name, t.name? n = some name := by
    obtain ⟨construct, hconstruct, rfl⟩ := Option.map_eq_some_iff.mp hn
    rw [name?, hconstruct]
    cases construct <;> simp_all [Construct.kind, Kind.scopeKind?, Construct.name?]
  obtain ⟨name, hname⟩ := hname
  refine ⟨name, hname, ?_⟩
  simp [region?, hn, hk, hname]

/-! ### Scopes passed down -/

/-- A construct opens the region of its node. -/
lemma innerScope_eq (t : Tree) (n : NodeId) (s : Scope) :
    ((t.construct? n).map (Decoration.innerScope s)).getD s =
      ⟨(t.region? n).toList ++ s.frames⟩ := by
  rw [region?, kind?, name?]
  cases t.construct? n with
  | none => rfl
  | some construct => cases construct <;> rfl

lemma WellLinked.scopeAround_of_link (ht : t.WellLinked) (hlink : t.Link p c) :
    t.scopeAround c =
      ((t.construct? p).map (Decoration.innerScope (t.scopeAround p))).getD (t.scopeAround p) := by
  have hframes : (t.scopeAround c).frames =
      (t.region? p).toList ++ (t.scopeAround p).frames := by
    rw [frames_scopeAround, frames_scopeAround, ht.ancestors_of_link hlink]
    cases hregion : t.region? p <;> simp [hregion]
  rw [innerScope_eq, ← hframes]

lemma scopeAround_of_free (hn : t.parent? n = none) : t.scopeAround n = .file := by
  rw [scopeAround, WellLinked.ancestors_of_free hn]
  rfl

end Tree

namespace Decoration

variable {t : Tree} {n : NodeId}

/-- The scope passed down is the one that the nodes above make. -/
lemma scope_of_mem_place (ht : t.WellLinked) {k : Nat} {enclosing : Option NodeId}
    {p : Placement} (hp : p ∈ place t k (t.scopeAround n) enclosing n) :
    p.scope = t.scopeAround p.node := by
  induction k generalizing enclosing n with
  | zero => cases hp
  | succ k ih =>
    rcases List.mem_cons.mp hp with rfl | hp
    · rfl
    · obtain ⟨c, hc, hp⟩ := List.mem_flatMap.mp hp
      have hscope := ht.scopeAround_of_link ((ht.mem_children_iff n c).mp hc)
      rw [← hscope] at hp
      exact ih hp

/-- Placements with the right scopes record the right scope for the nodes they place. -/
lemma foldl_record_scope {f : NodeId → Scope} {l : List Placement}
    (hl : ∀ p ∈ l, p.scope = f p.node) {a : Attributes} (h : a.Distinct) (n : NodeId) :
    (l.foldl record a).get? n .scope =
      if n ∈ l.map (·.node) then some (.scope (f n)) else a.get? n .scope := by
  induction l generalizing a with
  | nil => rfl
  | cons p l ih =>
    have hrest := ih (fun q hq => hl q (List.mem_cons_of_mem p hq)) (distinct_record h p)
    rw [List.foldl_cons, hrest, get?_record_scope h, hl p List.mem_cons_self]
    by_cases hn : n = p.node
    · simp [hn]
    · simp [hn]

end Decoration

namespace Tree

variable {t : Tree} {n c : NodeId} {oracle : Oracle}

lemma scope_decorate (oracle : Oracle) (ht : t.Sound) (n : NodeId) :
    (t.decorate oracle).1.attribute? n .scope =
      if n ∈ t.nodes then some (.scope (t.scopeAround n)) else t.attribute? n .scope := by
  rw [get?_decorate oracle t n (by decide), attribute?, ← Decoration.map_node_placements]
  refine Decoration.foldl_record_scope (fun p hp => ?_) ht.distinct n
  rw [Decoration.placements, ← scopeAround_of_free ht.linked.root_free] at hp
  exact Decoration.scope_of_mem_place ht.linked hp

/-- A decoration leaves free and discarded nodes alone. -/
lemma attribute?_decorate_of_not_mem (oracle : Oracle) (ht : t.Sound) (hn : n ∉ t.nodes)
    (key : AttributeKey) : (t.decorate oracle).1.attribute? n key = t.attribute? n key := by
  by_cases hkey : Decoration.records key
  · rcases hkey with rfl | rfl | rfl
    · rw [scope_decorate oracle ht, if_neg hn]
    · rw [enclosingClass_decorate oracle ht, if_neg hn]
    · rw [resolvedType_decorate_eq oracle ht, if_neg hn]
  · exact attribute?_decorate oracle ht n hkey

/-- Every attached node is placed once. -/
lemma placed_decorate (oracle : Oracle) (ht : t.WellLinked) :
    (t.decorate oracle).2.placed = (List.range t.size).countP t.isAttached := by
  have hperm : t.nodes.Perm ((List.range t.size).filter t.isAttached) := by
    rw [List.perm_ext_iff_of_nodup ht.nodup_nodes (List.nodup_range.filter _)]
    intro n
    rw [ht.mem_nodes_iff, List.mem_filter, List.mem_range, ht.isAttached_iff]
    constructor
    · intro hn
      exact ⟨ht.lt_size_of_reaches hn, hn⟩
    · exact And.right
  rw [List.countP_eq_length_filter, ← hperm.length_eq, ← Decoration.map_node_placements,
    List.length_map]
  rfl

/-! ### Full class names -/

/-- The nearest region of a kind has the name of the nearest node of that kind. -/
lemma name?_lookupFrom {k : Kind} {kind : ScopeKind} (hk : ∀ k', k'.scopeKind? = some kind ↔ k' = k)
    (above : List NodeId) :
    (Scope.lookupFrom kind (above.filterMap t.region?)).bind Scope.name? =
      (above.find? (t.hasKind · k)).bind t.name? := by
  induction above with
  | nil =>
    rw [List.filterMap_nil, Scope.lookupFrom]
    split <;> rfl
  | cons m above ih =>
    rw [List.filterMap_cons, List.find?_cons]
    cases hm : t.hasKind m k with
    | true =>
      obtain ⟨name, hname, hregion⟩ := region?_of_kind hm ((hk k).mpr rfl)
      simp [hregion, hname, Scope.lookupFrom, Scope.name?]
    | false =>
      cases hregion : t.region? m with
      | none => exact ih
      | some f =>
        obtain ⟨k', hk', hf⟩ := kind_of_region? hregion
        have hother : f.kind ≠ kind := by
          rintro rfl
          rw [hasKind, hk', (hk k').mp hf] at hm
          simp at hm
        simp only [Scope.lookupFrom, if_neg hother, ih]

lemma class?_scopeAround (t : Tree) (n : NodeId) :
    (t.scopeAround n).class? = (t.enclosing? n .classDecl).bind t.name? := by
  rw [Scope.class?, Scope.lookup?, frames_scopeAround, enclosing?]
  apply name?_lookupFrom
  intro k
  cases k <;> simp [Kind.scopeKind?]

lemma namespace?_scopeAround (t : Tree) (n : NodeId) :
    (t.scopeAround n).namespace? = (t.enclosing? n .namespaceDecl).bind t.name? := by
  rw [Scope.namespace?, Scope.lookup?, frames_scopeAround, enclosing?]
  apply name?_lookupFrom
  intro k
  cases k <;> simp [Kind.scopeKind?]

/-- The way up from a node goes over the nodes between it and a given node above it. -/
lemma WellLinked.ancestors_eq_append (ht : t.WellLinked) (hc : c ∈ t.ancestors n) :
    ∃ between, t.ancestors n = between ++ c :: t.ancestors c ∧
      ∀ m ∈ between, c ∈ t.ancestors m := by
  induction n using ht.wellFounded.induction with
  | _ n ih =>
    obtain ⟨p, hp, hcp⟩ := ht.mem_ancestors_iff.mp hc
    rw [ht.ancestors_of_link hp] at hc ⊢
    rcases List.mem_cons.mp hc with rfl | hc
    · exact ⟨[], rfl, by simp⟩
    · obtain ⟨between, hbetween, hbelow⟩ := ih p hp hc
      refine ⟨p :: between, by rw [hbetween, List.cons_append], ?_⟩
      intro m hm
      rcases List.mem_cons.mp hm with rfl | hm
      · exact hc
      · exact hbelow m hm

/-- With no namespace between a node and a class above it both have the same namespace. -/
lemma WellLinked.enclosing?_of_between (ht : t.WellLinked) {k : Kind} (hc : c ∈ t.ancestors n)
    (hself : t.hasKind c k = false)
    (hbetween : ∀ m ∈ t.ancestors n, c ∈ t.ancestors m → t.hasKind m k = false) :
    t.enclosing? n k = t.enclosing? c k := by
  obtain ⟨between, hsplit, hbelow⟩ := ht.ancestors_eq_append hc
  have hnone : between.find? (t.hasKind · k) = none := by
    rw [List.find?_eq_none]
    intro m hm
    rw [hbetween m (hsplit ▸ List.mem_append_left _ hm) (hbelow m hm)]
    decide
  rw [enclosing?, hsplit, List.find?_append, hnone, Option.none_or, List.find?_cons, hself,
    enclosing?]

lemma exists_classDecl (h : t.hasKind c .classDecl = true) :
    ∃ name parent interfaces, t.construct? c = some (.classDecl name parent interfaces) := by
  rw [hasKind, beq_iff_eq] at h
  obtain ⟨construct, hconstruct, hkind⟩ := Option.map_eq_some_iff.mp h
  cases construct with
  | classDecl name parent interfaces => exact ⟨name, parent, interfaces, hconstruct⟩
  | _ => cases hkind

/-- Where no name has separators in front and no namespace lies between a node and the class around
it, the scope of the node knows the full name of the class. -/
lemma WellLinked.qualifiedClass?_scopeAround (ht : t.WellLinked)
    (hc : t.enclosing? n .classDecl = some c)
    (hnames : ∀ m ∈ t.ancestors n,
      t.hasKind m .namespaceDecl = true ∨ t.hasKind m .classDecl = true →
        ∀ name, t.name? m = some name → ¬ ClassName.IsAbsolute name)
    (hbetween : ∀ m ∈ t.ancestors n, c ∈ t.ancestors m → t.hasKind m .namespaceDecl = false) :
    (t.scopeAround n).qualifiedClass? = t.qualifiedClass? c := by
  have hmem : c ∈ t.ancestors n := List.mem_of_find?_eq_some hc
  have hkind : t.hasKind c .classDecl = true := by simpa using List.find?_some hc
  obtain ⟨name, parent, interfaces, hconstruct⟩ := exists_classDecl hkind
  have hname : t.name? c = some name := by rw [name?, hconstruct]; rfl
  have hplain : ClassName.normalize name = name :=
    ClassName.normalize_of_not_isAbsolute (hnames c hmem (Or.inr hkind) name hname)
  have hspace : t.enclosing? n .namespaceDecl = t.enclosing? c .namespaceDecl := by
    apply ht.enclosing?_of_between hmem _ hbetween
    simp [hasKind, kind?, hconstruct, Construct.kind]
  rw [Scope.qualifiedClass?, class?_scopeAround, hc, namespace?_scopeAround, hspace,
    qualifiedClass?, hconstruct, Option.bind_some, hname, Option.map_some]
  cases hd : t.enclosing? c .namespaceDecl with
  | none => simp [hplain]
  | some d =>
    have hdkind : t.hasKind d .namespaceDecl = true := by simpa using List.find?_some hd
    have hdmem : d ∈ t.ancestors n := List.mem_of_find?_eq_some (hspace.trans hd)
    cases hns : t.name? d with
    | none => simp [hns, hplain]
    | some ns =>
      have hnsplain : ClassName.normalize ns = ns :=
        ClassName.normalize_of_not_isAbsolute (hnames d hdmem (Or.inl hdkind) ns hns)
      simp only [Option.bind_some, hns, hplain, hnsplain]
      split <;> rfl

end Tree

/-! ### The whole decoration -/

open Decoration in
/-- A decoration records for every attached node the nearest class above it, if there is one, and
the scope that the nodes above it make. It places each attached node once. Apart from attributes
nothing changes, and of these only scopes, enclosing classes and missing types of attached nodes.
The scope of a node knows the full name of the class around it when no name above the node is
written from the global namespace and no namespace lies between the node and the class. -/
theorem decorate_records_surroundings {t : Tree} (ht : t.Reachable) (oracle : Oracle) :
    (∀ n, t.isAttached n = true →
      (t.decorate oracle).1.attribute? n .enclosingClass =
          (t.enclosing? n .classDecl).map .node ∧
        (t.decorate oracle).1.attribute? n .scope = some (.scope (t.scopeAround n)) ∧
        ∀ c, t.enclosing? n .classDecl = some c →
          (∀ m ∈ t.ancestors n,
            t.hasKind m .namespaceDecl = true ∨ t.hasKind m .classDecl = true →
              ∀ name, t.name? m = some name → ¬ ClassName.IsAbsolute name) →
          (∀ m ∈ t.ancestors n, c ∈ t.ancestors m → t.hasKind m .namespaceDecl = false) →
          (t.scopeAround n).qualifiedClass? = t.qualifiedClass? c) ∧
    (t.decorate oracle).2.placed = (List.range t.size).countP t.isAttached ∧
    { (t.decorate oracle).1 with attributes := t.attributes } = t ∧
    (∀ n, t.isAttached n = false → ∀ key,
      (t.decorate oracle).1.attribute? n key = t.attribute? n key) ∧
    ∀ n key, ¬ (key = .scope ∨ key = .enclosingClass ∨
        key = .resolvedType ∧ t.attribute? n .resolvedType = none) →
      (t.decorate oracle).1.attribute? n key = t.attribute? n key := by
  have hlinked := ht.sound.linked
  refine ⟨fun n hn => ⟨?_, ?_, ?_⟩, t.placed_decorate oracle hlinked, rfl, ?_, ?_⟩
  · have hmem := hlinked.mem_nodes_iff.mpr (hlinked.isAttached_iff.mp hn)
    rw [Tree.enclosingClass_decorate oracle ht.sound, if_pos hmem]
  · have hmem := hlinked.mem_nodes_iff.mpr (hlinked.isAttached_iff.mp hn)
    rw [Tree.scope_decorate oracle ht.sound, if_pos hmem]
  · intro c hc hnames hbetween
    exact hlinked.qualifiedClass?_scopeAround hc hnames hbetween
  · intro n hn key
    apply Tree.attribute?_decorate_of_not_mem oracle ht.sound
    rw [hlinked.mem_nodes_iff, ← hlinked.isAttached_iff, hn]
    decide
  · intro n key hkey
    by_cases hrecords : records key
    · rcases hrecords with rfl | rfl | rfl
      · simp at hkey
      · simp at hkey
      · obtain ⟨value, hvalue⟩ := Option.ne_none_iff_exists'.mp (by simpa using hkey)
        rw [hvalue, resolvedType_decorate_keeps ht.sound hvalue]
    · exact Tree.attribute?_decorate oracle ht.sound n hrecords

/-- A method of a class in a namespace, whose statement has an outdated record of its surroundings,
and a function outside of the file with a record of its own. -/
def Tree.movedStatement : Tree :=
  Command.runAll (Tree.new .file) [.add (.variableRef "this"), .addWithChildren .expression [1],
    .addWithChildren (.method "render") [2], .addWithChildren (.classDecl "Home" none []) [3],
    .addWithChildren (.namespaceDecl "App") [4], .pushChild 0 5, .add (.function "run"),
    .setAttribute 1 .scope (.scope .file), .pointAttribute 1 .enclosingClass 3,
    .setAttribute 6 .scope (.scope .file)]

theorem decorate_records_surroundings_moved :
    let t := Tree.movedStatement
    let t' := (t.decorate .unknown).1
    let around : Scope := ⟨[⟨.function, "render"⟩, ⟨.classDecl, "Home"⟩, ⟨.namespaceDecl, "App"⟩]⟩
    t'.attribute? 1 .enclosingClass = some (.node 4) ∧
      t'.attribute? 1 .scope = some (.scope around) ∧
      around.qualifiedClass? = t.qualifiedClass? 4 ∧
      (t.decorate .unknown).2.placed = 6 ∧
      t'.attribute? 6 .scope = t.attribute? 6 .scope := by
  intro t t' around
  have ht : t.Reachable := (Tree.Reachable.new .file).runAll _
  obtain ⟨hattached, hplaced, _, hfree, _⟩ := decorate_records_surroundings ht .unknown
  obtain ⟨hclass, hscope, hname⟩ := hattached 1 (by decide +kernel)
  have hc : t.enclosing? 1 .classDecl = some 4 := by decide +kernel
  have haround : t.scopeAround 1 = around := by decide +kernel
  have habove : t.ancestors 1 = [2, 3, 4, 5, 0] := by decide +kernel
  refine ⟨by rw [hclass, hc]; rfl, by rw [hscope, haround], ?_, ?_, hfree 6 (by decide +kernel) _⟩
  · rw [← haround]
    apply hname 4 hc
    · rw [habove]
      have hnames : ∀ m ∈ [2, 3, 4, 5, 0], t.hasKind m .namespaceDecl = true ∨
          t.hasKind m .classDecl = true → (t.name? m).bind (·.toList.head?) ≠ some '\\' := by
        decide +kernel
      intro m hm hkind name hname habsolute
      apply hnames m hm hkind
      rw [hname, Option.bind_some, habsolute]
    · rw [habove]
      decide +kernel
  · rw [hplaced]
    decide +kernel

end CodeMigration
