import CodeMigration.Proofs.ClassIndex.Hops
import CodeMigration.Proofs.Decoration

/-!
# Types that a decoration records

A decoration works out all types on the tree as it was found and then records them, so it is a case
of `ClassIndex.Caches`: a type that was known stays the same. Recording a type also shortens the
searches that pass through its node. A second decoration therefore finds more types exactly when
the limit on the hops has cut off a search in the first one; apart from that it changes nothing.
-/

namespace CodeMigration

variable {index : ClassIndex} {oracle : Oracle} {t : Tree} {n m : NodeId}

namespace Decoration

/-- The types of such nodes are recorded, and nothing is recorded as the type of this one. -/
def Awaits (t : Tree) (n : NodeId) : Prop :=
  (t.kind? n).any recordsType = true ∧ t.attribute? n .resolvedType = none

lemma newType?_eq_some_iff {type : TypeDescriptor} :
    newType? oracle t n = some type ↔ Awaits t n ∧ oracle.typeOf t n = some type := by
  rw [newType?, Option.ite_none_right_eq_some, Bool.and_eq_true, Bool.not_eq_true',
    Attributes.has, Option.isSome_eq_false_iff, Option.isNone_iff_eq_none]
  rfl

lemma newType?_eq_none_iff :
    newType? oracle t n = none ↔ (Awaits t n → oracle.typeOf t n = none) := by
  constructor
  · intro hnone hawaits
    by_contra hsome
    obtain ⟨type, htype⟩ := Option.ne_none_iff_exists'.mp hsome
    have hnew := newType?_eq_some_iff.mpr ⟨hawaits, htype⟩
    simp [hnone] at hnew
  · intro h
    by_contra hsome
    obtain ⟨type, htype⟩ := Option.ne_none_iff_exists'.mp hsome
    obtain ⟨hawaits, hfound⟩ := newType?_eq_some_iff.mp htype
    simp [h hawaits] at hfound

end Decoration

open Decoration

namespace Tree

/-! ### What is recorded -/

lemma resolvedType_decorate_of_some {type : TypeDescriptor} (ht : t.Sound) (hn : n ∈ t.nodes)
    (htype : newType? oracle t n = some type) :
    (t.decorate oracle).1.attribute? n .resolvedType = some (.type type) := by
  rw [resolvedType_decorate_eq oracle ht, if_pos hn, htype]
  rfl

@[simp] lemma nodes_decorate (oracle : Oracle) (t : Tree) :
    (t.decorate oracle).1.nodes = t.nodes := Alike.nodes ⟨rfl, rfl⟩

/-- A decoration records what the index finds. -/
lemma caches_decorate (index : ClassIndex) (ht : t.Sound) :
    index.Caches t (t.decorate (.ofIndex index)).1 := by
  refine ⟨⟨rfl, rfl⟩, fun n => ?_⟩
  cases htype : newType? (.ofIndex index) t n with
  | none =>
    left
    rw [recordedType?, resolvedType_decorate_of_none ht fun _ => htype, recordedType?]
  | some type =>
    by_cases hn : n ∈ t.nodes
    · right
      obtain ⟨hawaits, hfound⟩ := newType?_eq_some_iff.mp htype
      rw [recordedType?, recordedType?, resolvedType_decorate_of_some ht hn htype, hawaits.2]
      exact ⟨rfl, hfound.symm⟩
    · left
      rw [recordedType?, resolvedType_decorate_of_none ht fun h => absurd h hn, recordedType?]

end Tree

/-- A type that is known before a decoration is the type known afterwards, for attached and free
nodes, and it is then recorded for every attached node that was waiting for one. -/
theorem known_types_kept (ht : t.Reachable) (index : ClassIndex) (n : NodeId)
    {type : TypeDescriptor} (hknown : (Oracle.ofIndex index).typeOf t n = some type) :
    (Oracle.ofIndex index).typeOf (t.decorate (.ofIndex index)).1 n = some type ∧
      (n ∈ t.nodes → Awaits t n →
        (t.decorate (.ofIndex index)).1.attribute? n .resolvedType = some (.type type)) := by
  constructor
  · exact (Tree.caches_decorate index ht.sound).typeOf?_eq_some hknown
  · intro hn hawaits
    exact Tree.resolvedType_decorate_of_some ht.sound hn
      (newType?_eq_some_iff.mpr ⟨hawaits, hknown⟩)

/-- A class with a method that returns an object of the class. -/
def fluentIndex : ClassIndex := { classes := [("Form", { methods := [("add", "Form")] })] }

/-- A construction on whose result the method is called so many times, each time on the result of
the call before. -/
def Tree.fluentCalls (k : Nat) : Tree :=
  Command.runAll (Tree.new .file) <| .add (.instantiation "Form") ::
    (List.range k).map (fun i => .addWithChildren (.methodCall "add") [i + 1]) ++
    [.pushChild 0 (k + 1)]

lemma Tree.reachable_fluentCalls (k : Nat) : (fluentCalls k).Reachable :=
  (Reachable.new .file).runAll _

theorem known_types_kept_fluent :
    ∃ type : TypeDescriptor, type.name = "Form" ∧
      (Oracle.ofIndex fluentIndex).typeOf (Tree.fluentCalls 2) 3 = some type ∧
      (Oracle.ofIndex fluentIndex).typeOf
        ((Tree.fluentCalls 2).decorate (.ofIndex fluentIndex)).1 3 = some type := by
  have hname : ((Oracle.ofIndex fluentIndex).typeOf (Tree.fluentCalls 2) 3).map (·.name) =
      some "Form" := by decide +kernel
  obtain ⟨type, hknown, hname⟩ := Option.map_eq_some_iff.mp hname
  have hkept := known_types_kept (Tree.reachable_fluentCalls 2) fluentIndex 3 hknown
  exact ⟨type, hname, hknown, hkept.1⟩

/-! ### Sources of attached nodes -/

namespace Tree

lemma mem_of_bodyAbove {above : List NodeId} {body statement : NodeId}
    (h : t.bodyAbove n above = some (body, statement)) : body ∈ above := by
  induction above generalizing n with
  | nil => cases h
  | cons p above ih =>
    rw [bodyAbove] at h
    split at h
    · cases h
      exact List.mem_cons_self
    · exact List.mem_cons_of_mem p (ih h)

namespace WellLinked

variable (ht : t.WellLinked)
include ht

lemma attached_of_mem_ancestors (hn : t.Reaches t.root n) (hm : m ∈ t.ancestors n) :
    t.Reaches t.root m := by
  obtain ⟨p, hp, hmp⟩ := ht.mem_ancestors_iff.mp hm
  rcases hn.total (hmp.trans hp.reaches) with h | h
  · exact h
  · rw [h.eq_of_free ht.root_free]

lemma attached_of_child? {p : NodeId} {i : Nat} (hp : t.Reaches t.root p)
    (hc : t.child? p i = some n) : t.Reaches t.root n :=
  hp.trans (ht.link_of_child? hc).reaches

lemma attached_of_assignedValue? {statement : NodeId} {name : String}
    (hs : t.Reaches t.root statement) (hv : t.assignedValue? statement name = some m) :
    t.Reaches t.root m := by
  rw [assignedValue?] at hv
  split at hv
  · split at hv
    · next assignment ha =>
      split at hv
      · exact ht.attached_of_child? (ht.attached_of_child? hs ha) hv
      · cases hv
    · cases hv
  · cases hv

lemma attached_of_lastAssignment? {name : String} (hn : t.Reaches t.root n)
    (hv : t.lastAssignment? n name = some m) : t.Reaches t.root m := by
  rw [lastAssignment?, Option.bind_eq_some_iff] at hv
  obtain ⟨⟨body, statement⟩, hbody, hv⟩ := hv
  obtain ⟨s, hs, hv⟩ := List.exists_of_findSome?_eq_some hv
  have hchild : s ∈ t.children body :=
    (List.takeWhile_sublist _).subset (List.mem_reverse.mp hs)
  apply ht.attached_of_assignedValue? _ hv
  apply Reaches.trans (ht.attached_of_mem_ancestors hn (mem_of_bodyAbove hbody))
  exact Link.reaches ((ht.mem_children_iff body s).mp hchild)

/-- The search for the type of an attached node stays in the attached part of the tree. -/
lemma attached_of_typeSource? (hn : t.Reaches t.root n) (hm : t.typeSource? n = some m) :
    t.Reaches t.root m := by
  rw [typeSource?] at hm
  split at hm
  · next name _ =>
    rw [variableSource?] at hm
    split at hm
    · exact ht.attached_of_mem_ancestors hn (List.mem_of_find?_eq_some hm)
    · split at hm
      · next p hp =>
        have hlink : t.Link p n := (Option.filter_eq_some_iff.mp hp).1
        exact ht.attached_of_child? (ht.attached_of_link hlink hn) hm
      · exact ht.attached_of_lastAssignment? hn hm
  · exact ht.attached_of_child? hn hm
  · exact ht.attached_of_child? hn hm
  · cases hm

end WellLinked

/-- The types of nodes that take their type from another are recorded. -/
lemma recordsType_of_typeSource? (hm : t.typeSource? n = some m) :
    (t.kind? n).any recordsType = true := by
  rw [typeSource?] at hm
  rw [kind?]
  split at hm
  · next hc => simp [hc, Construct.kind, recordsType]
  · next hc => simp [hc, Construct.kind, recordsType]
  · next hc => simp [hc, Construct.kind, recordsType]
  · cases hm

end Tree

/-! ### A second decoration -/

namespace Decoration

/-- Decorating once more finds no new types and leaves every attribute alone. -/
def Stable (oracle : Oracle) (t : Tree) : Prop :=
  ((t.decorate oracle).1.decorate oracle).2.typed = 0 ∧
    ∀ n key, ((t.decorate oracle).1.decorate oracle).1.attribute? n key =
      (t.decorate oracle).1.attribute? n key

/-- No node that waits for its type is cut off from it. -/
def Unhindered (index : ClassIndex) (t : Tree) : Prop :=
  ∀ n ∈ t.nodes, Awaits t n → ¬ index.CutOff t n

lemma attribute?_decorate_twice (oracle : Oracle) (ht : t.Sound) (n : NodeId) {key : AttributeKey}
    (hkey : key ≠ .resolvedType) :
    ((t.decorate oracle).1.decorate oracle).1.attribute? n key =
      (t.decorate oracle).1.attribute? n key :=
  Tree.attribute?_decorate_again ht (ht.edited (t.edited_decorate oracle)) (.refl _) hkey rfl

lemma stable_iff (ht : t.Sound) :
    Stable oracle t ↔ ((t.decorate oracle).1.decorate oracle).2.typed = 0 := by
  refine ⟨And.left, fun htyped => ⟨htyped, fun n key => ?_⟩⟩
  by_cases hkey : key = .resolvedType
  · subst hkey
    exact Tree.resolvedType_decorate (ht.edited (t.edited_decorate oracle)) htyped n
  · exact attribute?_decorate_twice oracle ht n hkey

/-- What is recorded as the type of a node stays. -/
lemma resolvedType_decorate_keeps {value : AttributeValue} (ht : t.Sound)
    (h : t.attribute? n .resolvedType = some value) :
    (t.decorate oracle).1.attribute? n .resolvedType = some value := by
  rw [Tree.resolvedType_decorate_of_none ht fun _ => newType?_eq_none_iff.mpr fun hawaits => ?_, h]
  simp [hawaits.2] at h

/-- A node that still waits for its type has not been given one. -/
lemma awaits_of_awaits_decorate (ht : t.Sound) (hn : n ∈ t.nodes)
    (h : Awaits (t.decorate oracle).1 n) :
    Awaits t n ∧ oracle.typeOf t n = none := by
  have hnone : newType? oracle t n = none := by
    by_contra hsome
    obtain ⟨type, htype⟩ := Option.ne_none_iff_exists'.mp hsome
    have hrecorded := Tree.resolvedType_decorate_of_some ht hn htype
    simp [h.2] at hrecorded
  have hawaits : Awaits t n := by
    refine ⟨h.1, ?_⟩
    rw [← h.2, Tree.resolvedType_decorate_of_none ht fun _ => hnone]
  exact ⟨hawaits, newType?_eq_none_iff.mp hnone hawaits⟩

lemma stable_of_unhindered (ht : t.Sound) (h : Unhindered index t) :
    Stable (.ofIndex index) t := by
  rw [stable_iff ht, Tree.typed_eq_zero_iff, Tree.nodes_decorate]
  intro n hn
  rw [newType?_eq_none_iff]
  intro hagain
  obtain ⟨hawaits, hnone⟩ := awaits_of_awaits_decorate ht hn hagain
  by_contra hsome
  obtain ⟨type, hfound⟩ := Option.ne_none_iff_exists'.mp hsome
  obtain ⟨k, hk⟩ := (Tree.caches_decorate index ht).exists_typeWithin? hfound
  exact h n hn hawaits ⟨hnone, k, type, hk⟩

/-- Whatever is recorded as the type of a node is a type. -/
def TypesOnly (t : Tree) : Prop :=
  ∀ n value, t.attribute? n .resolvedType = some value → value.asType?.isSome = true

lemma awaits_of_takesHops {k : Nat} (htypes : TypesOnly t) (h : index.TakesHops t (k + 1) n) :
    Awaits t n := by
  obtain ⟨_, hrecorded, m, _, _, hm, _⟩ := h.next
  refine ⟨Tree.recordsType_of_typeSource? hm, ?_⟩
  cases hvalue : t.attribute? n .resolvedType with
  | none => rfl
  | some value =>
    have htype := htypes n value hvalue
    rw [Tree.recordedType?, hvalue, Option.bind_some] at hrecorded
    simp [hrecorded] at htype

/-- A node one hop out of reach of its type is given it by a second decoration, since the first one
has recorded the type of its source. -/
lemma exists_newType?_decorate (ht : t.Sound) (htypes : TypesOnly t)
    (hn : t.Reaches t.root n) (h : index.TakesHops t ClassIndex.maxHops n) :
    ∃ type, newType? (.ofIndex index) (t.decorate (.ofIndex index)).1 n = some type := by
  obtain ⟨hlive, hrecorded, m, source, type, hm, hnext, hsource, htype⟩ := h.next
  have hsource : (Oracle.ofIndex index).typeOf t m = some source := hsource
  have hawaits : Awaits t n := awaits_of_takesHops htypes h
  have hsame := Tree.resolvedType_decorate_of_none ht fun _ : n ∈ t.nodes =>
    newType?_eq_none_iff.mpr fun _ => show (Oracle.ofIndex index).typeOf t n = none from h.1
  have hmattached : t.Reaches t.root m := ht.linked.attached_of_typeSource? hn hm
  have hmtype := Tree.resolvedType_decorate_of_some ht (ht.linked.mem_nodes_iff.mpr hmattached)
    (newType?_eq_some_iff.mpr ⟨awaits_of_takesHops htypes hnext, hsource⟩)
  -- two hops lead from the node to the recorded type
  have hmfound : index.typeWithin? (t.decorate (.ofIndex index)).1 1 m = some source := by
    rw [ClassIndex.typeWithin?_succ_eq_some_iff, Tree.recordedType?, hmtype]
    exact ⟨ht.linked.isLive_of_attached hmattached, Or.inl rfl⟩
  have hfound : index.typeWithin? (t.decorate (.ofIndex index)).1 2 n = some type := by
    have halike := (Tree.caches_decorate index ht).alike
    rw [ClassIndex.typeWithin?_succ_eq_some_iff, Tree.recordedType?, hsame, halike.typeSource?,
      ClassIndex.typeFrom?_alike halike]
    exact ⟨hlive, Or.inr ⟨hrecorded, Or.inr ⟨m, source, hm, hmfound, htype⟩⟩⟩
  refine ⟨type, newType?_eq_some_iff.mpr ⟨⟨hawaits.1, hsame.trans hawaits.2⟩, ?_⟩⟩
  exact ClassIndex.typeWithin?_mono (by decide) hfound

lemma unhindered_of_stable (ht : t.Sound) (htypes : TypesOnly t)
    (h : Stable (.ofIndex index) t) : Unhindered index t := by
  intro n hn _ hcut
  obtain ⟨k, hk⟩ := hcut.exists_takesHops
  obtain ⟨m, hway, hm⟩ := hk.exists_source
  have hattached : t.Reaches t.root m := by
    clear hm
    induction hway with
    | refl => exact ht.linked.mem_nodes_iff.mp hn
    | tail _ hstep ih => exact ht.linked.attached_of_typeSource? ih hstep
  obtain ⟨type, htype⟩ := exists_newType?_decorate ht htypes hattached hm
  have hnone := Tree.typed_eq_zero_iff.mp h.1 m
    (by simpa using ht.linked.mem_nodes_iff.mpr hattached)
  simp [htype] at hnone

end Decoration

/-- A second decoration changes no scope, no enclosing class and no recorded type. It finds no new
types either if the limit on the hops cut off no search in the first one, and, when only types have
been recorded as types, in no other case. -/
theorem decoration_stable_unless_cut_off (ht : t.Reachable) (index : ClassIndex) :
    (∀ n key, key ≠ .resolvedType →
      ((t.decorate (.ofIndex index)).1.decorate (.ofIndex index)).1.attribute? n key =
        (t.decorate (.ofIndex index)).1.attribute? n key) ∧
    (∀ n value, (t.decorate (.ofIndex index)).1.attribute? n .resolvedType = some value →
      ((t.decorate (.ofIndex index)).1.decorate (.ofIndex index)).1.attribute? n .resolvedType =
        some value) ∧
    (Unhindered index t → Stable (.ofIndex index) t) ∧
    (TypesOnly t → Stable (.ofIndex index) t → Unhindered index t) := by
  refine ⟨?_, ?_, stable_of_unhindered ht.sound, unhindered_of_stable ht.sound⟩
  · intro n key hkey
    exact attribute?_decorate_twice _ ht.sound n hkey
  · intro n value hvalue
    exact resolvedType_decorate_keeps (ht.sound.edited (t.edited_decorate _)) hvalue

/-- With as many calls as the limit allows every type is found, so a second decoration finds no
more. -/
theorem decoration_stable_unless_cut_off_fluent :
    Unhindered fluentIndex (Tree.fluentCalls 32) ∧
      Stable (.ofIndex fluentIndex) (Tree.fluentCalls 32) := by
  have hknown : ((Tree.fluentCalls 32).nodes.all fun n =>
      (fluentIndex.typeOf? (Tree.fluentCalls 32) n).isSome ||
        !((Tree.fluentCalls 32).kind? n).any recordsType) = true := by decide +kernel
  have hunhindered : Unhindered fluentIndex (Tree.fluentCalls 32) := by
    intro n hn hawaits hcut
    have hn := List.all_eq_true.mp hknown n hn
    simp [hcut.1, hawaits.1] at hn
  obtain ⟨_, _, hstable, _⟩ :=
    decoration_stable_unless_cut_off (Tree.reachable_fluentCalls 32) fluentIndex
  exact ⟨hunhindered, hstable hunhindered⟩

/-- One call more, and the outermost one gets its type from the second decoration only. -/
theorem decoration_not_stable :
    (Tree.fluentCalls 33).Reachable ∧ ¬ Stable (.ofIndex fluentIndex) (Tree.fluentCalls 33) := by
  refine ⟨Tree.reachable_fluentCalls 33, fun ⟨hnone, _⟩ => ?_⟩
  have htyped : (((Tree.fluentCalls 33).decorate (.ofIndex fluentIndex)).1.decorate
      (.ofIndex fluentIndex)).2.typed = 1 := by decide +kernel
  simp [htyped] at hnone

end CodeMigration
