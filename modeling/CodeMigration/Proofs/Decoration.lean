import CodeMigration.Decoration
import CodeMigration.Proofs.Tree.Alike
import CodeMigration.Proofs.Tree.Revision

/-!
# What a decoration changes

A decoration is a row of attribute commands for scopes, enclosing classes and types.
-/

namespace CodeMigration

namespace Tree

/-- A change of attributes that is repeated for each entry of a list. -/
lemma edited_foldl_attributes {α : Type} {g : Attributes → α → Attributes}
    (hg : ∀ (t : Tree) x, Edited t (t.mapAttributes (g · x))) (l : List α) (t : Tree) :
    Edited t (t.mapAttributes fun a => l.foldl g a) := by
  induction l generalizing t with
  | nil => exact Edited.refl t
  | cons x l ih => exact (hg t x).trans (ih (t.mapAttributes (g · x)))

lemma edited_record (t : Tree) (p : Placement) :
    Edited t (t.mapAttributes (Decoration.record · p)) := by
  have hscope := edited_setAttribute t p.node .scope (.scope p.scope)
  refine hscope.trans ?_
  obtain ⟨n, s, enclosing⟩ := p
  cases enclosing with
  | none => exact edited_run _ (.removeAttribute n .enclosingClass) rfl
  | some c => exact edited_run _ (.pointAttribute n .enclosingClass c) rfl

lemma edited_recordType (t : Tree) (entry : NodeId × TypeDescriptor) :
    Edited t (t.mapAttributes (Decoration.recordType · entry)) :=
  edited_setAttribute t entry.1 .resolvedType (.type entry.2)

lemma edited_decorate (oracle : Oracle) (t : Tree) : Edited t (t.decorate oracle).1 := by
  refine (edited_foldl_attributes edited_record (Decoration.placements t) t).trans ?_
  exact edited_foldl_attributes edited_recordType _ _

lemma kept_decorate (oracle : Oracle) (t : Tree) : Kept t (t.decorate oracle).1 :=
  Kept.of_slots rfl rfl rfl rfl

end Tree

namespace Decoration

/-- The attributes that a decoration records. -/
def records (key : AttributeKey) : Prop :=
  key = .scope ∨ key = .enclosingClass ∨ key = .resolvedType

section record

variable {a : Attributes} (h : a.Distinct)
include h

lemma distinct_record (p : Placement) : (record a p).Distinct := by
  obtain ⟨n, s, enclosing⟩ := p
  have hscope := h.set n .scope (.scope s)
  cases enclosing with
  | none => exact hscope.trimmed (Attributes.trimmed_erase _ n .enclosingClass)
  | some c => exact hscope.set n _ _

lemma get?_record {key : AttributeKey} (hscope : key ≠ .scope) (p : Placement) (n : NodeId) :
    (record a p).get? n key =
      if n = p.node ∧ key = .enclosingClass then p.enclosing.map .node else a.get? n key := by
  obtain ⟨m, s, enclosing⟩ := p
  have hset : (a.set m .scope (.scope s)).get? n key = a.get? n key := by
    rw [Attributes.get?_set, if_neg fun h => hscope h.2]
  cases enclosing with
  | none =>
    show ((a.set m .scope (.scope s)).erase m .enclosingClass).get? n key = _
    have hd : (a.set m .scope (.scope s)).Distinct := h.set m .scope _
    rw [hd.get?_erase, hset, Option.map_none]
  | some c =>
    show ((a.set m .scope (.scope s)).set m .enclosingClass (.node c)).get? n key = _
    rw [Attributes.get?_set, hset, Option.map_some]

lemma get?_record_scope (p : Placement) (n : NodeId) :
    (record a p).get? n .scope = if n = p.node then some (.scope p.scope) else a.get? n .scope := by
  obtain ⟨m, s, enclosing⟩ := p
  have hset : (a.set m .scope (.scope s)).get? n .scope =
      if n = m then some (.scope s) else a.get? n .scope := by
    rw [Attributes.get?_set]
    simp
  cases enclosing with
  | none =>
    show ((a.set m .scope (.scope s)).erase m .enclosingClass).get? n .scope = _
    have hd : (a.set m .scope (.scope s)).Distinct := h.set m .scope _
    rw [hd.get?_erase, if_neg (by simp), hset]
  | some c =>
    show ((a.set m .scope (.scope s)).set m .enclosingClass (.node c)).get? n .scope = _
    rw [Attributes.get?_set, if_neg (by simp), hset]

/-- Placements leave the other attributes alone. -/
lemma get?_foldl_record {key : AttributeKey} (hscope : key ≠ .scope)
    (hclass : key ≠ .enclosingClass) (l : List Placement) (n : NodeId) :
    (l.foldl record a).get? n key = a.get? n key := by
  induction l generalizing a with
  | nil => rfl
  | cons p l ih =>
    rw [List.foldl_cons, ih (distinct_record h p), get?_record h hscope, if_neg fun h => hclass h.2]

end record

lemma get?_recordType {key : AttributeKey} (hkey : key ≠ .resolvedType) (a : Attributes)
    (entry : NodeId × TypeDescriptor) (n : NodeId) :
    (recordType a entry).get? n key = a.get? n key := by
  rw [recordType, Attributes.get?_set, if_neg fun h => hkey h.2]

lemma get?_foldl {α : Type} {g : Attributes → α → Attributes} {key : AttributeKey} {n : NodeId}
    (hg : ∀ a x, (g a x).get? n key = a.get? n key) (l : List α) (a : Attributes) :
    (l.foldl g a).get? n key = a.get? n key := by
  induction l generalizing a with
  | nil => rfl
  | cons x l ih => rw [List.foldl_cons, ih, hg]

/-- A placement fixes an attribute of a node, or leaves it alone. -/
lemma record_fixes (p : Placement) (n : NodeId) (key : AttributeKey) :
    (∃ v, ∀ a : Attributes, a.Distinct → (record a p).get? n key = v) ∨
      ∀ a : Attributes, a.Distinct → (record a p).get? n key = a.get? n key := by
  by_cases hscope : key = .scope
  · subst hscope
    by_cases hn : n = p.node
    · exact Or.inl ⟨_, fun a h => (get?_record_scope h p n).trans (if_pos hn)⟩
    · exact Or.inr fun a h => (get?_record_scope h p n).trans (if_neg hn)
  · by_cases hn : n = p.node ∧ key = .enclosingClass
    · exact Or.inl ⟨_, fun a h => (get?_record h hscope p n).trans (if_pos hn)⟩
    · exact Or.inr fun a h => (get?_record h hscope p n).trans (if_neg hn)

lemma foldl_record_fixes (l : List Placement) (n : NodeId) (key : AttributeKey) :
    (∃ v, ∀ a : Attributes, a.Distinct → (l.foldl record a).get? n key = v) ∨
      ∀ a : Attributes, a.Distinct → (l.foldl record a).get? n key = a.get? n key := by
  induction l with
  | nil => exact Or.inr fun _ _ => rfl
  | cons p l ih =>
    rcases ih with ⟨v, hv⟩ | hkeep
    · exact Or.inl ⟨v, fun a h => hv (record a p) (distinct_record h p)⟩
    · rcases record_fixes p n key with ⟨v, hv⟩ | hp
      · exact Or.inl ⟨v, fun a h => (hkeep _ (distinct_record h p)).trans (hv a h)⟩
      · exact Or.inr fun a h => (hkeep _ (distinct_record h p)).trans (hp a h)

/-- Placements that name the right classes record the right class for the nodes they place. -/
lemma foldl_record_right {f : NodeId → Option NodeId} {l : List Placement}
    (hl : ∀ p ∈ l, p.enclosing = f p.node) {a : Attributes} (h : a.Distinct) (n : NodeId) :
    (l.foldl record a).get? n .enclosingClass =
      if n ∈ l.map (·.node) then (f n).map .node else a.get? n .enclosingClass := by
  induction l generalizing a with
  | nil => rfl
  | cons p l ih =>
    rw [List.foldl_cons, ih (fun q hq => hl q (List.mem_cons_of_mem p hq)) (distinct_record h p),
      get?_record h (by decide), List.map_cons]
    by_cases hrest : n ∈ l.map (·.node)
    · rw [if_pos hrest, if_pos (List.mem_cons_of_mem _ hrest)]
    · by_cases hn : n = p.node
      · rw [if_neg hrest, if_pos ⟨hn, rfl⟩, if_pos (hn ▸ List.mem_cons_self),
          hl p List.mem_cons_self, hn]
      · rw [if_neg hrest, if_neg fun h => hn h.1, if_neg]
        rw [List.mem_cons, not_or]
        exact ⟨hn, hrest⟩

lemma map_node_place (t : Tree) (k : Nat) (s : Scope) (enclosing : Option NodeId) (n : NodeId) :
    (place t k s enclosing n).map (·.node) = t.preorder k n := by
  induction k generalizing s enclosing n with
  | zero => rfl
  | succ k ih =>
    rw [place, List.map_cons, List.map_flatMap, Tree.preorder]
    simp only [ih]

/-- The nodes that are placed are those of the tree. -/
lemma map_node_placements (t : Tree) : (placements t).map (·.node) = t.nodes :=
  map_node_place t _ _ _ _

/-- The class passed down is the one around the nodes below. -/
lemma enclosing_of_mem_place {t : Tree} (ht : t.WellLinked) {k : Nat} {s : Scope} {n : NodeId}
    {p : Placement} (hp : p ∈ place t k s (t.enclosing? n .classDecl) n) :
    p.enclosing = t.enclosing? p.node .classDecl := by
  induction k generalizing s n with
  | zero => cases hp
  | succ k ih =>
    rcases List.mem_cons.mp hp with rfl | hp
    · rfl
    · obtain ⟨c, hc, hp⟩ := List.mem_flatMap.mp hp
      have hclass := ht.enclosing?_of_link ((ht.mem_children_iff n c).mp hc) .classDecl
      rw [← hclass] at hp
      exact ih hp

/-- New types take the place of what is recorded, for the nodes they were worked out for. -/
lemma get?_foldl_recordType (oracle : Oracle) (t : Tree) (ids : List NodeId) (a : Attributes)
    (n : NodeId) :
    ((newTypes oracle t ids).foldl recordType a).get? n .resolvedType =
      if n ∈ ids then ((newType? oracle t n).map .type).or (a.get? n .resolvedType)
      else a.get? n .resolvedType := by
  induction ids generalizing a with
  | nil => rfl
  | cons m ids ih =>
    rw [newTypes, List.filterMap_cons]
    cases hm : newType? oracle t m with
    | none =>
      refine (ih a).trans ?_
      by_cases hn : n = m
      · subst hn
        simp [hm]
      · simp [hn]
    | some type =>
      refine (ih (recordType a (m, type))).trans ?_
      rw [recordType, Attributes.get?_set]
      by_cases hn : n = m
      · subst hn
        simp [hm]
      · simp [hn]

end Decoration

namespace Tree

variable {t t' : Tree}

lemma get?_decorate (oracle : Oracle) (t : Tree) (n : NodeId) {key : AttributeKey}
    (hkey : key ≠ .resolvedType) :
    (t.decorate oracle).1.attribute? n key =
      ((Decoration.placements t).foldl Decoration.record t.attributes).get? n key := by
  show (List.foldl Decoration.recordType (List.foldl Decoration.record t.attributes _) _).get? n
    key = _
  rw [Decoration.get?_foldl fun a x => Decoration.get?_recordType hkey a x n]

lemma attribute?_decorate (oracle : Oracle) (h : t.Sound) (n : NodeId) {key : AttributeKey}
    (hkey : ¬ Decoration.records key) :
    (t.decorate oracle).1.attribute? n key = t.attribute? n key := by
  rw [Decoration.records, not_or, not_or] at hkey
  rw [get?_decorate oracle t n hkey.2.2,
    Decoration.get?_foldl_record h.distinct hkey.1 hkey.2.1, attribute?]

lemma flag_decorate (oracle : Oracle) (h : t.Sound) (n : NodeId) {key : AttributeKey}
    (hkey : ¬ Decoration.records key) :
    (t.decorate oracle).1.attributes.flag n key = t.attributes.flag n key := by
  have hget := attribute?_decorate oracle h n hkey
  rw [attribute?, attribute?] at hget
  rw [Attributes.flag, hget, Attributes.flag]

/-- A decoration records the class around every attached node, and leaves what is recorded for other
nodes alone. -/
lemma enclosingClass_decorate (oracle : Oracle) (h : t.Sound) (n : NodeId) :
    (t.decorate oracle).1.attribute? n .enclosingClass =
      if n ∈ t.nodes then (t.enclosing? n .classDecl).map .node
      else t.attribute? n .enclosingClass := by
  rw [get?_decorate oracle t n (by decide), attribute?, ← Decoration.map_node_placements]
  refine Decoration.foldl_record_right (f := (t.enclosing? · .classDecl)) (fun p hp => ?_)
    h.distinct n
  rw [Decoration.placements, ← WellLinked.enclosing?_of_free h.linked.root_free .classDecl] at hp
  exact Decoration.enclosing_of_mem_place h.linked hp

lemma resolvedType_decorate_eq (oracle : Oracle) (h : t.Sound) (n : NodeId) :
    (t.decorate oracle).1.attribute? n .resolvedType =
      if n ∈ t.nodes then
        ((Decoration.newType? oracle t n).map .type).or (t.attribute? n .resolvedType)
      else t.attribute? n .resolvedType := by
  show (List.foldl Decoration.recordType
    (List.foldl Decoration.record t.attributes (Decoration.placements t))
    (Decoration.newTypes oracle t ((Decoration.placements t).map (·.node)))).get? n
      .resolvedType = _
  rw [Decoration.get?_foldl_recordType, Decoration.map_node_placements,
    Decoration.get?_foldl_record h.distinct (by decide) (by decide), attribute?]

/-- Where no new type was found everything is as before. -/
lemma resolvedType_decorate_of_none {oracle : Oracle} {n : NodeId} (h : t.Sound)
    (hnone : n ∈ t.nodes → Decoration.newType? oracle t n = none) :
    (t.decorate oracle).1.attribute? n .resolvedType = t.attribute? n .resolvedType := by
  rw [resolvedType_decorate_eq oracle h]
  split
  · next hn =>
    rw [hnone hn]
    rfl
  · rfl

lemma typed_eq_zero_iff {oracle : Oracle} :
    (t.decorate oracle).2.typed = 0 ↔
      ∀ n ∈ t.nodes, Decoration.newType? oracle t n = none := by
  show (Decoration.newTypes oracle t ((Decoration.placements t).map (·.node))).length = 0 ↔ _
  rw [Decoration.map_node_placements, List.length_eq_zero_iff, Decoration.newTypes,
    List.filterMap_eq_nil_iff]
  simp

/-- A decoration that finds no new types records none. -/
lemma resolvedType_decorate {oracle : Oracle} (h : t.Sound)
    (htyped : (t.decorate oracle).2.typed = 0) (n : NodeId) :
    (t.decorate oracle).1.attribute? n .resolvedType = t.attribute? n .resolvedType :=
  resolvedType_decorate_of_none h (typed_eq_zero_iff.mp htyped n)

lemma Alike.placements (h : Alike t t') : Decoration.placements t' = Decoration.placements t := by
  have hplace : ∀ k, Decoration.place t' k = Decoration.place t k := by
    intro k
    induction k with
    | zero => rfl
    | succ k ih =>
      funext s enclosing n
      rw [Decoration.place, Decoration.place, h.construct?, h.hasKind, h.children, ih]
  rw [Decoration.placements, Decoration.placements, hplace, h.size, h.root]

/-- The scopes and classes that a decoration records do not change when a tree that looks the same
and has them is decorated once more. -/
lemma attribute?_decorate_again {oracle : Oracle} {t₀ : Tree} (h₀ : t₀.Sound) (h : t.Sound)
    (halike : (t₀.decorate oracle).1.Alike t) {n : NodeId} {key : AttributeKey}
    (hkey : key ≠ .resolvedType)
    (hsame : t.attribute? n key = (t₀.decorate oracle).1.attribute? n key) :
    (t.decorate oracle).1.attribute? n key = t.attribute? n key := by
  have hplaces : Decoration.placements t = Decoration.placements t₀ := by
    rw [halike.placements]
    exact Alike.placements ⟨rfl, rfl⟩
  rw [get?_decorate oracle t n hkey, hplaces]
  rw [get?_decorate oracle t₀ n hkey] at hsame
  rcases Decoration.foldl_record_fixes (Decoration.placements t₀) n key with ⟨v, hv⟩ | hkeep
  · rw [hv _ h.distinct, hsame, hv _ h₀.distinct]
  · rw [hkeep _ h.distinct, attribute?]

end Tree

end CodeMigration
