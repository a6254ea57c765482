import CodeMigration.Proofs.Document.Outline
import CodeMigration.Proofs.Tree.Graft
import Mathlib.Data.List.Forall2

/-!
# Trees with the same outline

Two trees with the same outline number their nodes as they like, but the nodes in the same position
are counterparts: they stand for the same and have counterparts above, below and around them.
-/

namespace CodeMigration

namespace Tree

/-- The nodes are in the same position, seen from the roots. -/
inductive Counterpart (t t' : Tree) : NodeId → NodeId → Prop
  | root : Counterpart t t' t.root t'.root
  | child {a b c d : NodeId} {i : Nat} (h : Counterpart t t' a b) (hc : t.child? a i = some c)
      (hd : t'.child? b i = some d) : Counterpart t t' c d

variable {t t' : Tree} {a b : NodeId}

/-- The trees have the same outline. -/
structure Matching (t t' : Tree) : Prop where
  linked : t.WellLinked
  linked' : t'.WellLinked
  outline : t'.outline t'.root = t.outline t.root

namespace Counterpart

variable (hm : Matching t t') (h : Counterpart t t' a b)
include hm h

/-- Counterparts are attached. -/
lemma attached : t.Reaches t.root a ∧ t'.Reaches t'.root b := by
  induction h with
  | root => exact ⟨Reaches.refl _, Reaches.refl _⟩
  | child _ hc hd ih =>
    exact ⟨ih.1.trans (hm.linked.link_of_child? hc).reaches,
      ih.2.trans (hm.linked'.link_of_child? hd).reaches⟩

/-- Counterparts have the same outline, so they stand for the same above the same rows. -/
lemma outline_parts : (t'.construct? b).getD .null = (t.construct? a).getD .null ∧
    (t'.children b).map t'.outline = (t.children a).map t.outline := by
  have houtline : t'.outline b = t.outline a := by
    induction h with
    | root => exact hm.outline
    | @child a b c d i _ hc hd ih =>
      rw [outline_eq hm.linked', outline_eq hm.linked, DocNode.node.injEq] at ih
      have hrow := congrArg (·[i]?) ih.2.1
      simp only [List.getElem?_map] at hrow
      rw [child?] at hc hd
      simpa [hc, hd] using hrow
  rw [outline_eq hm.linked', outline_eq hm.linked, DocNode.node.injEq] at houtline
  exact ⟨houtline.1, houtline.2.1⟩

lemma construct? : t'.construct? b = t.construct? a := by
  obtain ⟨ha, hb⟩ := h.attached hm
  obtain ⟨c, hc⟩ := t.exists_construct? (hm.linked.lt_size_of_reaches ha)
  obtain ⟨d, hd⟩ := t'.exists_construct? (hm.linked'.lt_size_of_reaches hb)
  have hsame := (h.outline_parts hm).1
  rw [hc, hd] at hsame ⊢
  exact congrArg some hsame

lemma hasKind (k : Kind) : t'.hasKind b k = t.hasKind a k := by
  rw [Tree.hasKind, Tree.kind?, h.construct? hm, Tree.hasKind, Tree.kind?]

lemma name? : t'.name? b = t.name? a := by
  rw [Tree.name?, h.construct? hm, Tree.name?]

/-- The rows below counterparts consist of counterparts. -/
lemma children : List.Forall₂ (Counterpart t t') (t.children a) (t'.children b) := by
  have hlength : (t.children a).length = (t'.children b).length := by
    have hrow := congrArg List.length (h.outline_parts hm).2
    rw [List.length_map, List.length_map] at hrow
    exact hrow.symm
  rw [List.forall₂_iff_get]
  refine ⟨hlength, fun i hi hi' => ?_⟩
  have hc : t.child? a i = some ((t.children a).get ⟨i, hi⟩) := List.getElem?_eq_getElem hi
  have hd : t'.child? b i = some ((t'.children b).get ⟨i, hi'⟩) := List.getElem?_eq_getElem hi'
  exact h.child hc hd

omit h in
/-- Every attached node has a counterpart. -/
lemma exists_left (hb : t'.Reaches t'.root b) : ∃ a, Counterpart t t' a b := by
  induction hb with
  | refl => exact ⟨_, .root⟩
  | @tail q b _ hlink ih =>
    obtain ⟨p, hp⟩ := ih
    have hmem : b ∈ t'.children q := (hm.linked'.mem_children_iff q b).mpr hlink
    obtain ⟨i, hi⟩ := List.mem_iff_getElem?.mp hmem
    have hlt : i < (t.children p).length := by
      rw [(hp.children hm).length_eq]
      exact (List.getElem?_eq_some_iff.mp hi).1
    have hc : t.child? p i = some ((t.children p).get ⟨i, hlt⟩) := List.getElem?_eq_getElem hlt
    exact ⟨_, hp.child hc hi⟩

/-- Right above counterparts there are counterparts, or nothing. -/
lemma parent? : Option.Rel (Counterpart t t') (t.parent? a) (t'.parent? b) := by
  cases h with
  | root =>
    rw [hm.linked.root_free, hm.linked'.root_free]
    exact .none
  | @child p q _ _ _ h hc hd =>
    have hlink : t.Link p a := hm.linked.link_of_child? hc
    have hlink' : t'.Link q b := hm.linked'.link_of_child? hd
    rw [hlink, hlink']
    exact .some h

/-- Around counterparts there are counterparts, or nothing. -/
lemma enclosing? (k : Kind) :
    Option.Rel (Counterpart t t') (t.enclosing? a k) (t'.enclosing? b k) := by
  induction h with
  | root =>
    rw [WellLinked.enclosing?_of_free hm.linked.root_free,
      WellLinked.enclosing?_of_free hm.linked'.root_free]
    exact .none
  | @child p q a b _ h hc hd ih =>
    rw [hm.linked.enclosing?_of_link (hm.linked.link_of_child? hc),
      hm.linked'.enclosing?_of_link (hm.linked'.link_of_child? hd), h.hasKind hm]
    split
    · exact .some h
    · exact ih

omit hm h in
lemma bind_eq {α : Type} {f g : NodeId → Option α} {o o' : Option NodeId}
    (ho : Option.Rel (Counterpart t t') o o') (hfg : ∀ a b, Counterpart t t' a b → g b = f a) :
    o'.bind g = o.bind f := by
  cases ho with
  | none => rfl
  | some h => exact hfg _ _ h

omit hm h in
lemma any_eq {f g : NodeId → Bool} {o o' : Option NodeId} (ho : Option.Rel (Counterpart t t') o o')
    (hfg : ∀ a b, Counterpart t t' a b → g b = f a) : o'.any g = o.any f := by
  cases ho with
  | none => rfl
  | some h => exact hfg _ _ h

/-- Counterparts that are classes have the same full name. -/
lemma qualifiedClass? : t'.qualifiedClass? b = t.qualifiedClass? a := by
  have hns : (t'.enclosing? b .namespaceDecl).bind t'.name? =
      (t.enclosing? a .namespaceDecl).bind t.name? :=
    bind_eq (h.enclosing? hm .namespaceDecl) fun _ _ h => h.name? hm
  rw [Tree.qualifiedClass?, h.construct? hm, hns, Tree.qualifiedClass?]

end Counterpart

end Tree

end CodeMigration
