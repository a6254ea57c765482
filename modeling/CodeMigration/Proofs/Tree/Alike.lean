import CodeMigration.Oracle
import CodeMigration.Proofs.Tree.Links

/-!
# Trees that look alike

Trees with the same slots and the same root agree on everything but their attributes. What an oracle
answers depends on the attributes through the recorded types only.
-/

namespace CodeMigration

namespace Tree

/-- The slots and the root are the same. -/
structure Alike (t t' : Tree) : Prop where
  slots : t'.slots = t.slots
  root : t'.root = t.root

variable {t t' t'' : Tree}

lemma Alike.refl (t : Tree) : Alike t t := ⟨rfl, rfl⟩

lemma Alike.symm (h : Alike t t') : Alike t' t := ⟨h.slots.symm, h.root.symm⟩

lemma Alike.trans (h : Alike t t') (h' : Alike t' t'') : Alike t t'' :=
  ⟨h'.slots.trans h.slots, h'.root.trans h.root⟩

namespace Alike

variable (h : Alike t t')
include h

/-! ### Single nodes -/

lemma size : t'.size = t.size := by rw [Tree.size, h.slots, Tree.size]

lemma slot? : t'.slot? = t.slot? := by
  funext n
  rw [Tree.slot?, h.slots, Tree.slot?]

lemma isLive : t'.isLive = t.isLive := by
  funext n
  rw [Tree.isLive, h.slot?, Tree.isLive]

lemma construct? : t'.construct? = t.construct? := by
  funext n
  rw [Tree.construct?, h.slot?, Tree.construct?]

lemma kind? : t'.kind? = t.kind? := by
  funext n
  rw [Tree.kind?, h.construct?, Tree.kind?]

lemma hasKind : t'.hasKind = t.hasKind := by
  funext n k
  rw [Tree.hasKind, h.kind?, Tree.hasKind]

lemma name? : t'.name? = t.name? := by
  funext n
  rw [Tree.name?, h.construct?, Tree.name?]

lemma children : t'.children = t.children := by
  funext n
  rw [Tree.children, h.slot?, Tree.children]

lemma child? : t'.child? = t.child? := by
  funext n i
  rw [Tree.child?, h.children, Tree.child?]

lemma parent? : t'.parent? = t.parent? := by
  funext n
  rw [Tree.parent?, h.slot?, Tree.parent?]

lemma arguments : t'.arguments = t.arguments := by
  funext n
  rw [Tree.arguments, h.kind?, h.children, Tree.arguments]

/-! ### Ways up and down -/

lemma climb (k : Nat) (o : Option NodeId) : t'.climb k o = t.climb k o := by
  induction k generalizing o with
  | zero => rfl
  | succ k ih =>
    cases o with
    | none => rfl
    | some n => rw [Tree.climb, Tree.climb, h.parent?, ih]

lemma ancestors : t'.ancestors = t.ancestors := by
  funext n
  rw [Tree.ancestors, h.size, h.parent?, h.climb, Tree.ancestors]

lemma isAncestorOrSelf : t'.isAncestorOrSelf = t.isAncestorOrSelf := by
  funext a n
  rw [Tree.isAncestorOrSelf, h.ancestors, Tree.isAncestorOrSelf]

lemma enclosing? : t'.enclosing? = t.enclosing? := by
  funext n k
  rw [Tree.enclosing?, h.ancestors, h.hasKind, Tree.enclosing?]

lemma preorder (k : Nat) : t'.preorder k = t.preorder k := by
  induction k with
  | zero => rfl
  | succ k ih =>
    funext n
    rw [Tree.preorder, Tree.preorder, h.children, ih]

lemma nodes : t'.nodes = t.nodes := by
  rw [Tree.nodes, Tree.descendants, h.size, h.root, h.preorder, Tree.nodes, Tree.descendants]

lemma link : t'.Link = t.Link := by
  funext p c
  rw [Link, h.parent?, Link]

lemma reaches : t'.Reaches = t.Reaches := by
  funext a n
  rw [Reaches, h.link, Reaches]

/-! ### Classes -/

lemma qualifiedClass? : t'.qualifiedClass? = t.qualifiedClass? := by
  funext n
  rw [Tree.qualifiedClass?, h.construct?, h.enclosing?, h.name?, Tree.qualifiedClass?]

lemma enclosingClass? {n : NodeId}
    (hclass : t'.attribute? n .enclosingClass = t.attribute? n .enclosingClass) :
    t'.enclosingClass? n = t.enclosingClass? n := by
  rw [Tree.enclosingClass?, hclass, h.isLive, h.isAncestorOrSelf, h.enclosing?,
    Tree.enclosingClass?]

lemma declaredClasses : t'.declaredClasses = t.declaredClasses := by
  rw [Tree.declaredClasses, h.nodes, h.construct?, h.qualifiedClass?, Tree.declaredClasses]

lemma declaredSupertypes : t'.declaredSupertypes = t.declaredSupertypes := by
  funext name
  rw [Tree.declaredSupertypes, h.declaredClasses, Tree.declaredSupertypes]

/-! ### Assignments -/

lemma bodyAbove (n : NodeId) (above : List NodeId) :
    t'.bodyAbove n above = t.bodyAbove n above := by
  induction above generalizing n with
  | nil => rfl
  | cons p above ih => rw [Tree.bodyAbove, Tree.bodyAbove, h.kind?, ih]

lemma statementOf? : t'.statementOf? = t.statementOf? := by
  funext n
  rw [Tree.statementOf?, h.ancestors, h.bodyAbove, Tree.statementOf?]

lemma assignedValue? : t'.assignedValue? = t.assignedValue? := by
  funext s name
  rw [Tree.assignedValue?, h.hasKind, h.child?, h.construct?, Tree.assignedValue?]

lemma variableSource? : t'.variableSource? = t.variableSource? := by
  funext n name
  rw [Tree.variableSource?, h.enclosing?, h.parent?, h.hasKind, h.child?, Tree.lastAssignment?,
    h.statementOf?, h.children, h.assignedValue?, Tree.variableSource?, Tree.lastAssignment?]

end Alike

end Tree

/-! ### Types -/

namespace ClassIndex

variable {t t' : Tree} (index : ClassIndex) (h : t.Alike t')
include h

lemma returnTypeIn?_alike : index.returnTypeIn? t' = index.returnTypeIn? t := by
  funext name method
  rw [returnTypeIn?, h.declaredSupertypes, returnTypeIn?]

variable (htypes : ∀ n, t'.attribute? n .resolvedType = t.attribute? n .resolvedType)
include htypes

lemma typeWithin?_alike (k : Nat) : index.typeWithin? t' k = index.typeWithin? t k := by
  induction k with
  | zero => rfl
  | succ k ih =>
    funext n
    -- Both sides are one hop further; `change` opens them without the equations of the match.
    change (if !t'.isLive n then none else _) = if !t.isLive n then none else _
    rw [h.isLive, htypes n, h.construct?, h.qualifiedClass?, h.variableSource?, h.child?, ih,
      index.returnTypeIn?_alike h]

lemma isInstance_alike : index.isInstance t' = index.isInstance t := by
  funext n candidate
  rw [isInstance, typeOf?, index.typeWithin?_alike h htypes, h.declaredSupertypes, isInstance,
    typeOf?]

end ClassIndex

/-- The answers about a tree depend on its slots, its root and its recorded types. -/
structure Oracle.Steady (oracle : Oracle) : Prop where
  typeOf : ∀ {t t' : Tree}, t.Alike t' →
    (∀ n, t'.attribute? n .resolvedType = t.attribute? n .resolvedType) →
    oracle.typeOf t' = oracle.typeOf t
  isInstance : ∀ {t t' : Tree}, t.Alike t' →
    (∀ n, t'.attribute? n .resolvedType = t.attribute? n .resolvedType) →
    oracle.isInstance t' = oracle.isInstance t

lemma Oracle.steady_unknown : Oracle.unknown.Steady := ⟨fun _ _ => rfl, fun _ _ => rfl⟩

lemma Oracle.steady_ofIndex (index : ClassIndex) : (Oracle.ofIndex index).Steady :=
  ⟨fun h htypes => index.typeWithin?_alike h htypes ClassIndex.maxHops,
    fun h htypes => index.isInstance_alike h htypes⟩

end CodeMigration
