import CodeMigration.Document.Tree
import CodeMigration.Proofs.Tree.Alike
import CodeMigration.Proofs.Tree.Revision

/-!
# Outlines

The document of a tree depends on the attached slots and on the positions and the formatting data
of their nodes, and on nothing else.
-/

namespace CodeMigration

namespace Tree

variable {t t' : Tree}

/-- The position and the formatting data of a node. -/
def extras (t : Tree) (n : NodeId) : Option Span × Option Json :=
  ((t.attribute? n .span).bind AttributeValue.asSpan?,
    (t.attribute? n .layout).bind AttributeValue.asData?)

lemma outlineTo_succ (k : Nat) (n : NodeId) :
    t.outlineTo (k + 1) n =
      .node ((t.construct? n).getD .null) ((t.children n).map (t.outlineTo k)) (t.extras n).1
        (t.extras n).2 := rfl

/-- Levels below the deepest node make no difference. -/
lemma outlineTo_eq (h : t.WellLinked) {k k' : Nat} {n : NodeId}
    (hk : t.size ≤ (t.ancestors n).length + k) (hk' : t.size ≤ (t.ancestors n).length + k') :
    t.outlineTo k n = t.outlineTo k' n := by
  have hdepth : (t.ancestors n).length < t.size := h.length_ancestors_lt n
  induction k generalizing k' n with
  | zero => omega
  | succ k ih =>
    cases k' with
    | zero => omega
    | succ k' =>
      rw [outlineTo_succ, outlineTo_succ]
      have hrow : (t.children n).map (t.outlineTo k) = (t.children n).map (t.outlineTo k') := by
        refine List.map_congr_left fun c hc => ?_
        have hlink : t.Link n c := (h.mem_children_iff n c).mp hc
        have hlen : (t.ancestors c).length = (t.ancestors n).length + 1 := by
          rw [h.ancestors_of_link hlink, List.length_cons]
        exact ih (by omega) (by omega) (h.length_ancestors_lt c)
      rw [hrow]

/-- Trees that agree on nodes that lead to no others have the same outlines there. -/
lemma outlineTo_congr {S : Set NodeId} (hclosed : ∀ x ∈ S, ∀ c ∈ t.children x, c ∈ S)
    (hconstruct : ∀ x ∈ S, t'.construct? x = t.construct? x)
    (hchildren : ∀ x ∈ S, t'.children x = t.children x)
    (hextras : ∀ x ∈ S, t'.extras x = t.extras x) (k : Nat) {n : NodeId} (hn : n ∈ S) :
    t'.outlineTo k n = t.outlineTo k n := by
  induction k generalizing n with
  | zero => rfl
  | succ k ih =>
    have hrow : (t.children n).map (t'.outlineTo k) = (t.children n).map (t.outlineTo k) :=
      List.map_congr_left fun c hc => ih (hclosed n hn c hc)
    rw [outlineTo_succ, outlineTo_succ, hconstruct n hn, hchildren n hn, hextras n hn, hrow]

/-- Trees with the same slots and extras have the same outlines. -/
lemma outlineTo_kept (h : t.WellLinked) (hk : Kept t t')
    (hextras : ∀ n, t.isLive n = true → t'.extras n = t.extras n) (k : Nat) {n : NodeId}
    (hn : t.isLive n = true) : t'.outlineTo k n = t.outlineTo k n := by
  refine outlineTo_congr (S := {x | t.isLive x = true}) ?_ ?_ ?_ hextras k hn
  · intro x hx c hc
    have hlive := h.isLive_eq x c ((h.mem_children_iff x c).mp hc)
    exact hlive.symm.trans hx
  · exact fun x hx => hk.construct? (t.lt_size_of_isLive hx)
  · exact fun x hx => hk.children (t.lt_size_of_isLive hx)

/-- An outline is made of the outlines right below. -/
lemma outline_eq (h : t.WellLinked) (n : NodeId) :
    t.outline n = .node ((t.construct? n).getD .null) ((t.children n).map t.outline) (t.extras n).1
      (t.extras n).2 := by
  obtain ⟨k, hk⟩ := Nat.exists_eq_succ_of_ne_zero (Nat.ne_of_gt (Nat.zero_lt_of_lt h.root_lt))
  have hrow : (t.children n).map (t.outlineTo k) = (t.children n).map t.outline := by
    refine List.map_congr_left fun c hc => outlineTo_eq h ?_ (Nat.le_add_left _ _)
    rw [h.ancestors_of_link ((h.mem_children_iff n c).mp hc), List.length_cons]
    omega
  rw [← hrow, outline, hk, outlineTo_succ]

theorem toDocument_kept (h : t.WellLinked) (h' : t'.WellLinked) (hk : Kept t t')
    (hextras : ∀ n, t.isLive n = true → t'.extras n = t.extras n) :
    t'.toDocument = t.toDocument := by
  have hroot : t'.outline t'.root = t.outline t.root := by
    calc t'.outlineTo t'.size t'.root
        = t.outlineTo t'.size t.root := by
          rw [hk.root, outlineTo_kept h hk hextras _ h.root_live]
      _ = t.outlineTo t.size t.root :=
          outlineTo_eq h (Nat.le_trans hk.size_le (Nat.le_add_left _ _)) (Nat.le_add_left _ _)
  rw [toDocument, toDocument, h.validate_eq_ok, h'.validate_eq_ok, hroot, hk.origin]

/-- Trees that look alike and have the same extras have the same outlines. -/
lemma outline_alike (halike : t.Alike t') (hextras : ∀ n, t'.extras n = t.extras n) (n : NodeId) :
    t'.outline n = t.outline n := by
  rw [outline, outline, halike.size]
  exact outlineTo_congr (S := Set.univ) (fun _ _ _ _ => Set.mem_univ _)
    (fun _ _ => by rw [halike.construct?]) (fun _ _ => by rw [halike.children])
    (fun x _ => hextras x) _ (Set.mem_univ n)

/-- They also have the same document. -/
lemma toDocument_alike (h : t.WellLinked) (h' : t'.WellLinked) (halike : t.Alike t')
    (horigin : t'.origin = t.origin) (hextras : ∀ n, t'.extras n = t.extras n) :
    t'.toDocument = t.toDocument := by
  rw [toDocument, toDocument, h.validate_eq_ok, h'.validate_eq_ok, outline_alike halike hextras,
    halike.root, horigin]

end Tree

end CodeMigration
