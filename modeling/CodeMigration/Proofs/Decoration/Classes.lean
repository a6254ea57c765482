import CodeMigration.Proofs.Decoration
import CodeMigration.Proofs.Tree.Records

/-!
# Recorded classes after edits

A decoration records the class around every attached node, and `Tree.enclosingClass?` believes the
record for as long as the recorded node lies above. Edits that do not write the record may move the
node out of the class, in which case the record is ignored, but they may also put another class in
between or turn the class into something else, in which case it is believed all the same.
`Decoration.class_outdated_iff` says that this is all that can go wrong.
-/

namespace CodeMigration

lemma AttributeValue.bind_asNode?_eq_some_iff {value : Option AttributeValue} {n : NodeId} :
    value.bind asNode? = some n ↔ value = some (.node n) := by
  rcases value with _ | value
  · simp
  · cases value <;> simp [asNode?]

namespace Tree

variable {t : Tree} {n c : NodeId}

/-! ### The nearest node of a kind -/

/-- The nearest node of a kind lies above, and no other of the kind lies in between. -/
lemma WellLinked.enclosing?_eq_some_iff (h : t.WellLinked) {k : Kind} :
    t.enclosing? n k = some c ↔ c ∈ t.ancestors n ∧ t.hasKind c k = true ∧
      ∀ d ∈ t.ancestors n, t.hasKind d k = true → c ∉ t.ancestors d := by
  induction n using h.wellFounded.induction with
  | _ n ih =>
    cases hn : t.parent? n with
    | none => simp [enclosing?_of_free hn, ancestors_of_free hn]
    | some p =>
      have hlink : t.Link p n := hn
      have hself : ∀ d, t.Reaches d p → p ∉ t.ancestors d := by
        intro d hd hp
        obtain ⟨q, hq, hpq⟩ := h.mem_ancestors_iff.mp hp
        exact h.not_reaches_of_link hq (hd.trans hpq)
      rw [h.enclosing?_of_link hlink, h.ancestors_of_link hlink]
      by_cases hp : t.hasKind p k = true
      · rw [if_pos hp, Option.some.injEq]
        constructor
        · rintro rfl
          refine ⟨List.mem_cons_self, hp, fun d hd _ => hself d ?_⟩
          rcases List.mem_cons.mp hd with rfl | hd
          · exact Reaches.refl d
          · obtain ⟨q, hq, hdq⟩ := h.mem_ancestors_iff.mp hd
            exact hdq.trans hq.reaches
        · rintro ⟨hmem, _, hnearest⟩
          rcases List.mem_cons.mp hmem with rfl | hmem
          · rfl
          · exact absurd hmem (hnearest p List.mem_cons_self hp)
      · rw [if_neg hp, ih p hlink]
        simp only [List.mem_cons, forall_eq_or_imp, hp]
        constructor
        · rintro ⟨hmem, hc, hnearest⟩
          exact ⟨Or.inr hmem, hc, nofun, hnearest⟩
        · rintro ⟨rfl | hmem, hc, _, hnearest⟩
          · exact absurd hc hp
          · exact ⟨hmem, hc, hnearest⟩

/-! ### Records that are believed -/

/-- Around a live node the recorded class is believed when it lies above the node. -/
lemma WellLinked.enclosingClass?_eq (h : t.WellLinked) (hn : t.isLive n = true) :
    t.enclosingClass? n =
      (((t.attribute? n .enclosingClass).bind AttributeValue.asNode?).filter
        (· ∈ t.ancestors n)).or (t.enclosing? n .classDecl) := by
  rw [enclosingClass?]
  congr 2
  funext c
  rw [Bool.eq_iff_iff, decide_eq_true_iff, Bool.and_eq_true, Bool.and_eq_true,
    h.isAncestorOrSelf_iff, bne_iff_ne, h.mem_ancestors_iff, reaches_iff]
  constructor
  · rintro ⟨⟨_, heq | hp⟩, hne⟩
    · exact absurd heq hne
    · exact hp
  · rintro ⟨p, hp, hcp⟩
    have hreach : t.Reaches c n := hcp.trans hp.reaches
    refine ⟨⟨(h.isLive_of_reaches hreach).trans hn, Or.inr ⟨p, hp, hcp⟩⟩, ?_⟩
    rintro rfl
    exact h.not_reaches_of_link hp hcp

/-- A recorded class misleads when it lies above the node and is no class any more, or no longer the
nearest one. -/
lemma WellLinked.enclosingClass?_ne_iff (h : t.WellLinked) (hn : t.isLive n = true) :
    t.enclosingClass? n ≠ t.enclosing? n .classDecl ↔
      ∃ c ∈ t.ancestors n, t.attribute? n .enclosingClass = some (.node c) ∧
        (t.hasKind c .classDecl = false ∨
          ∃ d ∈ t.ancestors n, t.hasKind d .classDecl = true ∧ c ∈ t.ancestors d) := by
  have hnearest : ∀ c ∈ t.ancestors n, (t.hasKind c .classDecl = false ∨
      ∃ d ∈ t.ancestors n, t.hasKind d .classDecl = true ∧ c ∈ t.ancestors d) ↔
        some c ≠ t.enclosing? n .classDecl := by
    intro c hc
    rw [ne_comm, ne_eq, h.enclosing?_eq_some_iff, not_and, not_and_or]
    simp [hc]
  rw [h.enclosingClass?_eq hn]
  constructor
  · intro hne
    cases hr : (t.attribute? n .enclosingClass).bind AttributeValue.asNode? with
    | none => simp [hr] at hne
    | some c =>
      by_cases hc : c ∈ t.ancestors n
      · refine ⟨c, hc, AttributeValue.bind_asNode?_eq_some_iff.mp hr, (hnearest c hc).mpr ?_⟩
        simpa [hr, Option.filter_some, hc] using hne
      · simp [hr, Option.filter_some, hc] at hne
  · rintro ⟨c, hc, hr, hwrong⟩
    simpa [hr, AttributeValue.asNode?, Option.filter_some, hc] using (hnearest c hc).mp hwrong

end Tree

namespace Decoration

variable {t t' : Tree} {n c : NodeId}

/-- The class that is on record for a node once the tree has been decorated. -/
def notedClass? (t : Tree) (n : NodeId) : Option NodeId :=
  if t.isAttached n then t.enclosing? n .classDecl
  else (t.attribute? n .enclosingClass).bind AttributeValue.asNode?

lemma notedClass?_eq_some_iff (oracle : Oracle) (h : t.Sound) :
    (t.decorate oracle).1.attribute? n .enclosingClass = some (.node c) ↔
      notedClass? t n = some c := by
  rw [Tree.enclosingClass_decorate oracle h, notedClass?]
  by_cases hn : t.isAttached n = true
  · rw [if_pos (h.linked.mem_nodes_iff.mpr (h.linked.isAttached_iff.mp hn)), if_pos hn]
    simp
  · rw [if_neg fun hmem => hn (h.linked.isAttached_iff.mpr (h.linked.mem_nodes_iff.mp hmem)),
      if_neg hn, AttributeValue.bind_asNode?_eq_some_iff]

/-- After a decoration and any edits that do not write the record, the class found around a live
node is wrong exactly when the recorded class lies above the node and has been turned into something
else, or another class lies in between. -/
theorem class_outdated_iff (oracle : Oracle) (h : t.Reachable) {cmds : List (Command NodeId)}
    (hw : ∀ c ∈ cmds, c.writes .enclosingClass = false)
    (hback : t.journal = none ∨ Command.rollback ∉ cmds)
    (hrun : Command.runAll (t.decorate oracle).1 cmds = t') (hn : t'.isLive n = true) :
    t'.enclosingClass? n ≠ t'.enclosing? n .classDecl ↔
      ∃ c ∈ t'.ancestors n, notedClass? t n = some c ∧
        (t'.hasKind c .classDecl = false ∨
          ∃ d ∈ t'.ancestors n, t'.hasKind d .classDecl = true ∧ c ∈ t'.ancestors d) := by
  have hdecorated : (t.decorate oracle).1.Reachable := by
    obtain ⟨edits, _, heq⟩ := t.edited_decorate oracle
    rw [heq]
    exact h.runAll edits
  have hlinked : t'.WellLinked := hrun ▸ (hdecorated.runAll cmds).sound.linked
  have hheeds : Tree.Heeds .enclosingClass (t.decorate oracle).1 t' := by
    rw [← hrun]
    exact hdecorated.sound.heeds_runAll (by decide) hw hback
  rw [hlinked.enclosingClass?_ne_iff hn]
  refine exists_congr fun c => and_congr_right fun hc => and_congr_left fun _ => ?_
  rw [← notedClass?_eq_some_iff oracle h.sound]
  -- what lies above a live node is live, so the record has not been lost
  have hlive : t'.isLive c = true := by
    obtain ⟨p, hp, hcp⟩ := hlinked.mem_ancestors_iff.mp hc
    exact (hlinked.isLive_of_reaches (hcp.trans hp.reaches)).trans hn
  constructor
  · exact hheeds.only
  · intro hnoted
    refine hheeds.keeps hnoted (Tree.not_gone_of_isLive hn) fun d heq => ?_
    cases heq
    exact Tree.not_gone_of_isLive hlive

/-- A file with two classes, the first of which has a method. -/
def twoClasses : Tree :=
  Command.runAll (Tree.new .file) [.add (.method "run"),
    .addWithChildren (.classDecl "Outer" none []) [1], .pushChild 0 2,
    .add (.classDecl "Other" none []), .pushChild 0 3]

lemma reachable_twoClasses : twoClasses.Reachable := (Tree.Reachable.new .file).runAll _

/-- The two classes, decorated, after the method has moved to the other class. An attempt to remove
it was undone before. -/
def moved : Tree :=
  Command.runAll (twoClasses.decorate .unknown).1
    [.checkpoint, .remove 1, .rollback, .detach 2 1, .pushChild 3 1]

/-- The two classes, decorated, after the class around the method has become a namespace. -/
def retyped : Tree :=
  Command.runAll (twoClasses.decorate .unknown).1 [.setConstruct 2 (.namespaceDecl "Outer")]

/-- The two classes, decorated, after the method has moved into a new class inside the one around
it. -/
def nested : Tree :=
  Command.runAll (twoClasses.decorate .unknown).1
    [.detach 2 1, .addWithChildren (.classDecl "Inner" none []) [1], .pushChild 2 4]

theorem class_outdated_iff_twoClasses :
    notedClass? twoClasses 1 = some 2 ∧
      moved.enclosingClass? 1 = moved.enclosing? 1 .classDecl ∧
      nested.enclosingClass? 1 ≠ nested.enclosing? 1 .classDecl := by
  have hnoted : notedClass? twoClasses 1 = some 2 := by decide +kernel
  refine ⟨hnoted, ?_, ?_⟩
  · by_contra hwrong
    obtain ⟨c, hc, hrecord, _⟩ := (class_outdated_iff .unknown reachable_twoClasses (by decide)
      (Or.inl (by decide +kernel)) rfl (by decide +kernel)).mp hwrong
    obtain rfl : c = 2 := by simpa [hnoted] using hrecord.symm
    exact absurd hc (by decide +kernel)
  · refine (class_outdated_iff .unknown reachable_twoClasses (by decide) (Or.inr (by simp)) rfl
      (by decide +kernel)).mpr ?_
    exact ⟨2, by decide +kernel, hnoted, Or.inr ⟨4, by decide +kernel⟩⟩

/-- A class that has become a namespace is still found, and so is one with a nearer class below. -/
theorem recorded_class_outdated :
    twoClasses.Reachable ∧
      (retyped.isLive 1 = true ∧ retyped.enclosingClass? 1 = some 2 ∧
        retyped.enclosing? 1 .classDecl = none) ∧
      (nested.isLive 1 = true ∧ nested.enclosingClass? 1 = some 2 ∧
        nested.enclosing? 1 .classDecl = some 4) :=
  ⟨reachable_twoClasses, by decide +kernel, by decide +kernel⟩

end Decoration

end CodeMigration
