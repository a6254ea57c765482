import CodeMigration.Proofs.Listing.Literals

/-!
# Values of strings

When a string node gets another value, the listing of the tree either stays as it is or changes in
one literal only. The exception are keys of items of annotations, which are written without marks
(`Tree.IsTagKey`).
-/

namespace CodeMigration

open Listing

namespace Tree

variable {t : Tree} {n x : NodeId} {value : String}

/-! ### Places -/

/-- A node is written in code, or as an argument of an annotation when a node above says so. -/
inductive StandsIn (t : Tree) : Place → NodeId → Prop
  | code (x : NodeId) : t.StandsIn .code x
  | argument {place : Place} {x c : NodeId} : t.StandsIn place x →
    inTag place (t.shown x) = true → c ∈ t.children x → t.StandsIn .tagArgument c

/-- The node is the key of an item among the arguments of an annotation. -/
def IsTagKey (t : Tree) (n : NodeId) : Prop :=
  ∃ item, t.StandsIn .tagArgument item ∧ t.construct? item = some (.arrayItem true) ∧
    t.child? item 0 = some n

/-! ### Other values -/

lemma shown_setConstruct_of_ne {c : Construct} (hne : x ≠ n) :
    (t.setConstruct n c).shown x = t.shown x := by
  rw [shown, construct?_setConstruct, if_neg hne, shown]

lemma shown_setConstruct_self {c d : Construct} (hn : t.construct? n = some d) :
    (t.setConstruct n c).shown n = c := by
  rw [shown, construct?_setConstruct, if_pos rfl, hn]
  rfl

/-- A construct that a node has already changes nothing. -/
lemma alike_setConstruct {c : Construct} (hn : t.construct? n = some c) :
    t.Alike (t.setConstruct n c) := by
  refine ⟨Array.ext_getElem? fun m => ?_, root_setConstruct n c⟩
  show (t.setConstruct n c).slot? m = t.slot? m
  rw [slot?_setConstruct]
  split
  · next hm =>
    obtain ⟨s, hs, rfl⟩ := Option.map_eq_some_iff.mp hn
    rw [hm, hs, Option.map_some]
  · rfl

/-- In a row of children at most one has a given node below it. -/
lemma WellLinked.exists_split (h : t.WellLinked) (hx : t.Reaches x n) (hne : x ≠ n) :
    ∃ front c back, c ∈ t.children x ∧ t.children x = front ++ c :: back ∧
      ∀ d ∈ front ++ back, ¬ t.Reaches d n := by
  rcases Relation.ReflTransGen.cases_head hx with heq | ⟨c, hc, hcn⟩
  · exact absurd heq hne
  · have hmem := (h.mem_children_iff x c).mpr hc
    obtain ⟨front, back, hrow⟩ := List.append_of_mem hmem
    have hnodup := h.nodup_children x
    rw [hrow, List.nodup_middle, List.nodup_cons] at hnodup
    refine ⟨front, c, back, hmem, hrow, fun d hd hdn => hnodup.1 ?_⟩
    have hlink : t.Link x d := (h.mem_children_iff x d).mp (by
      rw [hrow]
      exact List.mem_append.mpr ((List.mem_append.mp hd).imp_right (List.mem_cons_of_mem c)))
    exact h.eq_of_siblings hlink hc hdn hcn ▸ hd

/-! ### Nodes that are not above -/

section apart

lemma shown_apart (c : Construct) (hx : ¬ t.Reaches x n) :
    (t.setConstruct n c).shown x = t.shown x := by
  refine shown_setConstruct_of_ne ?_
  rintro rfl
  exact hx (.refl x)

variable (h : t.WellLinked) (c : Construct)
include h

lemma not_reaches_child (hx : ¬ t.Reaches x n) : ∀ d ∈ t.children x, ¬ t.Reaches d n :=
  fun d hd hdn => hx (((h.mem_children_iff x d).mp hd).reaches.trans hdn)

lemma writeExpression_apart (k : Nat) (place : Place) (hx : ¬ t.Reaches x n) :
    (t.setConstruct n c).writeExpression k place x = t.writeExpression k place x := by
  induction k generalizing place x with
  | zero => rfl
  | succ k ih =>
    have hchild := not_reaches_child h hx
    rw [writeExpression, writeExpression, children_setConstruct, shown_apart c hx]
    exact expressionOf_congr (fun d hd => shown_apart c (hchild d hd))
      (fun d hd p => ih p (hchild d hd)) place (t.shown x)

lemma writeStatement_apart (k level : Nat) (hx : ¬ t.Reaches x n) :
    (t.setConstruct n c).writeStatement k level x = t.writeStatement k level x := by
  induction k generalizing level x with
  | zero => rfl
  | succ k ih =>
    have hchild := not_reaches_child h hx
    rw [writeStatement, writeStatement, children_setConstruct, shown_apart c hx]
    exact statementOf_congr (fun d hd => shown_apart c (hchild d hd))
      (fun d hd p => writeExpression_apart h c k p (hchild d hd))
      (fun d hd l => ih l (hchild d hd)) level (t.shown x)

end apart

/-! ### The effect of the value -/

section value

variable (h : t.WellLinked) (hn : t.construct? n = some (.string value))

include hn in
/-- The node shows its value, and other nodes show none. -/
lemma shown_value (c : NodeId) :
    (∀ v, (t.setConstruct n (.string v)).shown c = .string v) ∨
      ∀ v, (t.setConstruct n (.string v)).shown c = (t.setConstruct n (.string "")).shown c := by
  by_cases hc : c = n
  · subst hc
    exact Or.inl fun v => shown_setConstruct_self hn
  · exact Or.inr fun v => by rw [shown_setConstruct_of_ne hc, shown_setConstruct_of_ne hc]

/-- The first child of an item of an annotation is the node if it shows the value. -/
lemma isTagKey_of_shown {c : NodeId} {back : List NodeId} (hplace : t.StandsIn .tagArgument x)
    (hitem : t.shown x = .arrayItem true) (hrow : t.children x = c :: back)
    (hc : ∀ v, (t.setConstruct n (.string v)).shown c = .string v) : t.IsTagKey n := by
  refine ⟨x, hplace, ?_, ?_⟩
  · rw [shown] at hitem
    cases hx : t.construct? x with
    | none => simp [hx] at hitem
    | some k => rw [← hitem, hx, Option.getD_some]
  · have hcn : c = n := by
      by_contra hne
      have hsame := (hc "").symm.trans ((shown_setConstruct_of_ne hne).trans
        ((shown_setConstruct_of_ne hne).symm.trans (hc "a")))
      simp at hsame
    rw [child?, hrow, hcn]
    rfl

include h hn

lemma shows_writeExpression (k : Nat) {place : Place} (hplace : t.StandsIn place x) :
    Shows (t.IsTagKey n) fun v => (t.setConstruct n (.string v)).writeExpression k place x := by
  induction k generalizing place x with
  | zero => exact shows_const ""
  | succ k ih =>
    by_cases hx : t.Reaches x n
    · by_cases hne : x = n
      · subst hne
        simp only [writeExpression, shown_setConstruct_self hn]
        cases place
        · exact shows_quote (by decide)
        · exact shows_quote (by decide)
      · obtain ⟨front, c, back, hc, hrow, hother⟩ := h.exists_split hx hne
        simp only [writeExpression, children_setConstruct, shown_setConstruct_of_ne hne, hrow]
        refine shows_expressionOf (fun d hd v p => ?_) (fun d hd v => ?_) (shown_value hn c)
          (ih (.code c)) (fun htag => ih (hplace.argument htag hc)) ?_
        · rw [writeExpression_apart h _ _ _ (hother d hd),
            writeExpression_apart h _ _ _ (hother d hd)]
        · rw [shown_apart _ (hother d hd), shown_apart _ (hother d hd)]
        · rintro rfl hitem rfl hself
          exact isTagKey_of_shown hplace hitem hrow hself
    · exact Or.inl ⟨_, fun v => writeExpression_apart h _ _ _ hx⟩

lemma shows_writeStatement (k level : Nat) (x : NodeId) :
    Shows (t.IsTagKey n) fun v => (t.setConstruct n (.string v)).writeStatement k level x := by
  induction k generalizing level x with
  | zero => exact shows_const ""
  | succ k ih =>
    by_cases hx : t.Reaches x n
    · by_cases hne : x = n
      · subst hne
        simp only [writeStatement, shown_setConstruct_self hn]
        exact ((transparent_append ";").line (fun x h => by simp at h) level).shows
          (shows_quote (by decide))
      · obtain ⟨front, c, back, hc, hrow, hother⟩ := h.exists_split hx hne
        simp only [writeStatement, children_setConstruct, shown_setConstruct_of_ne hne, hrow]
        refine shows_statementOf (fun d hd v p => ?_) (fun d hd v => ?_) (shown_value hn c)
          (shows_writeExpression h hn k (.code c)) (fun d hd v l => ?_) (fun l => ih l c) level
          fun htag => shows_writeExpression h hn k ((StandsIn.code x).argument htag hc)
        · rw [writeExpression_apart h _ _ _ (hother d hd),
            writeExpression_apart h _ _ _ (hother d hd)]
        · rw [shown_apart _ (hother d hd), shown_apart _ (hother d hd)]
        · rw [writeStatement_apart h _ _ _ (hother d hd),
            writeStatement_apart h _ _ _ (hother d hd)]
    · exact Or.inl ⟨_, fun v => writeStatement_apart h _ _ _ hx⟩

end value

/-- Behind the opening mark of a quoted string the reader finds the string and stops at the closing
mark, whatever follows; so different strings are quoted differently, and none begins with another.
In the listing of a tree, and in that of a single node, the value of a string node is not shown or
has an effect on one literal only, with the same text before and after it for every value. The
exception is the key of an item of an annotation, which is written bare. -/
theorem strings_stay_between_marks :
    (∀ mark ∈ marks, ∀ s rest : String, ∃ behind, (quote mark s ++ rest).toList = mark :: behind ∧
      unquote mark behind = some (s.toList, rest.toList)) ∧
    (∀ mark ∈ marks, ∀ mark' ∈ marks, ∀ s s' rest rest' : String,
      quote mark s ++ rest = quote mark' s' ++ rest' → mark = mark' ∧ s = s' ∧ rest = rest') ∧
    ∀ (t : Tree) (n : NodeId) (value : String), t.Reachable →
      t.construct? n = some (.string value) →
      (t.setConstruct n (.string value)).listing = t.listing ∧
      (∃ text, Shows (t.IsTagKey n) text ∧
        ∀ v, (t.setConstruct n (.string v)).listing = .ok (text v)) ∧
      ∀ x, Shows (t.IsTagKey n) fun v => (t.setConstruct n (.string v)).expressionText x := by
  refine ⟨fun mark hmark => exists_unquote_quote hmark,
    fun mark hmark mark' hmark' s s' rest rest' => quote_append_inj hmark hmark',
    fun t n value ht hn => ?_⟩
  have hlinked : t.WellLinked := ht.sound.linked
  refine ⟨listing_alike hlinked (hlinked.setConstruct n _) (alike_setConstruct hn), ?_, fun x => ?_⟩
  · refine ⟨_, shows_writeStatement hlinked hn t.size 0 t.root, fun v => ?_⟩
    rw [listing, (hlinked.setConstruct n _).validate_eq_ok, size_setConstruct, root_setConstruct]
    rfl
  · simp only [expressionText, size_setConstruct]
    exact shows_writeExpression hlinked hn t.size (.code x)

/-- An annotation with a keyed argument. -/
def routeTag : Tree :=
  Command.runAll (Tree.new (.docTag "Route")) [.add (.arrayItem true), .pushChild 0 1,
    .add (.string "name"), .pushChild 1 2, .add (.string "a\", b=\"c"), .pushChild 1 3]

/-- The key stands without marks, and other values in the place of the argument stay between
theirs. -/
theorem strings_stay_between_marks_routeTag :
    routeTag.listing = .ok "/** @\\Route(name=\"a\\\", b=\\\"c\") */\n" ∧ routeTag.IsTagKey 2 ∧
      ∃ mark ∈ marks, ∃ before after, ∀ v,
        (routeTag.setConstruct 3 (.string v)).listing = .ok (before ++ quote mark v ++ after) := by
  have hreach : routeTag.Reachable := (Reachable.new _).runAll _
  have hkey : ¬ routeTag.IsTagKey 3 := by
    rintro ⟨item, -, -, hitem⟩
    have hlink : some 1 = some item := hreach.sound.linked.link_of_child? hitem
    obtain rfl := Option.some.inj hlink
    exact absurd hitem (by decide +kernel)
  obtain ⟨-, ⟨text, hshows, htext⟩, -⟩ :=
    strings_stay_between_marks.2.2 routeTag 3 "a\", b=\"c" hreach (by decide +kernel)
  refine ⟨by decide +kernel, ?_, ?_⟩
  · refine ⟨1, (StandsIn.code 0).argument rfl ?_, ?_, ?_⟩ <;> decide +kernel
  · rcases hshows with ⟨fixed, hfixed⟩ | ⟨mark, hmark, before, after, hquoted⟩ | ⟨hbare, -⟩
    · have hsame : (routeTag.setConstruct 3 (.string "a")).listing =
          (routeTag.setConstruct 3 (.string "b")).listing := by
        rw [htext, htext, hfixed, hfixed]
      exact absurd hsame (by decide +kernel)
    · exact ⟨mark, hmark, before, after, fun v => by rw [htext, hquoted]⟩
    · exact absurd hbare hkey

end Tree

end CodeMigration
