import CodeMigration.Proofs.Document.Numbering
import CodeMigration.Proofs.Tree.Records

/-!
# Edits of trees are edits of documents

A path of positions leads from the root to every attached node, and through the document to the
outline of that node. Replacing a child by a row of nodes changes the document at this path only:
the outlines of the row stand in the place of the outline of the child. Removing a node and
replacing it by a single one are special cases.
-/

namespace CodeMigration

namespace DocNode

/-- The node to which a path of positions leads. -/
def at? : DocNode → List Nat → Option DocNode
  | d, [] => some d
  | d, i :: path => d.children[i]?.bind (·.at? path)

/-- Puts a row of nodes in the place of the node to which a path leads. -/
def spliceAt (new : List DocNode) : List Nat → DocNode → DocNode
  | [], d => d
  | [i], .node c cs span layout => .node c (cs.take i ++ new ++ cs.drop (i + 1)) span layout
  | i :: path, .node c cs span layout => .node c (cs.modify i (spliceAt new path)) span layout

end DocNode

/-- A value that a discarded node cannot take away is read as before on every node that stays. -/
lemma Attributes.Distinct.bind_get?_forget {α : Type} {a : Attributes} (h : a.Distinct)
    {gone : List NodeId} {n : NodeId} (hn : n ∉ gone) (key : AttributeKey)
    {f : AttributeValue → Option α} (hf : ∀ m, f (.node m) = none) :
    ((a.forget gone).get? n key).bind f = (a.get? n key).bind f := by
  rcases h.get?_trimmed (a.trimmed_forget gone) n key with hsame | hnone
  · rw [hsame]
  · cases hv : a.get? n key with
    | none => rw [hnone]
    | some v =>
      cases v with
      | node m => rw [hnone, Option.bind_none, Option.bind_some, hf]
      | _ =>
        rw [a.get?_forget key hn hv rfl] at hnone
        cases hnone

namespace Tree

variable {t t' : Tree} {a n p old : NodeId} {new : List NodeId} {i : Nat} {path : List Nat}

/-! ### Paths -/

/-- The node to which a path of positions leads. -/
def nodeAt? (t : Tree) : NodeId → List Nat → Option NodeId
  | n, [] => some n
  | n, i :: path => (t.child? n i).bind (t.nodeAt? · path)

lemma nodeAt?_cons_eq_some_iff :
    t.nodeAt? a (i :: path) = some n ↔ ∃ b, t.child? a i = some b ∧ t.nodeAt? b path = some n :=
  Option.bind_eq_some_iff

lemma WellLinked.reaches_of_nodeAt? (h : t.WellLinked) (hpath : t.nodeAt? a path = some n) :
    t.Reaches a n := by
  induction path generalizing a with
  | nil =>
    obtain rfl := Option.some.inj hpath
    exact Reaches.refl a
  | cons i path ih =>
    obtain ⟨b, hb, hpath⟩ := nodeAt?_cons_eq_some_iff.mp hpath
    exact (h.link_of_child? hb).reaches.trans (ih hpath)

lemma WellLinked.exists_path (h : t.WellLinked) (hr : t.Reaches a n) :
    ∃ path, t.nodeAt? a path = some n := by
  induction hr using Relation.ReflTransGen.head_induction_on with
  | refl => exact ⟨[], rfl⟩
  | @head a b hlink _ ih =>
    obtain ⟨path, hpath⟩ := ih
    obtain ⟨i, hi⟩ := List.mem_iff_getElem?.mp ((h.mem_children_iff a b).mpr hlink)
    exact ⟨i :: path, nodeAt?_cons_eq_some_iff.mpr ⟨b, hi, hpath⟩⟩

/-- In the outline a path leads to the outline of the node to which it leads in the tree. -/
lemma at?_outline (h : t.WellLinked) (a : NodeId) (path : List Nat) :
    (t.outline a).at? path = (t.nodeAt? a path).map t.outline := by
  induction path generalizing a with
  | nil => rfl
  | cons i path ih =>
    rw [outline_eq h a, DocNode.at?, nodeAt?, DocNode.children, List.getElem?_map, child?]
    cases (t.children a)[i]? with
    | none => rfl
    | some b => exact ih b

/-! ### A row in the place of a child -/

/-- `t'` is `t` with the nodes `new` in the place of `old` below `p`, and without what hangs below
`old`. -/
structure Spliced (t : Tree) (p old : NodeId) (new : List NodeId) (t' : Tree) : Prop where
  link : t.Link p old
  apart : ∀ n ∈ new, ¬ t.Reaches n p ∧ ¬ t.Reaches old n
  size : t'.size = t.size
  root : t'.root = t.root
  origin : t'.origin = t.origin
  construct? : ∀ x, t'.construct? x = t.construct? x
  children : ∀ x, t'.children x = if x = p then splice (t.children p) old new else t.children x
  extras : ∀ x, ¬ t.Reaches old x → t'.extras x = t.extras x
  isLive : ∀ x, t'.isLive x = (t.isLive x && !decide (x ∈ t.descendants old))

/-- Nothing changes below the child before it is discarded. -/
lemma WellLinked.descendants_relink (h : t.WellLinked) (hlink : t.Link p old)
    (row new : List NodeId) : (t.relink p row new [old]).descendants old = t.descendants old := by
  rw [descendants, size_relink]
  refine preorder_congr (S := {x | t.Reaches old x}) ?_ ?_ _ (Reaches.refl old)
  · exact fun x hx c hc => hx.trans ((h.mem_children_iff x c).mp hc).reaches
  · intro x hx
    rw [children_relink _ _ _ _ _ (h.link_lt hlink).1, if_neg]
    rintro rfl
    exact h.not_reaches_of_link hlink hx

lemma spliced_of_replaceWithMany (h : t.WellLinked) (hdistinct : t.attributes.Distinct)
    (hok : t.replaceWithMany old new = .ok t') : ∃ p, Spliced t p old new t' := by
  obtain ⟨p, hlink, hlive, hnd, hnew, rfl⟩ := (replaceWithMany_eq_ok_iff h).mp hok
  have hgone := h.descendants_relink hlink (splice (t.children p) old new) new
  refine ⟨p, hlink, fun n hn => ⟨(hnew n hn).not_above, fun hr => ?_⟩, by simp, by simp, ?_, ?_,
    fun x => ?_, fun x hx => ?_, fun x => ?_⟩
  · obtain rfl := hr.eq_of_free (hnew n hn).free
    rw [Link, (hnew old hn).free] at hlink
    cases hlink
  · rw [origin_touch, origin_discard, origin_relink]
  · intro x
    rw [construct?_touch, construct?_discard, construct?_relink]
  · rw [children_touch, children_discard, children_relink _ _ _ _ _ (h.link_lt hlink).1]
  · have hout : x ∉ t.descendants old := fun hm => hx (h.mem_descendants_iff.mp hm)
    have hattributes : (((t.relink p (splice (t.children p) old new) new [old]).discard
        old).touch).attributes = t.attributes.forget (t.descendants old) := by
      rw [← hgone, ← attributes_relink t p (splice (t.children p) old new) new [old]]
      exact attributes_discard ..
    rw [Tree.extras, Tree.extras, attribute?, attribute?, hattributes,
      hdistinct.bind_get?_forget hout .span fun _ => rfl,
      hdistinct.bind_get?_forget hout .layout fun _ => rfl]
    rfl
  · rw [isLive_touch, isLive_discard, isLive_relink, hgone]

namespace Spliced

variable (h : t.WellLinked) (hs : Spliced t p old new t')
include h hs

/-- What is attached afterwards does not hang below `old`. -/
lemma not_reaches_of_attached (h' : t'.WellLinked) {x : NodeId} (hx : t'.Reaches t'.root x) :
    ¬ t.Reaches old x := by
  intro hbelow
  have hlive := h'.isLive_of_attached hx
  rw [hs.isLive, Bool.and_eq_true, Bool.not_eq_true', decide_eq_false_iff_not,
    h.mem_descendants_iff] at hlive
  exact hlive.2 hbelow

/-- Away from the way down to `old` and from what hangs below it all outlines stay. -/
lemma outline_eq_of_apart {x : NodeId} (habove : ¬ t.Reaches x p) (hbelow : ¬ t.Reaches old x) :
    t'.outline x = t.outline x := by
  rw [outline, hs.size]
  refine outlineTo_congr (S := {x | ¬ t.Reaches x p ∧ ¬ t.Reaches old x}) ?_
    (fun x _ => hs.construct? x) ?_ (fun x hx => hs.extras x hx.2) _ ⟨habove, hbelow⟩
  · rintro x ⟨habove, hbelow⟩ c hc
    have hlink : t.Link x c := (h.mem_children_iff x c).mp hc
    refine ⟨fun hr => habove (hlink.reaches.trans hr), fun hr => ?_⟩
    rcases reaches_iff.mp hr with rfl | ⟨q, hq, hr⟩
    · exact habove (hlink.unique hs.link ▸ Reaches.refl x)
    · exact hbelow (hlink.unique hq ▸ hr)
  · rintro x ⟨habove, _⟩
    rw [hs.children, if_neg]
    rintro rfl
    exact habove (Reaches.refl x)

/-- The outlines beside a node on the way down to `old` stay. -/
lemma outline_eq_of_sibling {b c : NodeId} (hb : t.Link a b) (hc : t.Link a c) (hne : c ≠ b)
    (hr : t.Reaches b old) : t'.outline c = t.outline c := by
  refine hs.outline_eq_of_apart h (fun habove => ?_) fun hbelow => ?_
  · exact hne (h.eq_of_siblings hc hb (habove.trans hs.link.reaches) hr)
  · exact hne (h.eq_of_siblings hc hb (Reaches.refl c) (hr.trans hbelow))

/-- Right above `old` the outlines of the new nodes take the place of its outline. -/
lemma map_outline_splice (hi : t.child? p i = some old) :
    (splice (t.children p) old new).map t'.outline =
      ((t.children p).map t.outline).take i ++ new.map t.outline ++
        ((t.children p).map t.outline).drop (i + 1) := by
  obtain ⟨hlt, hat⟩ := List.getElem?_eq_some_iff.mp hi
  have hrow : t.children p = (t.children p).take i ++ old :: (t.children p).drop (i + 1) := by
    rw [← hat, ← List.drop_eq_getElem_cons hlt, List.take_append_drop]
  have hidx : (t.children p).idxOf old = i := by
    rw [← hat]
    exact (h.nodup_children p).idxOf_getElem i hlt
  have hnd : ((t.children p).take i ++ old :: (t.children p).drop (i + 1)).Nodup :=
    hrow ▸ h.nodup_children p
  have hbeside : ∀ c ∈ t.children p, c ≠ old → t'.outline c = t.outline c := fun c hc hne =>
    hs.outline_eq_of_sibling h hs.link ((h.mem_children_iff p c).mp hc) hne (Reaches.refl old)
  rw [splice, hidx, List.map_append, List.map_append, ← List.map_take, ← List.map_drop]
  congr 1
  · congr 1
    · refine List.map_congr_left fun c hc => hbeside c (List.mem_of_mem_take hc) ?_
      rintro rfl
      exact (List.nodup_middle.mp hnd).notMem (List.mem_append_left _ hc)
    · exact List.map_congr_left fun n hn =>
        hs.outline_eq_of_apart h (hs.apart n hn).1 (hs.apart n hn).2
  · refine List.map_congr_left fun c hc => hbeside c (List.mem_of_mem_drop hc) ?_
    rintro rfl
    exact (List.nodup_middle.mp hnd).notMem (List.mem_append_right _ hc)

/-- On the way down to `old` the outlines change in its place only. -/
lemma outline_eq_spliceAt (h' : t'.WellLinked) (hpath : t.nodeAt? a (i :: path) = some old) :
    t'.outline a = (t.outline a).spliceAt (new.map t.outline) (i :: path) := by
  induction path generalizing a i with
  | nil =>
    obtain ⟨b, hi, hb⟩ := nodeAt?_cons_eq_some_iff.mp hpath
    obtain rfl := Option.some.inj hb
    obtain rfl := (h.link_of_child? hi).unique hs.link
    rw [outline_eq h' a, outline_eq h a, hs.children, if_pos rfl, hs.map_outline_splice h hi,
      hs.construct?, hs.extras a (h.not_reaches_of_link hs.link), DocNode.spliceAt]
  | cons j path ih =>
    obtain ⟨b, hi, hb⟩ := nodeAt?_cons_eq_some_iff.mp hpath
    have hlink : t.Link a b := h.link_of_child? hi
    have hr : t.Reaches b old := h.reaches_of_nodeAt? hb
    have hbp : t.Reaches b p := by
      obtain ⟨b', hb', hrest⟩ := nodeAt?_cons_eq_some_iff.mp hb
      rcases reaches_iff.mp (h.reaches_of_nodeAt? hrest) with rfl | ⟨q, hq, hr⟩
      · exact (h.link_of_child? hb').unique hs.link ▸ Reaches.refl b
      · exact hq.unique hs.link ▸ (h.link_of_child? hb').reaches.trans hr
    have hne : a ≠ p := by
      rintro rfl
      exact h.not_reaches_of_link hlink hbp
    have hout : ¬ t.Reaches old a := fun hoa =>
      h.not_reaches_of_link hlink (hr.trans hoa)
    have hrow : (t.children a).map t'.outline = ((t.children a).map t.outline).modify i
        (DocNode.spliceAt (new.map t.outline) (j :: path)) := by
      refine List.ext_getElem? fun k => ?_
      rw [List.getElem?_map, List.getElem?_modify, List.getElem?_map]
      cases hk : (t.children a)[k]? with
      | none => simp
      | some c =>
        by_cases hik : i = k
        · obtain rfl : b = c := Option.some.inj (hi.symm.trans (hik ▸ hk))
          simp [hik, ih hb]
        · have hcb : c ≠ b := by
            rintro rfl
            have hlt := (List.getElem?_eq_some_iff.mp hi).1
            exact hik ((List.getElem?_inj hlt (h.nodup_children a)).mp (hi.trans hk.symm))
          simp [hik, hs.outline_eq_of_sibling h hlink (h.link_of_child? hk) hcb hr]
    rw [outline_eq h' a, outline_eq h a, hs.children, if_neg hne, hrow, hs.construct?,
      hs.extras a hout, DocNode.spliceAt]
    simp

end Spliced

/-! ### Three ways to edit a place -/

lemma touch_modifySlot (t : Tree) (id : NodeId) (f : Slot → Slot) :
    t.touch.modifySlot id f = (t.modifySlot id f).touch := by
  rw [modifySlot, modifySlot, slot?_touch]
  cases t.slot? id <;> rfl

/-- It makes no difference whether an edit is counted before or after something is discarded. -/
lemma touch_discard (t : Tree) (id : NodeId) : t.touch.discard id = (t.discard id).touch := by
  have hgone : t.touch.descendants id = t.descendants id :=
    congrFun ((⟨rfl, rfl⟩ : t.Alike t.touch).preorder t.size) id
  have hfold : ∀ (ids : List NodeId) (t : Tree),
      ids.foldl (fun t n => t.modifySlot n ({ · with live := false })) t.touch =
        (ids.foldl (fun t n => t.modifySlot n ({ · with live := false })) t).touch := by
    intro ids
    induction ids with
    | nil => exact fun _ => rfl
    | cons n ids ih =>
      intro t
      rw [List.foldl_cons, List.foldl_cons, touch_modifySlot, ih]
  rw [discard, discard, hgone, hfold]
  rfl

/-- A removal is a replacement by nothing. -/
lemma WellLinked.remove_iff_replaceWithMany (h : t.WellLinked) (hlink : t.Link p old) :
    t.remove old = .ok t' ↔ t.replaceWithMany old [] = .ok t' := by
  rw [remove_eq_ok_iff, replaceWithMany_eq_ok_iff h]
  simp only [removeChild_eq_ok_iff h, touch_discard]
  constructor
  · rintro ⟨hlive, ⟨q, hq, _, _, ht⟩ | ⟨hfree, _, _⟩⟩
    · exact ⟨q, hq, hlive, List.nodup_nil, by simp, ht⟩
    · rw [Link, hfree] at hlink
      cases hlink
  · rintro ⟨q, hq, hlive, _, _, ht⟩
    exact ⟨hlive, Or.inl ⟨q, hq, hlive, hq, ht⟩⟩

/-- A replacement of a child is one by a row of one node. -/
lemma WellLinked.replace_iff_replaceWithMany (h : t.WellLinked) (hlink : t.Link p old) :
    t.replace old n = .ok t' ↔ t.replaceWithMany old [n] = .ok t' := by
  rw [replace_eq_ok_iff h, replaceWithMany_eq_ok_iff h]
  simp only [replaceChild_eq_ok_iff h, List.forall_mem_singleton]
  constructor
  · rintro ⟨hlive, ⟨q, hq, _, _, hnew, ht⟩ | ⟨hfree, _⟩⟩
    · exact ⟨q, hq, hlive, List.nodup_singleton n, hnew, ht⟩
    · rw [Link, hfree] at hlink
      cases hlink
  · rintro ⟨q, hq, hlive, _, hnew, ht⟩
    exact ⟨hlive, Or.inl ⟨q, hq, hlive, hq, hnew, ht⟩⟩

/-- Replacing an attached child by a row of nodes puts their outlines in the place of its outline
and discards what hung below it, and nothing else. A removal does the same as a replacement by
nothing, and a replacement by one node the same as one by a row of it. -/
theorem Reachable.replacement_splices_document (h : t.Reachable) (hold : t.isAttached old = true)
    (hparent : t.parent? old ≠ none) :
    (∀ new t', t.replaceWithMany old new = .ok t' →
      (∃ path d, t.nodeAt? t.root path = some old ∧ t.toDocument = .ok d ∧
        d.root.at? path = some (t.outline old) ∧
        t'.toDocument = .ok { d with root := d.root.spliceAt (new.map t.outline) path }) ∧
      (∀ n ∈ t.descendants old, t.isLive n = true ∧ t'.isLive n = false) ∧
      ∀ n, n ∉ t.descendants old → t'.isLive n = t.isLive n) ∧
    (∃ t', t.remove old = .ok t' ∧ t.replaceWithMany old [] = .ok t') ∧
    ∀ n t', t.replace old n = .ok t' ↔ t.replaceWithMany old [n] = .ok t' := by
  have hw : t.WellLinked := h.sound.linked
  have hr : t.Reaches t.root old := hw.isAttached_iff.mp hold
  have hlive : t.isLive old = true := hw.isLive_of_attached hr
  obtain ⟨p, hlink⟩ := Option.ne_none_iff_exists'.mp hparent
  refine ⟨fun new t' hok => ?_, ?_, fun n t' => hw.replace_iff_replaceWithMany hlink⟩
  · obtain ⟨q, hs⟩ := spliced_of_replaceWithMany hw h.sound.distinct hok
    have hw' : t'.WellLinked := hw.replaceWithMany hok
    refine ⟨?_, fun n hn => ⟨?_, ?_⟩, fun n hn => ?_⟩
    · obtain ⟨path, hpath⟩ := hw.exists_path hr
      refine ⟨path, _, hpath, by rw [toDocument, hw.validate_eq_ok]; rfl, ?_, ?_⟩
      · rw [at?_outline hw, hpath, Option.map_some]
      · cases path with
        | nil => exact absurd (Option.some.inj hpath).symm (hw.ne_root_of_link hlink)
        | cons i path =>
          rw [toDocument, hw'.validate_eq_ok, hs.root, hs.outline_eq_spliceAt hw hw' hpath,
            hs.origin]
          rfl
    · exact (hw.isLive_of_reaches (hw.mem_descendants_iff.mp hn)).symm.trans hlive
    · simp [hs.isLive, hn]
    · simp [hs.isLive, hn]
  · have hmany : t.replaceWithMany old [] = .ok _ := (replaceWithMany_eq_ok_iff hw).mpr
      ⟨p, hlink, hlive, List.nodup_nil, by simp, rfl⟩
    exact ⟨_, (hw.remove_iff_replaceWithMany hlink).mpr hmany, hmany⟩

/-- A chain of three nodes and two free ones. -/
def chainAndTwo : Tree := Command.runAll sampleTree [.add .null, .add (.int 1)]

theorem replacement_splices_document_chain :
    ∃ t' path d, chainAndTwo.replaceWithMany 2 [3, 4] = .ok t' ∧
      chainAndTwo.nodeAt? chainAndTwo.root path = some 2 ∧ chainAndTwo.toDocument = .ok d ∧
      t'.toDocument =
        .ok { d with root := d.root.spliceAt ([3, 4].map chainAndTwo.outline) path } := by
  have hr : chainAndTwo.Reachable := reachable_sampleTree.runAll _
  have hattached : chainAndTwo.isAttached 2 = true := by decide +kernel
  obtain ⟨hsplice, -⟩ := hr.replacement_splices_document hattached (by decide +kernel)
  have hok : (chainAndTwo.replaceWithMany 2 [3, 4]).isOk = true := by decide +kernel
  cases hrun : chainAndTwo.replaceWithMany 2 [3, 4] with
  | ok t' =>
    obtain ⟨⟨path, d, hpath, hd, _, hd'⟩, _⟩ := hsplice [3, 4] t' hrun
    exact ⟨t', path, d, rfl, hpath, hd, hd'⟩
  | error e =>
    rw [hrun] at hok
    cases hok

end Tree

end CodeMigration
