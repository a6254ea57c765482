import CodeMigration.Proofs.Document.Planting

/-!
# The nodes of a document in the arena

A document is turned into a tree exactly when it is not nested too deeply. The nodes are then
numbered as a reader meets them, parents before children: each row of nodes takes up the next
numbers of the arena (`Numbered`), so the listing of the tree counts from zero on, and the way back
is exact.
-/

namespace CodeMigration

namespace DocNode

mutual

/-- A node and the nodes below it, parents before children. -/
def preorder : DocNode → List DocNode
  | .node c cs span layout => .node c cs span layout :: preorderList cs

/-- The nodes of a row and the nodes below them. -/
def preorderList : List DocNode → List DocNode
  | [] => []
  | n :: ns => preorder n ++ preorderList ns

end

lemma preorderList_eq (ns : List DocNode) : preorderList ns = ns.flatMap preorder := by
  induction ns with
  | nil => rfl
  | cons n ns ih => rw [preorderList, ih, List.flatMap_cons]

mutual

lemma height_lt (n : DocNode) : n.height < n.size := by
  match n with
  | .node c cs span layout =>
    rw [height, size]
    exact Nat.lt_succ_of_le (heightList_le cs)

lemma heightList_le (ns : List DocNode) : heightList ns ≤ sizeList ns := by
  match ns with
  | [] => exact Nat.le_refl _
  | n :: ns =>
    have hn := height_lt n
    have hns := heightList_le ns
    rw [heightList, sizeList]
    omega

end

end DocNode

namespace Tree

variable {t t₁ t₂ : Tree} {p : NodeId}

/-! ### Listings -/

/-- The listing of a subtree shows the nodes of its outline. -/
lemma map_outline_preorder (h : t.WellLinked) {k : Nat} {n : NodeId}
    (hk : t.size ≤ (t.ancestors n).length + k) :
    (t.preorder k n).map t.outline = (t.outline n).preorder := by
  induction k generalizing n with
  | zero =>
    have hdepth : (t.ancestors n).length < t.size := h.length_ancestors_lt n
    omega
  | succ k ih =>
    have hrow : ((t.children n).flatMap (t.preorder k)).map t.outline =
        DocNode.preorderList ((t.children n).map t.outline) := by
      rw [DocNode.preorderList_eq, List.map_flatMap, List.flatMap_map]
      refine List.flatMap_congr fun c hc => ih ?_
      rw [h.ancestors_of_link ((h.mem_children_iff n c).mp hc), List.length_cons]
      omega
    rw [preorder, List.map_cons, hrow]
    conv_rhs => rw [outline_eq h n, DocNode.preorder, ← outline_eq h n]

/-- Trees that agree on nodes that lead to no others have the same listings there. -/
lemma preorder_congr {t' : Tree} {S : Set NodeId}
    (hclosed : ∀ x ∈ S, ∀ c ∈ t.children x, c ∈ S)
    (hchildren : ∀ x ∈ S, t'.children x = t.children x) (k : Nat) {n : NodeId} (hn : n ∈ S) :
    t'.preorder k n = t.preorder k n := by
  induction k generalizing n with
  | zero => rfl
  | succ k ih =>
    rw [preorder, preorder, hchildren n hn]
    congr 1
    exact List.flatMap_congr fun c hc => ih (hclosed n hn c hc)

/-! ### Rows of nodes -/

/-- The nodes of `ns` are planted below `p`, and they take up the next numbers in the order in which
they are listed. -/
structure Numbered (t : Tree) (p : NodeId) (ns : List DocNode) (t' : Tree) : Prop
    extends Planted t p ns t' where
  origin : t'.origin = t.origin
  live : ∀ m, t.isLive m = true → t'.isLive m = true
  size : t'.size = t.size + DocNode.sizeList ns
  numbers : ∃ ids, t'.children p = t.children p ++ ids ∧
    ∀ k, DocNode.heightList ns ≤ k →
      ids.flatMap (t'.preorder k) = List.range' t.size (DocNode.sizeList ns)

namespace Numbered

lemma nil (ht : t.Sound) (hplain : t.Plain) (p : NodeId) : Numbered t p [] t where
  toPlanted := .nil ht hplain p
  origin := rfl
  live _ hm := hm
  size := rfl
  numbers := ⟨[], by simp, fun _ _ => rfl⟩

lemma cons {n : DocNode} {ns : List DocNode} (hp : p < t.size) (h : Numbered t p [n] t₁)
    (h' : Numbered t₁ p ns t₂) : Numbered t p (n :: ns) t₂ := by
  have hsize : t₁.size = t.size + n.size := h.size
  refine { toPlanted := h.toPlanted.cons hp h'.toPlanted, origin := h'.origin.trans h.origin,
           live := fun m hm => h'.live m (h.live m hm), size := ?_, numbers := ?_ }
  · rw [h'.size, hsize, DocNode.sizeList, Nat.add_assoc]
  · obtain ⟨ids, hrow, hids⟩ := h.numbers
    obtain ⟨ids', hrow', hids'⟩ := h'.numbers
    refine ⟨ids ++ ids', by rw [hrow', hrow, List.append_assoc], fun k hk => ?_⟩
    rw [DocNode.heightList] at hk
    -- the row planted first is out of reach of the second
    have hsame : ids.flatMap (t₂.preorder k) = ids.flatMap (t₁.preorder k) := by
      refine List.flatMap_congr fun i hi => ?_
      have hlink : t₁.Link p i := by
        rw [← h.sound.linked.mem_children_iff, hrow]
        exact List.mem_append_right _ hi
      have hnew : t.size ≤ i := by
        obtain ⟨ids₀, hrow₀, hids₀, _⟩ := h.row
        obtain rfl : ids = ids₀ := List.append_cancel_left (hrow.symm.trans hrow₀)
        exact hids₀ i hi
      refine preorder_congr (S := {x | t.size ≤ x ∧ x < t₁.size}) ?_ ?_ k
        ⟨hnew, (h.sound.linked.link_lt hlink).2⟩
      · intro x hx c hc
        have hlink := (h.sound.linked.mem_children_iff x c).mp hc
        exact ⟨h.inner x hx.1 c hc, (h.sound.linked.link_lt hlink).2⟩
      · exact fun x hx => h'.children x hx.2 (Nat.ne_of_gt (Nat.lt_of_lt_of_le hp hx.1))
    have hfirst : ids.flatMap (t₁.preorder k) = List.range' t.size n.size := by
      refine hids k ?_
      rw [DocNode.heightList, DocNode.heightList]
      omega
    rw [List.flatMap_append, hsame, hfirst, hids' k (by omega), hsize, DocNode.sizeList]
    simp

lemma node {c : Construct} {cs : List DocNode} {span : Option Span} {layout : Option Json}
    (hp : p < t.size) (h : Sprouted t p c span layout t₁) (horigin : t₁.origin = t.origin)
    (hlive : ∀ m, t.isLive m = true → t₁.isLive m = true) (h' : Numbered t₁ t.size cs t₂) :
    Numbered t p [.node c cs span layout] t₂ := by
  have hsize : DocNode.sizeList [.node c cs span layout] = DocNode.sizeList cs + 1 := rfl
  refine { toPlanted := .node hp h h'.toPlanted, origin := h'.origin.trans horigin,
           live := fun m hm => h'.live m (hlive m hm), size := ?_, numbers := ?_ }
  · rw [h'.size, h.size, hsize]
    omega
  · refine ⟨[t.size], ?_, fun k hk => ?_⟩
    · rw [h'.children p (h.size ▸ Nat.lt_succ_of_lt hp) (Nat.ne_of_lt hp), h.children, if_pos rfl]
    · simp only [DocNode.heightList, DocNode.height] at hk
      obtain ⟨k, rfl⟩ : ∃ k', k = k' + 1 := ⟨k - 1, by omega⟩
      obtain ⟨ids, hrow, hids⟩ := h'.numbers
      have hbare : t₁.children t.size = [] := by
        rw [h.children, if_neg (Nat.ne_of_gt hp), Tree.children,
          t.slot?_eq_none_iff.mpr (Nat.le_refl _)]
        rfl
      rw [List.flatMap_singleton, preorder, hrow, hbare, List.nil_append, hids k (by omega), h.size,
        hsize, List.range'_succ]

end Numbered

/-! ### Planting succeeds -/

/-- A new node can be attached below every live one. -/
lemma exists_sprouted (ht : t.Sound) (hplain : t.Plain) (hp : t.isLive p = true) (c : Construct)
    (span : Option Span) (layout : Option Json) :
    ∃ t₁, ((t.add c).1.setExtras t.size span layout).pushChild p t.size = .ok t₁ ∧
      Sprouted t p c span layout t₁ ∧ t₁.origin = t.origin ∧ t₁.isLive t.size = true ∧
      ∀ m, t.isLive m = true → t₁.isLive m = true := by
  have halike : (t.add c).1.Alike ((t.add c).1.setExtras t.size span layout) :=
    ⟨slots_setExtras .., root_setExtras ..⟩
  generalize ht₀ : (t.add c).1.setExtras t.size span layout = t₀ at halike
  have hlinked : t₀.WellLinked := by
    rw [← ht₀]
    exact ((ht.edited (t.edited_add c)).edited (edited_setExtras _ _ _ _)).linked
  have hlive : ∀ m, t₀.isLive m = (decide (m = t.size) || t.isLive m) := by
    intro m
    rw [halike.isLive, isLive_add]
  have hlink : ∀ q m, t₀.Link q m → t.Link q m := by
    intro q m hq
    rwa [Link, halike.parent?, parent?_add] at hq
  have hroot : t₀.root = t.root := halike.root
  have hattach : t₀.Attachable p t.size := by
    refine ⟨?_, ?_, ?_, ?_, fun hreach => ?_⟩
    · rw [hlive, hp, Bool.or_true]
    · rw [hlive, decide_eq_true rfl, Bool.true_or]
    · rw [hroot]
      exact Nat.ne_of_gt ht.linked.root_lt
    · rw [halike.parent?, parent?_add, Tree.parent?, t.slot?_eq_none_iff.mpr (Nat.le_refl _)]
      rfl
    · rcases Relation.ReflTransGen.cases_head hreach with rfl | ⟨d, hd, _⟩
      · exact Nat.lt_irrefl _ (t.lt_size_of_isLive hp)
      · exact Nat.lt_irrefl _ (ht.linked.link_lt (hlink _ _ hd)).1
  obtain ⟨t₁, hok, -, hsame⟩ := exists_pushChild hlinked hattach
  have horigin : t₁.origin = t.origin := by
    obtain ⟨-, rfl⟩ := (pushChild_eq_ok_iff hlinked).mp hok
    show (t₀.relink p _ [t.size] []).origin = t.origin
    rw [origin_relink, ← ht₀]
    cases span <;> cases layout <;> rfl
  refine ⟨t₁, hok, sprouted ht hplain (ht₀ ▸ hok), horigin, ?_, fun m hm => ?_⟩
  · rw [hsame, hattach.live]
  · rw [hsame, hlive, hm, Bool.or_true]

mutual

/-- A node that is not too deep is planted. -/
lemma exists_plant (n : DocNode) (level : Nat) {p : NodeId} {t : Tree} (ht : t.Sound)
    (hplain : t.Plain) (hp : t.isLive p = true) (hfits : level + n.height ≤ maxLevels) :
    ∃ t', plant p level n t = .ok t' ∧ Numbered t p [n] t' := by
  match n with
  | .node c cs span layout =>
    rw [DocNode.height] at hfits
    obtain ⟨t₁, hpush, hs, horigin, hnew, hlive⟩ := exists_sprouted ht hplain hp c span layout
    obtain ⟨t₂, hrest, hnumbered⟩ :=
      exists_plantAll cs (level + 1) hs.sound hs.plain hnew (by omega)
    refine ⟨t₂, ?_, .node (t.lt_size_of_isLive hp) hs horigin hlive hnumbered⟩
    rw [plant, if_neg (by omega)]
    exact Except.bind_eq_ok_iff.mpr ⟨t₁, hpush, hrest⟩

/-- A row of nodes that are not too deep is planted. -/
lemma exists_plantAll (ns : List DocNode) (level : Nat) {p : NodeId} {t : Tree} (ht : t.Sound)
    (hplain : t.Plain) (hp : t.isLive p = true)
    (hfits : level + DocNode.heightList ns ≤ maxLevels + 1) :
    ∃ t', plantAll p level ns t = .ok t' ∧ Numbered t p ns t' := by
  match ns with
  | [] => exact ⟨t, rfl, .nil ht hplain p⟩
  | n :: ns =>
    rw [DocNode.heightList] at hfits
    obtain ⟨t₁, hn, h₁⟩ := exists_plant n level ht hplain hp (by omega)
    obtain ⟨t₂, hns, h₂⟩ :=
      exists_plantAll ns level h₁.sound h₁.plain (h₁.live p hp) (by omega)
    refine ⟨t₂, ?_, h₁.cons (t.lt_size_of_isLive hp) h₂⟩
    rw [plantAll]
    exact Except.bind_eq_ok_iff.mpr ⟨t₁, hn, hns⟩

end

/-! ### Planting fails -/

mutual

/-- A node that is too deep, or has a too deep one below it, is refused as such. -/
lemma plant_tooDeep (n : DocNode) (level : Nat) {p : NodeId} {t : Tree} (ht : t.Sound)
    (hplain : t.Plain) (hp : t.isLive p = true) (hdeep : maxLevels < level + n.height) :
    plant p level n t = .error (.document (.tooDeep maxLevels)) := by
  match n with
  | .node c cs span layout =>
    rw [DocNode.height] at hdeep
    by_cases hlevel : maxLevels < level
    · rw [plant, if_pos hlevel]
    · obtain ⟨t₁, hpush, hs, -, hnew, -⟩ := exists_sprouted ht hplain hp c span layout
      have hrest := plantAll_tooDeep cs (level + 1) hs.sound hs.plain hnew (by omega)
        (by omega)
      have hid : (t.add c).2 = t.size := rfl
      rw [pushChild] at hpush
      rw [plant, if_neg hlevel]
      simp only [hid, hpush]
      exact hrest

/-- So is a row with such a node, since the nodes before it are planted. -/
lemma plantAll_tooDeep (ns : List DocNode) (level : Nat) {p : NodeId} {t : Tree} (ht : t.Sound)
    (hplain : t.Plain) (hp : t.isLive p = true) (hlevel : level ≤ maxLevels + 1)
    (hdeep : maxLevels + 1 < level + DocNode.heightList ns) :
    plantAll p level ns t = .error (.document (.tooDeep maxLevels)) := by
  match ns with
  | [] =>
    rw [DocNode.heightList] at hdeep
    omega
  | n :: ns =>
    rw [DocNode.heightList] at hdeep
    rw [plantAll]
    by_cases hn : maxLevels < level + n.height
    · rw [plant_tooDeep n level ht hplain hp hn]
      rfl
    · obtain ⟨t₁, hok, h₁⟩ := exists_plant n level ht hplain hp (by omega)
      rw [hok]
      exact plantAll_tooDeep ns level h₁.sound h₁.plain (h₁.live p hp) hlevel (by omega)

end

/-! ### Whole documents -/

lemma isLive_seed (d : Document) : (seed d).isLive 0 = true := by
  rw [(alike_seed d).isLive]
  rfl

/-- The tree of a document that is not nested too deeply: its listing counts from zero on. -/
lemma exists_ofDocument {d : Document} (hfits : d.root.height ≤ maxLevels) :
    ∃ t, ofDocument d = .ok t ∧ t.origin = ⟨d.path, d.source⟩ ∧ t.size = d.root.size ∧
      t.nodes = List.range t.size := by
  obtain ⟨path, source, c, cs, span, layout⟩ := d
  rw [DocNode.height] at hfits
  generalize hd : (⟨path, source, .node c cs span layout⟩ : Document) = d
  obtain ⟨t, hok, h⟩ := exists_plantAll cs 1 (sound_seed d) (plain_seed d) (isLive_seed d)
    (by omega)
  have hsize : t.size = DocNode.sizeList cs + 1 := by
    rw [h.size, size_seed, Nat.add_comm]
  have horigin : t.origin = ⟨path, source⟩ := by
    rw [h.origin, ← hd]
    cases span <;> cases layout <;> rfl
  refine ⟨t, ?_, ?_, ?_, ?_⟩
  · rw [ofDocument_eq, ← hok, ← hd]
    rfl
  · rw [horigin, ← hd]
  · rw [hsize, ← hd]
    rfl
  · obtain ⟨ids, hrow, hids⟩ := h.numbers
    have hbare : (seed d).children 0 = [] := by
      rw [(alike_seed d).children]
      rfl
    rw [hbare, List.nil_append] at hrow
    have hroot : t.root = 0 := h.root.trans (alike_seed d).root
    have hheight : DocNode.heightList cs ≤ DocNode.sizeList cs := DocNode.heightList_le cs
    rw [nodes, descendants, hroot, hsize, preorder, hrow, hids _ hheight, size_seed,
      List.range_eq_range', List.range'_succ]

/-- A document that is nested too deeply is not read. -/
lemma ofDocument_tooDeep {d : Document} (hdeep : maxLevels < d.root.height) :
    ofDocument d = .error (.document (.tooDeep maxLevels)) := by
  obtain ⟨path, source, c, cs, span, layout⟩ := d
  rw [DocNode.height] at hdeep
  exact plantAll_tooDeep cs 1 (sound_seed _) (plain_seed _) (isLive_seed _) (by decide) (by omega)

lemma height_le_of_ofDocument {d : Document} (hdoc : ofDocument d = .ok t) :
    d.root.height ≤ maxLevels := by
  by_contra hfits
  rw [ofDocument_tooDeep (Nat.not_le.mp hfits)] at hdoc
  cases hdoc

/-- A document that can be read is listed from zero on. -/
lemma nodes_ofDocument {d : Document} (hdoc : ofDocument d = .ok t) :
    t.nodes = List.range t.size := by
  obtain ⟨t', hok, _, _, hnodes⟩ := exists_ofDocument (height_le_of_ofDocument hdoc)
  rwa [Except.ok.inj (hdoc.symm.trans hok)]

lemma origin_ofDocument {d : Document} (hdoc : ofDocument d = .ok t) :
    t.origin = ⟨d.path, d.source⟩ := by
  obtain ⟨t', hok, horigin, _⟩ := exists_ofDocument (height_le_of_ofDocument hdoc)
  rwa [Except.ok.inj (hdoc.symm.trans hok)]

/-- Reading a document into a tree and writing the tree out again are inverse to each other. A
document is refused exactly when some node lies more than 512 levels below the root. Otherwise the
arena holds the nodes of the document and no others, numbered parents before children, all of them
attached, the tree passes its check, and it is written out as the same document. -/
theorem document_round_trip (d : Document) :
    match ofDocument d with
    | .ok t =>
      d.root.height ≤ 512 ∧ t.size = d.root.size ∧ t.nodes = List.range t.size ∧
        (List.range t.size).map t.outline = d.root.preorder ∧
        (∀ n, t.isAttached n = true ↔ n < t.size) ∧ t.validate = .ok () ∧ t.toDocument = .ok d
    | .error e => 512 < d.root.height ∧ e = .document (.tooDeep 512) := by
  by_cases hfits : d.root.height ≤ maxLevels
  · obtain ⟨t, hok, horigin, hsize, hnodes⟩ := exists_ofDocument hfits
    have hlinked : t.WellLinked := (Reachable.ofDocument hok).sound.linked
    have houtline : t.outline t.root = d.root := (outline_ofDocument hok).2
    rw [hok]
    refine ⟨hfits, hsize, hnodes, ?_, fun n => ?_, hlinked.validate_eq_ok, ?_⟩
    · rw [← hnodes, nodes, descendants, map_outline_preorder hlinked (Nat.le_add_left _ _),
        houtline]
    · rw [hlinked.isAttached_iff, ← hlinked.mem_nodes_iff, hnodes, List.mem_range]
    · rw [toDocument, hlinked.validate_eq_ok, horigin, houtline]
      rfl
  · rw [Nat.not_le] at hfits
    rw [ofDocument_tooDeep hfits]
    exact ⟨hfits, rfl⟩

end Tree

end CodeMigration
