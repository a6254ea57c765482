import CodeMigration.Proofs.Document.Outline
import CodeMigration.Proofs.Tree.Graft

/-!
# Trees of documents

The nodes of a document are allocated one after the other, parents before children, and each changes
no other node than its parent. So the document is the outline of its tree, and the tree carries no
attributes but positions and formatting data.
-/

namespace CodeMigration

namespace Tree

variable {t t₁ t₂ : Tree} {p : NodeId}

/-- Positions and formatting data are all that is recorded, and only for nodes that exist. -/
structure Plain (t : Tree) : Prop where
  known : ∀ n key, t.size ≤ n → t.attribute? n key = none
  keys : ∀ n key, key ≠ .span → key ≠ .layout → t.attribute? n key = none
  spans : ∀ n, t.attribute? n .span = (t.extras n).1.map .span
  layouts : ∀ n, t.attribute? n .layout = (t.extras n).2.map .data
  distinct : t.attributes.Distinct

/-! ### One node -/

section extras

variable (t) (id : NodeId) (span : Option Span) (layout : Option Json)

variable {id}

lemma attribute?_setExtras {n : NodeId} {key : AttributeKey}
    (h : n ≠ id ∨ key ≠ .span ∧ key ≠ .layout) :
    (t.setExtras id span layout).attribute? n key = t.attribute? n key := by
  have hset : ∀ (a : Attributes) key' value, key' = .span ∨ key' = .layout →
      (a.set id key' value).get? n key = a.get? n key := by
    intro a key' value hkey'
    rw [Attributes.get?_set, if_neg]
    rintro ⟨rfl, rfl⟩
    grind
  cases span <;> cases layout <;> simp [setExtras, setAttribute, mapAttributes, attribute?, hset]

lemma attribute?_setExtras_self (h : ∀ key, t.attribute? id key = none) :
    (t.setExtras id span layout).attribute? id .span = span.map .span ∧
      (t.setExtras id span layout).attribute? id .layout = layout.map .data := by
  have hnone : ∀ key, t.attributes.get? id key = none := h
  cases span <;> cases layout <;>
    simp [setExtras, setAttribute, mapAttributes, attribute?, Attributes.get?_set, hnone]

lemma extras_setExtras (h : ∀ key, t.attribute? id key = none) :
    (t.setExtras id span layout).extras id = (span, layout) := by
  obtain ⟨hspan, hlayout⟩ := t.attribute?_setExtras_self span layout h
  rw [extras, hspan, hlayout]
  cases span <;> cases layout <;> rfl

variable (id)

lemma slots_setExtras : (t.setExtras id span layout).slots = t.slots := by
  cases span <;> cases layout <;> rfl

lemma root_setExtras : (t.setExtras id span layout).root = t.root := by
  cases span <;> cases layout <;> rfl

lemma distinct_setExtras (h : t.attributes.Distinct) :
    (t.setExtras id span layout).attributes.Distinct := by
  cases span <;> cases layout
  · exact h
  · exact h.set _ _ _
  · exact h.set _ _ _
  · exact (h.set _ _ _).set _ _ _

end extras

/-- The new node `t.size` is the last child of `p`. -/
structure Sprouted (t : Tree) (p : NodeId) (c : Construct) (span : Option Span)
    (layout : Option Json) (t' : Tree) : Prop where
  sound : t'.Sound
  plain : t'.Plain
  root : t'.root = t.root
  size : t'.size = t.size + 1
  construct? : ∀ x, t'.construct? x = if x = t.size then some c else t.construct? x
  children : ∀ x, t'.children x = if x = p then t.children p ++ [t.size] else t.children x
  extras : ∀ x, t'.extras x = if x = t.size then (span, layout) else t.extras x

lemma sprouted {c : Construct} {span : Option Span} {layout : Option Json} (ht : t.Sound)
    (hplain : t.Plain)
    (hok : ((t.add c).1.setExtras t.size span layout).pushChild p t.size = .ok t₁) :
    Sprouted t p c span layout t₁ := by
  generalize ht₀ : (t.add c).1.setExtras t.size span layout = t₀ at hok
  have halike : (t.add c).1.Alike t₀ := ht₀ ▸ ⟨slots_setExtras .., root_setExtras ..⟩
  have hsound : t₀.Sound := by
    rw [← ht₀]
    exact (ht.edited (t.edited_add c)).edited (edited_setExtras _ _ _ _)
  have hs : Shifted t₀ p t.size (some p) t₁ := shifted_pushChild hsound.linked hok
  obtain ⟨hc, rfl⟩ := (pushChild_eq_ok_iff hsound.linked).mp hok
  have hattribute : ∀ n key, (t₀.relink p (t₀.children p ++ [t.size]) [t.size] []).touch.attribute?
      n key = t₀.attribute? n key := by
    intro n key
    show (t₀.relink p _ [t.size] []).attributes.get? n key = _
    rw [attributes_relink, attribute?]
  have hother : ∀ {n key}, n ≠ t.size ∨ key ≠ .span ∧ key ≠ .layout →
      t₀.attribute? n key = t.attribute? n key := by
    intro n key hkey
    rw [← ht₀, attribute?_setExtras _ _ _ hkey]
    rfl
  have hsize : t₀.size = t.size + 1 := by rw [halike.size, size_add]
  have hnone : ∀ key, (t.add c).1.attribute? t.size key = none :=
    fun key => hplain.known _ key (Nat.le_refl _)
  have hself : t₀.attribute? t.size .span = span.map .span ∧
      t₀.attribute? t.size .layout = layout.map .data := by
    rw [← ht₀]
    exact attribute?_setExtras_self _ span layout hnone
  have hextras : ∀ x, (t₀.relink p (t₀.children p ++ [t.size]) [t.size] []).touch.extras x =
      if x = t.size then (span, layout) else t.extras x := by
    intro x
    rw [Tree.extras, hattribute, hattribute]
    split
    · next hx =>
      rw [hx, ← ht₀]
      exact extras_setExtras _ _ _ hnone
    · next hx => rw [hother (Or.inl hx), hother (Or.inl hx), Tree.extras]
  refine ⟨hsound.edited hs.edited, ⟨fun n key hn => ?_, fun n key hspan hlayout => ?_,
      fun n => ?_, fun n => ?_, ?_⟩,
    hs.root.trans halike.root, hs.size.trans hsize, fun x => ?_, fun x => ?_, hextras⟩
  · rw [hs.size, hsize] at hn
    rw [hattribute, hother (Or.inl (by omega)), hplain.known n key (by omega)]
  · rw [hattribute, hother (Or.inr ⟨hspan, hlayout⟩), hplain.keys n key hspan hlayout]
  · rw [hattribute, hextras]
    split
    · next hn => rw [hn, hself.1]
    · next hn => rw [hother (Or.inl hn), hplain.spans]
  · rw [hattribute, hextras]
    split
    · next hn => rw [hn, hself.2]
    · next hn => rw [hother (Or.inl hn), hplain.layouts]
  · show (t₀.relink p _ [t.size] []).attributes.Distinct
    rw [attributes_relink, ← ht₀]
    exact distinct_setExtras _ _ _ _ hplain.distinct
  · rw [hs.construct?, halike.construct?, Tree.construct?, slot?_add]
    split
    · rfl
    · rfl
  · show (t₀.relink p _ [t.size] []).children x = _
    rw [children_relink _ _ _ _ _ (t₀.lt_size_of_isLive hc.parent_live), halike.children,
      children_add, children_add]

/-! ### Rows of nodes -/

/-- The nodes of `ns`, with everything below them, are the last children of `p`. -/
structure Planted (t : Tree) (p : NodeId) (ns : List DocNode) (t' : Tree) : Prop where
  sound : t'.Sound
  plain : t'.Plain
  root : t'.root = t.root
  size_le : t.size ≤ t'.size
  construct? : ∀ x < t.size, t'.construct? x = t.construct? x
  extras : ∀ x < t.size, t'.extras x = t.extras x
  children : ∀ x < t.size, x ≠ p → t'.children x = t.children x
  inner : ∀ x, t.size ≤ x → ∀ c ∈ t'.children x, t.size ≤ c
  row : ∃ ids, t'.children p = t.children p ++ ids ∧ (∀ i ∈ ids, t.size ≤ i) ∧
    ∀ k, DocNode.heightList ns ≤ k → ids.map (t'.outlineTo k) = ns

namespace Planted

lemma nil (ht : t.Sound) (hplain : t.Plain) (p : NodeId) : Planted t p [] t := by
  refine ⟨ht, hplain, rfl, Nat.le_refl _, fun _ _ => rfl, fun _ _ => rfl, fun _ _ _ => rfl, ?_, [],
    by simp, by simp, by simp⟩
  intro x hx c hc
  have hlt := (ht.linked.link_lt ((ht.linked.mem_children_iff x c).mp hc)).1
  exact absurd hlt (Nat.not_lt.mpr hx)

lemma cons {n : DocNode} {ns : List DocNode} (hp : p < t.size) (h : Planted t p [n] t₁)
    (h' : Planted t₁ p ns t₂) : Planted t p (n :: ns) t₂ := by
  have hlt : ∀ {x}, x < t.size → x < t₁.size := fun hx => Nat.lt_of_lt_of_le hx h.size_le
  refine ⟨h'.sound, h'.plain, h'.root.trans h.root, Nat.le_trans h.size_le h'.size_le,
    fun x hx => ?_, fun x hx => ?_, fun x hx hne => ?_, fun x hx c hc => ?_, ?_⟩
  · rw [h'.construct? x (hlt hx), h.construct? x hx]
  · rw [h'.extras x (hlt hx), h.extras x hx]
  · rw [h'.children x (hlt hx) hne, h.children x hx hne]
  · rcases Nat.lt_or_ge x t₁.size with hx₁ | hx₁
    · rw [h'.children x hx₁ (Nat.ne_of_gt (Nat.lt_of_lt_of_le hp hx))] at hc
      exact h.inner x hx c hc
    · exact Nat.le_trans h.size_le (h'.inner x hx₁ c hc)
  · obtain ⟨ids, hrow, hids, houtline⟩ := h.row
    obtain ⟨ids', hrow', hids', houtline'⟩ := h'.row
    refine ⟨ids ++ ids', ?_, ?_, fun k hk => ?_⟩
    · rw [hrow', hrow, List.append_assoc]
    · intro i hi
      rcases List.mem_append.mp hi with hi | hi
      · exact hids i hi
      · exact Nat.le_trans h.size_le (hids' i hi)
    · rw [DocNode.heightList] at hk
      -- the row planted first is out of reach of the second
      have hsame : ids.map (t₂.outlineTo k) = ids.map (t₁.outlineTo k) := by
        refine List.map_congr_left fun i hi => ?_
        refine outlineTo_congr (S := {x | t.size ≤ x ∧ x < t₁.size}) ?_ ?_ ?_ ?_ k ⟨hids i hi, ?_⟩
        · intro x hx c hc
          have hlink := (h.sound.linked.mem_children_iff x c).mp hc
          exact ⟨h.inner x hx.1 c hc, (h.sound.linked.link_lt hlink).2⟩
        · exact fun x hx => h'.construct? x hx.2
        · exact fun x hx => h'.children x hx.2 (Nat.ne_of_gt (Nat.lt_of_lt_of_le hp hx.1))
        · exact fun x hx => h'.extras x hx.2
        · have hi' : i ∈ t₁.children p := hrow ▸ List.mem_append_right _ hi
          exact (h.sound.linked.link_lt ((h.sound.linked.mem_children_iff p i).mp hi')).2
      rw [List.map_append, hsame, houtline k, houtline' k (by omega), List.singleton_append]
      rw [DocNode.heightList, DocNode.heightList]
      omega

lemma node {c : Construct} {cs : List DocNode} {span : Option Span} {layout : Option Json}
    (hp : p < t.size) (h : Sprouted t p c span layout t₁) (h' : Planted t₁ t.size cs t₂) :
    Planted t p [.node c cs span layout] t₂ := by
  have hlt : ∀ {x}, x < t.size → x < t₁.size := fun hx => h.size ▸ Nat.lt_succ_of_lt hx
  have hnew : t.size < t₁.size := h.size ▸ Nat.lt_succ_self _
  have hchildren : ∀ x < t.size, t₂.children x = t₁.children x :=
    fun x hx => h'.children x (hlt hx) (Nat.ne_of_lt hx)
  obtain ⟨ids, hrow, hids, houtline⟩ := h'.row
  have hbare : t₁.children t.size = [] := by
    rw [h.children, if_neg (Nat.ne_of_gt hp), Tree.children,
      t.slot?_eq_none_iff.mpr (Nat.le_refl _)]
    rfl
  rw [hbare, List.nil_append] at hrow
  refine ⟨h'.sound, h'.plain, h'.root.trans h.root, Nat.le_trans (Nat.le_of_lt hnew) h'.size_le,
    fun x hx => ?_, fun x hx => ?_, fun x hx hne => ?_, fun x hx d hd => ?_, ?_⟩
  · rw [h'.construct? x (hlt hx), h.construct?, if_neg (Nat.ne_of_lt hx)]
  · rw [h'.extras x (hlt hx), h.extras, if_neg (Nat.ne_of_lt hx)]
  · rw [hchildren x hx, h.children, if_neg hne]
  · rcases Nat.eq_or_lt_of_le hx with rfl | hx
    · rw [hrow] at hd
      exact Nat.le_trans (Nat.le_of_lt hnew) (hids d hd)
    · exact Nat.le_trans (Nat.le_of_lt hnew) (h'.inner x (h.size ▸ hx) d hd)
  · refine ⟨[t.size], ?_, by simp, fun k hk => ?_⟩
    · rw [hchildren p hp, h.children, if_pos rfl]
    · simp only [DocNode.heightList, DocNode.height] at hk
      obtain ⟨k, rfl⟩ : ∃ k', k = k' + 1 := ⟨k - 1, by omega⟩
      rw [List.map_singleton, outlineTo_succ, h'.construct? _ hnew, h.construct?, if_pos rfl, hrow,
        houtline k (by omega), h'.extras _ hnew, h.extras, if_pos rfl]
      rfl

end Planted

mutual

lemma planted_plant (n : DocNode) {p : NodeId} {level : Nat} {t t' : Tree} (ht : t.Sound)
    (hplain : t.Plain) (hp : p < t.size) (hok : plant p level n t = .ok t') :
    Planted t p [n] t' := by
  match n with
  | .node c children span layout =>
    rw [plant] at hok
    split at hok
    · cases hok
    · obtain ⟨t₁, hpush, hrest⟩ := Except.bind_eq_ok_iff.mp hok
      have hs : Sprouted t p c span layout t₁ := sprouted ht hplain hpush
      have hnew : t.size < t₁.size := hs.size ▸ Nat.lt_succ_self _
      exact .node hp hs (planted_plantAll children hs.sound hs.plain hnew hrest)

lemma planted_plantAll (ns : List DocNode) {p : NodeId} {level : Nat} {t t' : Tree} (ht : t.Sound)
    (hplain : t.Plain) (hp : p < t.size) (hok : plantAll p level ns t = .ok t') :
    Planted t p ns t' := by
  match ns with
  | [] =>
    cases hok
    exact .nil ht hplain p
  | n :: ns =>
    rw [plantAll] at hok
    obtain ⟨t₁, hn, hns⟩ := Except.bind_eq_ok_iff.mp hok
    have h₁ := planted_plant n ht hplain hp hn
    have hp₁ : p < t₁.size := Nat.lt_of_lt_of_le hp h₁.size_le
    exact h₁.cons hp (planted_plantAll ns h₁.sound h₁.plain hp₁ hns)

end

/-! ### Whole documents -/

/-- The root of a document, before anything is planted below it. -/
def seed (d : Document) : Tree :=
  ((Tree.new d.root.construct).withOrigin d.path d.source).setExtras 0 d.root.span d.root.layout

lemma ofDocument_eq (d : Document) : ofDocument d = plantAll 0 1 d.root.children (seed d) := rfl

section seed

variable (d : Document)

lemma alike_seed : (Tree.new d.root.construct).Alike (seed d) :=
  ⟨slots_setExtras .., root_setExtras ..⟩

lemma sound_seed : (seed d).Sound :=
  ((sound_new d.root.construct).withOrigin d.path d.source).edited (edited_setExtras _ _ _ _)

lemma size_seed : (seed d).size = 1 := by
  rw [(alike_seed d).size]
  rfl

lemma attribute?_bare (n : NodeId) (key : AttributeKey) :
    ((Tree.new d.root.construct).withOrigin d.path d.source).attribute? n key = none := by
  simp [Tree.new, withOrigin, attribute?, Attributes.get?]

lemma extras_seed : (seed d).extras 0 = (d.root.span, d.root.layout) :=
  extras_setExtras _ _ _ (attribute?_bare d 0)

lemma plain_seed : (seed d).Plain := by
  have hother : ∀ n key, n ≠ 0 → (seed d).attribute? n key = none := fun n key hn => by
    rw [seed, attribute?_setExtras _ _ _ (Or.inl hn), attribute?_bare]
  obtain ⟨hspan, hlayout⟩ :=
    attribute?_setExtras_self _ d.root.span d.root.layout (attribute?_bare d 0)
  refine ⟨fun n key hn => ?_, fun n key hspan hlayout => ?_, fun n => ?_, fun n => ?_, ?_⟩
  · rw [size_seed] at hn
    exact hother n key (Nat.ne_of_gt hn)
  · rw [seed, attribute?_setExtras _ _ _ (Or.inr ⟨hspan, hlayout⟩), attribute?_bare]
  · by_cases hn : n = 0
    · rw [hn, extras_seed]
      exact hspan
    · rw [extras, hother n _ hn]
      rfl
  · by_cases hn : n = 0
    · rw [hn, extras_seed]
      exact hlayout
    · rw [extras, hother n .layout hn]
      rfl
  · refine distinct_setExtras _ _ _ _ fun n => ?_
    simp [Tree.new, withOrigin, Attributes.ofNode, Bag.Distinct]

end seed

/-- The tree of a document is plain, and the document is its outline. -/
theorem outline_ofDocument {d : Document} (hok : ofDocument d = .ok t) :
    t.Plain ∧ t.outline t.root = d.root := by
  have hlt : 0 < (seed d).size := by
    rw [size_seed]
    exact Nat.one_pos
  have h := planted_plantAll _ (sound_seed d) (plain_seed d) hlt ((ofDocument_eq d).symm.trans hok)
  refine ⟨h.plain, ?_⟩
  obtain ⟨ids, hrow, _, houtline⟩ := h.row
  have hbare : (seed d).children 0 = [] := by
    rw [(alike_seed d).children]
    rfl
  have hroot : t.root = 0 := h.root.trans (alike_seed d).root
  have hdeep : t.outline t.root =
      t.outlineTo (max t.size (DocNode.heightList d.root.children) + 1) t.root := by
    refine outlineTo_eq h.sound.linked (Nat.le_add_left _ _) ?_
    omega
  rw [hdeep, hroot, outlineTo_succ, h.construct? 0 hlt, (alike_seed d).construct?, hrow, hbare,
    List.nil_append, houtline _ (Nat.le_max_right _ _), h.extras 0 hlt, extras_seed]
  obtain ⟨path, source, c, cs, span, layout⟩ := d
  rfl

end Tree

end CodeMigration
