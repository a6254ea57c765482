import CodeMigration.Tree.Checkpoint
import CodeMigration.Tree.Edit
import Mathlib.Tactic.Common

/-!
# What edits do to slots

Every edit is put together from changes of single slots. The lemmas here say what such a change does
to the slot of each node, and what the change of one row of children with its links, `Tree.relink`,
does to the children, the parent and the liveness of each node. Attaching, detaching and replacing
are all of the form `relink`, followed by `discard` where something goes for good.
-/

namespace CodeMigration

namespace Tree

variable (t : Tree)

/-! ### Single slots -/

lemma slot?_modifySlot (id : NodeId) (f : Slot → Slot) (n : NodeId) :
    (t.modifySlot id f).slot? n = if n = id then (t.slot? n).map f else t.slot? n := by
  unfold modifySlot
  cases hs : t.slot? id with
  | none =>
    by_cases hn : n = id
    · subst hn
      simp [hs]
    · simp [hn]
  | some old =>
    simp only [slot?, Array.getElem?_modify]
    by_cases hn : n = id
    · simp [hn]
    · simp [hn, Ne.symm hn]

@[simp] lemma size_modifySlot (id : NodeId) (f : Slot → Slot) :
    (t.modifySlot id f).size = t.size := by
  unfold modifySlot size
  split <;> simp

@[simp] lemma root_modifySlot (id : NodeId) (f : Slot → Slot) :
    (t.modifySlot id f).root = t.root := by
  unfold modifySlot
  split <;> rfl

@[simp] lemma revision_modifySlot (id : NodeId) (f : Slot → Slot) :
    (t.modifySlot id f).revision = t.revision := by
  unfold modifySlot
  split <;> rfl

@[simp] lemma attributes_modifySlot (id : NodeId) (f : Slot → Slot) :
    (t.modifySlot id f).attributes = t.attributes := by
  unfold modifySlot
  split <;> rfl

@[simp] lemma origin_modifySlot (id : NodeId) (f : Slot → Slot) :
    (t.modifySlot id f).origin = t.origin := by
  unfold modifySlot
  split <;> rfl

@[simp] lemma slot?_touch (n : NodeId) : t.touch.slot? n = t.slot? n := rfl

@[simp] lemma size_touch : t.touch.size = t.size := rfl

@[simp] lemma root_touch : t.touch.root = t.root := rfl

@[simp] lemma construct?_touch (n : NodeId) : t.touch.construct? n = t.construct? n := rfl

@[simp] lemma parent?_touch (n : NodeId) : t.touch.parent? n = t.parent? n := rfl

@[simp] lemma children_touch (n : NodeId) : t.touch.children n = t.children n := rfl

@[simp] lemma isLive_touch (n : NodeId) : t.touch.isLive n = t.isLive n := rfl

@[simp] lemma origin_touch : t.touch.origin = t.origin := rfl

@[simp] lemma slot?_mapAttributes (f : Attributes → Attributes) (n : NodeId) :
    (t.mapAttributes f).slot? n = t.slot? n := rfl

lemma slot?_add (c : Construct) (n : NodeId) :
    (t.add c).1.slot? n = if n = t.size then some { construct := c } else t.slot? n := by
  rw [slot?, add, Array.getElem?_push]
  rfl

@[simp] lemma size_add (c : Construct) : (t.add c).1.size = t.size + 1 := by
  simp [add, size]

lemma slot?_eq_none_iff {n : NodeId} : t.slot? n = none ↔ t.size ≤ n := by
  simp [slot?, size]

lemma lt_size_iff_slot? {n : NodeId} : n < t.size ↔ ∃ s, t.slot? n = some s := by
  rw [← Option.isSome_iff_exists, ← Nat.not_le, ← slot?_eq_none_iff, Option.isSome_iff_ne_none]

lemma exists_construct? {n : NodeId} (hn : n < t.size) : ∃ c, t.construct? n = some c := by
  obtain ⟨s, hs⟩ := t.lt_size_iff_slot?.mp hn
  exact ⟨s.construct, by rw [construct?, hs, Option.map_some]⟩

lemma lt_size_of_parent? {n p : NodeId} (h : t.parent? n = some p) : n < t.size := by
  rw [lt_size_iff_slot?]
  simp only [parent?, Option.bind_eq_some_iff] at h
  obtain ⟨s, hs, _⟩ := h
  exact ⟨s, hs⟩

lemma lt_size_of_mem_children {n c : NodeId} (h : c ∈ t.children n) : n < t.size := by
  by_contra hn
  have hs : t.slot? n = none := t.slot?_eq_none_iff.mpr (Nat.not_lt.mp hn)
  simp [children, hs] at h

lemma lt_size_of_isLive {n : NodeId} (h : t.isLive n = true) : n < t.size := by
  by_contra hn
  have hs : t.slot? n = none := t.slot?_eq_none_iff.mpr (Nat.not_lt.mp hn)
  simp [isLive, hs] at h

/-! ### Rows of parent links -/

@[simp] lemma setParents_nil (p : Option NodeId) : t.setParents [] p = t := rfl

lemma setParents_cons (id : NodeId) (ids : List NodeId) (p : Option NodeId) :
    t.setParents (id :: ids) p = (t.setParent id p).setParents ids p := rfl

/-- Every slot of the row gets the link; writing the same link twice is writing it once. -/
lemma slot?_setParents (ids : List NodeId) (p : Option NodeId) (n : NodeId) :
    (t.setParents ids p).slot? n =
      if n ∈ ids then (t.slot? n).map ({ · with parent := p }) else t.slot? n := by
  induction ids generalizing t with
  | nil => simp
  | cons id ids ih =>
    rw [setParents_cons, ih, setParent, slot?_modifySlot]
    by_cases hn : n = id
    · subst hn
      by_cases hm : n ∈ ids <;> simp [hm, Option.map_map, Function.comp_def]
    · simp [hn]

/-- What a row of changes of slots leaves alone a row of parent links leaves alone. -/
lemma setParents_preserves {α : Type} (view : Tree → α)
    (h : ∀ t id f, view (modifySlot t id f) = view t) (ids : List NodeId) (p : Option NodeId) :
    view (t.setParents ids p) = view t := by
  induction ids generalizing t with
  | nil => rfl
  | cons id ids ih => rw [setParents_cons, ih, setParent, h]

/-! ### One row of children with its links -/

/-- Gives `p` another row of children, links the nodes `new` to `p` and unlinks the nodes `out`. -/
def relink (p : NodeId) (row new out : List NodeId) : Tree :=
  ((t.setChildren p row).setParents new (some p)).setParents out none

section relink

variable (p : NodeId) (row new out : List NodeId)

lemma relink_preserves {α : Type} (view : Tree → α)
    (h : ∀ t id f, view (modifySlot t id f) = view t) :
    view (t.relink p row new out) = view t := by
  rw [relink, setParents_preserves _ view h, setParents_preserves _ view h, setChildren, h]

@[simp] lemma size_relink : (t.relink p row new out).size = t.size :=
  t.relink_preserves p row new out size size_modifySlot

@[simp] lemma root_relink : (t.relink p row new out).root = t.root :=
  t.relink_preserves p row new out Tree.root root_modifySlot

@[simp] lemma revision_relink : (t.relink p row new out).revision = t.revision :=
  t.relink_preserves p row new out Tree.revision revision_modifySlot

@[simp] lemma attributes_relink : (t.relink p row new out).attributes = t.attributes :=
  t.relink_preserves p row new out Tree.attributes attributes_modifySlot

@[simp] lemma origin_relink : (t.relink p row new out).origin = t.origin :=
  t.relink_preserves p row new out Tree.origin origin_modifySlot

lemma slot?_relink (n : NodeId) :
    (t.relink p row new out).slot? n = (t.slot? n).map fun s =>
      { s with
        children := if n = p then row else s.children
        parent := if n ∈ out then none else if n ∈ new then some p else s.parent } := by
  rw [relink, slot?_setParents, slot?_setParents, setChildren, slot?_modifySlot]
  cases t.slot? n with
  | none => simp
  | some s =>
    by_cases hp : n = p
    · subst hp
      by_cases hn : n ∈ new <;> by_cases ho : n ∈ out <;> simp [hn, ho]
    · by_cases hn : n ∈ new <;> by_cases ho : n ∈ out <;> simp [hp, hn, ho]

@[simp] lemma isLive_relink (n : NodeId) :
    (t.relink p row new out).isLive n = t.isLive n := by
  rw [isLive, slot?_relink, isLive, Option.any_map]

@[simp] lemma construct?_relink (n : NodeId) :
    (t.relink p row new out).construct? n = t.construct? n := by
  rw [construct?, slot?_relink, construct?, Option.map_map]
  rfl

lemma children_relink (hp : p < t.size) (n : NodeId) :
    (t.relink p row new out).children n = if n = p then row else t.children n := by
  rw [children, slot?_relink, children]
  by_cases hn : n = p
  · subst hn
    obtain ⟨s, hs⟩ := t.lt_size_iff_slot?.mp hp
    simp [hs]
  · simp [hn, Option.map_map, Function.comp_def]

lemma parent?_relink (n : NodeId) :
    (t.relink p row new out).parent? n =
      if n ∈ out then none else if n ∈ new ∧ n < t.size then some p else t.parent? n := by
  rw [parent?, slot?_relink, parent?]
  by_cases hn : n < t.size
  · obtain ⟨s, hs⟩ := t.lt_size_iff_slot?.mp hn
    by_cases ho : n ∈ out <;> by_cases hm : n ∈ new <;> simp [hs, ho, hm, hn]
  · have hs : t.slot? n = none := t.slot?_eq_none_iff.mpr (Nat.not_lt.mp hn)
    simp [hs, hn]

/-- Taking out the children unlinks them, and is a change unless there are none. -/
lemma takeChildren_cases {P : Tree → Prop} {id : NodeId}
    (hrow : t.children id = [] → P (t.relink id [] [] (t.children id)))
    (htouched : P (t.relink id [] [] (t.children id)).touch) : P (t.takeChildren id).1 := by
  show P (if (t.children id).isEmpty then t.relink id [] [] (t.children id)
    else (t.relink id [] [] (t.children id)).touch)
  split
  · next hnil => exact hrow (List.isEmpty_iff.mp hnil)
  · exact htouched

end relink

/-! ### Discarding -/

section discard

variable (ids : List NodeId)

lemma foldl_modifySlot_preserves {α : Type} (view : Tree → α)
    (h : ∀ t id f, view (modifySlot t id f) = view t) (f : Slot → Slot) :
    view (ids.foldl (fun t n => t.modifySlot n f) t) = view t := by
  induction ids generalizing t with
  | nil => rfl
  | cons id ids ih => rw [List.foldl_cons, ih, h]

lemma slot?_discard (id n : NodeId) :
    (t.discard id).slot? n = (t.slot? n).map fun s =>
      { s with live := if n ∈ t.descendants id then false else s.live } := by
  have key : ∀ (ids : List NodeId) (t : Tree),
      (ids.foldl (fun t n => t.modifySlot n ({ · with live := false })) t).slot? n =
        (t.slot? n).map fun s => { s with live := if n ∈ ids then false else s.live } := by
    intro ids
    induction ids with
    | nil => intro t; simp
    | cons m ids ih =>
      intro t
      rw [List.foldl_cons, ih, slot?_modifySlot]
      by_cases hm : n = m
      · simp [hm, Option.map_map, Function.comp_def]
      · simp [hm]
  rw [discard, slot?_mapAttributes, key]

@[simp] lemma size_discard (id : NodeId) : (t.discard id).size = t.size :=
  t.foldl_modifySlot_preserves _ size size_modifySlot _

@[simp] lemma root_discard (id : NodeId) : (t.discard id).root = t.root :=
  t.foldl_modifySlot_preserves _ Tree.root root_modifySlot _

@[simp] lemma revision_discard (id : NodeId) : (t.discard id).revision = t.revision :=
  t.foldl_modifySlot_preserves _ Tree.revision revision_modifySlot _

@[simp] lemma origin_discard (id : NodeId) : (t.discard id).origin = t.origin :=
  t.foldl_modifySlot_preserves _ Tree.origin origin_modifySlot _

lemma attributes_discard (id : NodeId) :
    (t.discard id).attributes = t.attributes.forget (t.descendants id) := by
  have h := t.foldl_modifySlot_preserves (t.descendants id) Tree.attributes
    attributes_modifySlot ({ · with live := false })
  exact congrArg (Attributes.forget · (t.descendants id)) h

@[simp] lemma children_discard (id n : NodeId) : (t.discard id).children n = t.children n := by
  rw [children, slot?_discard, children, Option.map_map]
  rfl

@[simp] lemma parent?_discard (id n : NodeId) : (t.discard id).parent? n = t.parent? n := by
  rw [parent?, slot?_discard, parent?, Option.bind_map]
  rfl

@[simp] lemma construct?_discard (id n : NodeId) :
    (t.discard id).construct? n = t.construct? n := by
  rw [construct?, slot?_discard, construct?, Option.map_map]
  rfl

lemma isLive_discard (id n : NodeId) :
    (t.discard id).isLive n = (t.isLive n && !decide (n ∈ t.descendants id)) := by
  rw [isLive, slot?_discard, isLive, Option.any_map]
  cases t.slot? n with
  | none => rfl
  | some s => by_cases hn : n ∈ t.descendants id <;> simp [hn]

end discard

end Tree

end CodeMigration
