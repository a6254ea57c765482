import CodeMigration.Proofs.Attributes
import CodeMigration.Proofs.Tree.Edits

/-!
# Undoing edits

While a checkpoint is open, every edit enters a slot into the journal before it changes it for the
first time. So what `rollback` gives back does not depend on the edits made since: from any two
states with the same open checkpoint it gives back the same tree (`Tree.Recorded`).
-/

namespace CodeMigration

/-! ### Slots of a journal -/

namespace Journal

variable (j : Journal)

@[simp] lemma size_save (id : NodeId) (old : Slot) : (j.save id old).size = j.size := by
  rw [save]
  split <;> rfl

@[simp] lemma root_save (id : NodeId) (old : Slot) : (j.save id old).root = j.root := by
  rw [save]
  split <;> rfl

@[simp] lemma revision_save (id : NodeId) (old : Slot) :
    (j.save id old).revision = j.revision := by
  rw [save]
  split <;> rfl

lemma getElem?_restore (slots : Array Slot) (n : NodeId) :
    (j.restore slots)[n]? =
      if n < j.size then slots[n]?.map fun s => j.saved[n]?.getD s else none := by
  rw [restore, Array.getElem?_mapIdx, Array.take, Array.getElem?_extract]
  by_cases hn : n < j.size
  · by_cases hs : n < slots.size
    · simp [hn, hs]
    · simp [hn, hs]
  · simp [hn]

/-- A slot that has been entered before it is changed comes back. -/
lemma restore_save {slots : Array Slot} {id : NodeId} {old : Slot} (f : Slot → Slot)
    (h : slots[id]? = some old) :
    (j.save id old).restore (slots.modify id f) = j.restore slots := by
  apply Array.ext_getElem?
  intro n
  rw [getElem?_restore, getElem?_restore, size_save, Array.getElem?_modify, save]
  by_cases hn : n < j.size
  · rw [if_pos hn, if_pos hn]
    by_cases hid : id = n
    · subst hid
      rw [if_pos rfl, h, Std.ExtTreeMap.contains_eq_isSome_getElem?]
      cases hj : j.saved[id]? with
      | none => simp [hn]
      | some s => simp [hj]
    · rw [if_neg hid]
      split
      · simp [hid, Std.ExtTreeMap.getElem?_insert]
      · rfl
  · rw [if_neg hn, if_neg hn]

lemma restore_push {slots : Array Slot} (h : j.size ≤ slots.size) (s : Slot) :
    j.restore (slots.push s) = j.restore slots := by
  apply Array.ext_getElem?
  intro n
  rw [getElem?_restore, getElem?_restore, Array.getElem?_push]
  by_cases hn : n < j.size
  · rw [if_pos hn, if_pos hn, if_neg (by omega)]
  · rw [if_neg hn, if_neg hn]

end Journal

namespace Tree

/-! ### Recorded changes -/

/-- Both journals are open or none is, and the slots at the checkpoint are still in the arena. -/
structure Journaled (t : Tree) : Prop where
  tidy : t.attributes.Tidy
  isSome_eq : t.attributes.journal.isSome = t.journal.isSome
  size_le : ∀ j, t.journal = some j → j.size ≤ t.size

/-- While a checkpoint is open, the same tree comes back from `t'` as from `t`. -/
def Recorded (t t' : Tree) : Prop :=
  t.Journaled → t'.Journaled ∧ t'.journal.isSome = t.journal.isSome ∧
    (t.journal.isSome = true → t'.rollback = t.rollback)

@[refl] lemma Recorded.refl (t : Tree) : Recorded t t := fun h => ⟨h, rfl, fun _ => rfl⟩

variable {t t' t'' : Tree}

lemma Recorded.trans (h : Recorded t t') (h' : Recorded t' t'') : Recorded t t'' := by
  intro ht
  obtain ⟨ht', hopen, hback⟩ := h ht
  obtain ⟨ht'', hopen', hback'⟩ := h' ht'
  refine ⟨ht'', hopen'.trans hopen, fun hj => ?_⟩
  rw [hback' (hopen.trans hj), hback hj]

lemma rollback_of_journal {j : Journal} (h : t.journal = some j) :
    t.rollback = { t with
      slots := j.restore t.slots, root := j.root, revision := j.revision,
      attributes := t.attributes.rollback, journal := none } := by
  rw [rollback, h]

/-- Changes of slots that the journal allows for, and recorded changes of attributes. -/
lemma recorded_of_journal (hsize : t.size ≤ t'.size) (horigin : t'.origin = t.origin)
    (hattr : Attributes.Recorded t.attributes t'.attributes)
    (hnone : t.journal = none → t'.journal = none)
    (hsome : ∀ j, t.journal = some j → j.size ≤ t.size → ∃ j', t'.journal = some j' ∧
      j'.size = j.size ∧ j'.root = j.root ∧ j'.revision = j.revision ∧
      j'.restore t'.slots = j.restore t.slots) : Recorded t t' := by
  intro ht
  obtain ⟨htidy, hopen, hback⟩ := hattr ht.tidy
  cases hj : t.journal with
  | none =>
    have hj' := hnone hj
    refine ⟨⟨htidy, ?_, fun j' h => by simp [hj'] at h⟩, by rw [hj'], fun h => by simp at h⟩
    rw [hopen, ht.isSome_eq, hj, hj']
  | some j =>
    obtain ⟨j', hj', hs, hr, hv, hrestore⟩ := hsome j hj (ht.size_le j hj)
    refine ⟨⟨htidy, ?_, fun j'' h => ?_⟩, by rw [hj']; rfl, fun _ => ?_⟩
    · rw [hopen, ht.isSome_eq, hj, hj']
      rfl
    · obtain rfl : j' = j'' := Option.some.inj (hj'.symm.trans h)
      rw [hs]
      exact (ht.size_le j hj).trans hsize
    · have hattr' := hback (by rw [ht.isSome_eq, hj]; rfl)
      rw [rollback_of_journal hj', rollback_of_journal hj, hrestore, hr, hv, hattr', horigin]

lemma recorded_modifySlot (t : Tree) (id : NodeId) (f : Slot → Slot) :
    Recorded t (t.modifySlot id f) := by
  cases hs : t.slot? id with
  | none =>
    rw [modifySlot, hs]
  | some old =>
    have hmod : t.modifySlot id f = { t with
        slots := t.slots.modify id f, journal := t.journal.map (·.save id old) } := by
      rw [modifySlot, hs]
    refine recorded_of_journal (by simp) (by simp) ?_ (fun hj => ?_) fun j hj _ => ?_
    · rw [attributes_modifySlot]
      exact Attributes.Recorded.refl _
    · rw [hmod, hj]
      rfl
    · rw [hmod, hj]
      refine ⟨j.save id old, rfl, ?_, ?_, ?_, j.restore_save f hs⟩
      · exact j.size_save id old
      · exact j.root_save id old
      · exact j.revision_save id old

lemma recorded_touch (t : Tree) : Recorded t t.touch :=
  recorded_of_journal (Nat.le_refl _) rfl (Attributes.Recorded.refl _) id
    fun j hj _ => ⟨j, hj, rfl, rfl, rfl, rfl⟩

lemma recorded_withRoot (t : Tree) (root : NodeId) : Recorded t { t with root } :=
  recorded_of_journal (Nat.le_refl _) rfl (Attributes.Recorded.refl _) id
    fun j hj _ => ⟨j, hj, rfl, rfl, rfl, rfl⟩

lemma recorded_mapAttributes (t : Tree) {f : Attributes → Attributes}
    (hf : Attributes.Recorded t.attributes (f t.attributes)) : Recorded t (t.mapAttributes f) :=
  recorded_of_journal (Nat.le_refl _) rfl hf id fun j hj _ => ⟨j, hj, rfl, rfl, rfl, rfl⟩

lemma recorded_add (t : Tree) (c : Construct) : Recorded t (t.add c).1 :=
  recorded_of_journal (by simp) rfl (Attributes.Recorded.refl _) id
    fun j hj hle => ⟨j, hj, rfl, rfl, rfl, j.restore_push hle _⟩

lemma recorded_foldl (t : Tree) (ids : List NodeId) (g : Tree → NodeId → Tree)
    (hg : ∀ t id, Recorded t (g t id)) : Recorded t (ids.foldl g t) := by
  induction ids generalizing t with
  | nil => exact Recorded.refl t
  | cons id ids ih => exact (hg t id).trans (ih (g t id))

lemma recorded_relink (t : Tree) (p : NodeId) (row new out : List NodeId) :
    Recorded t (t.relink p row new out) := by
  have hrow : Recorded t (t.setChildren p row) := recorded_modifySlot t p _
  have hparents : ∀ (t : Tree) (ids : List NodeId) (q : Option NodeId),
      Recorded t (t.setParents ids q) := by
    intro t ids q
    exact recorded_foldl t ids (fun t id => t.setParent id q) fun t id =>
      recorded_modifySlot t id _
  exact (hrow.trans (hparents _ new (some p))).trans (hparents _ out none)

lemma recorded_discard (t : Tree) (id : NodeId) : Recorded t (t.discard id) := by
  rw [discard]
  have hslots := recorded_foldl t (t.descendants id)
    (fun t n => t.modifySlot n ({ · with live := false })) fun t n => recorded_modifySlot t n _
  refine hslots.trans ?_
  exact recorded_mapAttributes _ (Attributes.recorded_forget _ _)

lemma recorded_setConstruct (t : Tree) (id : NodeId) (c : Construct) :
    Recorded t (t.setConstruct id c) := by
  rw [setConstruct]
  refine ((recorded_touch t).trans ?_).trans (recorded_modifySlot _ id _)
  exact recorded_mapAttributes _ (Attributes.recorded_erase _ _ _)

lemma recorded_takeChildren (t : Tree) (id : NodeId) : Recorded t (t.takeChildren id).1 := by
  have hrelink : Recorded t (t.relink id [] [] (t.children id)) := recorded_relink t id _ _ _
  exact t.takeChildren_cases (fun _ => hrelink) (hrelink.trans (recorded_touch _))

/-! ### Edits that may be refused -/

section edits

variable (h : t.WellLinked)
include h

lemma recorded_pushChild {p c : NodeId} (hok : t.pushChild p c = .ok t') : Recorded t t' := by
  obtain ⟨_, rfl⟩ := (pushChild_eq_ok_iff h).mp hok
  exact (recorded_relink t p _ _ _).trans (recorded_touch _)

lemma recorded_insertChild {p c : NodeId} {i : Nat} (hok : t.insertChild p i c = .ok t') :
    Recorded t t' := by
  obtain ⟨_, _, rfl⟩ := (insertChild_eq_ok_iff h).mp hok
  exact (recorded_relink t p _ _ _).trans (recorded_touch _)

lemma recorded_detach {p c : NodeId} (hok : t.detach p c = .ok t') : Recorded t t' := by
  obtain ⟨_, _, rfl⟩ := (detach_eq_ok_iff h).mp hok
  exact (recorded_relink t p _ _ _).trans (recorded_touch _)

lemma recorded_removeChild {p c : NodeId} (hok : t.removeChild p c = .ok t') :
    Recorded t t' := by
  obtain ⟨_, _, rfl⟩ := (removeChild_eq_ok_iff h).mp hok
  exact ((recorded_relink t p _ _ _).trans (recorded_touch _)).trans (recorded_discard _ c)

lemma recorded_remove {id : NodeId} (hok : t.remove id = .ok t') : Recorded t t' := by
  obtain ⟨_, ⟨p, _, hok⟩ | ⟨_, _, rfl⟩⟩ := remove_eq_ok_iff.mp hok
  · exact recorded_removeChild h hok
  · exact (recorded_discard t id).trans (recorded_touch _)

lemma recorded_replaceChild {p old new : NodeId} (hok : t.replaceChild p old new = .ok t') :
    Recorded t t' := by
  obtain ⟨_, _, _, rfl⟩ := (replaceChild_eq_ok_iff h).mp hok
  exact ((recorded_relink t p _ _ _).trans (recorded_discard _ old)).trans (recorded_touch _)

lemma recorded_replace {old new : NodeId} (hok : t.replace old new = .ok t') :
    Recorded t t' := by
  obtain ⟨_, ⟨p, _, hok⟩ | ⟨_, _, _, _, _, rfl⟩⟩ := (replace_eq_ok_iff h).mp hok
  · exact recorded_replaceChild h hok
  · exact ((recorded_withRoot t new).trans (recorded_discard _ old)).trans (recorded_touch _)

lemma recorded_replaceWithMany {old : NodeId} {new : List NodeId}
    (hok : t.replaceWithMany old new = .ok t') : Recorded t t' := by
  obtain ⟨p, _, _, _, _, rfl⟩ := (replaceWithMany_eq_ok_iff h).mp hok
  exact ((recorded_relink t p _ _ _).trans (recorded_discard _ old)).trans (recorded_touch _)

lemma recorded_pushChildren {p : NodeId} {children : List NodeId} :
    Recorded t (t.pushChildren p children).1 := by
  refine (pushChildren_induction (P := fun t' => t'.WellLinked ∧ Recorded t t') ?_
    ⟨h, Recorded.refl t⟩ children).2
  intro t₁ t₂ c ⟨h₁, hrecorded⟩ hok
  exact ⟨h₁.pushChild hok, hrecorded.trans (recorded_pushChild h₁ hok)⟩

lemma recorded_addWithChildren (c : Construct) (children : List NodeId) :
    Recorded t (t.addWithChildren c children).1 := by
  rw [addWithChildren_eq]
  exact (recorded_add t c).trans (recorded_pushChildren (h.add c))

end edits

/-! ### Checkpoints -/

lemma Journaled.checkpoint (h : t.Journaled) : t.checkpoint.Journaled := by
  refine ⟨h.tidy.checkpoint, rfl, fun j hj => ?_⟩
  obtain rfl : _ = j := Option.some.inj hj
  exact Nat.le_refl t.size

lemma Journaled.commit (h : t.Journaled) : t.commit.Journaled :=
  ⟨h.tidy.commit, rfl, fun j hj => by simp [Tree.commit] at hj⟩

lemma Journaled.rollback (h : t.Journaled) : t.rollback.Journaled := by
  cases hj : t.journal with
  | none => rwa [Tree.rollback, hj]
  | some j =>
    have hopen : t.attributes.journal.isSome = true := by
      rw [h.isSome_eq, hj]
      rfl
    rw [rollback_of_journal hj]
    refine ⟨h.tidy.rollback, ?_, fun j hj => by simp at hj⟩
    rw [Attributes.journal_rollback hopen]
    rfl

/-- Right after a checkpoint there is nothing to undo. -/
lemma rollback_checkpoint (t : Tree) : t.checkpoint.rollback = t.commit := by
  have hslots : ({ size := t.size, root := t.root, revision := t.revision } : Journal).restore
      t.slots = t.slots := by
    apply Array.ext_getElem?
    intro n
    rw [Journal.getElem?_restore]
    by_cases hn : n < t.size
    · simp [hn]
    · rw [if_neg hn]
      exact (t.slot?_eq_none_iff.mpr (Nat.not_lt.mp hn)).symm
  rw [rollback_of_journal (t := t.checkpoint) rfl]
  show ({ t with slots := _, attributes := _, journal := none } : Tree) = _
  rw [commit]
  congr 1
  exact Attributes.rollback_checkpoint

end Tree

end CodeMigration
