import CodeMigration.Proofs.Tree.Revision

/-!
# Frames

What an edit below a node leaves alone: `Frame` for the links of the other nodes, `Fades` for what
live nodes stand for.
-/

namespace CodeMigration

namespace Tree

variable {t t' t'' : Tree} {n m : NodeId}

/-! ### Links outside a subtree -/

/-- Nothing outside the subtree of `n` was moved. -/
structure Frame (t : Tree) (n : NodeId) (t' : Tree) : Prop where
  root : t'.root = t.root
  size_le : t.size ≤ t'.size
  parent? : ∀ m < t.size, ¬ t.Reaches n m → t'.parent? m = t.parent? m

lemma Kept.frame (h : Kept t t') (n : NodeId) : Frame t n t' :=
  ⟨h.root, h.size_le, fun _ hm _ => h.parent? hm⟩

/-- The way up from a node outside the subtree stays the same. -/
lemma Frame.reaches_same (ht : t.WellLinked) (h : Frame t n t') (hm : m < t.size)
    (hout : ¬ t.Reaches n m) {a : NodeId} : t'.Reaches a m ↔ t.Reaches a m := by
  induction m using ht.wellFounded.induction with
  | _ m ih =>
    have hstep : ∀ p, t.Link p m → (t'.Reaches a p ↔ t.Reaches a p) := by
      intro p hp
      exact ih p hp (ht.link_lt hp).1 fun hn => hout (hn.trans hp.reaches)
    have hlink : ∀ p, t'.Link p m ↔ t.Link p m := by
      intro p
      rw [Link, Link, h.parent? m hm hout]
    rw [reaches_iff, reaches_iff (t := t)]
    constructor
    · rintro (rfl | ⟨p, hp, hap⟩)
      · exact Or.inl rfl
      · exact Or.inr ⟨p, (hlink p).mp hp, (hstep p ((hlink p).mp hp)).mp hap⟩
    · rintro (rfl | ⟨p, hp, hap⟩)
      · exact Or.inl rfl
      · exact Or.inr ⟨p, (hlink p).mpr hp, (hstep p hp).mpr hap⟩

/-- Edits below the same node, or below one that was allocated in its place. -/
lemma Frame.trans (ht : t.WellLinked) (h : Frame t n t') {n' : NodeId}
    (hn' : n' = n ∨ t.size ≤ n') (h' : Frame t' n' t'') : Frame t n t'' := by
  refine ⟨h'.root.trans h.root, Nat.le_trans h.size_le h'.size_le, fun m hm hout => ?_⟩
  rw [h'.parent? m (Nat.lt_of_lt_of_le hm h.size_le), h.parent? m hm hout]
  rw [h.reaches_same ht hm hout]
  rcases hn' with rfl | hfresh
  · exact hout
  · intro hreach
    exact absurd (ht.lt_size_of_above hreach hm) (Nat.not_lt.mpr hfresh)

lemma Frame.mono {c : NodeId} (h : Frame t c t') (hc : t.Reaches n c) : Frame t n t' :=
  ⟨h.root, h.size_le, fun m hm hout => h.parent? m hm fun hcm => hout (hc.trans hcm)⟩

/-- A node that keeps its parent stays attached. -/
lemma Frame.attached (ht : t.WellLinked) (h : Frame t n t') (hn : t.Reaches t.root n)
    (hplace : t'.parent? n = t.parent? n) : t'.Reaches t'.root n := by
  rw [h.root]
  rcases reaches_iff.mp hn with hroot | ⟨p, hp, hrp⟩
  · exact hroot ▸ Reaches.refl t.root
  · have hlink : t'.Link p n := hplace.trans hp
    refine Reaches.trans ?_ hlink.reaches
    exact (h.reaches_same ht (ht.link_lt hp).1 (ht.not_reaches_of_link hp)).mpr hrp

lemma Kept.attached (ht : t.WellLinked) (h : Kept t t') (hn : t.Reaches t.root n) :
    t'.Reaches t'.root n :=
  (h.frame n).attached ht hn (h.parent? (ht.lt_size_of_reaches hn))

/-! ### Live nodes -/

/-- Nothing came to life, and every live node stands for what it stood for. -/
def Fades (t t' : Tree) : Prop :=
  ∀ n, t'.isLive n = true → t.isLive n = true ∧ t'.construct? n = t.construct? n ∧
    ∀ key, t.attributes.flag n key = true → t'.attributes.flag n key = true

lemma Fades.trans (h : Fades t t') (h' : Fades t' t'') : Fades t t'' := by
  intro n hn
  obtain ⟨hlive', hsame', hflag'⟩ := h' n hn
  obtain ⟨hlive, hsame, hflag⟩ := h n hlive'
  exact ⟨hlive, hsame'.trans hsame, fun key hf => hflag' key (hflag key hf)⟩

lemma fades_checkpoint (t : Tree) : Fades t t.checkpoint := fun _ hn => ⟨hn, rfl, fun _ hf => hf⟩

lemma fades_commit (t : Tree) : Fades t t.commit := fun _ hn => ⟨hn, rfl, fun _ hf => hf⟩

lemma fades_touch (t : Tree) : Fades t t.touch := fun _ hn => ⟨hn, rfl, fun _ hf => hf⟩

lemma fades_relink (t : Tree) (p : NodeId) (row new out : List NodeId) :
    Fades t (t.relink p row new out) := by
  intro n hn
  rw [isLive_relink] at hn
  exact ⟨hn, construct?_relink t p row new out n, fun key hf => by rwa [attributes_relink]⟩

lemma fades_discard (t : Tree) (id : NodeId) : Fades t (t.discard id) := by
  intro n hn
  rw [isLive_discard, Bool.and_eq_true] at hn
  refine ⟨hn.1, construct?_discard t id n, fun key hf => ?_⟩
  rw [attributes_discard]
  exact Attributes.flag_forget _ _ (by simpa using hn.2) hf

/-- Flags are only set. -/
lemma fades_setFlag (t : Tree) (n : NodeId) (key : AttributeKey) :
    Fades t (t.setAttribute n key (.flag true)) := by
  refine fun m hm => ⟨hm, rfl, fun key' hf => ?_⟩
  show (t.attributes.set n key (.flag true)).flag m key' = true
  rw [Attributes.flag, Attributes.get?_set]
  split
  · rfl
  · exact hf

/-! ### Constructs -/

lemma construct?_setConstruct (t : Tree) (id : NodeId) (c : Construct) (m : NodeId) :
    (t.setConstruct id c).construct? m =
      if m = id then (t.construct? m).map fun _ => c else t.construct? m := by
  rw [construct?, slot?_setConstruct, construct?]
  split
  · cases t.slot? m <;> rfl
  · rfl

lemma flag_setConstruct (ht : t.Sound) (id : NodeId) (c : Construct) (m : NodeId)
    {key : AttributeKey} (hkey : key ≠ .resolvedType) :
    (t.setConstruct id c).attributes.flag m key = t.attributes.flag m key := by
  rw [setConstruct, attributes_modifySlot]
  show (t.attributes.erase id .resolvedType).flag m key = _
  rw [Attributes.flag, ht.distinct.get?_erase, if_neg fun h => hkey h.2, Attributes.flag]

/-! ### Moves -/

/-- An edit that gives the node `c` the parent `q` and moves nothing else. -/
structure Moved (t : Tree) (c : NodeId) (q : Option NodeId) (t' : Tree) : Prop where
  edited : Edited t t'
  root : t'.root = t.root
  size : t'.size = t.size
  parent? : ∀ m, t'.parent? m = if m = c then q else t.parent? m
  construct? : ∀ m, t'.construct? m = t.construct? m
  fades : Fades t t'

lemma Moved.frame {c : NodeId} {q : Option NodeId} (h : Moved t c q t') (hc : t.Reaches n c) :
    Frame t n t' := by
  refine ⟨h.root, Nat.le_of_eq h.size.symm, fun m _ hout => ?_⟩
  rw [h.parent?, if_neg]
  rintro rfl
  exact hout hc

lemma parent?_attach {p c : NodeId} (hc : c < t.size) (row : List NodeId) (m : NodeId) :
    (t.relink p row [c] []).parent? m = if m = c then some p else t.parent? m := by
  rw [parent?_relink]
  by_cases hm : m = c
  · simp [hm, hc]
  · simp [hm]

section moves

variable (ht : t.WellLinked) {p c : NodeId}
include ht

lemma exists_detach (hlink : t.Link p c) (hlive : t.isLive c = true) :
    ∃ t', t.detach p c = .ok t' ∧ Moved t c none t' ∧ ∀ m, t'.isLive m = t.isLive m := by
  have hok := (detach_eq_ok_iff ht).mpr ⟨hlive, hlink, rfl⟩
  have hedited := t.edited_run (.detach p c) rfl
  rw [Command.run, Command.settle_of_ok _ hok] at hedited
  refine ⟨_, hok, ⟨hedited, root_relink .., size_relink .., fun m => ?_,
    construct?_relink _ _ _ _ _, ?_⟩, isLive_relink _ _ _ _ _⟩
  · show (t.relink p _ [] [c]).parent? m = _
    simp [parent?_relink]
  · exact (fades_relink t _ _ _ _).trans (fades_touch _)

lemma exists_removeChild (hlink : t.Link p c) (hlive : t.isLive c = true) :
    ∃ t', t.removeChild p c = .ok t' ∧ Moved t c none t' ∧
      ∀ m, ¬ t.Reaches c m → t'.isLive m = t.isLive m := by
  have hok := (removeChild_eq_ok_iff ht).mpr ⟨hlive, hlink, rfl⟩
  have hedited := t.edited_run (.removeChild p c) rfl
  rw [Command.run, Command.settle_of_ok _ hok] at hedited
  refine ⟨_, hok, ⟨hedited, ?_, ?_, fun m => ?_, fun m => ?_, ?_⟩, fun m hm => ?_⟩
  · rw [root_discard]
    exact root_relink ..
  · rw [size_discard]
    exact size_relink ..
  · rw [parent?_discard]
    show (t.relink p _ [] [c]).parent? m = _
    simp [parent?_relink]
  · rw [construct?_discard, construct?_touch, construct?_relink]
  · exact ((fades_relink t _ _ _ _).trans (fades_touch _)).trans (fades_discard _ c)
  · -- what hangs below the node when it is discarded hung below it before
    have hcut : (t.relink p (splice (t.children p) c []) [] [c]).touch.WellLinked :=
      (ht.spliceChild hlink hlive List.nodup_nil (by simp)).touch
    have hnot : m ∉ (t.relink p (splice (t.children p) c []) [] [c]).touch.descendants c := by
      rw [hcut.mem_descendants_iff]
      refine fun hreach => hm (Relation.ReflTransGen.mono (fun q d hd => ?_) c m hreach)
      have hd' : (t.relink p (splice (t.children p) c []) [] [c]).Link q d := hd
      rw [WellLinked.link_relink_iff (by simpa using hlink) (by simp)] at hd'
      simpa using (hd'.resolve_left (by simp)).1
    rw [isLive_discard, decide_eq_false hnot, Bool.not_false, Bool.and_true]
    exact isLive_relink ..

lemma exists_pushChild (hc : t.Attachable p c) :
    ∃ t', t.pushChild p c = .ok t' ∧ Moved t c (some p) t' ∧ ∀ m, t'.isLive m = t.isLive m := by
  have hok := (pushChild_eq_ok_iff ht).mpr ⟨hc, rfl⟩
  refine ⟨_, hok, ⟨edited_pushChild hok, root_relink .., size_relink .., fun m => ?_,
    construct?_relink _ _ _ _ _, ?_⟩, isLive_relink _ _ _ _ _⟩
  · exact parent?_attach (t.lt_size_of_isLive hc.live) _ m
  · exact (fades_relink t _ _ _ _).trans (fades_touch _)

lemma exists_insertChild (hc : t.Attachable p c) :
    ∃ t', t.insertChild p 0 c = .ok t' ∧ Moved t c (some p) t' ∧
      ∀ m, t'.isLive m = t.isLive m := by
  have hok := (insertChild_eq_ok_iff ht (i := 0)).mpr ⟨hc, Nat.zero_le _, rfl⟩
  have hedited := t.edited_run (.insertChild p 0 c) rfl
  rw [Command.run, Command.settle_of_ok _ hok] at hedited
  refine ⟨_, hok, ⟨hedited, root_relink .., size_relink .., fun m => ?_,
    construct?_relink _ _ _ _ _, ?_⟩, isLive_relink _ _ _ _ _⟩
  · exact parent?_attach (t.lt_size_of_isLive hc.live) _ m
  · exact (fades_relink t _ _ _ _).trans (fades_touch _)

/-- A free node takes the place of a child, which goes with everything below it. -/
lemma exists_replace {old new : NodeId} (hlink : t.Link p old) (hlive : t.isLive old = true)
    (hnew : t.Attachable p new) :
    ∃ t', t.replace old new = .ok t' ∧ Edited t t' ∧ t'.root = t.root ∧ t'.size = t.size ∧
      Fades t t' ∧ ∀ m, t'.parent? m =
        if m = old then none else if m = new then some p else t.parent? m := by
  have hchild := (replaceChild_eq_ok_iff ht).mpr ⟨hlive, hlink, hnew, rfl⟩
  have hok := (replace_eq_ok_iff ht).mpr ⟨hlive, Or.inl ⟨p, hlink, hchild⟩⟩
  have hedited := t.edited_run (.replace old new) rfl
  rw [Command.run, Command.settle_of_ok _ hok] at hedited
  refine ⟨_, hok, hedited, ?_, ?_, ?_, fun m => ?_⟩
  · rw [root_touch, root_discard, root_relink]
  · rw [size_touch, size_discard, size_relink]
  · exact ((fades_relink t _ _ _ _).trans (fades_discard _ old)).trans (fades_touch _)
  · rw [parent?_touch, parent?_discard, parent?_relink]
    by_cases hm : m = new
    · simp [hm, t.lt_size_of_isLive hnew.live]
    · simp [hm]

end moves

end Tree

end CodeMigration
