import CodeMigration.Proofs.Tree.History

/-!
# Growth of the arena

Slots are added and never taken away, except by a rollback, and a node that has been discarded is
never in use again. This holds of every edit, on every tree, and along every row of commands that
starts with a checkpoint, whatever checkpoints the row opens and closes itself.
-/

namespace CodeMigration

namespace Tree

variable {t t' t'' : Tree}

/-- The arena has not become smaller, and nothing that was discarded is live. -/
structure Grown (t t' : Tree) : Prop where
  size_le : t.size ≤ t'.size
  live : ∀ n < t.size, t'.isLive n = true → t.isLive n = true

@[refl] lemma Grown.refl (t : Tree) : Grown t t := ⟨Nat.le_refl _, fun _ _ h => h⟩

lemma Grown.trans (h : Grown t t') (h' : Grown t' t'') : Grown t t'' where
  size_le := Nat.le_trans h.size_le h'.size_le
  live n hn hlive := h.live n hn (h'.live n (Nat.lt_of_lt_of_le hn h.size_le) hlive)

lemma Grown.of_slots (hslots : t'.slots = t.slots) : Grown t t' := by
  refine ⟨?_, fun n _ hlive => ?_⟩
  · rw [size, size, hslots]
  · rwa [isLive, slot?, hslots] at hlive

/-! ### Edits -/

lemma grown_modifySlot (t : Tree) (id : NodeId) {f : Slot → Slot}
    (hf : ∀ s, (f s).live = true → s.live = true) : Grown t (t.modifySlot id f) := by
  refine ⟨Nat.le_of_eq (t.size_modifySlot id f).symm, fun n _ hlive => ?_⟩
  rw [isLive, slot?_modifySlot, Option.any_eq_true] at hlive
  rw [isLive, Option.any_eq_true]
  obtain ⟨s, hs, hl⟩ := hlive
  split at hs
  · obtain ⟨old, hold, rfl⟩ := Option.map_eq_some_iff.mp hs
    exact ⟨old, hold, hf old hl⟩
  · exact ⟨s, hs, hl⟩

lemma grown_add (t : Tree) (c : Construct) : Grown t (t.add c).1 := by
  refine ⟨?_, fun n hn hlive => ?_⟩
  · rw [size_add]
    exact Nat.le_succ _
  · rwa [isLive, slot?_add, if_neg (Nat.ne_of_lt hn)] at hlive

lemma grown_foldl (t : Tree) (ids : List NodeId) {g : Tree → NodeId → Tree}
    (hg : ∀ t id, Grown t (g t id)) : Grown t (ids.foldl g t) := by
  induction ids generalizing t with
  | nil => exact Grown.refl t
  | cons id ids ih => exact (hg t id).trans (ih (g t id))

lemma grown_setChildren (t : Tree) (id : NodeId) (row : List NodeId) :
    Grown t (t.setChildren id row) := t.grown_modifySlot id fun _ h => h

lemma grown_setParent (t : Tree) (id : NodeId) (p : Option NodeId) : Grown t (t.setParent id p) :=
  t.grown_modifySlot id fun _ h => h

lemma grown_setParents (t : Tree) (ids : List NodeId) (p : Option NodeId) :
    Grown t (t.setParents ids p) := t.grown_foldl ids fun t id => t.grown_setParent id p

lemma grown_touch (t : Tree) : Grown t t.touch := Grown.of_slots rfl

lemma grown_mapAttributes (t : Tree) (f : Attributes → Attributes) :
    Grown t (t.mapAttributes f) := Grown.of_slots rfl

lemma grown_discard (t : Tree) (id : NodeId) : Grown t (t.discard id) := by
  rw [discard]
  refine Grown.trans ?_ (grown_mapAttributes _ _)
  exact t.grown_foldl _ fun t n => t.grown_modifySlot n fun _ h => by cases h

lemma grown_setConstruct (t : Tree) (id : NodeId) (c : Construct) : Grown t (t.setConstruct id c) :=
  (t.grown_touch.trans (grown_mapAttributes _ _)).trans (grown_modifySlot _ id fun _ h => h)

lemma grown_pushChild {p c : NodeId} (hok : t.pushChild p c = .ok t') : Grown t t' := by
  obtain ⟨_, _, hok⟩ := Edit.check_bind_eq_ok_iff.mp hok
  cases hok
  exact ((t.grown_setChildren p _).trans (grown_setParent _ c _)).trans (grown_touch _)

lemma grown_pushChildren (t : Tree) (p : NodeId) (children : List NodeId) :
    Grown t (t.pushChildren p children).1 :=
  pushChildren_induction (fun hgrown hok => hgrown.trans (grown_pushChild hok)) (Grown.refl t)
    children

lemma grown_insertChild {p c : NodeId} {i : Nat} (hok : t.insertChild p i c = .ok t') :
    Grown t t' := by
  obtain ⟨_, _, hok⟩ := Edit.check_bind_eq_ok_iff.mp hok
  dsimp only [Edit.result_get_bind] at hok
  split at hok
  · cases hok
  · cases hok
    exact ((t.grown_setChildren p _).trans (grown_setParent _ c _)).trans (grown_touch _)

lemma grown_detach {p c : NodeId} (hok : t.detach p c = .ok t') : Grown t t' := by
  obtain ⟨_, _, hok⟩ := Edit.check_bind_eq_ok_iff.mp hok
  cases hok
  exact ((t.grown_setChildren p _).trans (grown_setParent _ c _)).trans (grown_touch _)

lemma grown_removeChild {p c : NodeId} (hok : t.removeChild p c = .ok t') : Grown t t' := by
  rw [removeChild, Edit.removeChild, Edit.result_bind_modify] at hok
  obtain ⟨t₁, hdetach, hok⟩ := Except.bind_eq_ok_iff.mp hok
  cases hok
  exact (grown_detach hdetach).trans (t₁.grown_discard c)

lemma grown_replaceChild {p old new : NodeId} (hok : t.replaceChild p old new = .ok t') :
    Grown t t' := by
  obtain ⟨_, _, hok⟩ := Edit.check_bind_eq_ok_iff.mp hok
  obtain ⟨_, _, hok⟩ := Edit.check_bind_eq_ok_iff.mp hok
  rw [Edit.result_get_bind] at hok
  split at hok
  · cases hok
  · split at hok
    · cases hok
    · cases hok
      exact (((t.grown_setChildren p _).trans (grown_setParent _ new _)).trans
        (grown_setParent _ old _)).trans ((grown_discard _ old).trans (grown_touch _))

lemma grown_replace {old new : NodeId} (hok : t.replace old new = .ok t') : Grown t t' := by
  obtain ⟨_, _, hok⟩ := Edit.check_bind_eq_ok_iff.mp hok
  rw [Edit.result_get_bind] at hok
  split at hok
  · exact grown_replaceChild hok
  · split at hok
    · obtain ⟨_, _, hok⟩ := Edit.check_bind_eq_ok_iff.mp hok
      split at hok
      · cases hok
      · cases hok
        have hroot : Grown t { t with root := new } := Grown.of_slots rfl
        exact hroot.trans ((grown_discard _ old).trans (grown_touch _))
    · cases hok

lemma grown_replaceWithMany {old : NodeId} {new : List NodeId}
    (hok : t.replaceWithMany old new = .ok t') : Grown t t' := by
  rw [replaceWithMany, Edit.replaceWithMany, Edit.result_get_bind] at hok
  split at hok
  · cases hok
  · obtain ⟨_, _, hok⟩ := Edit.check_bind_eq_ok_iff.mp hok
    obtain ⟨_, _, hok⟩ := Edit.check_bind_eq_ok_iff.mp hok
    cases hok
    exact (((t.grown_setChildren _ _).trans (grown_setParents _ new _)).trans
      (grown_setParent _ old _)).trans ((grown_discard _ old).trans (grown_touch _))

lemma grown_takeChildren (t : Tree) (id : NodeId) : Grown t (t.takeChildren id).1 := by
  have hgrown := (t.grown_setChildren id []).trans (grown_setParents _ (t.children id) none)
  exact t.takeChildren_cases (fun _ => hgrown) (hgrown.trans (grown_touch _))

lemma Step.grown (hs : Step t t') : Grown t t' := by
  cases hs with
  | refused => exact Grown.refl t
  | add c => exact t.grown_add c
  | addWithChildren c children =>
    rw [addWithChildren_eq]
    exact (t.grown_add c).trans (grown_pushChildren _ _ children)
  | pushChild hok => exact grown_pushChild hok
  | insertChild hok => exact grown_insertChild hok
  | detach hok => exact grown_detach hok
  | removeChild hok => exact grown_removeChild hok
  | remove hok =>
    obtain ⟨_, ⟨p, _, hok⟩ | ⟨_, _, rfl⟩⟩ := remove_eq_ok_iff.mp hok
    · exact grown_removeChild hok
    · exact (t.grown_discard _).trans (grown_touch _)
  | replaceChild hok => exact grown_replaceChild hok
  | replace hok => exact grown_replace hok
  | replaceWithMany hok => exact grown_replaceWithMany hok
  | takeChildren => exact t.grown_takeChildren _
  | setConstruct _ c => exact t.grown_setConstruct _ c
  | setAttribute | removeAttribute | clearKey | forget => exact t.grown_mapAttributes _

/-! ### Rows of commands -/

lemma Edited.grown (he : Edited t t') : Grown t t' := by
  obtain ⟨cmds, hplain, rfl⟩ := he
  induction cmds generalizing t with
  | nil => exact Grown.refl t
  | cons c cmds ih =>
    have hc : Step t (c.run t).1 := step_run (hplain c List.mem_cons_self) t
    exact hc.grown.trans (ih fun d hd => hplain d (List.mem_cons_of_mem c hd))

/-- After a checkpoint and any commands the arena has grown, and so it has after undoing them. -/
lemma Sound.grown_runAll (hs : t.Sound) (cmds : List (Command NodeId)) :
    Grown t (Command.runAll t.checkpoint cmds) ∧
      Grown t (Command.runAll t.checkpoint cmds).rollback := by
  have hrun : ∀ cmds, Grown t (Command.runAll t.checkpoint cmds) := by
    intro cmds
    refine hs.checkpoint.runAll_preserves (fun {t' c} _ hc _ h => ?_) (fun h => ?_) (fun h => ?_)
      (.of_slots rfl) fun _ => ?_
    · exact h.trans (step_run hc t').grown
    · exact h.trans (.of_slots rfl)
    · exact h.trans (.of_slots rfl)
    · rw [rollback_checkpoint]
      exact .of_slots rfl
  refine ⟨hrun cmds, ?_⟩
  have hback := hrun (cmds ++ [.rollback])
  rwa [Command.runAll_append] at hback

end Tree

end CodeMigration
