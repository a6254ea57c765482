import CodeMigration.Proofs.Tree.History

/-!
# The revision of a tree

Every edit of slots that were there before counts up the revision, so a tree of the same revision
is the same tree, up to its attributes and nodes that were allocated since.
-/

namespace CodeMigration

namespace Tree

variable {t t' t'' : Tree}

/-- `t'` has the slots of `t`, and perhaps more. -/
structure Kept (t t' : Tree) : Prop where
  root : t'.root = t.root
  revision : t'.revision = t.revision
  origin : t'.origin = t.origin
  size_le : t.size ≤ t'.size
  slot : ∀ n < t.size, t'.slot? n = t.slot? n

lemma Kept.of_slots (hroot : t'.root = t.root) (hrevision : t'.revision = t.revision)
    (horigin : t'.origin = t.origin) (hslots : t'.slots = t.slots) : Kept t t' := by
  refine ⟨hroot, hrevision, horigin, ?_, fun n _ => ?_⟩
  · rw [size, size, hslots]
  · rw [slot?, slot?, hslots]

lemma Kept.refl (t : Tree) : Kept t t := Kept.of_slots rfl rfl rfl rfl

lemma Kept.trans (h : Kept t t') (h' : Kept t' t'') : Kept t t'' where
  root := h'.root.trans h.root
  revision := h'.revision.trans h.revision
  origin := h'.origin.trans h.origin
  size_le := Nat.le_trans h.size_le h'.size_le
  slot n hn := (h'.slot n (Nat.lt_of_lt_of_le hn h.size_le)).trans (h.slot n hn)

namespace Kept

variable (h : Kept t t') {n : NodeId} (hn : n < t.size)
include h hn

lemma children : t'.children n = t.children n := by rw [Tree.children, h.slot n hn, Tree.children]

lemma parent? : t'.parent? n = t.parent? n := by rw [Tree.parent?, h.slot n hn, Tree.parent?]

lemma isLive : t'.isLive n = t.isLive n := by rw [Tree.isLive, h.slot n hn, Tree.isLive]

lemma construct? : t'.construct? n = t.construct? n := by
  rw [Tree.construct?, h.slot n hn, Tree.construct?]

lemma kind? : t'.kind? n = t.kind? n := by rw [Tree.kind?, h.construct? hn, Tree.kind?]

end Kept

/-- The revision does not go down, and when it stays the slots are kept. -/
def Counted (t t' : Tree) : Prop :=
  t.revision ≤ t'.revision ∧ (t'.revision = t.revision → Kept t t')

lemma Kept.counted (h : Kept t t') : Counted t t' := ⟨Nat.le_of_eq h.revision.symm, fun _ => h⟩

lemma Counted.of_lt (h : t.revision < t'.revision) : Counted t t' :=
  ⟨Nat.le_of_lt h, fun heq => absurd heq (Nat.ne_of_gt h)⟩

lemma Counted.refl (t : Tree) : Counted t t := (Kept.refl t).counted

lemma Counted.trans (h : Counted t t') (h' : Counted t' t'') : Counted t t'' := by
  refine ⟨Nat.le_trans h.1 h'.1, fun heq => ?_⟩
  have hmid : t'.revision = t.revision := Nat.le_antisymm (heq ▸ h'.1) h.1
  exact (h.2 hmid).trans (h'.2 (heq.trans hmid.symm))

/-! ### What counts -/

lemma kept_add (t : Tree) (c : Construct) : Kept t (t.add c).1 := by
  refine ⟨rfl, rfl, rfl, ?_, fun n hn => ?_⟩
  · rw [size_add]
    exact Nat.le_succ _
  · rw [slot?_add, if_neg (Nat.ne_of_lt hn)]

lemma kept_mapAttributes (t : Tree) (f : Attributes → Attributes) : Kept t (t.mapAttributes f) :=
  Kept.of_slots rfl rfl rfl rfl

lemma kept_checkpoint (t : Tree) : Kept t t.checkpoint := Kept.of_slots rfl rfl rfl rfl

lemma kept_commit (t : Tree) : Kept t t.commit := Kept.of_slots rfl rfl rfl rfl

lemma counted_pushChild (h : t.WellLinked) {p c : NodeId} (hok : t.pushChild p c = .ok t') :
    Counted t t' := by
  obtain ⟨_, rfl⟩ := (pushChild_eq_ok_iff h).mp hok
  exact Counted.of_lt (by simp [touch])

lemma counted_pushChildren (h : t.WellLinked) {p : NodeId} {children : List NodeId} :
    Counted t (t.pushChildren p children).1 := by
  refine (pushChildren_induction (P := fun t' => t'.WellLinked ∧ Counted t t') ?_
    ⟨h, Counted.refl t⟩ children).2
  intro t₁ t₂ c ⟨h₁, hcounted⟩ hok
  exact ⟨h₁.pushChild hok, hcounted.trans (counted_pushChild h₁ hok)⟩

/-- Taking the children of a node that has none does nothing. -/
lemma counted_takeChildren (t : Tree) (id : NodeId) : Counted t (t.takeChildren id).1 := by
  refine t.takeChildren_cases (fun hnil => ?_) (Counted.of_lt (by simp [touch]))
  refine Kept.counted ⟨by simp, by simp, by simp, by simp, fun n _ => ?_⟩
  rw [slot?_relink, hnil]
  cases hs : t.slot? n with
  | none => rfl
  | some s =>
    by_cases hid : n = id
    · subst hid
      obtain ⟨c, row, parent, live⟩ := s
      obtain rfl : row = [] := by simpa [children, hs] using hnil
      simp
    · simp [hid]

lemma counted_removeChild (h : t.WellLinked) {p c : NodeId} (hok : t.removeChild p c = .ok t') :
    Counted t t' := by
  obtain ⟨_, _, rfl⟩ := (removeChild_eq_ok_iff h).mp hok
  exact Counted.of_lt (by simp [touch])

lemma counted_replaceChild (h : t.WellLinked) {p old new : NodeId}
    (hok : t.replaceChild p old new = .ok t') : Counted t t' := by
  obtain ⟨_, _, _, rfl⟩ := (replaceChild_eq_ok_iff h).mp hok
  exact Counted.of_lt (by simp [touch])

lemma Step.counted (hs : Step t t') (h : t.WellLinked) : Counted t t' := by
  cases hs with
  | refused => exact Counted.refl t
  | add c => exact (kept_add t c).counted
  | addWithChildren c children =>
    rw [addWithChildren_eq]
    exact (kept_add t c).counted.trans (counted_pushChildren (h.add c))
  | pushChild hok => exact counted_pushChild h hok
  | insertChild hok =>
    obtain ⟨_, _, rfl⟩ := (insertChild_eq_ok_iff h).mp hok
    exact Counted.of_lt (by simp [touch])
  | detach hok =>
    obtain ⟨_, _, rfl⟩ := (detach_eq_ok_iff h).mp hok
    exact Counted.of_lt (by simp [touch])
  | removeChild hok => exact counted_removeChild h hok
  | remove hok =>
    obtain ⟨_, ⟨p, _, hok⟩ | ⟨_, _, rfl⟩⟩ := remove_eq_ok_iff.mp hok
    · exact counted_removeChild h hok
    · exact Counted.of_lt (by simp [touch])
  | replaceChild hok => exact counted_replaceChild h hok
  | replace hok =>
    obtain ⟨_, ⟨p, _, hok⟩ | ⟨_, _, _, _, _, rfl⟩⟩ := (replace_eq_ok_iff h).mp hok
    · exact counted_replaceChild h hok
    · exact Counted.of_lt (by simp [touch])
  | replaceWithMany hok =>
    obtain ⟨p, _, _, _, _, rfl⟩ := (replaceWithMany_eq_ok_iff h).mp hok
    exact Counted.of_lt (by simp [touch])
  | takeChildren => exact counted_takeChildren t _
  | setConstruct _ c => exact Counted.of_lt (by simp)
  | setAttribute | removeAttribute | clearKey | forget =>
    exact (kept_mapAttributes t _).counted

lemma Edited.counted (he : Edited t t') (h : t.WellLinked) : Counted t t' := by
  obtain ⟨cmds, hplain, rfl⟩ := he
  exact (runAll_induct Counted.refl Counted.trans (fun h hs => hs.counted h) hplain h).1

end Tree

end CodeMigration
