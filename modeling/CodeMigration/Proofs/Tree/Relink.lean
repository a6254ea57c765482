import CodeMigration.Proofs.Tree.Links

/-!
# Linked rows stay linked

What keeps an arena well-linked: another row of children for a node whose new members are free and
not above the node, discarding what hangs below a free node that is not the root, another root, and
everything that does not touch links at all.
-/

namespace CodeMigration

namespace Tree

variable {t : Tree}

namespace WellLinked

/-- Only links, liveness and the root count. -/
lemma congr {t' : Tree} (h : t.WellLinked) (hc : ∀ n, t'.children n = t.children n)
    (hp : ∀ n, t'.parent? n = t.parent? n) (hl : ∀ n, t'.isLive n = t.isLive n)
    (hr : t'.root = t.root) : t'.WellLinked := by
  have hlink : t'.Link = t.Link := by
    funext p c
    rw [Link, Link, hp]
  refine ⟨fun p c => ?_, fun p => ?_, fun p c hpc => ?_, ?_, ?_, ?_⟩
  · rw [hc, hlink]
    exact h.mem_children_iff p c
  · rw [hc]
    exact h.nodup_children p
  · rw [hlink] at hpc
    rw [hl, hl]
    exact h.isLive_eq p c hpc
  · rw [hlink]
    exact h.wellFounded
  · rw [hr, hl]
    exact h.root_live
  · rw [hr, hp]
    exact h.root_free

/-! ### Rows of children -/

section relink

variable {p : NodeId} {row new out : List NodeId}

lemma link_relink_iff (hout : ∀ n ∈ out, t.Link p n)
    (hnew : ∀ n ∈ new, n < t.size ∧ t.parent? n = none) {q c : NodeId} :
    (t.relink p row new out).Link q c ↔
      (q = p ∧ c ∈ new) ∨ (t.Link q c ∧ ¬ (q = p ∧ c ∈ out)) := by
  rw [Link, parent?_relink]
  by_cases ho : c ∈ out
  · have hc : c ∉ new := by
      intro hc
      have hp := hout c ho
      rw [Link, (hnew c hc).2] at hp
      simp at hp
    have hq : t.Link q c → q = p := fun hq => Link.unique hq (hout c ho)
    simp only [ho, if_true, hc, and_false, and_true, false_or, reduceCtorEq, false_iff]
    exact fun hq' => hq'.2 (hq hq'.1)
  · by_cases hc : c ∈ new
    · have hfree := (hnew c hc).2
      simp only [ho, if_false, hc, (hnew c hc).1, and_self, if_true, and_true, and_false,
        not_false_eq_true, Option.some.injEq, Link, hfree, reduceCtorEq, or_false]
      exact eq_comm
    · simp [ho, hc, Link]

/-- A row whose new members are free, as live as the node and not above it keeps the links. -/
theorem relink (h : t.WellLinked) (hp : p < t.size) (hrow : row.Nodup)
    (hmem : ∀ n, n ∈ row ↔ n ∈ new ∨ (n ∈ t.children p ∧ n ∉ out))
    (hout : ∀ n ∈ out, t.Link p n) (hfree : ∀ n ∈ new, n < t.size ∧ t.parent? n = none)
    (hlive : ∀ n ∈ new, t.isLive p = t.isLive n) (hroot : t.root ∉ new)
    (habove : ∀ n ∈ new, ¬ t.Reaches n p) : (t.relink p row new out).WellLinked := by
  have hlink : ∀ q c, (t.relink p row new out).Link q c ↔ _ :=
    fun q c => link_relink_iff hout hfree
  refine ⟨fun q c => ?_, fun q => ?_, fun q c hqc => ?_, ⟨fun n => ?_⟩, ?_, ?_⟩
  · rw [children_relink _ _ _ _ _ hp, hlink]
    by_cases hq : q = p
    · subst hq
      rw [if_pos rfl, hmem, h.mem_children_iff]
      simp
    · rw [if_neg hq, h.mem_children_iff]
      simp [hq]
  · rw [children_relink _ _ _ _ _ hp]
    split
    · exact hrow
    · exact h.nodup_children q
  · rw [isLive_relink, isLive_relink]
    rcases (hlink q c).mp hqc with ⟨rfl, hc⟩ | ⟨hqc, _⟩
    · exact hlive c hc
    · exact h.isLive_eq q c hqc
  · -- A way up that meets no new member is a way up of the old arena, so it ends; from `p` up there
    -- is such a way, and any other way ends or comes to `p`.
    have hold : ∀ n, (∀ m ∈ new, ¬ t.Reaches m n) → Acc (t.relink p row new out).Link n := by
      intro n
      induction n using h.wellFounded.induction with
      | _ n ih =>
        intro hn
        refine Acc.intro n fun q hq => ?_
        rcases (hlink q n).mp hq with ⟨_, hm⟩ | ⟨hqn, _⟩
        · exact absurd (Reaches.refl n) (hn n hm)
        · exact ih q hqn fun m hm hmq => hn m hm (hmq.trans hqn.reaches)
    induction n using h.wellFounded.induction with
    | _ n ih =>
      refine Acc.intro n fun q hq => ?_
      rcases (hlink q n).mp hq with ⟨rfl, _⟩ | ⟨hqn, _⟩
      · exact hold q habove
      · exact ih q hqn
  · rw [root_relink, isLive_relink]
    exact h.root_live
  · rw [root_relink, parent?_relink, if_neg, if_neg, h.root_free]
    · exact fun hr => hroot hr.1
    · exact fun hr => by simpa [Link, h.root_free] using hout _ hr

end relink

/-! ### Discarding -/

/-- What hangs below a free node other than the root may go. -/
theorem discard (h : t.WellLinked) {id : NodeId} (hfree : t.parent? id = none)
    (hroot : id ≠ t.root) : (t.discard id).WellLinked := by
  have hlink : (t.discard id).Link = t.Link := by
    funext p c
    rw [Link, Link, parent?_discard]
  refine ⟨fun p c => ?_, fun p => ?_, fun p c hpc => ?_, ?_, ?_, ?_⟩
  · rw [children_discard, hlink]
    exact h.mem_children_iff p c
  · rw [children_discard]
    exact h.nodup_children p
  · rw [hlink] at hpc
    have hiff : t.Reaches id p ↔ t.Reaches id c := by
      constructor
      · exact fun hp => hp.trans hpc.reaches
      · intro hc
        rcases reaches_iff.mp hc with rfl | ⟨q, hq, hidq⟩
        · rw [Link, hfree] at hpc
          simp at hpc
        · rwa [Link.unique hpc hq]
    have hmem : decide (p ∈ t.descendants id) = decide (c ∈ t.descendants id) := by
      rw [decide_eq_decide, h.mem_descendants_iff, h.mem_descendants_iff, hiff]
    rw [isLive_discard, isLive_discard, h.isLive_eq p c hpc, hmem]
  · rw [hlink]
    exact h.wellFounded
  · rw [root_discard, isLive_discard, h.root_live]
    simp only [Bool.true_and, Bool.not_eq_true', decide_eq_false_iff_not, h.mem_descendants_iff]
    exact fun hr => hroot (hr.eq_of_free h.root_free)
  · rw [root_discard, parent?_discard]
    exact h.root_free

/-! ### Other edits -/

lemma touch (h : t.WellLinked) : t.touch.WellLinked :=
  h.congr (fun _ => rfl) (fun _ => rfl) (fun _ => rfl) rfl

lemma mapAttributes (h : t.WellLinked) (f : Attributes → Attributes) :
    (t.mapAttributes f).WellLinked :=
  h.congr (fun _ => rfl) (fun _ => rfl) (fun _ => rfl) rfl

lemma checkpoint (h : t.WellLinked) : t.checkpoint.WellLinked :=
  h.congr (fun _ => rfl) (fun _ => rfl) (fun _ => rfl) rfl

lemma commit (h : t.WellLinked) : t.commit.WellLinked :=
  h.congr (fun _ => rfl) (fun _ => rfl) (fun _ => rfl) rfl

/-- A live free node may become the root. -/
lemma withRoot (h : t.WellLinked) {new : NodeId} (hlive : t.isLive new = true)
    (hfree : t.parent? new = none) : ({ t with root := new } : Tree).WellLinked :=
  ⟨h.mem_children_iff, h.nodup_children, h.isLive_eq, h.wellFounded, hlive, hfree⟩

end WellLinked

/-! ### Constructs and new nodes -/

lemma slot?_setConstruct (id : NodeId) (c : Construct) (n : NodeId) :
    (t.setConstruct id c).slot? n =
      if n = id then (t.slot? n).map ({ · with construct := c }) else t.slot? n := by
  rw [setConstruct, slot?_modifySlot, slot?_mapAttributes, slot?_touch]

@[simp] lemma size_setConstruct (id : NodeId) (c : Construct) :
    (t.setConstruct id c).size = t.size := by
  rw [setConstruct, size_modifySlot]
  rfl

@[simp] lemma revision_setConstruct (id : NodeId) (c : Construct) :
    (t.setConstruct id c).revision = t.revision + 1 := by
  rw [setConstruct, revision_modifySlot]
  rfl

@[simp] lemma root_setConstruct (id : NodeId) (c : Construct) :
    (t.setConstruct id c).root = t.root := by
  rw [setConstruct, root_modifySlot]
  rfl

@[simp] lemma children_setConstruct (id : NodeId) (c : Construct) (n : NodeId) :
    (t.setConstruct id c).children n = t.children n := by
  rw [children, slot?_setConstruct, children]
  split
  · rw [Option.map_map]
    rfl
  · rfl

@[simp] lemma parent?_setConstruct (id : NodeId) (c : Construct) (n : NodeId) :
    (t.setConstruct id c).parent? n = t.parent? n := by
  rw [parent?, slot?_setConstruct, parent?]
  split
  · rw [Option.bind_map]
    rfl
  · rfl

@[simp] lemma isLive_setConstruct (id : NodeId) (c : Construct) (n : NodeId) :
    (t.setConstruct id c).isLive n = t.isLive n := by
  rw [isLive, slot?_setConstruct, isLive]
  split
  · rw [Option.any_map]
  · rfl

lemma children_add (c : Construct) (n : NodeId) : (t.add c).1.children n = t.children n := by
  rw [children, slot?_add, children]
  split
  · next hn => simp [hn, t.slot?_eq_none_iff.mpr]
  · rfl

lemma parent?_add (c : Construct) (n : NodeId) : (t.add c).1.parent? n = t.parent? n := by
  rw [parent?, slot?_add, parent?]
  split
  · next hn => simp [hn, t.slot?_eq_none_iff.mpr]
  · rfl

lemma isLive_add (c : Construct) (n : NodeId) :
    (t.add c).1.isLive n = (decide (n = t.size) || t.isLive n) := by
  rw [isLive, slot?_add, isLive]
  by_cases hn : n = t.size
  · simp [hn]
  · simp [hn]

namespace WellLinked

lemma setConstruct (h : t.WellLinked) (id : NodeId) (c : Construct) :
    (t.setConstruct id c).WellLinked :=
  h.congr (children_setConstruct id c) (parent?_setConstruct id c) (isLive_setConstruct id c)
    (root_setConstruct id c)

/-- A new node hangs below nothing and has nothing below it. -/
lemma add (h : t.WellLinked) (c : Construct) : (t.add c).1.WellLinked := by
  have hlink : (t.add c).1.Link = t.Link := by
    funext p c
    rw [Link, Link, parent?_add]
  have hlive : ∀ {n}, n < t.size → (t.add c).1.isLive n = t.isLive n := by
    intro n hn
    rw [isLive_add]
    simp [Nat.ne_of_lt hn]
  refine ⟨fun p d => ?_, fun p => ?_, fun p d hpd => ?_, ?_, ?_, ?_⟩
  · rw [children_add, hlink]
    exact h.mem_children_iff p d
  · rw [children_add]
    exact h.nodup_children p
  · rw [hlink] at hpd
    obtain ⟨hp, hd⟩ := h.link_lt hpd
    rw [hlive hp, hlive hd]
    exact h.isLive_eq p d hpd
  · rw [hlink]
    exact h.wellFounded
  · exact (hlive h.root_lt).trans h.root_live
  · rw [parent?_add]
    exact h.root_free

end WellLinked

/-- A tree of a single node. -/
lemma wellLinked_new (c : Construct) : (Tree.new c).WellLinked := by
  have hslot : ∀ n s, (Tree.new c).slot? n = some s → s.children = [] ∧ s.parent = none := by
    intro n s hs
    cases n with
    | zero => obtain rfl : _ = s := Option.some.inj hs; exact ⟨rfl, rfl⟩
    | succ n => simp [Tree.new, slot?] at hs
  have hchildren : ∀ p, (Tree.new c).children p = [] := by
    intro p
    rw [children]
    cases hs : (Tree.new c).slot? p with
    | none => rfl
    | some s => exact (hslot p s hs).1
  have hlink : ∀ p d, ¬ (Tree.new c).Link p d := by
    intro p d hpd
    rw [Link, parent?, Option.bind_eq_some_iff] at hpd
    obtain ⟨s, hs, hp⟩ := hpd
    rw [(hslot d s hs).2] at hp
    simp at hp
  refine ⟨fun p d => ?_, fun p => ?_, fun p d hpd => ?_, ⟨fun n => ?_⟩, rfl, rfl⟩
  · simp [hchildren, hlink]
  · simp [hchildren]
  · exact absurd hpd (hlink p d)
  · exact Acc.intro n fun p hp => absurd hp (hlink p n)

end Tree

end CodeMigration
