import CodeMigration.Proofs.Tree.Frame

/-!
# Taking nodes out

A migration begins by taking nodes out of their parents, some to be used again and some to be
discarded. `Tree.Extracted` says exactly what the arena looks like after any number of such edits:
the nodes taken out are missing from the rows they stood in and are free, and what hangs below a
discarded node by then is dead.

No link is added, so what hangs below a node is what hung below it before and has not been taken out
with another one (`Extracted.reaches_iff`).
-/

namespace CodeMigration

namespace Tree

variable {t t' t'' : Tree} {out gone : List NodeId} {a c m p : NodeId}

/-- A slot is determined by what can be read of its node. -/
lemma slot?_eq_of_views (hconstruct : t'.construct? m = t.construct? m)
    (hchildren : t'.children m = t.children m) (hparent : t'.parent? m = t.parent? m)
    (hlive : t'.isLive m = t.isLive m) : t'.slot? m = t.slot? m := by
  rw [construct?, construct?] at hconstruct
  rw [children, children] at hchildren
  rw [parent?, parent?] at hparent
  rw [isLive, isLive] at hlive
  cases hs : t.slot? m with
  | none => simpa [hs] using hconstruct
  | some s =>
    cases hs' : t'.slot? m with
    | none => simp [hs, hs'] at hconstruct
    | some s' =>
      obtain ⟨construct, children, parent, live⟩ := s
      obtain ⟨construct', children', parent', live'⟩ := s'
      simp_all

/-- In a row without repetitions, to cut a node out is to leave out all nodes equal to it. -/
lemma splice_nil_eq_filter {l : List NodeId} (hl : l.Nodup) (c : NodeId) :
    splice l c [] = l.filter (· ≠ c) := by
  rw [← eraseIdx_idxOf_eq_splice, ← List.erase_eq_eraseIdx_of_idxOf rfl, hl.erase_eq_filter]
  congr 1
  funext x
  by_cases hx : x = c <;> simp [hx]

/-- The tree `t'` after the nodes `out` have been taken out of their parents in `t` and those of
`gone` among them have been discarded. -/
structure Extracted (t : Tree) (out gone : List NodeId) (t' : Tree) : Prop where
  edited : t.Edited t'
  root : t'.root = t.root
  size : t'.size = t.size
  construct? : ∀ m, t'.construct? m = t.construct? m
  parent? : ∀ m, t'.parent? m = if m ∈ out then none else t.parent? m
  children : ∀ m, t'.children m = (t.children m).filter (· ∉ out)
  isLive : ∀ m, t'.isLive m = true ↔ t.isLive m = true ∧ ∀ g ∈ gone, ¬ t'.Reaches g m
  subset : gone ⊆ out

namespace Extracted

lemma refl (t : Tree) : Extracted t [] [] t where
  edited := Edited.refl t
  root := rfl
  size := rfl
  construct? _ := rfl
  parent? _ := by simp
  children _ := by simp
  isLive _ := by simp
  subset := List.nil_subset _

/-- The order in which nodes were taken out does not matter. -/
lemma perm (h : Extracted t out gone t') {out' gone' : List NodeId} (hout : out.Perm out')
    (hgone : gone.Perm gone') : Extracted t out' gone' t' :=
  { h with
    parent? := fun m => by simpa only [hout.mem_iff] using h.parent? m
    children := fun m => by simpa only [hout.mem_iff] using h.children m
    isLive := fun m => by simpa only [hgone.mem_iff] using h.isLive m
    subset := fun m hm => hout.mem_iff.mp (h.subset (hgone.mem_iff.mpr hm)) }

lemma link_iff (h : Extracted t out gone t') : t'.Link p c ↔ t.Link p c ∧ c ∉ out := by
  rw [Link, h.parent?, Link]
  by_cases hc : c ∈ out
  · simp [hc]
  · simp [hc]

lemma reaches_of_reaches (h : Extracted t out gone t') (ham : t'.Reaches a m) :
    t.Reaches a m := by
  refine Relation.ReflTransGen.mono (fun p c hpc => ?_) a m ham
  exact (h.link_iff.mp hpc).1

section edits

variable (h : Extracted t out gone t')
include h

lemma sound (ht : t.Sound) : t'.Sound := ht.edited h.edited

/-- Below a discarded node no live child is taken out any more. -/
lemma reaches_cut_iff (hlive : t'.isLive c = true)
    (hcut : ∀ x, t''.parent? x = if x = c then none else t'.parent? x) (ha : a ∈ gone) :
    t''.Reaches a m ↔ t'.Reaches a m := by
  constructor
  · intro ham
    refine Relation.ReflTransGen.mono (fun p x hpx => ?_) a m ham
    rw [Link, hcut] at hpx
    split at hpx
    · cases hpx
    · exact hpx
  · intro ham
    induction ham with
    | refl => exact Reaches.refl a
    | @tail b x hab hbx ih =>
      have hx : x ≠ c := by
        rintro rfl
        exact ((h.isLive x).mp hlive).2 a ha (hab.trans hbx.reaches)
      have hlink : t''.Link b x := by rwa [Link, hcut, if_neg hx]
      exact ih.trans hlink.reaches

lemma parent?_cut (hparent : t''.parent? m = if m = c then none else t'.parent? m) :
    t''.parent? m = if m ∈ c :: out then none else t.parent? m := by
  rw [hparent, h.parent?]
  by_cases hm : m = c
  · simp [hm]
  · simp [hm]

variable (ht : t.Sound)
include ht

/-- The row of the parent loses the node, and no other row has it. -/
lemma children_cut (hlink : t'.Link p c) (m : NodeId) :
    (if m = p then splice (t'.children p) c [] else t'.children m) =
      (t.children m).filter (· ∉ c :: out) := by
  have hlinked := (h.sound ht).linked
  have hfilter : (t.children m).filter (· ∉ c :: out) = (t'.children m).filter (· ≠ c) := by
    rw [h.children, List.filter_filter]
    congr 1
    funext x
    by_cases hx : x = c <;> simp [hx]
  rw [hfilter]
  split
  · next hm => rw [hm, splice_nil_eq_filter (hlinked.nodup_children p)]
  · next hm =>
    symm
    rw [List.filter_eq_self]
    intro x hx
    rw [decide_eq_true_iff]
    rintro rfl
    exact hm (Link.unique ((hlinked.mem_children_iff m x).mp hx) hlink)

omit ht in
/-- A child that is below none of the nodes taken out is still in its place. -/
lemma child (hlink : t.Link p c) (hlive : t.isLive c = true) (hclear : ∀ o ∈ out, ¬ t.Reaches o c) :
    t'.Link p c ∧ t'.isLive c = true := by
  refine ⟨h.link_iff.mpr ⟨hlink, fun hc => hclear c hc (Reaches.refl c)⟩,
    (h.isLive c).mpr ⟨hlive, ?_⟩⟩
  intro g hg hgc
  exact hclear g (h.subset hg) (h.reaches_of_reaches hgc)

/-- A child is taken out. -/
lemma detach (hlink : t.Link p c) (hlive : t.isLive c = true)
    (hclear : ∀ o ∈ out, ¬ t.Reaches o c) :
    ∃ t'', t'.detach p c = .ok t'' ∧ Extracted t (c :: out) gone t'' := by
  obtain ⟨hlink', hlive'⟩ := h.child hlink hlive hclear
  have hlinked := (h.sound ht).linked
  obtain ⟨t'', hok, hmoved, hsame⟩ := exists_detach hlinked hlink' hlive'
  have hparent : ∀ x, t''.parent? x = if x = c then none else t'.parent? x := hmoved.parent?
  refine ⟨t'', hok, h.edited.trans hmoved.edited, hmoved.root.trans h.root,
    hmoved.size.trans h.size, fun m => (hmoved.construct? m).trans (h.construct? m),
    fun m => h.parent?_cut (hparent m), fun m => ?_, fun m => ?_,
    List.subset_cons_of_subset c h.subset⟩
  · obtain ⟨_, _, rfl⟩ := (detach_eq_ok_iff hlinked).mp hok
    rw [children_touch, children_relink _ _ _ _ _ (hlinked.link_lt hlink').1,
      h.children_cut ht hlink']
  · rw [hsame, h.isLive]
    refine and_congr_right fun _ => forall₂_congr fun g hg => not_congr ?_
    exact (h.reaches_cut_iff hlive' hparent hg).symm

/-- A child is removed with everything below it. -/
lemma removeChild (hlink : t.Link p c) (hlive : t.isLive c = true)
    (hclear : ∀ o ∈ out, ¬ t.Reaches o c) :
    ∃ t'', t'.removeChild p c = .ok t'' ∧ Extracted t (c :: out) (c :: gone) t'' := by
  obtain ⟨hlink', hlive'⟩ := h.child hlink hlive hclear
  have hlinked := (h.sound ht).linked
  obtain ⟨t'', hok, hmoved, _⟩ := exists_removeChild hlinked hlink' hlive'
  have hparent : ∀ x, t''.parent? x = if x = c then none else t'.parent? x := hmoved.parent?
  obtain ⟨_, _, ht''⟩ := (removeChild_eq_ok_iff hlinked).mp hok
  have hcut : (t'.relink p (splice (t'.children p) c []) [] [c]).touch.WellLinked :=
    (hlinked.spliceChild hlink' hlive' List.nodup_nil (by simp)).touch
  refine ⟨t'', hok, h.edited.trans hmoved.edited, hmoved.root.trans h.root,
    hmoved.size.trans h.size, fun m => (hmoved.construct? m).trans (h.construct? m),
    fun m => h.parent?_cut (hparent m), fun m => ?_, fun m => ?_, List.cons_subset_cons c h.subset⟩
  · rw [ht'', children_discard, children_touch,
      children_relink _ _ _ _ _ (hlinked.link_lt hlink').1, h.children_cut ht hlink']
  · -- the links are those of the tree from which the child is discarded
    have hreach : (t'.relink p (splice (t'.children p) c []) [] [c]).touch.Reaches c m ↔
        t''.Reaches c m := by
      have hsame : t''.Link = (t'.relink p (splice (t'.children p) c []) [] [c]).touch.Link := by
        funext q x
        rw [Link, Link, ht'', parent?_discard]
      rw [Reaches, Reaches, hsame]
    have hgone : (∀ g ∈ gone, ¬ t''.Reaches g m) ↔ ∀ g ∈ gone, ¬ t'.Reaches g m :=
      forall₂_congr fun g hg => not_congr (h.reaches_cut_iff hlive' hparent hg)
    rw [List.forall_mem_cons, hgone, ← hreach, ← hcut.mem_descendants_iff, ht'', isLive_discard,
      isLive_touch, isLive_relink, Bool.and_eq_true, h.isLive]
    simp only [Bool.not_eq_true', decide_eq_false_iff_not]
    tauto

end edits

/-! ### What is left -/

section result

variable (h : Extracted t out gone t') (ht : t.WellLinked)
include h ht

/-- A way down is cut exactly where it leads to a node taken out. -/
lemma reaches_iff :
    t'.Reaches a m ↔ t.Reaches a m ∧ ∀ o ∈ out, t.Reaches o m → t.Reaches o a := by
  constructor
  · intro ham
    refine ⟨h.reaches_of_reaches ham, ?_⟩
    induction ham with
    | refl => exact fun _ _ hoa => hoa
    | @tail b c _ hbc ih =>
      intro o ho hoc
      obtain ⟨hlink, hc⟩ := h.link_iff.mp hbc
      rcases Tree.reaches_iff.mp hoc with rfl | ⟨q, hq, hoq⟩
      · exact absurd ho hc
      · exact ih o ho (hq.unique hlink ▸ hoq)
  · rintro ⟨ham, hclear⟩
    induction ham with
    | refl => exact Reaches.refl a
    | @tail b c hab hbc ih =>
      have hc : c ∉ out := by
        intro ho
        exact ht.not_reaches_of_link hbc ((hclear c ho (Reaches.refl c)).trans hab)
      have hlink : t'.Link b c := h.link_iff.mpr ⟨hbc, hc⟩
      refine Reaches.trans (ih fun o ho hob => ?_) hlink.reaches
      exact hclear o ho (hob.trans hbc.reaches)

/-- What is dead hung below a discarded node, and below no other node taken out further down. -/
lemma isLive_iff :
    t'.isLive m = true ↔ t.isLive m = true ∧
      ∀ g ∈ gone, t.Reaches g m → ∃ o ∈ out, t.Reaches o m ∧ ¬ t.Reaches o g := by
  rw [h.isLive]
  refine and_congr_right fun _ => forall₂_congr fun g _ => ?_
  rw [h.reaches_iff ht]
  push Not
  rfl

end result

end Extracted

end Tree

end CodeMigration
