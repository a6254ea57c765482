import CodeMigration.Proofs.Catalogue.Assembly
import CodeMigration.Proofs.Tree.Extraction

/-!
# Taking out and putting together

A migration takes nodes out of the tree (`Tree.Extracted`), discards some of them and puts the
others together with new ones at the end of a row (`Tree.Assembled`). `Tree.Rebuilt` says what has
become of the old nodes: which slots are the same, which subtrees are intact in another place, and
what is dead.
-/

namespace CodeMigration

namespace Tree

variable {t t' : Tree} {m p : NodeId} {stock : List NodeId} {row : List (Sketch × NodeId)}

lemma WellLinked.lt_size_of_below (ht : t.WellLinked) {a : NodeId} (ha : a < t.size)
    (ham : t.Reaches a m) : m < t.size := by
  rcases reaches_iff.mp ham with rfl | ⟨q, hq, _⟩
  · exact ha
  · exact (ht.link_lt hq).2

/-- A loop that takes one node out in each turn. -/
lemma Extracted.yields_forM {α : Type} {w : Workspace} {f : α → Action Unit}
    {out gone : List NodeId} (taken : α → NodeId) (lost : α → List NodeId) {l : List α}
    (hf : ∀ a ∈ l, ∀ (w : Workspace) out gone, (∀ o ∈ out, ¬ t.Reaches o (taken a)) →
      Extracted t out gone w.tree → (f a).Yields w fun _ t' =>
        Extracted t (taken a :: out) (lost a ++ gone) t')
    (hapart : t.Apart out (l.map taken)) (h : Extracted t out gone w.tree) :
    (l.forM f).Yields w fun _ t' =>
      Extracted t (l.map taken ++ out) (l.flatMap lost ++ gone) t' := by
  induction l generalizing w out gone with
  | nil => exact Action.Yields.pure h
  | cons a l ih =>
    obtain ⟨hclear, hapart⟩ := hapart
    refine (hf a List.mem_cons_self w out gone hclear h).bind fun _ w' h' => ?_
    have hrest := ih (fun b hb => hf b (List.mem_cons_of_mem a hb)) hapart h'
    refine hrest.mono fun _ t' h'' => ?_
    rw [List.flatMap_cons, List.append_assoc]
    exact h''.perm List.perm_middle (List.perm_append_comm_assoc _ _ _)

/-- A node that has been taken out lies loose, unless it was discarded or led to one that was. -/
lemma Extracted.loose {out gone : List NodeId} {c : NodeId} (h : Extracted t out gone t')
    (ht : t.WellLinked) (hlink : t.Link p c) (hlive : t.isLive c = true) (hc : c ∈ out)
    (hsafe : ∀ g ∈ gone, ¬ t.Reaches c g) : t'.Loose c := by
  refine ⟨(h.isLive_iff ht).mpr ⟨hlive, ?_⟩, ?_, ?_⟩
  · intro g hg _
    exact ⟨c, hc, Reaches.refl c, hsafe g hg⟩
  · rw [h.parent?, if_pos hc]
  · rw [h.root]
    exact ht.ne_root_of_link hlink

/-- A node that is below none of those taken out is still in use. -/
lemma Extracted.isLive_of_clear {out gone : List NodeId} (h : Extracted t out gone t')
    (ht : t.WellLinked) (hlive : t.isLive m = true) (hclear : ∀ o ∈ out, ¬ t.Reaches o m) :
    t'.isLive m = true := by
  refine (h.isLive_iff ht).mpr ⟨hlive, fun g hg hgm => ?_⟩
  exact absurd hgm (hclear g (h.subset hg))

/-- The tree `t'` after the nodes `out` have been taken out of `t`, those of `gone` have been
discarded, and pieces as sketched have been appended to the children of `p`. -/
structure Rebuilt (t : Tree) (p : NodeId) (out gone : List NodeId) (sketches : List Sketch)
    (t' : Tree) : Prop where
  edited : t.Edited t'
  root : t'.root = t.root
  construct? : ∀ m < t.size, t'.construct? m = t.construct? m
  parent? : ∀ m < t.size, m ∉ out → t'.parent? m = t.parent? m
  children : ∀ m < t.size, m ≠ p → t'.children m = (t.children m).filter (· ∉ out)
  row : ∃ new, t'.children p = (t.children p).filter (· ∉ out) ++ new ∧
    t'.ShowsRow t.size sketches new
  isLive : ∀ m < t.size, (t'.isLive m = true ↔ t.isLive m = true ∧
    ∀ g ∈ gone, t.Reaches g m → ∃ o ∈ out, t.Reaches o m ∧ ¬ t.Reaches o g)
  subset : gone ⊆ out

lemma Assembled.rebuilt {t₁ : Tree} {out gone : List NodeId} (h : Assembled t₁ p stock t' row [])
    (h₁ : Extracted t out gone t₁) (ht : t.WellLinked) (hp : p < t.size) (hstock : stock ⊆ out) :
    Rebuilt t p out gone (row.map Prod.fst) t' := by
  have hsize := h₁.size
  refine ⟨h₁.edited.trans h.edited, h.root.trans h₁.root, ?_, ?_, ?_, ⟨row.map Prod.snd, ?_, ?_⟩,
    ?_, h₁.subset⟩
  · intro m hm
    rw [h.construct? m (hsize ▸ hm), h₁.construct?]
  · intro m hm hout
    rw [h.parent? m (hsize ▸ hm) fun hmem => hout (hstock hmem), h₁.parent?, if_neg hout]
  · intro m hm hmp
    rw [h.children m (hsize ▸ hm), if_neg hmp, List.append_nil, h₁.children]
  · rw [h.children p (hsize ▸ hp), if_pos rfl, h₁.children]
  · rw [← hsize]
    exact showsRow_of_forall fun entry hentry => h.shown entry (List.mem_append_left _ hentry)
  · intro m hm
    rw [h.isLive m (hsize ▸ hm), h₁.isLive_iff ht]

/-- The nodes of a subtree stand for the same, have the same children and are as live as before. -/
def Intact (t t' : Tree) (v : NodeId) : Prop :=
  ∀ m, t.Reaches v m → t'.construct? m = t.construct? m ∧ t'.children m = t.children m ∧
    t'.isLive m = t.isLive m

namespace Rebuilt

variable {out gone : List NodeId} {sketches : List Sketch}

section result

variable (h : Rebuilt t p out gone sketches t') (ht : t.WellLinked)
include h ht

/-- A row with none of the nodes taken out stays. -/
lemma children_eq (hm : m < t.size) (hmp : m ≠ p) (hrow : ∀ o ∈ out, ¬ t.Link m o) :
    t'.children m = t.children m := by
  rw [h.children m hm hmp, List.filter_eq_self]
  intro x hx
  rw [decide_eq_true_iff]
  exact fun ho => hrow x ho ((ht.mem_children_iff m x).mp hx)

omit ht in
lemma isLive_eq (hm : m < t.size)
    (hsafe : ∀ g ∈ gone, t.Reaches g m → ∃ o ∈ out, t.Reaches o m ∧ ¬ t.Reaches o g) :
    t'.isLive m = t.isLive m := by
  rw [Bool.eq_iff_iff, h.isLive m hm]
  exact and_iff_left hsafe

omit ht in
/-- What hangs below a discarded node, and below no other node taken out, is dead. -/
lemma isLive_eq_false (hm : m < t.size) {g : NodeId} (hg : g ∈ gone) (hgm : t.Reaches g m)
    (hclear : ∀ o ∈ out, t.Reaches o m → t.Reaches o g) : t'.isLive m = false := by
  rw [← Bool.not_eq_true, h.isLive m hm]
  rintro ⟨_, hsafe⟩
  obtain ⟨o, ho, hom, hog⟩ := hsafe g hg hgm
  exact hog (hclear o ho hom)

/-- What lies below none of the nodes taken out keeps its slot, unless it has lost or gained a
child. -/
lemma slot?_eq (hm : m < t.size) (hmp : m ≠ p) (hbelow : ∀ o ∈ out, ¬ t.Reaches o m)
    (hrow : ∀ o ∈ out, ¬ t.Link m o) : t'.slot? m = t.slot? m := by
  have hout : m ∉ out := fun ho => hbelow m ho (Reaches.refl m)
  refine slot?_eq_of_views (h.construct? m hm) (h.children_eq ht hm hmp hrow)
    (h.parent? m hm hout) ?_
  exact h.isLive_eq hm fun g hg hgm => absurd hgm (hbelow g (h.subset hg))

/-- A subtree from which nothing has been taken out stays as it is, if it was itself taken out of
every discarded one around it. -/
lemma intact {v : NodeId} (hv : v < t.size) (hvp : ¬ t.Reaches v p)
    (hrow : ∀ o ∈ out, t.Reaches v o → o = v)
    (hsafe : ∀ g ∈ gone, t.Reaches g v → v ∈ out ∧ ¬ t.Reaches v g) : t.Intact t' v := by
  intro m hvm
  have hm : m < t.size := ht.lt_size_of_below hv hvm
  refine ⟨h.construct? m hm, h.children_eq ht hm ?_ ?_, h.isLive_eq hm ?_⟩
  · rintro rfl
    exact hvp hvm
  · intro o ho hmo
    obtain rfl := hrow o ho (hvm.trans hmo.reaches)
    exact ht.not_reaches_of_link hmo hvm
  · intro g hg hgm
    have hgv : t.Reaches g v := by
      rcases hgm.total hvm with hgv | hvg
      · exact hgv
      · rw [hrow g (h.subset hg) hvg]
    obtain ⟨hvout, hvg⟩ := hsafe g hg hgv
    exact ⟨v, hvout, hvm, hvg⟩

end result

end Rebuilt

/-! ### Changes in place -/

lemma edited_setConstruct (hm : m < t.size) (c : Construct) : t.Edited (t.setConstruct m c) := by
  have hrun := t.edited_run (.setConstruct m c) rfl
  have hin : t.contains m = true := by simpa [contains] using hm
  rwa [Command.run, Command.inside, if_pos hin] at hrun

lemma Intact.setConstruct {v : NodeId} (h : t.Intact t' v) (hm : ¬ t.Reaches v m) (c : Construct) :
    t.Intact (t'.setConstruct m c) v := by
  intro x hx
  have hne : x ≠ m := by
    rintro rfl
    exact hm hx
  obtain ⟨hconstruct, hchildren, hlive⟩ := h x hx
  simp [construct?_setConstruct, hne, hconstruct, hchildren, hlive]

lemma ShowsRow.setConstruct {fresh : Nat} {ss : List Sketch} {ms : List NodeId}
    (h : t.ShowsRow fresh ss ms) (hm : m < fresh) (c : Construct) :
    (t.setConstruct m c).ShowsRow fresh ss ms := by
  refine h.mono fun x hx _ => ?_
  simp [construct?_setConstruct, Nat.ne_of_gt (Nat.lt_of_lt_of_le hm hx)]

lemma ShowsRow.setAttribute {fresh : Nat} {ss : List Sketch} {ms : List NodeId}
    (h : t.ShowsRow fresh ss ms) (m : NodeId) (key : AttributeKey) (value : AttributeValue) :
    (t.setAttribute m key value).ShowsRow fresh ss ms := by
  refine h.mono fun x _ _ => ?_
  exact ⟨rfl, rfl, rfl⟩

lemma Reachable.edited (h : t.Reachable) (hedited : t.Edited t') : t'.Reachable := by
  obtain ⟨edits, _, rfl⟩ := hedited
  exact h.runAll edits

end Tree

end CodeMigration
