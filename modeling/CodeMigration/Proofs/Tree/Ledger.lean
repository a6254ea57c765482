import CodeMigration.Proofs.Rule.Commands
import CodeMigration.Proofs.Tree.Graft

/-!
# Nothing is mislaid

A tree is whole when every live node is attached. `Tree.Ledger` follows the edits of a whole tree
and keeps account of its nodes: what is live is attached or lies below a node that is known to be
spare, and what was live and is no longer so is on record as gone. When no spare node is left the
tree is whole again.

While nodes are only taken out and new ones are added, every link between old nodes is an old one
(`Tree.Pruned`), so what lies below an old node lay below it before, outside of what has been taken
out.
-/

namespace CodeMigration

/-- An attribute that is set adds nothing under other keys. -/
lemma Attributes.mem_of_mem_set {a : Attributes} {n m : NodeId} {key : AttributeKey}
    {value : AttributeValue} {e : AttributeEntry} (he : e ∈ (a.set n key value).ofNode m)
    (hkey : e.key ≠ key) : e ∈ a.ofNode m := by
  rw [ofNode_set] at he
  split at he
  · next hm =>
    rcases Bag.mem_set he with rfl | he
    · exact absurd rfl hkey
    · exact hm ▸ he
  · exact he

namespace Tree

variable {t t' t'' : Tree} {gone : NodeId → Prop} {spare spare' out : List NodeId}
  {a c m p : NodeId}

/-! ### Whole trees -/

/-- Every live node is attached. -/
def Whole (t : Tree) : Prop := ∀ m, t.isLive m = true → t.Reaches t.root m

lemma Whole.isAttached (h : t.Whole) (ht : t.WellLinked) (m : NodeId) :
    t.isAttached m = t.isLive m := by
  rw [Bool.eq_iff_iff, ht.isAttached_iff]
  exact ⟨ht.isLive_of_attached, h m⟩

/-- The node is attached or lies below one of the list. -/
def Holds (t : Tree) (spare : List NodeId) (m : NodeId) : Prop :=
  ∃ a ∈ t.root :: spare, t.Reaches a m

lemma holds_of_mem (hc : c ∈ spare) : t.Holds spare c :=
  ⟨c, List.mem_cons_of_mem _ hc, Reaches.refl c⟩

lemma Holds.below (h : t.Holds spare a) (ham : t.Reaches a m) : t.Holds spare m := by
  obtain ⟨b, hb, hba⟩ := h
  exact ⟨b, hb, hba.trans ham⟩

/-- When some nodes have other parents, a way down is still there at least from the last of them on
it. -/
lemma reaches_of_cut {cut : List NodeId} (h : ∀ m ∉ cut, t'.parent? m = t.parent? m)
    (ham : t.Reaches a m) : t'.Reaches a m ∨ ∃ c ∈ cut, t'.Reaches c m := by
  induction ham with
  | refl => exact Or.inl (Reaches.refl a)
  | @tail b c _ hlink ih =>
    by_cases hc : c ∈ cut
    · exact Or.inr ⟨c, hc, Reaches.refl c⟩
    · have hlink' : t'.Link b c := (h c hc).trans hlink
      rcases ih with hab | ⟨d, hd, hdb⟩
      · exact Or.inl (hab.trans hlink'.reaches)
      · exact Or.inr ⟨d, hd, hdb.trans hlink'.reaches⟩

/-! ### Replacements -/

/-- An edit that puts the node `new` in the place of the child `old` of `p` and discards what hung
below that. -/
structure Replaced (t : Tree) (p old new : NodeId) (t' : Tree) : Prop where
  attachable : t.Attachable p new
  edited : t.Edited t'
  root : t'.root = t.root
  parent? : ∀ m, t'.parent? m = if m = old then none else if m = new then some p else t.parent? m
  live : ∀ m, t'.isLive m = true → t.isLive m = true
  dead : t'.isLive old = false
  below : ∀ m, t.isLive m = true → t'.isLive m = false → t.Reaches old m
  trimmed : t.attributes.Trimmed t'.attributes

lemma replaced_replace {old new : NodeId} (h : t.WellLinked) (hp : t.Link p old)
    (hok : t.replace old new = .ok t') : Replaced t p old new t' := by
  have hedited := t.edited_run (.replace old new) rfl
  rw [Command.run, Command.settle_of_ok _ hok] at hedited
  obtain ⟨hlive, hcase⟩ := (replace_eq_ok_iff h).mp hok
  obtain ⟨q, hq, hchild⟩ := hcase.resolve_right fun hroot => by
    rw [Link, hroot.1] at hp
    cases hp
  rw [hq.unique hp] at hchild
  obtain ⟨_, _, hnew, ht'⟩ := (replaceChild_eq_ok_iff h).mp hchild
  have hcut := h.spliceChild hp hlive (List.nodup_singleton new) (by simpa using hnew)
  generalize hmid : t.relink p (splice (t.children p) old [new]) [new] [old] = mid at hcut ht'
  have hlink : ∀ b d, mid.Link b d → b = p ∨ t.Link b d := fun b d hbd => by
    rw [← hmid, WellLinked.link_relink_iff (by simpa using hp)
      (by simpa using ⟨t.lt_size_of_isLive hnew.live, hnew.free⟩)] at hbd
    exact hbd.imp (fun hb => hb.1) (fun hb => hb.1)
  have hmidLive : ∀ m, mid.isLive m = t.isLive m := fun m => by rw [← hmid, isLive_relink]
  have hlives : ∀ m, t'.isLive m = (t.isLive m && !decide (m ∈ mid.descendants old)) := fun m => by
    rw [ht', ← hmidLive, ← isLive_discard]
    rfl
  have hparent : ∀ m, t'.parent? m = mid.parent? m := fun m => by
    rw [ht', parent?_touch, parent?_discard]
  have hroot : t'.root = t.root := by
    rw [ht', root_touch, root_discard, ← hmid, root_relink]
  have htrimmed : t.attributes.Trimmed t'.attributes := by
    have hattributes : t'.attributes = (mid.discard old).attributes := by
      rw [ht']
      rfl
    rw [hattributes, attributes_discard, ← hmid, attributes_relink]
    exact t.attributes.trimmed_forget _
  refine ⟨hnew, hedited, hroot, fun m => ?_, fun m hm => ?_, ?_, fun m hm hm' => ?_, htrimmed⟩
  · rw [hparent, ← hmid, parent?_relink]
    by_cases hm : m = new
    · simp [hm, t.lt_size_of_isLive hnew.live]
    · simp [hm]
  · rw [hlives, Bool.and_eq_true] at hm
    exact hm.1
  · rw [ht']
    exact isLive_discard_self _ old
  · -- the way down from the old child does not lead through its parent, where the new one hangs
    rw [hlives, hm, Bool.true_and, Bool.not_eq_false', decide_eq_true_iff,
      hcut.mem_descendants_iff] at hm'
    clear hm
    induction hm' with
    | refl => exact Reaches.refl old
    | @tail b d _ hbd ih =>
      rcases hlink b d hbd with rfl | hbd'
      · exact absurd ih (h.not_reaches_of_link hp)
      · exact ih.trans hbd'.reaches

/-! ### Ledgers -/

/-- The tree `t'` after edits of `t`: what is live is attached or lies below a spare node, what was
live and is not is gone, and no formatting data has been added. -/
structure Ledger (t : Tree) (gone : NodeId → Prop) (t' : Tree) (spare : List NodeId) : Prop where
  edited : t.Edited t'
  root : t'.root = t.root
  holds : ∀ m, t'.isLive m = true → t'.Holds spare m
  lost : ∀ m, t.isLive m = true → t'.isLive m = false → gone m
  layouts : ∀ m, ∀ e ∈ t'.attributes.ofNode m, e.key = .layout → e ∈ t.attributes.ofNode m

namespace Ledger

lemma start (h : t.Whole) (gone : NodeId → Prop) : Ledger t gone t [] where
  edited := Edited.refl t
  root := rfl
  holds m hm := ⟨t.root, List.mem_cons_self, h m hm⟩
  lost m hm hm' := by
    rw [hm] at hm'
    cases hm'
  layouts _ _ he _ := he

lemma whole (h : Ledger t gone t' []) : t'.Whole := by
  intro m hm
  obtain ⟨a, ha, ham⟩ := h.holds m hm
  rwa [List.mem_singleton.mp ha] at ham

lemma mono (h : Ledger t gone t' spare) (hsub : spare ⊆ spare') : Ledger t gone t' spare' :=
  { h with
    holds := fun m hm => by
      obtain ⟨a, ha, ham⟩ := h.holds m hm
      exact ⟨a, List.cons_subset_cons _ hsub ha, ham⟩ }

/-- A new node is spare. -/
lemma add (h : Ledger t gone t' spare) (c : Construct) :
    Ledger t gone (t'.add c).1 (t'.size :: spare) where
  edited := h.edited.trans (t'.edited_add c)
  root := h.root
  holds m hm := by
    rw [isLive_add, Bool.or_eq_true, decide_eq_true_iff] at hm
    rcases hm with rfl | hm
    · exact holds_of_mem List.mem_cons_self
    · obtain ⟨a, ha, ham⟩ := h.holds m hm
      have ham' : (t'.add c).1.Reaches a m := by
        refine Relation.ReflTransGen.mono (fun p d hd => ?_) a m ham
        rwa [Link, parent?_add]
      exact ⟨a, List.cons_subset_cons _ (List.subset_cons_self _ _) ha, ham'⟩
  lost m hm hm' := by
    rw [isLive_add, Bool.or_eq_false_iff] at hm'
    exact h.lost m hm hm'.2
  layouts := h.layouts

section edits

variable (h : Ledger t gone t' spare) (ht : t.Sound)
include h

lemma sound (ht : t.Sound) : t'.Sound := ht.edited h.edited

include ht

/-- An edit that gives other parents to the nodes `cut` only, each of which is dead afterwards or
accounted for. -/
lemma step (hedited : t'.Edited t'') (hroot : t''.root = t'.root) (cut : List NodeId)
    (hcut : ∀ m ∉ cut, t''.parent? m = t'.parent? m)
    (hlive : ∀ m, t''.isLive m = true → t'.isLive m = true)
    (hholds : ∀ c ∈ cut ++ spare, t''.isLive c = true → t''.Holds spare' c)
    (hlost : ∀ m, t'.isLive m = true → t''.isLive m = false → t.isLive m = true → gone m)
    (htrimmed : t'.attributes.Trimmed t''.attributes) : Ledger t gone t'' spare' where
  edited := h.edited.trans hedited
  root := hroot.trans h.root
  holds m hm := by
    have hlinked : t''.WellLinked := ((h.sound ht).edited hedited).linked
    -- a node from which a live one is reached is live as well
    have hbelow : ∀ c ∈ cut ++ spare, t''.Reaches c m → t''.Holds spare' m := fun c hc hcm =>
      (hholds c hc ((hlinked.isLive_of_reaches hcm).trans hm)).below hcm
    obtain ⟨a, ha, ham⟩ := h.holds m (hlive m hm)
    rcases reaches_of_cut hcut ham with ham' | ⟨c, hc, hcm⟩
    · rcases List.mem_cons.mp ha with rfl | ha
      · exact ⟨t''.root, List.mem_cons_self, hroot ▸ ham'⟩
      · exact hbelow a (List.mem_append_right _ ha) ham'
    · exact hbelow c (List.mem_append_left _ hc) hcm
  lost m hm hm' := by
    cases hmid : t'.isLive m with
    | true => exact hlost m hmid hm' hm
    | false => exact h.lost m hm hmid
  layouts m e he hkey := h.layouts m e ((htrimmed m).subset he) hkey

/-- A child that is taken out is spare. -/
lemma detach (hok : t'.detach p c = .ok t'') : Ledger t gone t'' (c :: spare) := by
  have hlinked := (h.sound ht).linked
  have hs : Shifted t' p c none t'' := shifted_detach hlinked hok
  have hsame : ∀ m, t''.isLive m = t'.isLive m := by
    obtain ⟨_, _, rfl⟩ := (detach_eq_ok_iff hlinked).mp hok
    exact isLive_relink _ _ _ _ _
  refine h.step ht hs.edited hs.root [c] (fun m hm => ?_) (fun m hm => hsame m ▸ hm)
    (fun x hx _ => holds_of_mem hx) (fun m hm hm' => ?_) hs.trimmed
  · rw [hs.parent?, if_neg (mt List.mem_singleton.mpr hm)]
  · rw [hsame, hm] at hm'
    cases hm'

/-- A child is removed with everything below it. -/
lemma removeChild (hok : t'.removeChild p c = .ok t'')
    (hgone : ∀ m, t'.Reaches c m → t.isLive m = true → gone m) : Ledger t gone t'' spare := by
  have hlinked := (h.sound ht).linked
  have hs : Shifted t' p c none t'' := shifted_removeChild hlinked hok
  obtain ⟨hlive, hlink, ht''⟩ := (removeChild_eq_ok_iff hlinked).mp hok
  have hdead : t''.isLive c = false := by
    rw [ht'']
    exact isLive_discard_self _ c
  refine h.step ht hs.edited hs.root [c] (fun m hm => ?_) (fun m hm => (hs.fades m hm).1)
    (fun x hx hxlive => ?_) (fun m hm hm' hold => ?_) hs.trimmed
  · rw [hs.parent?, if_neg (mt List.mem_singleton.mpr hm)]
  · rcases List.mem_cons.mp hx with rfl | hx
    · rw [hdead] at hxlive
      cases hxlive
    · exact holds_of_mem hx
  · refine hgone m (by_contra fun hnot => ?_) hold
    obtain ⟨t₁, hok₁, _, hsame⟩ := exists_removeChild hlinked hlink hlive
    obtain rfl := Except.ok.inj (hok.symm.trans hok₁)
    rw [hsame m hnot, hm] at hm'
    cases hm'

end edits

section attaching

variable (ht : t.Sound)
include ht

/-- A spare node that has been attached to a live one is spare no longer. -/
lemma attach (h : Ledger t gone t' (c :: spare)) (hc : t'.Attachable p c)
    (hs : Shifted t' p c (some p) t'') (hsame : ∀ m, t''.isLive m = t'.isLive m) :
    Ledger t gone t'' spare := by
  have hcut : ∀ m ∉ [c], t''.parent? m = t'.parent? m := fun m hm => by
    rw [hs.parent?, if_neg (mt List.mem_singleton.mpr hm)]
  have hlink : t''.Link p c := by rw [Link, hs.parent?, if_pos rfl]
  have hlinked : t''.WellLinked := ((h.sound ht).edited hs.edited).linked
  -- the parent is accounted for, and not through the node itself
  have hparent : t''.Holds spare p := by
    obtain ⟨a, ha, hap⟩ := h.holds p hc.parent_live
    have ha' : a ∈ t''.root :: spare := by
      rw [hs.root]
      refine List.mem_cons.mpr ((List.mem_cons.mp ha).imp_right fun ha => ?_)
      exact (List.mem_cons.mp ha).resolve_left fun he => hc.not_above (he ▸ hap)
    rcases reaches_of_cut hcut hap with hap' | ⟨d, hd, hdp⟩
    · exact ⟨a, ha', hap'⟩
    · rw [List.mem_singleton.mp hd] at hdp
      exact absurd hdp (hlinked.not_reaches_of_link hlink)
  refine h.step ht hs.edited hs.root [c] hcut (fun m hm => hsame m ▸ hm) (fun x hx _ => ?_)
    (fun m hm hm' => ?_) hs.trimmed
  · simp only [List.cons_append, List.nil_append, List.mem_cons] at hx
    rcases hx with rfl | rfl | hx
    · exact hparent.below hlink.reaches
    · exact hparent.below hlink.reaches
    · exact holds_of_mem hx
  · rw [hsame, hm] at hm'
    cases hm'

lemma pushChild (h : Ledger t gone t' (c :: spare)) (hok : t'.pushChild p c = .ok t'') :
    Ledger t gone t'' spare := by
  have hlinked := (h.sound ht).linked
  have hs := shifted_pushChild hlinked hok
  obtain ⟨hc, rfl⟩ := (pushChild_eq_ok_iff hlinked).mp hok
  exact h.attach ht hc hs (isLive_relink _ _ _ _ _)

lemma insertChild (h : Ledger t gone t' (c :: spare)) (hok : t'.insertChild p 0 c = .ok t'') :
    Ledger t gone t'' spare := by
  have hlinked := (h.sound ht).linked
  have hs := (shifted_insertChild hlinked hok).1
  obtain ⟨hc, _, rfl⟩ := (insertChild_eq_ok_iff hlinked).mp hok
  exact h.attach ht hc hs (isLive_relink _ _ _ _ _)

lemma pushChildren {children : List NodeId} (h : Ledger t gone t' (p :: (children ++ spare)))
    (hok : t'.pushChildren p children = (t'', .ok ())) : Ledger t gone t'' (p :: spare) := by
  induction children generalizing t' with
  | nil =>
    cases hok
    exact h
  | cons c children ih =>
    rw [pushChildren_cons] at hok
    split at hok
    · next t₁ hpush =>
      have hsub : p :: (c :: children ++ spare) ⊆ c :: p :: (children ++ spare) :=
        (List.Perm.swap _ _ _).subset
      exact ih ((h.mono hsub).pushChild ht hpush) hok
    · cases hok

/-- A spare node takes the place of another one, which is gone with everything below it. -/
lemma replace {old new : NodeId} (h : Ledger t gone t' (new :: spare)) (hroot : old ≠ t.root)
    (hok : t'.replace old new = .ok t'')
    (hgone : ∀ m, t'.Reaches old m → t.isLive m = true → gone m) : Ledger t gone t'' spare := by
  obtain ⟨p, hp⟩ : ∃ p, t'.Link p old := by
    obtain ⟨_, ⟨p, hp, _⟩ | ⟨_, he, _⟩⟩ := (replace_eq_ok_iff (h.sound ht).linked).mp hok
    · exact ⟨p, hp⟩
    · exact absurd (he.trans h.root) hroot
  have hr := replaced_replace (h.sound ht).linked hp hok
  have hlinked : t''.WellLinked := ((h.sound ht).edited hr.edited).linked
  have hne : new ≠ old := by
    rintro rfl
    rw [Link, hr.attachable.free] at hp
    cases hp
  have hlink : t''.Link p new := by rw [Link, hr.parent?, if_neg hne, if_pos rfl]
  have hcut : ∀ m ∉ [old, new], t''.parent? m = t'.parent? m := fun m hm => by
    rw [hr.parent?, if_neg fun he => hm (by simp [he]), if_neg fun he => hm (by simp [he])]
  have hdead : ¬ t''.isLive old = true := by simp [hr.dead]
  -- the parent is accounted for, neither through the old child nor through the new one
  have hnew : t''.isLive new = true → t''.Holds spare new := fun hlive => by
    obtain ⟨a, ha, hap⟩ := h.holds p hr.attachable.parent_live
    have ha' : a ∈ t''.root :: spare := by
      rw [hr.root]
      refine List.mem_cons.mpr ((List.mem_cons.mp ha).imp_right fun ha => ?_)
      refine (List.mem_cons.mp ha).resolve_left fun he => ?_
      exact hr.attachable.not_above (he ▸ hap)
    rcases reaches_of_cut hcut hap with hap' | ⟨d, hd, hdp⟩
    · exact ⟨a, ha', hap'.trans hlink.reaches⟩
    · rcases List.mem_cons.mp hd with rfl | hd
      · exact absurd ((hlinked.isLive_of_reaches (hdp.trans hlink.reaches)).trans hlive) hdead
      · rw [List.mem_singleton.mp hd] at hdp
        exact absurd hdp (hlinked.not_reaches_of_link hlink)
  refine h.step ht hr.edited hr.root [old, new] hcut hr.live (fun x hx hlive => ?_)
    (fun m hm hm' hold => hgone m (hr.below m hm hm') hold) hr.trimmed
  simp only [List.cons_append, List.nil_append, List.mem_cons] at hx
  rcases hx with rfl | rfl | rfl | hx
  · exact absurd hlive hdead
  · exact hnew hlive
  · exact hnew hlive
  · exact holds_of_mem hx

/-- The construct of a node is changed. -/
lemma setConstruct (h : Ledger t gone t' spare) (hc : c < t.size) (k : Construct) :
    Ledger t gone (t'.setConstruct c k) spare := by
  have hc' : c < t'.size := Nat.lt_of_lt_of_le hc h.edited.grown.size_le
  have hsame : ∀ m, (t'.setConstruct c k).isLive m = t'.isLive m := isLive_setConstruct c k
  refine h.step ht (reshaped_setConstruct hc' k).edited (root_setConstruct c k) []
    (fun m _ => parent?_setConstruct ..) (fun m hm => hsame m ▸ hm) (fun x hx _ => holds_of_mem hx)
    (fun m hm hm' => ?_) fun m => ?_
  · rw [hsame, hm] at hm'
    cases hm'
  · rw [Tree.setConstruct, attributes_modifySlot]
    exact t'.attributes.trimmed_erase c .resolvedType m

end attaching

/-- A flag is set. -/
lemma setFlag (h : Ledger t gone t' spare) (c : NodeId) {key : AttributeKey}
    (hkey : key ≠ .layout) : Ledger t gone (t'.setAttribute c key (.flag true)) spare where
  edited := h.edited.trans (t'.edited_setAttribute c key _)
  root := h.root
  holds := h.holds
  lost := h.lost
  layouts m e he he' := by
    refine h.layouts m e (Attributes.mem_of_mem_set he ?_) he'
    rw [he']
    exact hkey.symm

end Ledger

/-! ### Balances -/

/-- The tree `t'` after work on `t` that has been brought to an end: it is whole with the same root,
what was live and is not is gone, and no formatting data has been added. -/
structure Balance (t : Tree) (gone : NodeId → Prop) (t' : Tree) : Prop where
  sound : t'.Sound
  whole : t'.Whole
  root : t'.root = t.root
  lost : ∀ m, t.isLive m = true → t'.isLive m = false → gone m
  layouts : ∀ m, ∀ e ∈ t'.attributes.ofNode m, e.key = .layout → e ∈ t.attributes.ofNode m

lemma Ledger.balance (h : Ledger t gone t' []) (ht : t.Sound) : Balance t gone t' :=
  ⟨h.sound ht, h.whole, h.root, h.lost, h.layouts⟩

namespace Balance

lemma refl (ht : t.Sound) (h : t.Whole) (gone : NodeId → Prop) : Balance t gone t :=
  ((Ledger.start h gone).balance ht)

lemma trans {gone' : NodeId → Prop} (h : Balance t gone t') (h' : Balance t' gone' t'') :
    Balance t (fun m => gone m ∨ gone' m) t'' where
  sound := h'.sound
  whole := h'.whole
  root := h'.root.trans h.root
  lost m hm hm' := by
    cases hmid : t'.isLive m with
    | true => exact Or.inr (h'.lost m hmid hm')
    | false => exact Or.inl (h.lost m hm hmid)
  layouts m e he hkey := h.layouts m e (h'.layouts m e he hkey) hkey

lemma weaken {gone' : NodeId → Prop} (h : Balance t gone t')
    (hgone : ∀ m, t.isLive m = true → t'.isLive m = false → gone m → gone' m) :
    Balance t gone' t' :=
  { h with lost := fun m hm hm' => hgone m hm hm' (h.lost m hm hm') }

/-- The work is done under a checkpoint. -/
lemma commit (h : Balance t.checkpoint gone t') : Balance t gone t'.commit :=
  ⟨h.sound.commit, h.whole, h.root, h.lost, h.layouts⟩

end Balance

/-! ### Pruned trees -/

/-- Every link of `t'` to an old node is one of `t`, and leads to none of the nodes taken out. -/
def Pruned (t : Tree) (out : List NodeId) (t' : Tree) : Prop :=
  ∀ p c, t'.Link p c → c < t.size → t.Link p c ∧ c ∉ out

lemma Pruned.refl (t : Tree) : Pruned t [] t := fun _ _ h _ => ⟨h, List.not_mem_nil⟩

lemma Pruned.moved (h : Pruned t out t') (hm : Moved t' c none t'') : Pruned t (c :: out) t'' := by
  intro p d hlink hd
  rw [Link, hm.parent?] at hlink
  split at hlink
  · cases hlink
  · next hne =>
    obtain ⟨hold, hout⟩ := h p d hlink hd
    exact ⟨hold, fun hin => (List.mem_cons.mp hin).elim hne hout⟩

lemma Pruned.widen (h : Pruned t out t') (hfree : t'.parent? c = none) :
    Pruned t (c :: out) t' := by
  intro p d hlink hd
  obtain ⟨hold, hout⟩ := h p d hlink hd
  refine ⟨hold, fun hin => (List.mem_cons.mp hin).elim (fun he => ?_) hout⟩
  rw [Link, he, hfree] at hlink
  cases hlink

lemma Graft.pruned (h : Graft t t.size [] t') : Pruned t [] t' := by
  intro p d hlink hd
  refine ⟨?_, List.not_mem_nil⟩
  rcases h.link hlink with hold | ⟨_, hnew⟩ | ⟨_, hnew⟩
  · exact hold
  · simp only [List.not_mem_nil, or_false] at hnew
    exact absurd hd (Nat.not_lt.mpr hnew)
  · exact absurd hd (Nat.not_lt.mpr hnew)

/-- What lies below a node lay below it before, and below nothing taken out further down. -/
lemma Pruned.reaches (h : Pruned t out t') (ht : t.WellLinked) (ham : t'.Reaches a m)
    (hm : m < t.size) : t.Reaches a m ∧ ∀ o ∈ out, t.Reaches o m → t.Reaches o a := by
  induction ham with
  | refl => exact ⟨Reaches.refl a, fun _ _ ho => ho⟩
  | @tail b c _ hlink ih =>
    obtain ⟨hold, hout⟩ := h b c hlink hm
    obtain ⟨hab, hclear⟩ := ih (ht.link_lt hold).1
    refine ⟨hab.trans hold.reaches, fun o ho hoc => hclear o ho ?_⟩
    rcases reaches_iff.mp hoc with rfl | ⟨q, hq, hoq⟩
    · exact absurd ho hout
    · rwa [← hq.unique hold]

end Tree

end CodeMigration
