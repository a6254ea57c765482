import CodeMigration.Proofs.Tree.History

/-!
# The place of a node

An edit at a node leaves the tree around it alone, except that other nodes, or none, may stand in
its place afterwards. `Tree.Occupied` says which. What has been said for one node of the new row and
what is done there next adds up (`Occupied.trans`), and what is done in the place of a child leaves
its parent in place (`Occupied.of_child`).
-/

namespace CodeMigration

namespace Tree

/-! ### Rows in a list -/

/-- The list with a row in the place of `n`. -/
def put (n : NodeId) (row l : List NodeId) : List NodeId :=
  l.flatMap fun c => if c = n then row else [c]

section put

variable {n m : NodeId} {row l : List NodeId}

@[simp] lemma put_nil : put n row [] = [] := rfl

lemma put_cons (c : NodeId) (l : List NodeId) :
    put n row (c :: l) = (if c = n then row else [c]) ++ put n row l := List.flatMap_cons

lemma put_append (l l' : List NodeId) : put n row (l ++ l') = put n row l ++ put n row l' :=
  List.flatMap_append

lemma put_of_not_mem (h : n ∉ l) : put n row l = l := by
  induction l with
  | nil => rfl
  | cons c l ih =>
    rw [List.mem_cons, not_or] at h
    rw [put_cons, if_neg (Ne.symm h.1), ih h.2, List.singleton_append]

/-- A list without repetitions around one of its nodes. -/
lemma put_split (hl : l.Nodup) (hn : n ∈ l) :
    ∃ l₁ l₂, l = l₁ ++ n :: l₂ ∧ n ∉ l₁ ∧ n ∉ l₂ ∧ ∀ row, put n row l = l₁ ++ row ++ l₂ := by
  obtain ⟨l₁, l₂, rfl⟩ := List.append_of_mem hn
  have hnot : n ∉ l₁ ++ l₂ := (List.nodup_middle.mp hl).notMem
  rw [List.mem_append, not_or] at hnot
  refine ⟨l₁, l₂, rfl, hnot.1, hnot.2, fun row => ?_⟩
  rw [put_append, put_cons, if_pos rfl, put_of_not_mem hnot.1, put_of_not_mem hnot.2,
    List.append_assoc]

@[simp] lemma put_self (l : List NodeId) : put n [n] l = l := by
  induction l with
  | nil => rfl
  | cons c l ih =>
    rw [put_cons, ih]
    split
    · next hc => rw [hc, List.singleton_append]
    · rfl

lemma mem_put : m ∈ put n row l ↔ (n ∈ l ∧ m ∈ row) ∨ (m ∈ l ∧ m ≠ n) := by
  rw [put, List.mem_flatMap]
  constructor
  · rintro ⟨c, hc, hm⟩
    split at hm
    · next hcn => exact Or.inl ⟨hcn ▸ hc, hm⟩
    · next hcn =>
      obtain rfl := List.mem_singleton.mp hm
      exact Or.inr ⟨hc, hcn⟩
  · rintro (⟨hn, hm⟩ | ⟨hm, hne⟩)
    · exact ⟨n, hn, by rwa [if_pos rfl]⟩
    · exact ⟨m, hm, by rw [if_neg hne]; exact List.mem_singleton_self m⟩

/-- What goes from a row makes no difference if it is filtered out. -/
lemma filter_put_nil {f : NodeId → Bool} (hf : f n = false) (l : List NodeId) :
    (put n [] l).filter f = l.filter f := by
  induction l with
  | nil => rfl
  | cons x l ih =>
    rw [put_cons, List.filter_append, ih, List.filter_cons]
    split
    · next hx =>
      rw [hx, hf]
      rfl
    · rw [List.filter_singleton]
      cases f x <;> rfl

/-- A row in the place of one node of a row. -/
lemma put_put {x : NodeId} {before after new : List NodeId} (hrow : (before ++ x :: after).Nodup)
    (hl : ∀ c ∈ l, c ≠ n → c ≠ x) :
    put x new (put n (before ++ x :: after) l) = put n (before ++ new ++ after) l := by
  induction l with
  | nil => rfl
  | cons c l ih =>
    have hnot : x ∉ before ++ after := (List.nodup_middle.mp hrow).notMem
    rw [List.mem_append, not_or] at hnot
    rw [put_cons, put_append, ih fun d hd => hl d (List.mem_cons_of_mem c hd), put_cons]
    congr 1
    split
    · rw [put_append, put_cons, if_pos rfl, put_of_not_mem hnot.1, put_of_not_mem hnot.2,
        List.append_assoc]
    · next hc =>
      refine put_of_not_mem fun hx => hl c List.mem_cons_self hc ?_
      exact (List.mem_singleton.mp hx).symm

/-- A node of the row stands nowhere else in the list. -/
lemma not_mem_of_nodup_put (h : (put n row l).Nodup) (hl : l.Nodup) (hn : n ∈ l) (hm : m ∈ row)
    (hne : m ≠ n) : m ∉ l := by
  obtain ⟨l₁, l₂, rfl, _, _, hput⟩ := put_split hl hn
  rw [hput, List.append_assoc, List.nodup_append', List.nodup_append'] at h
  obtain ⟨_, ⟨_, _, hafter⟩, hbefore⟩ := h
  intro hin
  rcases List.mem_append.mp hin with hin | hin
  · exact hbefore hin (List.mem_append_left _ hm)
  · exact hafter hm ((List.mem_cons.mp hin).resolve_left hne)

lemma splice_eq_put (hl : l.Nodup) (hn : n ∈ l) : splice l n row = put n row l := by
  obtain ⟨l₁, l₂, rfl, hnot, _, hput⟩ := put_split hl hn
  have hidx : (l₁ ++ n :: l₂).idxOf n = l₁.length := by
    rw [List.idxOf_append_of_notMem hnot, List.idxOf_cons_self, Nat.add_zero]
  rw [hput, splice, hidx]
  simp

end put

/-! ### Places -/

/-- The row stands in `t'` where `n` stood in `t`: as the root if `n` was the root, and in every
child list outside the subtree of `n`. -/
structure Occupied (t : Tree) (n : NodeId) (row : List NodeId) (t' : Tree) : Prop where
  of_root : n = t.root → row = [t'.root]
  root : n ≠ t.root → t'.root = t.root
  children : ∀ p, t.Reaches t.root p → ¬ t.Reaches n p → t'.children p = put n row (t.children p)

variable {t t' t'' : Tree} {n m p : NodeId} {row : List NodeId}

lemma Occupied.of_same (hroot : t'.root = t.root)
    (h : ∀ p, t.Reaches t.root p → ¬ t.Reaches n p → t'.children p = t.children p) :
    Occupied t n [n] t' where
  of_root hn := by rw [hn, hroot]
  root _ := hroot
  children p hp hout := by rw [h p hp hout, put_self]

lemma Occupied.refl (t : Tree) (n : NodeId) : Occupied t n [n] t := .of_same rfl fun _ _ _ => rfl

/-- An attached node outside the subtree of `n`. -/
structure Outside (t : Tree) (n m : NodeId) : Prop where
  attached : t.Reaches t.root m
  out : ¬ t.Reaches n m

namespace Outside

lemma ne (h : Outside t n m) : m ≠ n := by
  rintro rfl
  exact h.out (Reaches.refl m)

lemma ne_root (h : Outside t n m) : n ≠ t.root := by
  rintro rfl
  exact h.out h.attached

lemma above (ht : t.WellLinked) (h : Outside t n m) (hlink : t.Link p m) : Outside t n p :=
  ⟨ht.attached_of_link hlink h.attached, fun hp => h.out (hp.trans hlink.reaches)⟩

lemma child (h : Outside t n p) (hlink : t.Link p m) (hne : m ≠ n) : Outside t n m := by
  refine ⟨h.attached.trans hlink.reaches, fun hm => ?_⟩
  rcases reaches_iff.mp hm with hnm | ⟨q, hq, hnq⟩
  · exact hne hnm.symm
  · exact h.out (hq.unique hlink ▸ hnq)

end Outside

/-- The root lies outside every other subtree. -/
lemma WellLinked.outside_root (ht : t.WellLinked) (hn : n ≠ t.root) : Outside t n t.root :=
  ⟨Reaches.refl _, fun h => hn (h.eq_of_free ht.root_free)⟩

/-- The parent of an attached node lies outside its subtree. -/
lemma WellLinked.outside_parent (ht : t.WellLinked) (hlink : t.Link p n)
    (hn : t.Reaches t.root n) : Outside t n p :=
  ⟨ht.attached_of_link hlink hn, ht.not_reaches_of_link hlink⟩

/-- An attached node other than the root has a parent. -/
lemma exists_link_of_ne_root (hn : t.Reaches t.root n) (hne : n ≠ t.root) : ∃ p, t.Link p n := by
  rcases reaches_iff.mp hn with hroot | ⟨p, hp, _⟩
  · exact absurd hroot.symm hne
  · exact ⟨p, hp⟩

namespace Occupied

section links

variable (h : Occupied t n row t') (ht : t.WellLinked) (ht' : t'.WellLinked)
include h ht ht'

lemma link_iff (hp : Outside t n p) {c : NodeId} :
    t'.Link p c ↔ (t.Link p n ∧ c ∈ row) ∨ (t.Link p c ∧ c ≠ n) := by
  rw [← ht'.mem_children_iff, h.children p hp.attached hp.out, mem_put, ht.mem_children_iff,
    ht.mem_children_iff]

/-- A node outside keeps its parent. -/
lemma parent? (hm : Outside t n m) : t'.parent? m = t.parent? m := by
  cases hparent : t.parent? m with
  | some q =>
    exact (h.link_iff ht ht' (hm.above ht hparent)).mpr (Or.inr ⟨hparent, hm.ne⟩)
  | none =>
    have hroot : t.root = m := hm.attached.eq_of_free hparent
    rw [← hroot, ← h.root hm.ne_root]
    exact ht'.root_free

/-- The way up from a node outside stays the same. -/
lemma reaches_iff_outside (hm : Outside t n m) {a : NodeId} :
    t'.Reaches a m ↔ t.Reaches a m := by
  induction m using ht.wellFounded.induction with
  | _ m ih =>
    have hlink : ∀ q, t'.Link q m ↔ t.Link q m := fun q => by
      rw [Link, h.parent? ht ht' hm, Link]
    rw [Tree.reaches_iff, Tree.reaches_iff (t := t)]
    refine or_congr_right (exists_congr fun q => ?_)
    rw [hlink]
    exact and_congr_right fun hq => ih q hq (hm.above ht hq)

lemma attached (hm : Outside t n m) : t'.Reaches t'.root m := by
  rw [h.root hm.ne_root, h.reaches_iff_outside ht ht' hm]
  exact hm.attached

variable (hn : t.Reaches t.root n)
include hn

/-- The nodes of the row are attached. -/
lemma attached_row {x : NodeId} (hx : x ∈ row) : t'.Reaches t'.root x := by
  by_cases hroot : n = t.root
  · rw [h.of_root hroot, List.mem_singleton] at hx
    rw [hx]
  · obtain ⟨q, hq⟩ := exists_link_of_ne_root hn hroot
    have hout : Outside t n q := ht.outside_parent hq hn
    have hlink : t'.Link q x := (h.link_iff ht ht' hout).mpr (Or.inl ⟨hq, hx⟩)
    exact (h.attached ht ht' hout).trans hlink.reaches

lemma nodup_row : row.Nodup := by
  by_cases hroot : n = t.root
  · rw [h.of_root hroot]
    exact List.nodup_singleton _
  · obtain ⟨q, hq⟩ := exists_link_of_ne_root hn hroot
    have hout : Outside t n q := ht.outside_parent hq hn
    obtain ⟨l₁, l₂, _, _, _, hput⟩ :=
      put_split (ht.nodup_children q) ((ht.mem_children_iff q n).mpr hq)
    have hnodup := ht'.nodup_children q
    rw [h.children q hout.attached hout.out, hput] at hnodup
    exact (hnodup.of_append_left).of_append_right

/-- A node outside lies below no node of the row. -/
lemma not_reaches_row {x : NodeId} (hx : x ∈ row) (hm : Outside t n m) : ¬ t'.Reaches x m := by
  rw [h.reaches_iff_outside ht ht' hm]
  intro hxm
  obtain ⟨q, hq⟩ := exists_link_of_ne_root hn hm.ne_root
  have hqout : Outside t n q := ht.outside_parent hq hn
  have hxq : t'.Link q x := (h.link_iff ht ht' hqout).mpr (Or.inl ⟨hq, hx⟩)
  -- then `x` would be listed below the parent of `n` twice
  have hxout : Outside t n x := by
    refine ⟨?_, fun hnx => hm.out (hnx.trans hxm)⟩
    rcases hxm.total hm.attached with hxroot | hroot
    · rw [hxroot.eq_of_free ht.root_free]
    · exact hroot
  have hlink : t.Link q x := by rwa [Link, ← h.parent? ht ht' hxout]
  have hnodup := ht'.nodup_children q
  rw [h.children q hqout.attached hqout.out] at hnodup
  exact not_mem_of_nodup_put hnodup (ht.nodup_children q) ((ht.mem_children_iff q n).mpr hq) hx
    hxout.ne ((ht.mem_children_iff q x).mpr hlink)

/-- What lies below the row and was attached before lay below `n`. -/
lemma reaches_of_below {x : NodeId} (hx : x ∈ row) (hxm : t'.Reaches x m)
    (hm : t.Reaches t.root m) : t.Reaches n m := by
  by_contra hout
  exact h.not_reaches_row ht ht' hn hx ⟨hm, hout⟩ hxm

/-- The nodes of the row lie below none of each other. -/
lemma row_apart {x y : NodeId} (hx : x ∈ row) (hy : y ∈ row) (hne : x ≠ y) : ¬ t'.Reaches x y := by
  intro hxy
  by_cases hroot : n = t.root
  · rw [h.of_root hroot, List.mem_singleton] at hx hy
    exact hne (hx.trans hy.symm)
  · obtain ⟨q, hq⟩ := exists_link_of_ne_root hn hroot
    have hout : Outside t n q := ht.outside_parent hq hn
    have hlink : ∀ z ∈ row, t'.Link q z := fun z hz =>
      (h.link_iff ht ht' hout).mpr (Or.inl ⟨hq, hz⟩)
    exact hne (ht'.eq_of_siblings (hlink x hx) (hlink y hy) hxy (Reaches.refl y))

omit hn in
/-- What lies below a node that is apart from `n` has always been there. -/
lemma outside_of_below {z : NodeId} (hz : Outside t n z) (hzn : ¬ t.Reaches z n)
    (hm : t'.Reaches z m) : Outside t n m ∧ t.Reaches z m := by
  induction hm with
  | refl => exact ⟨hz, Reaches.refl z⟩
  | @tail q c _ hlink ih =>
    obtain ⟨hq, hzq⟩ := ih
    rcases (h.link_iff ht ht' hq).mp hlink with ⟨hn, _⟩ | ⟨hc, hne⟩
    · exact absurd (hzq.trans hn.reaches) hzn
    · exact ⟨hq.child hc hne, hzq.trans hc.reaches⟩

end links

/-- What is done in the place of one node of the row. -/
lemma trans {x : NodeId} {before after new : List NodeId}
    (h : Occupied t n (before ++ x :: after) t') (h' : Occupied t' x new t'') (ht : t.WellLinked)
    (ht' : t'.WellLinked) (hn : t.Reaches t.root n) :
    Occupied t n (before ++ new ++ after) t'' := by
  have hx : x ∈ before ++ x :: after := List.mem_append_right _ List.mem_cons_self
  refine ⟨fun hroot => ?_, fun hroot => ?_, fun p hp hout => ?_⟩
  · obtain ⟨rfl, hcons⟩ | ⟨_, hnil⟩ := List.append_eq_singleton_iff.mp (h.of_root hroot)
    · obtain ⟨hxroot, rfl⟩ := List.cons_eq_cons.mp hcons
      rw [h'.of_root hxroot]
      rfl
    · cases hnil
  · have hxroot : x ≠ t'.root := by
      rintro rfl
      exact h.not_reaches_row ht ht' hn hx (ht.outside_root hroot)
        (h.root hroot ▸ Reaches.refl _)
    rw [h'.root hxroot, h.root hroot]
  · have hp' : Outside t n p := ⟨hp, hout⟩
    rw [h'.children p (h.attached ht ht' hp') (h.not_reaches_row ht ht' hn hx hp'),
      h.children p hp hout, put_put (h.nodup_row ht ht' hn)]
    intro c hc hne hcx
    have hc' : Outside t n c := hp'.child ((ht.mem_children_iff p c).mp hc) hne
    exact h.not_reaches_row ht ht' hn hx hc' (hcx ▸ Reaches.refl c)

/-- What is done in the place of the only node. -/
lemma trans_single {x : NodeId} {new : List NodeId} (h : Occupied t n [x] t')
    (h' : Occupied t' x new t'') (ht : t.WellLinked) (ht' : t'.WellLinked)
    (hn : t.Reaches t.root n) : Occupied t n new t'' := by
  have hsingle : Occupied t n ([] ++ x :: []) t' := h
  have hrow := hsingle.trans h' ht ht' hn
  rwa [List.nil_append, List.append_nil] at hrow

/-- What is done in the place of a child leaves the parent where it is. -/
lemma of_child (ht : t.WellLinked) (hlink : t.Link p m) (h : Occupied t m row t') :
    Occupied t p [p] t' := by
  refine of_same (h.root (ht.ne_root_of_link hlink)) fun q hq hout => ?_
  rw [h.children q hq fun hmq => hout (hlink.reaches.trans hmq), put_of_not_mem]
  intro hm
  obtain rfl := ((ht.mem_children_iff q m).mp hm).unique hlink
  exact hout (Reaches.refl q)

end Occupied

/-! ### Removal -/

lemma mem_descendants_self (hn : n < t.size) : n ∈ t.descendants n := by
  obtain ⟨k, hk⟩ := Nat.exists_eq_succ_of_ne_zero (Nat.ne_zero_of_lt hn)
  rw [descendants, hk, preorder]
  exact List.mem_cons_self

lemma isLive_discard_self (t : Tree) (n : NodeId) : (t.discard n).isLive n = false := by
  rw [isLive_discard, Bool.and_eq_false_iff, Bool.not_eq_false', decide_eq_true_iff]
  rcases Nat.lt_or_ge n t.size with hlt | hge
  · exact Or.inr (mem_descendants_self hlt)
  · rw [isLive, t.slot?_eq_none_iff.mpr hge]
    exact Or.inl rfl

/-- A removal takes the node out of its child list, if it is in one, and discards it. -/
lemma WellLinked.children_remove (ht : t.WellLinked) (hok : t.remove n = .ok t') :
    t'.root = t.root ∧ t'.isLive n = false ∧ ∀ p, t'.children p = put n [] (t.children p) := by
  have hother : ∀ q, ¬ t.Link q n → t.children q = put n [] (t.children q) := fun q hq => by
    rw [put_of_not_mem]
    rwa [ht.mem_children_iff]
  obtain ⟨_, ⟨p, hlink, hremove⟩ | ⟨hfree, _, rfl⟩⟩ := remove_eq_ok_iff.mp hok
  · obtain ⟨_, _, rfl⟩ := (removeChild_eq_ok_iff ht).mp hremove
    refine ⟨by simp, isLive_discard_self _ n, fun q => ?_⟩
    rw [children_discard]
    show (t.relink p _ [] [n]).children q = _
    rw [children_relink _ _ _ _ _ (ht.link_lt hlink).1]
    by_cases hq : q = p
    · rw [if_pos hq, hq, splice_eq_put (ht.nodup_children p) ((ht.mem_children_iff p n).mpr hlink)]
    · rw [if_neg hq]
      exact hother q fun h => hq (h.unique hlink)
  · refine ⟨by simp, isLive_discard_self t n, fun q => ?_⟩
    show (t.discard n).children q = _
    rw [children_discard]
    refine hother q fun h => ?_
    rw [Link, hfree] at h
    cases h

end Tree

end CodeMigration
