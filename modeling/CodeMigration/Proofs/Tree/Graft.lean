import CodeMigration.Proofs.Tree.Frame
import CodeMigration.Proofs.Tree.Place

/-!
# Grafts

An edit of a migration takes nodes out of a tree, builds new nodes around some of them, and hangs
what it has built below one node. `Tree.Graft` follows such an edit by its links: every link is an
old one, or it leads from a new node to a new or a moved one, or from the one node to a new one. As
no new node is a declaration, every old node stays in the namespace and the class it was in.
-/

namespace CodeMigration

/-- Kinds that give names to what stands below them. -/
def Kind.declares (k : Kind) : Bool := k == .namespaceDecl || k == .classDecl || k == .method

namespace Tree

variable {t t' t'' : Tree} {p c n m : NodeId} {k : Kind}

/-! ### Enclosing nodes -/

/-- The node of a kind around what hangs below `a`. -/
def within? (t : Tree) (a : NodeId) (k : Kind) : Option NodeId :=
  if t.hasKind a k then some a else t.enclosing? a k

/-! ### Shifts -/

/-- An edit of the row of `p` that gives the node `c` the parent `q`. -/
structure Shifted (t : Tree) (p c : NodeId) (q : Option NodeId) (t' : Tree) : Prop
    extends Moved t c q t' where
  children : ∀ m, m ≠ p → t'.children m = t.children m
  trimmed : Attributes.Trimmed t.attributes t'.attributes

section shifts

variable (h : t.WellLinked)
include h

lemma shifted_detach (hok : t.detach p c = .ok t') : Shifted t p c none t' := by
  obtain ⟨hlive, hlink, rfl⟩ := (detach_eq_ok_iff h).mp hok
  obtain ⟨t₁, hok₁, hmoved, _⟩ := exists_detach h hlink hlive
  obtain rfl := Except.ok.inj (hok.symm.trans hok₁)
  refine ⟨hmoved, fun m hm => ?_, ?_⟩
  · show (t.relink p _ [] [c]).children m = _
    rw [children_relink _ _ _ _ _ (h.link_lt hlink).1, if_neg hm]
  · show Attributes.Trimmed _ (t.relink p _ [] [c]).attributes
    rw [attributes_relink]
    exact .refl _

lemma shifted_removeChild (hok : t.removeChild p c = .ok t') : Shifted t p c none t' := by
  obtain ⟨hlive, hlink, rfl⟩ := (removeChild_eq_ok_iff h).mp hok
  obtain ⟨t₁, hok₁, hmoved, _⟩ := exists_removeChild h hlink hlive
  obtain rfl := Except.ok.inj (hok.symm.trans hok₁)
  refine ⟨hmoved, fun m hm => ?_, ?_⟩
  · rw [children_discard]
    show (t.relink p _ [] [c]).children m = _
    rw [children_relink _ _ _ _ _ (h.link_lt hlink).1, if_neg hm]
  · rw [attributes_discard]
    show Attributes.Trimmed _ ((t.relink p _ [] [c]).attributes.forget _)
    rw [attributes_relink]
    exact t.attributes.trimmed_forget _

lemma shifted_pushChild (hok : t.pushChild p c = .ok t') : Shifted t p c (some p) t' := by
  obtain ⟨hc, rfl⟩ := (pushChild_eq_ok_iff h).mp hok
  obtain ⟨t₁, hok₁, hmoved, _⟩ := exists_pushChild h hc
  obtain rfl := Except.ok.inj (hok.symm.trans hok₁)
  refine ⟨hmoved, fun m hm => ?_, ?_⟩
  · show (t.relink p _ [c] []).children m = _
    rw [children_relink _ _ _ _ _ (t.lt_size_of_isLive hc.parent_live), if_neg hm]
  · show Attributes.Trimmed _ (t.relink p _ [c] []).attributes
    rw [attributes_relink]
    exact .refl _

lemma shifted_insertChild (hok : t.insertChild p 0 c = .ok t') :
    Shifted t p c (some p) t' ∧ t'.children p = c :: t.children p := by
  obtain ⟨hc, _, rfl⟩ := (insertChild_eq_ok_iff h).mp hok
  obtain ⟨t₁, hok₁, hmoved, _⟩ := exists_insertChild h hc
  obtain rfl := Except.ok.inj (hok.symm.trans hok₁)
  have hrow : ∀ m, (t.relink p ((t.children p).insertIdx 0 c) [c] []).touch.children m =
      if m = p then c :: t.children p else t.children m := fun m => by
    show (t.relink p _ [c] []).children m = _
    rw [children_relink _ _ _ _ _ (t.lt_size_of_isLive hc.parent_live), List.insertIdx_zero]
  refine ⟨⟨hmoved, fun m hm => (hrow m).trans (if_neg hm), ?_⟩, (hrow p).trans (if_pos rfl)⟩
  show Attributes.Trimmed _ (t.relink p _ [c] []).attributes
  rw [attributes_relink]
  exact .refl _

end shifts

/-! ### Grafts -/

/-- `t'` is `t` with new nodes, some of them hung below `a`, some with nodes of `moved` below them.
Only `a` and the nodes that `moved` hung below have other rows of children, and no method has lost
an annotation. -/
structure Graft (t : Tree) (a : NodeId) (moved : List NodeId) (t' : Tree) : Prop where
  sound : t'.Sound
  root : t'.root = t.root
  size_le : t.size ≤ t'.size
  link : ∀ {p c}, t'.Link p c →
    t.Link p c ∨ (t.size ≤ p ∧ (t.size ≤ c ∨ c ∈ moved)) ∨ (p = a ∧ t.size ≤ c)
  construct? : ∀ x < t.size, t'.construct? x = t.construct? x
  fresh : ∀ x, t.size ≤ x → (t'.kind? x).any Kind.declares = false
  trimmed : Attributes.Trimmed t.attributes t'.attributes
  children : ∀ p < t.size, p ≠ a → (∀ v ∈ moved, ¬ t.Link p v) → t'.children p = t.children p
  tags : ∀ {p c}, t.Link p c → t.kind? p = some .method → t.kind? c = some .docTag → t'.Link p c

lemma lt_size_of_kind? (h : t.kind? n = some k) : n < t.size := by
  obtain ⟨d, hd, _⟩ := Option.map_eq_some_iff.mp h
  obtain ⟨s, hs, _⟩ := Option.map_eq_some_iff.mp hd
  exact t.lt_size_iff_slot?.mpr ⟨s, hs⟩

namespace Graft

variable {a : NodeId} {moved : List NodeId}

lemma start (ht : t.Sound) (a : NodeId) (moved : List NodeId) : Graft t a moved t where
  sound := ht
  root := rfl
  size_le := Nat.le_refl _
  link h := Or.inl h
  construct? _ _ := rfl
  fresh x hx := by
    rw [Tree.kind?, Tree.construct?, t.slot?_eq_none_iff.mpr hx]
    rfl
  trimmed := .refl _
  children _ _ _ _ := rfl
  tags h _ _ := h

lemma add (h : Graft t a moved t') {c : Construct} (hc : c.kind.declares = false) :
    Graft t a moved (t'.add c).1 where
  sound := h.sound.edited (t'.edited_add c)
  root := h.root
  size_le := by
    rw [size_add]
    exact Nat.le_succ_of_le h.size_le
  link hl := by
    rw [Link, parent?_add] at hl
    exact h.link hl
  construct? x hx := by
    have hne : x ≠ t'.size := Nat.ne_of_lt (Nat.lt_of_lt_of_le hx h.size_le)
    rw [Tree.construct?, slot?_add, if_neg hne]
    exact h.construct? x hx
  fresh x hx := by
    rw [Tree.kind?, Tree.construct?, slot?_add]
    split
    · exact hc
    · exact h.fresh x hx
  trimmed := h.trimmed
  children p hp hpa hmoved := by
    have hne : p ≠ t'.size := Nat.ne_of_lt (Nat.lt_of_lt_of_le hp h.size_le)
    rw [Tree.children, slot?_add, if_neg hne]
    exact h.children p hp hpa hmoved
  tags hl hp hc := by
    rw [Link, parent?_add]
    exact h.tags hl hp hc

/-- What has been built so far can be hung below any node. -/
lemma anchor (h : Graft t t.size moved t') (a : NodeId) : Graft t a moved t' := by
  refine ⟨h.sound, h.root, h.size_le, fun hl => ?_, h.construct?, h.fresh, h.trimmed,
    fun p hp _ => h.children p hp (Nat.ne_of_lt hp), h.tags⟩
  rcases h.link hl with hold | hnew | ⟨rfl, hc⟩
  · exact Or.inl hold
  · exact Or.inr (Or.inl hnew)
  · exact Or.inr (Or.inl ⟨Nat.le_refl _, Or.inl hc⟩)

/-- One row of a graft is edited. -/
lemma shift (h : Graft t a moved t') {q : Option NodeId} (hs : Shifted t' p c q t'')
    (hlink : ∀ {r}, q = some r →
      (t.size ≤ r ∧ (t.size ≤ c ∨ c ∈ moved)) ∨ (r = a ∧ t.size ≤ c))
    (hrow : p < t.size → p = a ∨ ∃ v ∈ moved, t.Link p v)
    (htag : ∀ {r}, t.Link r c → t.kind? r = some .method → t.kind? c ≠ some .docTag) :
    Graft t a moved t'' where
  sound := h.sound.edited hs.edited
  root := hs.root.trans h.root
  size_le := Nat.le_trans h.size_le (Nat.le_of_eq hs.size.symm)
  link {r x} hl := by
    rw [Link, hs.parent?] at hl
    split at hl
    · next hx =>
      rw [hx]
      exact Or.inr (hlink hl)
    · exact h.link hl
  construct? x hx := (hs.construct? x).trans (h.construct? x hx)
  fresh x hx := by
    rw [Tree.kind?, hs.construct?]
    exact h.fresh x hx
  trimmed := h.trimmed.trans hs.trimmed
  children r hr hra hmoved := by
    have hne : r ≠ p := by
      rintro rfl
      rcases hrow hr with hra' | ⟨v, hv, hlink⟩
      · exact hra hra'
      · exact hmoved v hv hlink
    rw [hs.children r hne, h.children r hr hra hmoved]
  tags {r x} hl hr hx := by
    have hne : x ≠ c := by
      rintro rfl
      exact htag hl hr hx
    rw [Link, hs.parent?, if_neg hne]
    exact h.tags hl hr hx

/-- A new node takes new and moved ones as children. -/
lemma pushChildren (h : Graft t a moved t') {id : NodeId} (hid : t.size ≤ id)
    {row : List NodeId} (hrow : ∀ c ∈ row, t.size ≤ c ∨ c ∈ moved)
    (hmoved : ∀ v ∈ moved, ∀ r, t.Link r v → t.kind? r ≠ some .method)
    (hok : t'.pushChildren id row = (t'', .ok ())) :
    Graft t a moved t'' ∧ ∀ x, t''.construct? x = t'.construct? x := by
  induction row generalizing t' with
  | nil =>
    cases hok
    exact ⟨h, fun _ => rfl⟩
  | cons c row ih =>
    rw [pushChildren_cons] at hok
    split at hok
    · next t₁ hpush =>
      have hs : Shifted t' id c (some id) t₁ := shifted_pushChild h.sound.linked hpush
      have h₁ : Graft t a moved t₁ := by
        refine h.shift hs ?_ (fun hlt => absurd hlt (Nat.not_lt.mpr hid)) ?_
        · rintro r ⟨⟩
          exact Or.inl ⟨hid, hrow c List.mem_cons_self⟩
        · intro r hl hr hx
          rcases hrow c List.mem_cons_self with hc | hc
          · exact absurd (lt_size_of_kind? hx) (Nat.not_lt.mpr hc)
          · exact hmoved c hc r hl hr
      obtain ⟨h₂, hsame⟩ := ih h₁ (fun d hd => hrow d (List.mem_cons_of_mem c hd)) hok
      exact ⟨h₂, fun x => (hsame x).trans (hs.construct? x)⟩
    · cases hok

lemma hasKind (h : Graft t a moved t') (hn : n < t.size) (k : Kind) :
    t'.hasKind n k = t.hasKind n k := by
  rw [Tree.hasKind, Tree.kind?, h.construct? n hn, Tree.hasKind, Tree.kind?]

section scopes

variable (h : Graft t a moved t') (ht : t.Sound)
  (hmoved : ∀ v ∈ moved, t.Reaches t.root v ∧
    ∀ k : Kind, k.declares = true → t.enclosing? v k = t.within? a k)
include h ht hmoved

/-- What is attached and was there before has been attached, and stands in the same declarations;
what is new stands in those that `a` stands in. -/
lemma scopes (hn : t'.Reaches t'.root n) :
    (n < t.size → t.Reaches t.root n ∧
      ∀ k : Kind, k.declares = true → t'.enclosing? n k = t.enclosing? n k) ∧
    (t.size ≤ n → ∀ k : Kind, k.declares = true → t'.enclosing? n k = t.within? a k) := by
  induction hn with
  | refl =>
    refine ⟨fun _ => ?_, fun hge => ?_⟩
    · rw [h.root]
      refine ⟨Reaches.refl _, fun k _ => ?_⟩
      rw [WellLinked.enclosing?_of_free ht.linked.root_free, WellLinked.enclosing?_of_free]
      rw [← h.root]
      exact h.sound.linked.root_free
    · rw [h.root] at hge
      exact absurd ht.linked.root_lt (Nat.not_lt.mpr hge)
  | @tail p c _ hlink ih =>
    have hlink : t'.Link p c := hlink
    have hup : ∀ k, t'.enclosing? c k = if t'.hasKind p k then some p else t'.enclosing? p k :=
      h.sound.linked.enclosing?_of_link hlink
    have hnew : t.size ≤ p → ∀ k : Kind, k.declares = true →
        t'.enclosing? c k = t.within? a k := by
      intro hp k hk
      have hkind : t'.hasKind p k = false := by
        rw [← Bool.not_eq_true, Tree.hasKind, beq_iff_eq]
        intro hpk
        have hfresh := h.fresh p hp
        rw [hpk, Option.any_some, hk] at hfresh
        cases hfresh
      rw [hup, hkind, if_neg Bool.false_ne_true, ih.2 hp k hk]
    rcases h.link hlink with hold | ⟨hp, hc⟩ | ⟨rfl, hc⟩
    · obtain ⟨hp, hc⟩ := ht.linked.link_lt hold
      obtain ⟨hattached, hsame⟩ := ih.1 hp
      refine ⟨fun _ => ⟨hattached.trans hold.reaches, fun k hk => ?_⟩,
        fun hge => absurd hc (Nat.not_lt.mpr hge)⟩
      rw [hup, h.hasKind hp, hsame k hk, ht.linked.enclosing?_of_link hold]
    · refine ⟨fun hlt => ?_, fun _ => hnew hp⟩
      obtain ⟨hattached, hwithin⟩ := hmoved c (hc.resolve_left (Nat.not_le.mpr hlt))
      exact ⟨hattached, fun k hk => (hnew hp k hk).trans (hwithin k hk).symm⟩
    · refine ⟨fun hlt => absurd hlt (Nat.not_lt.mpr hc), fun _ k hk => ?_⟩
      rcases Nat.lt_or_ge p t.size with hp | hp
      · rw [hup, h.hasKind hp, (ih.1 hp).2 k hk, within?]
      · exact hnew hp k hk

end scopes

end Graft

end Tree

end CodeMigration
