import CodeMigration.Proofs.Tree.Slots
import Mathlib.Data.List.Nodup
import Mathlib.Data.List.Perm.Subperm
import Mathlib.Logic.Relation
import Mathlib.Order.WellFounded

/-!
# Links of a tree

`Tree.WellLinked` says when the links of an arena form a forest: child lists and parent links agree
for every slot, discarded ones included, nothing is listed twice, nothing lies below itself, a node
is discarded together with its children, and the root is the top of a live tree.

In a well-linked arena the bounded searches of the library are exact. Following parent links for as
many steps as there are slots meets every node above (`isAncestorOrSelf_iff`), and going down for as
many levels meets every node below (`mem_descendants_iff`).
-/

namespace CodeMigration

namespace Tree

/-- `p` is the parent of `c`. -/
def Link (t : Tree) (p c : NodeId) : Prop := t.parent? c = some p

/-- `n` is `a` or lies below it. -/
def Reaches (t : Tree) (a n : NodeId) : Prop := Relation.ReflTransGen t.Link a n

/-- The links of the arena form a forest whose live part contains the root at the top of a tree. -/
structure WellLinked (t : Tree) : Prop where
  mem_children_iff : ∀ p c, c ∈ t.children p ↔ t.Link p c
  nodup_children : ∀ p, (t.children p).Nodup
  isLive_eq : ∀ p c, t.Link p c → t.isLive p = t.isLive c
  wellFounded : WellFounded t.Link
  root_live : t.isLive t.root = true
  root_free : t.parent? t.root = none

variable {t : Tree}

/-! ### Going up -/

lemma Link.unique {p q c : NodeId} (hp : t.Link p c) (hq : t.Link q c) : p = q :=
  Option.some.inj (hp.symm.trans hq)

@[refl] lemma Reaches.refl (n : NodeId) : t.Reaches n n := Relation.ReflTransGen.refl

lemma Reaches.trans {a b n : NodeId} (hab : t.Reaches a b) (hbn : t.Reaches b n) :
    t.Reaches a n := Relation.ReflTransGen.trans hab hbn

lemma Link.reaches {p c : NodeId} (h : t.Link p c) : t.Reaches p c :=
  Relation.ReflTransGen.single h

/-- A node is reached from itself and from what reaches its parent. -/
lemma reaches_iff {a n : NodeId} :
    t.Reaches a n ↔ a = n ∨ ∃ p, t.Link p n ∧ t.Reaches a p := by
  constructor
  · intro h
    rcases Relation.ReflTransGen.cases_tail h with h | ⟨p, hap, hpn⟩
    · exact Or.inl h.symm
    · exact Or.inr ⟨p, hpn, hap⟩
  · rintro (rfl | ⟨p, hp, h⟩)
    · exact Reaches.refl a
    · exact Relation.ReflTransGen.tail h hp

lemma Reaches.eq_of_free {a n : NodeId} (h : t.Reaches a n) (hn : t.parent? n = none) : a = n := by
  rcases reaches_iff.mp h with h | ⟨p, hp, _⟩
  · exact h
  · rw [Link, hn] at hp
    simp at hp

/-- Going up there is one way, so of two nodes above a third one is above the other. -/
lemma Reaches.total {a b n : NodeId} (ha : t.Reaches a n) (hb : t.Reaches b n) :
    t.Reaches a b ∨ t.Reaches b a := by
  induction ha with
  | refl => exact Or.inr hb
  | tail hap hpn ih =>
    rcases reaches_iff.mp hb with rfl | ⟨q, hq, hbq⟩
    · exact Or.inl (Relation.ReflTransGen.tail hap hpn)
    · obtain rfl := Link.unique hpn hq
      exact ih hbq

namespace WellLinked

variable (h : t.WellLinked)
include h

lemma link_of_child? {p c : NodeId} {i : Nat} (hc : t.child? p i = some c) : t.Link p c :=
  (h.mem_children_iff p c).mp (List.mem_of_getElem? hc)

lemma link_lt {p c : NodeId} (hp : t.Link p c) : p < t.size ∧ c < t.size :=
  ⟨t.lt_size_of_mem_children ((h.mem_children_iff p c).mpr hp), t.lt_size_of_parent? hp⟩

/-- What lies above a slot of the arena lies in it. -/
lemma lt_size_of_above {a n : NodeId} (han : t.Reaches a n) (hn : n < t.size) : a < t.size := by
  rcases Relation.ReflTransGen.cases_head han with rfl | ⟨c, hc, _⟩
  · exact hn
  · exact (h.link_lt hc).1

lemma root_lt : t.root < t.size := t.lt_size_of_isLive h.root_live

/-- Nothing lies below itself. -/
lemma acyclic (n : NodeId) : ¬ Relation.TransGen t.Link n n :=
  fun hn => h.wellFounded.transGen.irrefl.irrefl n hn

lemma not_reaches_of_link {p c : NodeId} (hp : t.Link p c) : ¬ t.Reaches c p :=
  fun hc => h.acyclic c (Relation.TransGen.tail' hc hp)

/-- Two children of one node have nothing below them in common. -/
lemma eq_of_siblings {p c d n : NodeId} (hc : t.Link p c) (hd : t.Link p d)
    (hcn : t.Reaches c n) (hdn : t.Reaches d n) : c = d := by
  have key : ∀ {c d}, t.Link p c → t.Link p d → t.Reaches c d → c = d := by
    intro c d hc hd hcd
    rcases reaches_iff.mp hcd with hcd | ⟨q, hq, hcq⟩
    · exact hcd
    · obtain rfl := Link.unique hd hq
      exact absurd hcq (h.not_reaches_of_link hc)
  rcases hcn.total hdn with hcd | hdc
  · exact key hc hd hcd
  · exact (key hd hc hdc).symm

/-- What lies above a live node is live, and what lies below it too. -/
lemma isLive_of_reaches {a n : NodeId} (han : t.Reaches a n) : t.isLive a = t.isLive n := by
  induction han with
  | refl => rfl
  | tail _ hp ih => exact ih.trans (h.isLive_eq _ _ hp)

lemma isLive_of_attached {n : NodeId} (hn : t.Reaches t.root n) : t.isLive n = true :=
  (h.isLive_of_reaches hn).symm.trans h.root_live

lemma lt_size_of_reaches {n : NodeId} (hn : t.Reaches t.root n) : n < t.size :=
  t.lt_size_of_isLive (h.isLive_of_attached hn)

/-- The parent of an attached node is attached. -/
lemma attached_of_link {p c : NodeId} (hp : t.Link p c) (hc : t.Reaches t.root c) :
    t.Reaches t.root p := by
  rcases reaches_iff.mp hc with hroot | ⟨q, hq, hrq⟩
  · rw [Link, ← hroot, h.root_free] at hp
    cases hp
  · exact hq.unique hp ▸ hrq

/-! ### Ancestors -/

omit h in
lemma reaches_of_mem_climb {k : Nat} {o : Option NodeId} {a : NodeId} (ha : a ∈ t.climb k o) :
    ∃ n, o = some n ∧ t.Reaches a n := by
  induction k generalizing o with
  | zero => simp [climb] at ha
  | succ k ih =>
    cases o with
    | none => simp [climb] at ha
    | some n =>
      refine ⟨n, rfl, ?_⟩
      rw [climb, List.mem_cons] at ha
      rcases ha with rfl | ha
      · exact Reaches.refl a
      · obtain ⟨p, hp, hap⟩ := ih ha
        exact hap.trans (Link.reaches hp)

lemma nodup_climb (k : Nat) (o : Option NodeId) : (t.climb k o).Nodup := by
  induction k generalizing o with
  | zero => simp [climb]
  | succ k ih =>
    cases o with
    | none => simp [climb]
    | some n =>
      rw [climb, List.nodup_cons]
      refine ⟨fun hn => ?_, ih _⟩
      obtain ⟨p, hp, hnp⟩ := reaches_of_mem_climb hn
      exact h.not_reaches_of_link hp hnp

/-- A climb from a child never uses up its steps: the child and the nodes met are different
slots. -/
lemma length_climb_lt {k : Nat} {n p : NodeId} (hp : t.Link p n) :
    (t.climb k (some p)).length < t.size := by
  have hnd : (n :: t.climb k (some p)).Nodup := by
    rw [List.nodup_cons]
    refine ⟨fun hn => ?_, h.nodup_climb k _⟩
    obtain ⟨q, hq, hnq⟩ := reaches_of_mem_climb hn
    obtain rfl := Option.some.inj hq
    exact h.not_reaches_of_link hp hnq
  have hlt : ∀ m ∈ n :: t.climb k (some p), m ∈ List.range t.size := by
    intro m hm
    rw [List.mem_range]
    rcases List.mem_cons.mp hm with rfl | hm
    · exact (h.link_lt hp).2
    · obtain ⟨q, hq, hmq⟩ := reaches_of_mem_climb hm
      obtain rfl := Option.some.inj hq
      exact h.lt_size_of_above hmq (h.link_lt hp).1
  have hlen := (List.subperm_of_subset hnd hlt).length_le
  rw [List.length_cons, List.length_range] at hlen
  exact hlen

omit h in
/-- More steps change nothing once a climb has come to an end. -/
lemma climb_succ_of_length_lt {k : Nat} {o : Option NodeId} (hk : (t.climb k o).length < k) :
    t.climb (k + 1) o = t.climb k o := by
  induction k generalizing o with
  | zero => simp at hk
  | succ k ih =>
    cases o with
    | none => simp [climb]
    | some n =>
      rw [climb, climb]
      rw [climb, List.length_cons, Nat.add_lt_add_iff_right] at hk
      rw [ih hk]

/-- The nodes above a child are its parent and the nodes above that. -/
lemma ancestors_of_link {p c : NodeId} (hp : t.Link p c) :
    t.ancestors c = p :: t.ancestors p := by
  have hc : t.parent? c = some p := hp
  obtain ⟨k, hk⟩ : ∃ k, t.size = k + 1 := Nat.exists_eq_succ_of_ne_zero
    (Nat.ne_of_gt (Nat.lt_of_le_of_lt (Nat.zero_le _) (h.link_lt hp).1))
  have hlt := h.length_climb_lt (k := k + 1) hp
  rw [climb, List.length_cons, hk, Nat.add_lt_add_iff_right] at hlt
  rw [ancestors, ancestors, hc, hk, climb, climb_succ_of_length_lt hlt]

omit h in
lemma ancestors_of_free {n : NodeId} (hn : t.parent? n = none) : t.ancestors n = [] := by
  rw [ancestors, hn]
  cases t.size <;> rfl

lemma enclosing?_of_link {p c : NodeId} (hlink : t.Link p c) (k : Kind) :
    t.enclosing? c k = if t.hasKind p k then some p else t.enclosing? p k := by
  rw [enclosing?, h.ancestors_of_link hlink, List.find?_cons, enclosing?]
  cases t.hasKind p k <;> rfl

omit h in
lemma enclosing?_of_free {n : NodeId} (hn : t.parent? n = none) (k : Kind) :
    t.enclosing? n k = none := by
  rw [enclosing?, ancestors_of_free hn, List.find?_nil]

lemma mem_ancestors_iff {a n : NodeId} :
    a ∈ t.ancestors n ↔ ∃ p, t.Link p n ∧ t.Reaches a p := by
  constructor
  · exact reaches_of_mem_climb
  · induction n using h.wellFounded.induction with
    | _ n ih =>
      rintro ⟨p, hp, hap⟩
      rw [h.ancestors_of_link hp, List.mem_cons]
      rcases reaches_iff.mp hap with rfl | hq
      · exact Or.inl rfl
      · exact Or.inr (ih p hp hq)

/-- Being an ancestor is decided by the bounded climb. -/
theorem isAncestorOrSelf_iff {a n : NodeId} :
    t.isAncestorOrSelf a n = true ↔ t.Reaches a n := by
  rw [isAncestorOrSelf, Bool.or_eq_true, beq_iff_eq, List.contains_iff_mem, h.mem_ancestors_iff,
    reaches_iff, eq_comm]

lemma length_ancestors_lt (n : NodeId) : (t.ancestors n).length < t.size := by
  cases hn : t.parent? n with
  | none =>
    rw [ancestors_of_free hn]
    exact Nat.lt_of_le_of_lt (Nat.zero_le _) h.root_lt
  | some p =>
    rw [ancestors, hn]
    exact h.length_climb_lt hn

/-- A node, those above it and its children are different slots. -/
lemma length_children_add_ancestors_lt {n : NodeId} (hn : n < t.size) :
    (t.children n).length + (t.ancestors n).length < t.size := by
  have habove : (n :: t.ancestors n).Nodup := h.nodup_climb (t.size + 1) (some n)
  have hreaches : ∀ m ∈ n :: t.ancestors n, t.Reaches m n := by
    intro m hm
    rcases List.mem_cons.mp hm with rfl | hm
    · exact Reaches.refl m
    · obtain ⟨p, hp, hmp⟩ := h.mem_ancestors_iff.mp hm
      exact hmp.trans hp.reaches
  have hnodup : (t.children n ++ n :: t.ancestors n).Nodup := by
    refine List.nodup_append.mpr ⟨h.nodup_children n, habove, fun c hc m hm heq => ?_⟩
    exact h.not_reaches_of_link ((h.mem_children_iff n c).mp hc) (heq ▸ hreaches m hm)
  have hlt : ∀ m ∈ t.children n ++ n :: t.ancestors n, m ∈ List.range t.size := by
    intro m hm
    rw [List.mem_range]
    rcases List.mem_append.mp hm with hm | hm
    · exact (h.link_lt ((h.mem_children_iff n m).mp hm)).2
    · exact h.lt_size_of_above (hreaches m hm) hn
  have hlen := (List.subperm_of_subset hnodup hlt).length_le
  rw [List.length_append, List.length_cons, List.length_range] at hlen
  omega

/-! ### Descendants -/

/-- Induction from the leaves up. -/
lemma induction_up {P : NodeId → Prop} (hstep : ∀ n, (∀ c ∈ t.children n, P c) → P n)
    (n : NodeId) : P n := by
  have hall : ∀ k n, t.size ≤ (t.ancestors n).length + k → P n := by
    intro k
    induction k with
    | zero =>
      intro n hn
      exact absurd (h.length_ancestors_lt n) (Nat.not_lt.mpr hn)
    | succ k ih =>
      intro n hn
      refine hstep n fun c hc => ih c ?_
      rw [h.ancestors_of_link ((h.mem_children_iff n c).mp hc), List.length_cons]
      omega
  exact hall t.size n (Nat.le_add_left _ _)

lemma reaches_of_mem_preorder {k : Nat} {a n : NodeId} (hn : n ∈ t.preorder k a) :
    t.Reaches a n := by
  induction k generalizing a with
  | zero => simp [preorder] at hn
  | succ k ih =>
    rw [preorder, List.mem_cons, List.mem_flatMap] at hn
    rcases hn with rfl | ⟨c, hc, hn⟩
    · exact Reaches.refl n
    · exact (Link.reaches ((h.mem_children_iff a c).mp hc)).trans (ih hn)

lemma length_ancestors_le_of_reaches {a n : NodeId} (han : t.Reaches a n) :
    (t.ancestors a).length ≤ (t.ancestors n).length := by
  induction han with
  | refl => exact Nat.le_refl _
  | tail _ hp ih =>
    rw [h.ancestors_of_link hp, List.length_cons]
    exact Nat.le_succ_of_le ih

/-- Levels enough to come down to `n` are levels enough to list it. -/
lemma mem_preorder_of_reaches {k : Nat} {a n : NodeId} (han : t.Reaches a n)
    (hk : (t.ancestors n).length < (t.ancestors a).length + k) : n ∈ t.preorder k a := by
  induction k generalizing a with
  | zero => exact absurd hk (Nat.not_lt.mpr (h.length_ancestors_le_of_reaches han))
  | succ k ih =>
    rw [preorder, List.mem_cons, List.mem_flatMap]
    rcases Relation.ReflTransGen.cases_head han with rfl | ⟨c, hc, hcn⟩
    · exact Or.inl rfl
    · refine Or.inr ⟨c, (h.mem_children_iff a c).mpr hc, ih hcn ?_⟩
      rw [h.ancestors_of_link hc, List.length_cons]
      omega

lemma nodup_preorder (k : Nat) (a : NodeId) : (t.preorder k a).Nodup := by
  induction k generalizing a with
  | zero => simp [preorder]
  | succ k ih =>
    rw [preorder, List.nodup_cons, List.nodup_flatMap]
    refine ⟨fun ha => ?_, fun c _ => ih c, ?_⟩
    · obtain ⟨c, hc, hca⟩ := List.mem_flatMap.mp ha
      exact h.not_reaches_of_link ((h.mem_children_iff a c).mp hc) (h.reaches_of_mem_preorder hca)
    · refine (h.nodup_children a).imp_of_mem fun {c d} hc hd hne => ?_
      intro n hnc hnd
      exact hne (h.eq_of_siblings ((h.mem_children_iff a c).mp hc)
        ((h.mem_children_iff a d).mp hd) (h.reaches_of_mem_preorder hnc)
        (h.reaches_of_mem_preorder hnd))

lemma nodup_nodes : t.nodes.Nodup := h.nodup_preorder _ _

/-- The bounded listing of a subtree is complete. -/
theorem mem_descendants_iff {a n : NodeId} : n ∈ t.descendants a ↔ t.Reaches a n := by
  refine ⟨h.reaches_of_mem_preorder, fun han => h.mem_preorder_of_reaches han ?_⟩
  exact Nat.lt_of_lt_of_le (h.length_ancestors_lt n) (Nat.le_add_left _ _)

/-- The nodes of a tree are those that can be reached from the root. -/
theorem mem_nodes_iff {n : NodeId} : n ∈ t.nodes ↔ t.Reaches t.root n := h.mem_descendants_iff

lemma isAttached_iff {n : NodeId} : t.isAttached n = true ↔ t.Reaches t.root n := by
  rw [isAttached, Bool.and_eq_true, h.isAncestorOrSelf_iff]
  refine ⟨And.right, fun hn => ⟨?_, hn⟩⟩
  rw [← h.isLive_of_reaches hn, h.root_live]

end WellLinked

end Tree

end CodeMigration
