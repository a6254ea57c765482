import CodeMigration.Catalogue
import CodeMigration.Proofs.Pass.Tame

/-!
# Working below a node

`Catalogue.gauge` tells which nodes the migrations may still change. `Bench` follows a migration at
a node through its edits: which nodes it has taken out of the tree, and which nodes lie loose and
can be attached. No edit on the bench fails.
-/

namespace CodeMigration

/-! ### Actions that succeed -/

namespace Action

variable {α β : Type} {w : Workspace}

lemma tree_bind_apply (f : Tree → Action β) : (tree >>= f) w = f w.tree w := rfl

/-- A node in the arena is not refused. -/
lemma require_bind_apply {n : NodeId} (hn : n < w.tree.size) (f : Unit → Action β) :
    (require n >>= f) w = f () w := by
  have hin : w.tree.contains n = true := by simpa [Tree.contains] using hn
  have hrequire : require n w = .ok () w := by
    rw [require, tree_bind_apply, if_pos hin]
    rfl
  show EStateM.bind (require n) f w = _
  rw [EStateM.bind, hrequire]

/-- The action succeeds, with a result and a tree as described. -/
def Yields (m : Action α) (w : Workspace) (Q : α → Tree → Prop) : Prop :=
  ∃ a w', m w = .ok a w' ∧ Q a w'.tree

namespace Yields

lemma pure {Q : α → Tree → Prop} {a : α} (h : Q a w.tree) : Yields (pure a) w Q := ⟨a, w, rfl, h⟩

lemma bind {m : Action α} {f : α → Action β} {P : α → Tree → Prop} {Q : β → Tree → Prop}
    (hm : Yields m w P) (hf : ∀ a w', P a w'.tree → Yields (f a) w' Q) : Yields (m >>= f) w Q := by
  obtain ⟨a, w', hok, hP⟩ := hm
  obtain ⟨b, w'', hok', hQ⟩ := hf a w' hP
  exact ⟨b, w'', EStateM.bind_eq_ok_iff.mpr ⟨a, w', hok, hok'⟩, hQ⟩

lemma mono {m : Action α} {P Q : α → Tree → Prop} (hm : Yields m w P)
    (hPQ : ∀ a t, P a t → Q a t) : Yields m w Q := by
  obtain ⟨a, w', hok, hP⟩ := hm
  exact ⟨a, w', hok, hPQ a _ hP⟩

lemma tree_bind {f : Tree → Action β} {Q : β → Tree → Prop} (h : Yields (f w.tree) w Q) :
    Yields (tree >>= f) w Q := by
  obtain ⟨b, w', hok, hQ⟩ := h
  exact ⟨b, w', EStateM.bind_eq_ok_iff.mpr ⟨w.tree, w, rfl, hok⟩, hQ⟩

lemma require_bind {n : NodeId} {f : Unit → Action β} {Q : β → Tree → Prop} (hn : n < w.tree.size)
    (h : Yields (f ()) w Q) : Yields (require n >>= f) w Q := by
  rwa [Yields, require_bind_apply hn]

lemma update_bind {f : Tree → Tree} {g : Unit → Action β} {Q : β → Tree → Prop}
    (h : Yields (g ()) { w with tree := f w.tree } Q) : Yields (update f >>= g) w Q := by
  obtain ⟨b, w', hok, hQ⟩ := h
  exact ⟨b, w', EStateM.bind_eq_ok_iff.mpr ⟨(), { w with tree := f w.tree }, rfl, hok⟩, hQ⟩

lemma edit {m : Edit Unit} {Q : Unit → Tree → Prop} {t' : Tree}
    (hok : m.result w.tree = .ok t') (h : Q () t') : Yields (edit m) w Q :=
  ⟨(), { w with tree := t' }, edit_eq_ok_iff.mpr ⟨t', Edit.result_eq_ok_iff.mp hok, rfl⟩, h⟩

lemma edit_bind {m : Edit Unit} {g : Unit → Action β} {Q : β → Tree → Prop} {t' : Tree}
    (hok : m.result w.tree = .ok t') (h : ∀ w', w'.tree = t' → Yields (g ()) w' Q) :
    Yields (Action.edit m >>= g) w Q :=
  (edit (Q := fun _ t => t = t') hok rfl).bind fun _ w' hw => h w' hw

end Yields

end Action

namespace Tree

variable {t t' : Tree} {n m : NodeId}

/-! ### Loose nodes -/

/-- A live node that hangs nowhere and is not the root. -/
structure Loose (t : Tree) (c : NodeId) : Prop where
  live : t.isLive c = true
  free : t.parent? c = none
  ne_root : c ≠ t.root

lemma Loose.lt_size {c : NodeId} (h : t.Loose c) : c < t.size := t.lt_size_of_isLive h.live

/-- A loose node can be attached to every attached node. -/
lemma Loose.attachable {p c : NodeId} (h : t.Loose c) (ht : t.WellLinked)
    (hp : t.Reaches t.root p) : t.Attachable p c := by
  refine ⟨ht.isLive_of_attached hp, h.live, h.ne_root, h.free, fun hcp => ?_⟩
  rcases hcp.total hp with hroot | hroot
  · exact h.ne_root (hroot.eq_of_free ht.root_free)
  · exact h.ne_root (hroot.eq_of_free h.free).symm

lemma Loose.of_moved {c x : NodeId} {q : Option NodeId} (h : t.Loose x) (hm : Moved t c q t')
    (hne : x ≠ c) (hlive : t'.isLive x = t.isLive x) : t'.Loose x := by
  refine ⟨hlive.trans h.live, ?_, hm.root ▸ h.ne_root⟩
  rw [hm.parent?, if_neg hne]
  exact h.free

/-! ### Nodes apart -/

/-- Each node of a list lies below none of the nodes taken out, nor below one before it. -/
def Apart (t : Tree) : (out l : List NodeId) → Prop
  | _, [] => True
  | out, c :: l => (∀ o ∈ out, ¬ t.Reaches o c) ∧ Apart t (c :: out) l

lemma apart_of_pairwise {out l : List NodeId} (hpair : l.Pairwise fun a b => ¬ t.Reaches a b)
    (hclear : ∀ c ∈ l, ∀ o ∈ out, ¬ t.Reaches o c) : t.Apart out l := by
  induction l generalizing out with
  | nil => trivial
  | cons c l ih =>
    obtain ⟨hc, hpair⟩ := List.pairwise_cons.mp hpair
    refine ⟨hclear c List.mem_cons_self, ih hpair fun d hd o ho => ?_⟩
    rcases List.mem_cons.mp ho with rfl | ho
    · exact hc d hd
    · exact hclear d (List.mem_cons_of_mem c hd) o ho

/-- Children of one node are apart. -/
lemma WellLinked.pairwise_siblings (ht : t.WellLinked) {p : NodeId} {l : List NodeId}
    (hnodup : l.Nodup) (hlinks : ∀ c ∈ l, t.Link p c) : l.Pairwise fun a b => ¬ t.Reaches a b := by
  refine hnodup.imp_of_mem fun {a b} ha hb hne hab => hne ?_
  exact ht.eq_of_siblings (hlinks a ha) (hlinks b hb) hab (Reaches.refl b)

end Tree

namespace Catalogue

variable {oracle : Oracle} {t t' t'' : Tree} {n m : NodeId}

/-! ### Ripe nodes -/

/-- The assertions that are migrated. -/
def isAssertion (method : String) : Bool :=
  method == "contains" || method == "notContains" || method == "type" ||
    (Assertions.renamed? method).isSome

/-- Whether a migration may change a live node that stands for the construct; methods count until
they are known to carry a route. -/
def isDue (oracle : Oracle) (routed : Bool) : Construct → Bool
  | .classDecl _ (some parent) _ =>
    ClassName.same parent TestCases.testerCase || Controls.isControl oracle parent
  | .methodCall name => (Forms.fieldType? name).isSome || name == "getParameter"
  | .staticCall _ method => isAssertion method
  | .instantiation name => ClassName.same name Forms.form
  | .method _ => !routed
  | _ => false

/-- Whether a migration may still change a node. -/
def ripe (oracle : Oracle) (t : Tree) (n : NodeId) : Bool :=
  t.isLive n && (t.construct? n).any (isDue oracle (t.attributes.flag n .hasRoute))

lemma isDue_mono {routed routed' : Bool} (h : routed = true → routed' = true) {c : Construct}
    (hc : isDue oracle routed' c = true) : isDue oracle routed c = true := by
  cases c with
  | method name =>
    rw [isDue, Bool.not_eq_true'] at hc ⊢
    rw [← Bool.not_eq_true] at hc ⊢
    exact fun hr => hc (h hr)
  | classDecl name parent interfaces => cases parent <;> exact hc
  | _ => exact hc

lemma ripe_iff : ripe oracle t n = true ↔
    t.isLive n = true ∧ ∃ c, t.construct? n = some c ∧
      isDue oracle (t.attributes.flag n .hasRoute) c = true := by
  rw [ripe, Bool.and_eq_true, Option.any_eq_true]

lemma ripe_of_fades (h : t.Fades t') (hn : ripe oracle t' n = true) : ripe oracle t n = true := by
  obtain ⟨hlive, c, hc, hdue⟩ := ripe_iff.mp hn
  obtain ⟨hlive', hsame, hflag⟩ := h n hlive
  exact ripe_iff.mpr ⟨hlive', c, hsame ▸ hc, isDue_mono (hflag .hasRoute) hdue⟩

/-- The gauge of the migrations. -/
def gauge (oracle : Oracle) : Gauge where
  ripe := ripe oracle
  live _ _ h := (ripe_iff.mp h).1
  fades _ _ _ := ripe_of_fades

/-- A construct that no migration changes. -/
def Inert (oracle : Oracle) (c : Construct) : Prop := ∀ routed, isDue oracle routed c = false

/-! ### The bench -/

/-- Strictly below `n`. -/
def Inner (t : Tree) (n m : NodeId) : Prop := t.Reaches n m ∧ m ≠ n

/-- The tree `t'` during a migration at the node `n` of `t`: the nodes `out` have been taken out,
and the nodes `spare` lie loose. -/
structure Bench (oracle : Oracle) (t : Tree) (n : NodeId) (t' : Tree) (out spare : List NodeId) :
    Prop where
  edited : t.Edited t'
  root : t'.root = t.root
  size_le : t.size ≤ t'.size
  moved : ∀ m < t.size, ¬ Inner t n m → t'.parent? m = t.parent? m
  kept : ∀ m, m ∉ out → ∀ q, t.Link q m → t'.Link q m
  kinds : ∀ m < t.size, t'.kind? m = t.kind? m
  ripe : ∀ m, ripe oracle t' m = true → ripe oracle t m = true
  nodup : spare.Nodup
  loose : ∀ c ∈ spare, t'.Loose c
  inner : ∀ c ∈ spare, c < t.size → Inner t n c

lemma Bench.start (oracle : Oracle) (t : Tree) (n : NodeId) : Bench oracle t n t [] [] where
  edited := Tree.Edited.refl t
  root := rfl
  size_le := Nat.le_refl _
  moved _ _ _ := rfl
  kept _ _ _ h := h
  kinds _ _ := rfl
  ripe _ h := h
  nodup := List.nodup_nil
  loose _ h := absurd h List.not_mem_nil
  inner _ h := absurd h List.not_mem_nil

namespace Bench

variable {out spare spare' : List NodeId}

lemma perm (h : Bench oracle t n t' out spare) (hp : spare.Perm spare') :
    Bench oracle t n t' out spare' :=
  { h with
    nodup := hp.nodup h.nodup
    loose := fun c hc => h.loose c (hp.mem_iff.mpr hc)
    inner := fun c hc => h.inner c (hp.mem_iff.mpr hc) }

lemma widen (h : Bench oracle t n t' out spare) {out' : List NodeId} (hsub : out ⊆ out') :
    Bench oracle t n t' out' spare :=
  { h with kept := fun m hout => h.kept m fun hin => hout (hsub hin) }

lemma frame (h : Bench oracle t n t' out spare) : t.Frame n t' :=
  ⟨h.root, h.size_le, fun m hm hout => h.moved m hm fun hi => hout hi.1⟩

/-- One node was moved, one that was taken out or lay loose. -/
lemma move (h : Bench oracle t n t' out spare) {c : NodeId} {q : Option NodeId} {out' : List NodeId}
    (hm : Tree.Moved t' c q t'') (hc : c < t.size → Inner t n c) (hsub : out ⊆ out')
    (hgone : c ∈ out' ∨ t'.parent? c = none) (hnodup : spare'.Nodup)
    (hloose : ∀ x ∈ spare', t''.Loose x) (hinner : ∀ x ∈ spare', x < t.size → Inner t n x) :
    Bench oracle t n t'' out' spare' where
  edited := h.edited.trans hm.edited
  root := hm.root.trans h.root
  size_le := Nat.le_trans h.size_le (Nat.le_of_eq hm.size.symm)
  moved m hlt hout := by
    have hne : m ≠ c := by
      rintro rfl
      exact hout (hc hlt)
    rw [hm.parent?, if_neg hne, h.moved m hlt hout]
  kept m hout q hq := by
    have hlink : t'.Link q m := h.kept m (fun hin => hout (hsub hin)) q hq
    have hne : m ≠ c := by
      rintro rfl
      rcases hgone with hgone | hgone
      · exact hout hgone
      · rw [Tree.Link, hgone] at hlink
        cases hlink
    rw [Tree.Link, hm.parent?, if_neg hne]
    exact hlink
  kinds m hlt := by rw [Tree.kind?, hm.construct?, ← h.kinds m hlt, Tree.kind?]
  ripe x hx := h.ripe x (ripe_of_fades hm.fades hx)
  nodup := hnodup
  loose := hloose
  inner := hinner

/-- A loose node was attached. -/
lemma attach {c : NodeId} {p : NodeId} (h : Bench oracle t n t' out (c :: spare))
    (hm : Tree.Moved t' c (some p) t'') (hsame : ∀ x, t''.isLive x = t'.isLive x) :
    Bench oracle t n t'' out spare := by
  obtain ⟨hnot, hnodup⟩ := List.nodup_cons.mp h.nodup
  refine h.move hm (h.inner c List.mem_cons_self) (List.Subset.refl _)
    (Or.inr (h.loose c List.mem_cons_self).free) hnodup (fun x hx => ?_)
    fun x hx => h.inner x (List.mem_cons_of_mem c hx)
  exact (h.loose x (List.mem_cons_of_mem c hx)).of_moved hm (fun he => hnot (he ▸ hx)) (hsame x)

section edits

variable (ht : t.Sound) (hn : t.Reaches t.root n)
include ht

lemma linked (h : Bench oracle t n t' out spare) : t'.WellLinked := (ht.edited h.edited).linked

/-- A new node lies loose. -/
lemma add (h : Bench oracle t n t' out spare) {c : Construct} (hc : Inert oracle c) :
    Bench oracle t n (t'.add c).1 out (t'.size :: spare) where
  edited := h.edited.trans (t'.edited_add c)
  root := h.root
  size_le := by
    rw [Tree.size_add]
    exact Nat.le_succ_of_le h.size_le
  moved m hm hout := by rw [Tree.parent?_add, h.moved m hm hout]
  kept m hout q hq := by
    rw [Tree.Link, Tree.parent?_add]
    exact h.kept m hout q hq
  kinds m hlt := by
    have hne : m ≠ t'.size := Nat.ne_of_lt (Nat.lt_of_lt_of_le hlt h.size_le)
    rw [Tree.kind?, Tree.construct?, Tree.slot?_add, if_neg hne, ← h.kinds m hlt]
    rfl
  ripe m hm := by
    obtain ⟨hlive, k, hk, hdue⟩ := ripe_iff.mp hm
    rw [Tree.construct?, Tree.slot?_add] at hk
    rw [Tree.isLive_add] at hlive
    by_cases hms : m = t'.size
    · rw [if_pos hms] at hk
      obtain rfl : c = k := Option.some.inj hk
      rw [hc] at hdue
      cases hdue
    · rw [if_neg hms] at hk
      exact h.ripe m (ripe_iff.mpr ⟨by simpa [hms] using hlive, k, hk, hdue⟩)
  nodup := by
    refine List.nodup_cons.mpr ⟨fun hin => ?_, h.nodup⟩
    exact Nat.lt_irrefl _ (h.loose _ hin).lt_size
  loose x hx := by
    rcases List.mem_cons.mp hx with rfl | hx
    · refine ⟨by simp [Tree.isLive_add], ?_, ?_⟩
      · rw [Tree.parent?_add, Tree.parent?, t'.slot?_eq_none_iff.mpr (Nat.le_refl _)]
        rfl
      · exact (Nat.ne_of_lt (h.linked ht).root_lt).symm
    · have hloose := h.loose x hx
      refine ⟨?_, ?_, hloose.ne_root⟩
      · rw [Tree.isLive_add, hloose.live, Bool.or_true]
      · rw [Tree.parent?_add, hloose.free]
  inner x hx hlt := by
    rcases List.mem_cons.mp hx with rfl | hx
    · exact absurd hlt (Nat.not_lt.mpr h.size_le)
    · exact h.inner x hx hlt

/-- Loose nodes are attached to another one. -/
lemma pushChildren {id : NodeId} {children : List NodeId}
    (h : Bench oracle t n t' out (id :: (children ++ spare))) :
    ∃ t'', t'.pushChildren id children = (t'', .ok ()) ∧
      Bench oracle t n t'' out (id :: spare) := by
  induction children generalizing t' with
  | nil => exact ⟨t', t'.pushChildren_nil id, h⟩
  | cons c children ih =>
    have hperm : (id :: (c :: children ++ spare)).Perm (c :: id :: (children ++ spare)) :=
      List.Perm.swap _ _ _
    have h' : Bench oracle t n t' out (c :: id :: (children ++ spare)) := h.perm hperm
    have hid : t'.Loose id := h.loose id List.mem_cons_self
    have hc : t'.Loose c := h'.loose c List.mem_cons_self
    have hne : c ≠ id := by
      rintro rfl
      exact (List.nodup_cons.mp h'.nodup).1 List.mem_cons_self
    have hattach : t'.Attachable id c :=
      ⟨hid.live, hc.live, hc.ne_root, hc.free, fun hci => hne (hci.eq_of_free hid.free)⟩
    obtain ⟨t₁, hok, hm, hsame⟩ := Tree.exists_pushChild (h.linked ht) hattach
    obtain ⟨t'', hrest, hb⟩ := ih (h'.attach hm hsame)
    refine ⟨t'', ?_, hb⟩
    rw [Tree.pushChildren_cons, hok]
    exact hrest

/-- A new node takes loose ones as its children. -/
lemma addWithChildren {children : List NodeId} (h : Bench oracle t n t' out (children ++ spare))
    {c : Construct} (hc : Inert oracle c) :
    ∃ t'', Edit.addWithChildren c children t' = .ok t'.size t'' ∧
      Bench oracle t n t'' out (t'.size :: spare) := by
  obtain ⟨t'', hok, hb⟩ := pushChildren ht (h.add ht hc)
  exact ⟨t'', Tree.addWithChildren_eq_ok_iff.mpr ⟨hok, rfl⟩, hb⟩

include hn

lemma place (h : Bench oracle t n t' out spare) : t'.parent? n = t.parent? n :=
  h.moved n (ht.linked.lt_size_of_reaches hn) fun hi => hi.2 rfl

lemma attached (h : Bench oracle t n t' out spare) : t'.Reaches t'.root n :=
  h.frame.attached ht.linked hn (h.place ht hn)

/-- What lies below none of the nodes taken out is still in its place. -/
lemma reaches (h : Bench oracle t n t' out spare) (hm : t.Reaches n m)
    (hclear : ∀ o ∈ out, ¬ t.Reaches o m) : t'.Reaches t'.root m := by
  induction hm with
  | refl => exact h.attached ht hn
  | @tail b c _ hlink ih =>
    have hb : t'.Reaches t'.root b := ih fun o ho hob => hclear o ho (hob.trans hlink.reaches)
    have hc : t'.Link b c := h.kept c (fun hin => hclear c hin (Tree.Reaches.refl c)) b hlink
    exact hb.trans hc.reaches

/-- A child that is still in its place. -/
lemma child (h : Bench oracle t n t' out spare) {p c : NodeId} (hp : t.Reaches n p)
    (hlink : t.Link p c) (hclear : ∀ o ∈ out, ¬ t.Reaches o c) :
    t'.Link p c ∧ t'.isLive c = true ∧ Inner t n c ∧ c ∉ spare := by
  have hlink' : t'.Link p c := h.kept c (fun hin => hclear c hin (Tree.Reaches.refl c)) p hlink
  refine ⟨hlink', ?_, ⟨hp.trans hlink.reaches, ?_⟩, ?_⟩
  · exact (h.linked ht).isLive_of_attached (h.reaches ht hn (hp.trans hlink.reaches) hclear)
  · rintro rfl
    exact ht.linked.not_reaches_of_link hlink hp
  · intro hin
    rw [Tree.Link, (h.loose c hin).free] at hlink'
    cases hlink'

lemma detach (h : Bench oracle t n t' out spare) {p c : NodeId} (hp : t.Reaches n p)
    (hlink : t.Link p c) (hclear : ∀ o ∈ out, ¬ t.Reaches o c) :
    ∃ t'', t'.detach p c = .ok t'' ∧ Bench oracle t n t'' (c :: out) (c :: spare) := by
  obtain ⟨hlink', hlive, hinner, hnot⟩ := h.child ht hn hp hlink hclear
  obtain ⟨t'', hok, hm, hsame⟩ := Tree.exists_detach (h.linked ht) hlink' hlive
  refine ⟨t'', hok, h.move hm (fun _ => hinner) (List.subset_cons_self _ _)
    (Or.inl List.mem_cons_self) (List.nodup_cons.mpr ⟨hnot, h.nodup⟩) ?_ ?_⟩
  · intro x hx
    by_cases hxc : x = c
    · subst hxc
      refine ⟨(hsame x).trans hlive, ?_, hm.root ▸ (h.linked ht).ne_root_of_link hlink'⟩
      rw [hm.parent?, if_pos rfl]
    · exact (h.loose x ((List.mem_cons.mp hx).resolve_left hxc)).of_moved hm hxc (hsame x)
  · intro x hx hlt
    rcases List.mem_cons.mp hx with rfl | hx
    · exact hinner
    · exact h.inner x hx hlt

lemma removeChild (h : Bench oracle t n t' out spare) {p c : NodeId} (hp : t.Reaches n p)
    (hlink : t.Link p c) (hclear : ∀ o ∈ out, ¬ t.Reaches o c) :
    ∃ t'', t'.removeChild p c = .ok t'' ∧ Bench oracle t n t'' (c :: out) spare := by
  obtain ⟨hlink', hlive, hinner, hnot⟩ := h.child ht hn hp hlink hclear
  obtain ⟨t'', hok, hm, hsame⟩ := Tree.exists_removeChild (h.linked ht) hlink' hlive
  refine ⟨t'', hok, h.move hm (fun _ => hinner) (List.subset_cons_self _ _)
    (Or.inl List.mem_cons_self) h.nodup (fun x hx => ?_) h.inner⟩
  have hxc : x ≠ c := fun he => hnot (he ▸ hx)
  refine (h.loose x hx).of_moved hm hxc (hsame x fun hcx => hxc ?_)
  exact (hcx.eq_of_free (h.loose x hx).free).symm

lemma pushChild {c p : NodeId} (h : Bench oracle t n t' out (c :: spare)) (hp : t.Reaches n p)
    (hclear : ∀ o ∈ out, ¬ t.Reaches o p) :
    ∃ t'', t'.pushChild p c = .ok t'' ∧ Bench oracle t n t'' out spare := by
  have hc : t'.Attachable p c :=
    (h.loose c List.mem_cons_self).attachable (h.linked ht) (h.reaches ht hn hp hclear)
  obtain ⟨t'', hok, hm, hsame⟩ := Tree.exists_pushChild (h.linked ht) hc
  exact ⟨t'', hok, h.attach hm hsame⟩

lemma insertChild {c : NodeId} (h : Bench oracle t n t' out (c :: spare)) :
    ∃ t'', t'.insertChild n 0 c = .ok t'' ∧ Bench oracle t n t'' out spare := by
  have hc : t'.Attachable n c :=
    (h.loose c List.mem_cons_self).attachable (h.linked ht) (h.attached ht hn)
  obtain ⟨t'', hok, hm, hsame⟩ := Tree.exists_insertChild (h.linked ht) hc
  exact ⟨t'', hok, h.attach hm hsame⟩

end edits

/-- A change of attributes that keeps flags. -/
lemma setFlag (h : Bench oracle t n t' out spare) (m : NodeId) (key : AttributeKey) :
    Bench oracle t n (t'.setAttribute m key (.flag true)) out spare :=
  { h with
    edited := h.edited.trans (t'.edited_setAttribute m key _)
    loose := fun c hc => ⟨(h.loose c hc).live, (h.loose c hc).free, (h.loose c hc).ne_root⟩
    ripe := fun x hx => h.ripe x (ripe_of_fades (Tree.fades_setFlag t' m key) hx) }

/-- Another construct for a node, of the same kind and no more due than the one before. -/
lemma setConstruct (h : Bench oracle t n t' out spare) (ht : t.Sound) (hm : m < t'.size)
    {c k : Construct} (hk : t'.construct? m = some k) (hkind : c.kind = k.kind)
    (hdue : ∀ routed, isDue oracle routed c = true → isDue oracle routed k = true) :
    Bench oracle t n (t'.setConstruct m c) out spare where
  edited := by
    refine h.edited.trans ?_
    have hrun := t'.edited_run (.setConstruct m c) rfl
    have hin : t'.contains m = true := by simpa [Tree.contains] using hm
    rwa [Command.run, Command.inside, if_pos hin] at hrun
  root := (Tree.root_setConstruct m c).trans h.root
  size_le := by
    rw [Tree.size_setConstruct]
    exact h.size_le
  moved x hx hout := by rw [Tree.parent?_setConstruct, h.moved x hx hout]
  kept x hout q hq := by
    rw [Tree.Link, Tree.parent?_setConstruct]
    exact h.kept x hout q hq
  kinds x hlt := by
    rw [← h.kinds x hlt, Tree.kind?, Tree.kind?, Tree.construct?_setConstruct]
    split
    · next hxm => rw [hxm, hk, Option.map_some, Option.map_some, Option.map_some, hkind]
    · rfl
  ripe x hx := by
    obtain ⟨hlive, k', hk', hdue'⟩ := ripe_iff.mp hx
    rw [Tree.isLive_setConstruct] at hlive
    rw [Tree.flag_setConstruct (ht.edited h.edited) _ _ _ (by simp)] at hdue'
    rw [Tree.construct?_setConstruct] at hk'
    refine h.ripe x (ripe_iff.mpr ⟨hlive, ?_⟩)
    by_cases hxm : x = m
    · subst hxm
      rw [if_pos rfl, hk] at hk'
      obtain rfl : c = k' := Option.some.inj hk'
      exact ⟨k, hk, hdue _ hdue'⟩
    · rw [if_neg hxm] at hk'
      exact ⟨k', hk', hdue'⟩
  nodup := h.nodup
  loose x hx := by
    have hloose := h.loose x hx
    refine ⟨?_, ?_, ?_⟩
    · rw [Tree.isLive_setConstruct, hloose.live]
    · rw [Tree.parent?_setConstruct, hloose.free]
    · rw [Tree.root_setConstruct]
      exact hloose.ne_root
  inner := h.inner

/-- A loop that takes one node out in each turn. -/
lemma yields_forM {α : Type} {w : Workspace} {f : α → Action Unit} (taken : α → NodeId)
    (left : α → List NodeId) {l : List α}
    (hf : ∀ a ∈ l, ∀ (w : Workspace) out spare, (∀ o ∈ out, ¬ t.Reaches o (taken a)) →
      Bench oracle t n w.tree out spare → (f a).Yields w fun _ t' =>
        Bench oracle t n t' (taken a :: out) (left a ++ spare))
    (hapart : t.Apart out (l.map taken)) (h : Bench oracle t n w.tree out spare) :
    (l.forM f).Yields w fun _ t' =>
      Bench oracle t n t' (l.map taken ++ out) (l.flatMap left ++ spare) := by
  induction l generalizing w out spare with
  | nil => exact Action.Yields.pure h
  | cons a l ih =>
    obtain ⟨hclear, hapart⟩ := hapart
    refine (hf a List.mem_cons_self w out spare hclear h).bind fun _ w' hb => ?_
    have hrest := ih (fun b hb => hf b (List.mem_cons_of_mem a hb)) hapart hb
    refine hrest.mono fun _ t' hb' => ?_
    rw [List.flatMap_cons, List.append_assoc]
    refine (hb'.widen ?_).perm (List.perm_append_comm_assoc _ _ _)
    exact List.perm_middle.subset

/-! ### Building -/

section building

variable (ht : t.Sound) {w : Workspace}
include ht

lemma yields_add (h : Bench oracle t n w.tree out spare) {c : Construct} (hc : Inert oracle c) :
    (Action.add c).Yields w fun id t' => t.size ≤ id ∧ Bench oracle t n t' out (id :: spare) :=
  ⟨w.tree.size, _, rfl, h.size_le, h.add ht hc⟩

lemma yields_addWithChildren (children : List NodeId)
    (h : Bench oracle t n w.tree out (children ++ spare)) {c : Construct} (hc : Inert oracle c) :
    (Action.addWithChildren c children).Yields w fun id t' =>
      t.size ≤ id ∧ Bench oracle t n t' out (id :: spare) := by
  obtain ⟨t', hok, hb⟩ := addWithChildren ht h hc
  exact ⟨w.tree.size, { w with tree := t' }, Action.edit_eq_ok_iff.mpr ⟨t', hok, rfl⟩, h.size_le,
    hb⟩

lemma yields_addItem {value : NodeId} (h : Bench oracle t n w.tree out (value :: spare))
    (key : String) :
    (Action.addItem key value).Yields w fun id t' => Bench oracle t n t' out (id :: spare) := by
  refine (yields_add ht h fun _ => rfl).bind fun k w' hk => ?_
  refine (yields_addWithChildren ht [k, value] hk.2 fun _ => rfl).mono ?_
  exact fun id t' hb => hb.2

omit ht in
/-- A loop that makes one loose node of those it uses up in each turn. -/
lemma yields_mapM {α β : Type} {f : α → Action β} (used : α → List NodeId) (made : β → NodeId)
    (hf : ∀ a (w : Workspace) spare, Bench oracle t n w.tree out (used a ++ spare) →
      (f a).Yields w fun b t' => Bench oracle t n t' out (made b :: spare))
    (l : List α) (spare : List NodeId) (h : Bench oracle t n w.tree out (l.flatMap used ++ spare)) :
    (l.mapM f).Yields w fun bs t' => Bench oracle t n t' out (bs.map made ++ spare) := by
  induction l generalizing w spare with
  | nil => exact Action.Yields.pure h
  | cons a l ih =>
    rw [List.mapM_cons]
    rw [List.flatMap_cons, List.append_assoc] at h
    refine (hf a w _ h).bind fun b w' hb => ?_
    refine (ih (made b :: spare) (hb.perm List.perm_middle.symm)).bind fun bs w'' hbs => ?_
    exact Action.Yields.pure (hbs.perm List.perm_middle)

/-- Values become the items of an array. -/
lemma yields_addItems (items : List (String × NodeId)) (spare : List NodeId)
    (h : Bench oracle t n w.tree out (items.map (·.2) ++ spare)) :
    (items.mapM fun (key, value) => Action.addItem key value).Yields w fun ids t' =>
      Bench oracle t n t' out (ids ++ spare) := by
  rw [List.map_eq_flatMap] at h
  refine (yields_mapM (fun item => [item.2]) id (fun item w' spare' hb => ?_) items spare h).mono ?_
  · exact yields_addItem ht hb item.1
  · intro ids t' hb
    rwa [List.map_id] at hb

end building

end Bench

/-! ### Good conduct -/

/-- What a migration may do to a tree at a node. -/
def WellConducted (oracle : Oracle) (t : Tree) (n : NodeId) (o : Outcome) (t' : Tree) : Prop :=
  t.Edited t' ∧ (∀ m, ripe oracle t' m = true → ripe oracle t m = true) ∧
    Conduct (gauge oracle) t n t' o

lemma wellConducted_refl (oracle : Oracle) (t : Tree) (n : NodeId) :
    WellConducted oracle t n .unchanged t :=
  ⟨Tree.Edited.refl t, fun _ h => h, .idle (Tree.Kept.refl t) rfl⟩

/-- A flag may be set without a change being reported. -/
lemma wellConducted_setFlag (oracle : Oracle) (t : Tree) (n : NodeId) (key : AttributeKey) :
    WellConducted oracle t n .unchanged (t.setAttribute n key (.flag true)) :=
  ⟨t.edited_setAttribute n key _, fun _ h => ripe_of_fades (t.fades_setFlag n key) h,
    .idle (t.kept_mapAttributes _) rfl⟩

/-- Flags may be set after a change. -/
lemma WellConducted.setFlag (h : WellConducted oracle t n .mutated t') (m : NodeId)
    (key : AttributeKey) :
    WellConducted oracle t n .mutated (t'.setAttribute m key (.flag true)) := by
  obtain ⟨hedited, hmono, ⟨⟩⟩ := h
  next hripe hdone hframe hplace =>
  have hfades : ∀ x, ripe oracle (t'.setAttribute m key (.flag true)) x = true →
      ripe oracle t' x = true := fun x => ripe_of_fades (t'.fades_setFlag m key)
  refine ⟨hedited.trans (t'.edited_setAttribute m key _), fun x hx => hmono x (hfades x hx), ?_⟩
  refine .mutated hripe ?_ ⟨hframe.root, hframe.size_le, hframe.parent?⟩ hplace
  rw [← Bool.not_eq_true] at hdone ⊢
  exact fun hx => hdone (hfades n hx)

lemma wellConducted_mutated {out spare : List NodeId} (h : Bench oracle t n t' out spare)
    (ht : t.Sound) (hn : t.Reaches t.root n) (hripe : ripe oracle t n = true)
    (hdone : ripe oracle t' n = false) : WellConducted oracle t n .mutated t' :=
  ⟨h.edited, h.ripe, .mutated hripe hdone h.frame (h.place ht hn)⟩

/-- The construct of a node on the bench has the kind it had. -/
lemma Bench.exists_construct {out spare : List NodeId} (h : Bench oracle t n t' out spare)
    {k : Kind} (hk : t.kind? m = some k) : ∃ c, t'.construct? m = some c ∧ c.kind = k := by
  have hlt : m < t.size := by
    obtain ⟨c, hc, _⟩ := Option.map_eq_some_iff.mp hk
    obtain ⟨s, hs, _⟩ := Option.map_eq_some_iff.mp hc
    exact t.lt_size_iff_slot?.mpr ⟨s, hs⟩
  have hk' : t'.kind? m = some k := (h.kinds m hlt).trans hk
  exact Option.map_eq_some_iff.mp hk'

/-- A migration that ends with a construct that is not due. -/
lemma wellConducted_rewritten {out spare : List NodeId} (h : Bench oracle t n t' out spare)
    (ht : t.Sound) (hn : t.Reaches t.root n) (hripe : ripe oracle t n = true) (c : Construct)
    (hkind : t.kind? n = some c.kind) (hc : Inert oracle c) :
    WellConducted oracle t n .mutated (t'.setConstruct n c) := by
  obtain ⟨k, hk, hck⟩ := h.exists_construct hkind
  have hlt : n < t'.size := (h.linked ht).lt_size_of_reaches (h.attached ht hn)
  have hb := h.setConstruct ht hlt hk hck.symm fun routed hdue => by
    rw [hc] at hdue
    cases hdue
  refine wellConducted_mutated hb ht hn hripe ?_
  rw [← Bool.not_eq_true, ripe_iff]
  rintro ⟨_, k, hk', hdue⟩
  rw [Tree.construct?_setConstruct, if_pos rfl, hk] at hk'
  obtain rfl : c = k := Option.some.inj hk'
  rw [hc] at hdue
  cases hdue

end Catalogue

end CodeMigration
