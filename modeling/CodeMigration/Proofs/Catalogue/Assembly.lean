import CodeMigration.Proofs.Catalogue.Bench

/-!
# Putting nodes together

A migration puts together what it has taken out and new nodes, and appends the result to the
children of a node. A `Sketch` says what a piece of the tree is to look like: it is a node that is
given, or a new node with parts. `Tree.Assembled` is the invariant of the work: the old nodes are as
they were, apart from the row that grows and the parents of the nodes in stock, and the pieces in
the row and those that still lie loose are as sketched.
-/

namespace CodeMigration

/-! ### Sketches -/

/-- What a piece of a tree looks like. -/
inductive Sketch where
  | given (node : NodeId)
  | made (construct : Construct) (parts : List Sketch)

namespace Sketch

/-- An item of an array under a literal key. -/
def item (key : String) (value : Sketch) : Sketch :=
  .made (.arrayItem true) [.made (.string key) [], value]

/-- An array with keys, or nothing at all if it would be empty. -/
def dictionary (entries : List (String × Sketch)) : List Sketch :=
  if entries.isEmpty then [] else [.made .array (entries.map fun (key, value) => item key value)]

end Sketch

namespace Tree

variable {t t' t'' : Tree} {fresh : Nat} {m p c : NodeId} {stock : List NodeId}
  {row spare parts : List (Sketch × NodeId)}

mutual

/-- A node and what is below it look as sketched. Nodes from the number `fresh` on are new. -/
def Shows (t : Tree) (fresh : Nat) : Sketch → NodeId → Prop
  | .given node, m => m = node
  | .made construct parts, m =>
    fresh ≤ m ∧ t.isLive m = true ∧ t.construct? m = some construct ∧
      t.ShowsRow fresh parts (t.children m)

/-- The nodes of a row look as sketched, one by one. -/
def ShowsRow (t : Tree) (fresh : Nat) : List Sketch → List NodeId → Prop
  | [], ms => ms = []
  | s :: ss, ms => ∃ m rest, ms = m :: rest ∧ t.Shows fresh s m ∧ t.ShowsRow fresh ss rest

end

/-- The nodes from the number `fresh` on stand for the same and have the same children. -/
def Retains (t : Tree) (fresh : Nat) (t' : Tree) : Prop :=
  ∀ m, fresh ≤ m → m < t.size → t'.construct? m = t.construct? m ∧
    t'.isLive m = t.isLive m ∧ t'.children m = t.children m

mutual

lemma Shows.mono (h : t.Retains fresh t') :
    ∀ {s : Sketch} {m : NodeId}, t.Shows fresh s m → t'.Shows fresh s m
  | .given _, _, hs => by
    rw [Shows] at hs ⊢
    exact hs
  | .made construct parts, m, hs => by
    rw [Shows] at hs ⊢
    obtain ⟨hfresh, hlive, hconstruct, hparts⟩ := hs
    obtain ⟨hconstruct', hlive', hchildren'⟩ := h m hfresh (t.lt_size_of_isLive hlive)
    rw [hlive', hconstruct', hchildren']
    exact ⟨hfresh, hlive, hconstruct, hparts.mono h⟩

lemma ShowsRow.mono (h : t.Retains fresh t') :
    ∀ {ss : List Sketch} {ms : List NodeId}, t.ShowsRow fresh ss ms → t'.ShowsRow fresh ss ms
  | [], _, hs => by
    rw [ShowsRow] at hs ⊢
    exact hs
  | s :: ss, ms, hs => by
    rw [ShowsRow] at hs ⊢
    obtain ⟨m, rest, hms, hm, hrest⟩ := hs
    exact ⟨m, rest, hms, hm.mono h, hrest.mono h⟩

end

lemma showsRow_of_forall (h : ∀ entry ∈ parts, t.Shows fresh entry.1 entry.2) :
    t.ShowsRow fresh (parts.map Prod.fst) (parts.map Prod.snd) := by
  induction parts with
  | nil =>
    rw [List.map_nil, ShowsRow]
    rfl
  | cons entry parts ih =>
    rw [List.map_cons, ShowsRow]
    refine ⟨entry.2, parts.map Prod.snd, rfl, h entry List.mem_cons_self, ih ?_⟩
    intro other hother
    exact h other (List.mem_cons_of_mem entry hother)

/-! ### Rows that grow -/

/-- The nodes `new` have been appended to the children of `p`, and nothing else has changed. -/
structure Gained (t : Tree) (p : NodeId) (new : List NodeId) (t' : Tree) : Prop where
  edited : t.Edited t'
  root : t'.root = t.root
  size : t'.size = t.size
  construct? : ∀ m, t'.construct? m = t.construct? m
  isLive : ∀ m, t'.isLive m = t.isLive m
  parent? : ∀ m, t'.parent? m = if m ∈ new then some p else t.parent? m
  children : ∀ m, t'.children m = if m = p then t.children p ++ new else t.children m

lemma exists_gained (ht : t.WellLinked) (hc : t.Attachable p c) :
    ∃ t', t.pushChild p c = .ok t' ∧ Gained t p [c] t' := by
  obtain ⟨t', hok, hmoved, hsame⟩ := exists_pushChild ht hc
  refine ⟨t', hok, hmoved.edited, hmoved.root, hmoved.size, hmoved.construct?, hsame,
    fun m => ?_, fun m => ?_⟩
  · rw [hmoved.parent?]
    simp
  · obtain ⟨_, rfl⟩ := (pushChild_eq_ok_iff ht).mp hok
    rw [children_touch, children_relink _ _ _ _ _ (t.lt_size_of_isLive hc.parent_live)]

/-- Loose nodes are appended to another loose one, one by one. -/
lemma exists_gained_pushChildren (ht : t.Sound) (hp : t.Loose p) {new : List NodeId}
    (hnodup : (p :: new).Nodup) (hloose : ∀ c ∈ new, t.Loose c) :
    ∃ t', t.pushChildren p new = (t', .ok ()) ∧ Gained t p new t' := by
  induction new generalizing t with
  | nil =>
    refine ⟨t, t.pushChildren_nil p, Edited.refl t, rfl, rfl, fun _ => rfl, fun _ => rfl, by simp,
      fun m => ?_⟩
    split
    · next hm => rw [hm, List.append_nil]
    · rfl
  | cons c new ih =>
    have hc : t.Loose c := hloose c List.mem_cons_self
    have hne : c ≠ p := by
      rintro rfl
      exact (List.nodup_cons.mp hnodup).1 List.mem_cons_self
    have hnot : c ∉ new := (List.nodup_cons.mp (List.nodup_cons.mp hnodup).2).1
    have hattach : t.Attachable p c :=
      ⟨hp.live, hc.live, hc.ne_root, hc.free, fun hcp => hne (hcp.eq_of_free hp.free)⟩
    obtain ⟨t₁, hok, hgained⟩ := exists_gained ht.linked hattach
    have hstill : ∀ x, x ≠ c → t.Loose x → t₁.Loose x := by
      intro x hx hloose
      refine ⟨(hgained.isLive x).trans hloose.live, ?_, hgained.root ▸ hloose.ne_root⟩
      rw [hgained.parent?, if_neg (by simpa using hx), hloose.free]
    obtain ⟨t', hrest, hgained'⟩ := ih (ht.edited hgained.edited) (hstill p hne.symm hp)
      (hnodup.sublist (List.Sublist.cons_cons p (List.sublist_cons_self c new)))
      (fun x hx => hstill x (fun hxc => hnot (hxc ▸ hx)) (hloose x (List.mem_cons_of_mem c hx)))
    refine ⟨t', ?_, hgained.edited.trans hgained'.edited, hgained'.root.trans hgained.root,
      hgained'.size.trans hgained.size,
      fun m => (hgained'.construct? m).trans (hgained.construct? m),
      fun m => (hgained'.isLive m).trans (hgained.isLive m), fun m => ?_, fun m => ?_⟩
    · rw [pushChildren_cons, hok]
      exact hrest
    · rw [hgained'.parent?, hgained.parent?]
      by_cases hm : m = c
      · simp [hm]
      · simp [hm]
    · rw [hgained'.children, hgained.children, hgained.children]
      split
      · simp
      · rfl

/-- A new node for the construct `c` has been given the children `new`, and nothing else has
changed. -/
structure Furnished (t : Tree) (c : Construct) (new : List NodeId) (t' : Tree) : Prop where
  edited : t.Edited t'
  root : t'.root = t.root
  size : t'.size = t.size + 1
  construct? : ∀ m, t'.construct? m = if m = t.size then some c else t.construct? m
  isLive : ∀ m, t'.isLive m = (decide (m = t.size) || t.isLive m)
  parent? : ∀ m, t'.parent? m = if m ∈ new then some t.size else t.parent? m
  children : ∀ m, t'.children m = if m = t.size then new else t.children m
  loose : t'.Loose t.size

lemma Loose.add {x : NodeId} (h : t.Loose x) (c : Construct) : (t.add c).1.Loose x := by
  refine ⟨?_, (t.parent?_add c x).trans h.free, h.ne_root⟩
  rw [isLive_add, h.live, Bool.or_true]

lemma loose_add (ht : t.WellLinked) (c : Construct) : (t.add c).1.Loose t.size := by
  refine ⟨?_, ?_, Nat.ne_of_gt ht.root_lt⟩
  · rw [isLive_add]
    simp
  · have hslot : t.slot? t.size = none := t.slot?_eq_none_iff.mpr (Nat.le_refl _)
    rw [parent?_add, parent?, hslot]
    rfl

lemma exists_furnished (ht : t.Sound) (c : Construct) {new : List NodeId} (hnodup : new.Nodup)
    (hloose : ∀ x ∈ new, t.Loose x) :
    ∃ t', Edit.addWithChildren c new t = .ok t.size t' ∧ Furnished t c new t' := by
  have hsize : t.size ∉ new := fun hmem => Nat.lt_irrefl _ (hloose _ hmem).lt_size
  obtain ⟨t', hok, hgained⟩ := exists_gained_pushChildren (ht.edited (t.edited_add c))
    (loose_add ht.linked c) (List.nodup_cons.mpr ⟨hsize, hnodup⟩) fun x hx => (hloose x hx).add c
  refine ⟨t', addWithChildren_eq_ok_iff.mpr ⟨hok, rfl⟩, (t.edited_add c).trans hgained.edited,
    hgained.root, hgained.size.trans (t.size_add c), fun m => ?_, fun m => ?_, fun m => ?_,
    fun m => ?_, ?_⟩
  · rw [hgained.construct?, construct?, slot?_add, construct?]
    split <;> rfl
  · rw [hgained.isLive, isLive_add]
  · rw [hgained.parent?, parent?_add]
  · have hslot : t.slot? t.size = none := t.slot?_eq_none_iff.mpr (Nat.le_refl _)
    rw [hgained.children, children_add, children_add]
    split
    · simp [children, hslot]
    · rfl
  · have hadded := loose_add ht.linked c
    refine ⟨(hgained.isLive _).trans hadded.live, ?_, hgained.root ▸ hadded.ne_root⟩
    rw [hgained.parent?, if_neg hsize, hadded.free]

/-- The way up from a node is the same when the nodes on it keep their parents. -/
lemma reaches_iff_of_above {a : NodeId} (h : ∀ m, t.Reaches m p → t'.parent? m = t.parent? m) :
    t'.Reaches a p ↔ t.Reaches a p := by
  constructor
  · intro hap
    induction hap using Relation.ReflTransGen.head_induction_on with
    | refl => exact Reaches.refl p
    | @head a b hab _ ih =>
      have hlink : t.Link a b := by rwa [Link, ← h b ih]
      exact hlink.reaches.trans ih
  · intro hap
    induction hap using Relation.ReflTransGen.head_induction_on with
    | refl => exact Reaches.refl p
    | @head a b hab hbp ih =>
      have hlink : t'.Link a b := by rwa [Link, h b hbp]
      exact hlink.reaches.trans ih

/-! ### The invariant -/

/-- The tree `t'` after nodes have been put together in `t`: those of `row` have been appended to
the children of `p`, and those of `spare` lie loose. Of the old nodes only those in stock are
used. -/
structure Assembled (t : Tree) (p : NodeId) (stock : List NodeId) (t' : Tree)
    (row spare : List (Sketch × NodeId)) : Prop where
  edited : t.Edited t'
  root : t'.root = t.root
  size_le : t.size ≤ t'.size
  construct? : ∀ m < t.size, t'.construct? m = t.construct? m
  isLive : ∀ m < t.size, t'.isLive m = t.isLive m
  parent? : ∀ m < t.size, m ∉ stock → t'.parent? m = t.parent? m
  children : ∀ m < t.size, t'.children m = t.children m ++ if m = p then row.map Prod.snd else []
  shown : ∀ entry ∈ row ++ spare, t'.Shows t.size entry.1 entry.2
  nodup : (spare.map Prod.snd).Nodup
  loose : ∀ entry ∈ spare, t'.Loose entry.2
  stocked : ∀ entry ∈ spare, entry.2 < t.size → entry.2 ∈ stock

namespace Assembled

/-- To begin with, the stock lies loose. -/
lemma start (p : NodeId) (hnodup : stock.Nodup) (hloose : ∀ c ∈ stock, t.Loose c) :
    Assembled t p stock t [] (stock.map fun c => (.given c, c)) where
  edited := Edited.refl t
  root := rfl
  size_le := Nat.le_refl _
  construct? _ _ := rfl
  isLive _ _ := rfl
  parent? _ _ _ := rfl
  children _ _ := by simp
  shown := by simp [Shows]
  nodup := by
    rw [List.map_map]
    simpa [Function.comp_def] using hnodup
  loose := by simpa using hloose
  stocked := by simp +contextual

lemma perm (h : Assembled t p stock t' row spare) (hperm : spare.Perm parts) :
    Assembled t p stock t' row parts :=
  { h with
    shown := fun entry hentry => h.shown entry ((hperm.append_left row).mem_iff.mpr hentry)
    nodup := (hperm.map Prod.snd).nodup_iff.mp h.nodup
    loose := fun entry hentry => h.loose entry (hperm.mem_iff.mpr hentry)
    stocked := fun entry hentry => h.stocked entry (hperm.mem_iff.mpr hentry) }

lemma sound (h : Assembled t p stock t' row spare) (ht : t.Sound) : t'.Sound :=
  ht.edited h.edited

lemma lt_size (h : Assembled t p stock t' row spare) {entry : Sketch × NodeId}
    (hentry : entry ∈ spare) : entry.2 < t'.size := (h.loose entry hentry).lt_size

/-- A new node takes loose ones as its children. -/
lemma furnish (h : Assembled t p stock t' row (parts ++ spare)) {c : Construct}
    (hnew : Furnished t' c (parts.map Prod.snd) t'') :
    Assembled t p stock t'' row ((.made c (parts.map Prod.fst), t'.size) :: spare) := by
  have hold : ∀ m < t.size, m ≠ t'.size := fun m hm =>
    Nat.ne_of_lt (Nat.lt_of_lt_of_le hm h.size_le)
  have hretains : t'.Retains t.size t'' := by
    intro m _ hm
    rw [hnew.construct?, hnew.isLive, hnew.children]
    simp [Nat.ne_of_lt hm]
  have hshown : ∀ entry ∈ row ++ (parts ++ spare), t''.Shows t.size entry.1 entry.2 :=
    fun entry hentry => (h.shown entry hentry).mono hretains
  have hsplit := h.nodup
  rw [List.map_append, List.nodup_append] at hsplit
  obtain ⟨_, hnodup, hapart⟩ := hsplit
  refine ⟨h.edited.trans hnew.edited, hnew.root.trans h.root, ?_, ?_, ?_, ?_, ?_, ?_, ?_, ?_, ?_⟩
  · rw [hnew.size]
    exact Nat.le_succ_of_le h.size_le
  · intro m hm
    rw [hnew.construct?, if_neg (hold m hm), h.construct? m hm]
  · intro m hm
    rw [hnew.isLive, h.isLive m hm]
    simp [hold m hm]
  · intro m hm hstock
    have hpart : m ∉ parts.map Prod.snd := by
      intro hmem
      obtain ⟨entry, hentry, rfl⟩ := List.mem_map.mp hmem
      exact hstock (h.stocked entry (List.mem_append_left _ hentry) hm)
    rw [hnew.parent?, if_neg hpart, h.parent? m hm hstock]
  · intro m hm
    rw [hnew.children, if_neg (hold m hm), h.children m hm]
  · intro entry hentry
    rcases List.mem_append.mp hentry with hentry | hentry
    · exact hshown entry (List.mem_append_left _ hentry)
    · rcases List.mem_cons.mp hentry with rfl | hentry
      · rw [Shows, hnew.isLive, hnew.construct?, hnew.children]
        refine ⟨h.size_le, by simp, by simp, ?_⟩
        rw [if_pos rfl]
        refine showsRow_of_forall fun entry hentry => hshown entry ?_
        exact List.mem_append_right _ (List.mem_append_left _ hentry)
      · exact hshown entry (List.mem_append_right _ (List.mem_append_right _ hentry))
  · rw [List.map_cons, List.nodup_cons]
    refine ⟨fun hmem => ?_, hnodup⟩
    obtain ⟨entry, hentry, heq⟩ := List.mem_map.mp hmem
    exact Nat.ne_of_lt (h.lt_size (List.mem_append_right _ hentry)) heq
  · intro entry hentry
    rcases List.mem_cons.mp hentry with rfl | hentry
    · exact hnew.loose
    · have hloose := h.loose entry (List.mem_append_right _ hentry)
      have hpart : entry.2 ∉ parts.map Prod.snd := fun hmem =>
        hapart _ hmem _ (List.mem_map_of_mem hentry) rfl
      refine ⟨?_, ?_, hnew.root ▸ hloose.ne_root⟩
      · rw [hnew.isLive, hloose.live, Bool.or_true]
      · rw [hnew.parent?, if_neg hpart, hloose.free]
  · intro entry hentry hlt
    rcases List.mem_cons.mp hentry with rfl | hentry
    · exact absurd h.size_le (Nat.not_le.mpr hlt)
    · exact h.stocked entry (List.mem_append_right _ hentry) hlt

section attaching

variable (ht : t.Sound) (hp : t.isLive p = true) (hstock : ∀ c ∈ stock, ¬ t.Reaches c p)
include ht hp hstock

/-- What lies loose is not above the row, so it can be appended. -/
lemma attachable (h : Assembled t p stock t' row spare) {entry : Sketch × NodeId}
    (hentry : entry ∈ spare) : t'.Attachable p entry.2 := by
  have hloose := h.loose entry hentry
  have hlt : ∀ {m}, t.Reaches m p → m < t.size := fun hm =>
    t.lt_size_of_isLive ((ht.linked.isLive_of_reaches hm).trans hp)
  have habove : ∀ m, t.Reaches m p → t'.parent? m = t.parent? m := fun m hm =>
    h.parent? m (hlt hm) fun hmem => hstock m hmem hm
  refine ⟨(h.isLive p (hlt (Reaches.refl p))).trans hp, hloose.live, hloose.ne_root, hloose.free,
    ?_⟩
  intro hreach
  have hreach' : t.Reaches entry.2 p := (reaches_iff_of_above habove).mp hreach
  exact hstock _ (h.stocked entry hentry (hlt hreach')) hreach'

/-- A loose node is appended to the row. -/
lemma append {entry : Sketch × NodeId} (h : Assembled t p stock t' row (entry :: spare)) :
    ∃ t'', t'.pushChild p entry.2 = .ok t'' ∧ Assembled t p stock t'' (row ++ [entry]) spare := by
  have hattach := h.attachable ht hp hstock List.mem_cons_self
  obtain ⟨t'', hok, hgained⟩ := exists_gained (h.sound ht).linked hattach
  obtain ⟨hnot, hnodup⟩ := List.nodup_cons.mp h.nodup
  refine ⟨t'', hok, h.edited.trans hgained.edited, hgained.root.trans h.root, ?_, ?_, ?_, ?_, ?_,
    ?_, hnodup, ?_, ?_⟩
  · rw [hgained.size]
    exact h.size_le
  · intro m hm
    rw [hgained.construct?, h.construct? m hm]
  · intro m hm
    rw [hgained.isLive, h.isLive m hm]
  · intro m hm hout
    have hne : m ∉ [entry.2] := by
      rw [List.mem_singleton]
      rintro rfl
      exact hout (h.stocked entry List.mem_cons_self hm)
    rw [hgained.parent?, if_neg hne, h.parent? m hm hout]
  · intro m hm
    rw [hgained.children]
    by_cases hmp : m = p
    · subst hmp
      rw [if_pos rfl, if_pos rfl, h.children m hm, if_pos rfl, List.map_append, List.append_assoc]
      rfl
    · rw [if_neg hmp, if_neg hmp, h.children m hm, if_neg hmp]
  · -- the row that grows is that of an old node
    have hretains : t'.Retains t.size t'' := by
      intro m hm _
      have hmp : m ≠ p := Nat.ne_of_gt (Nat.lt_of_lt_of_le (t.lt_size_of_isLive hp) hm)
      rw [hgained.construct?, hgained.isLive, hgained.children, if_neg hmp]
      exact ⟨rfl, rfl, rfl⟩
    intro other hother
    rw [List.append_assoc, List.singleton_append] at hother
    exact (h.shown other hother).mono hretains
  · intro other hother
    have hloose := h.loose other (List.mem_cons_of_mem entry hother)
    have hne : other.2 ∉ [entry.2] := by
      rw [List.mem_singleton]
      intro heq
      exact hnot (heq ▸ List.mem_map_of_mem hother)
    refine ⟨(hgained.isLive _).trans hloose.live, ?_, hgained.root ▸ hloose.ne_root⟩
    rw [hgained.parent?, if_neg hne, hloose.free]
  · exact fun other hother => h.stocked other (List.mem_cons_of_mem entry hother)

end attaching

/-! ### Building -/

section building

variable (ht : t.Sound) {w : Workspace}
include ht

lemma yields_addWithChildren (parts : List (Sketch × NodeId)) (c : Construct)
    (h : Assembled t p stock w.tree row (parts ++ spare)) :
    (Action.addWithChildren c (parts.map Prod.snd)).Yields w fun id t' =>
      Assembled t p stock t' row ((.made c (parts.map Prod.fst), id) :: spare) := by
  have hnodup := h.nodup
  rw [List.map_append] at hnodup
  have hloose : ∀ x ∈ parts.map Prod.snd, w.tree.Loose x := by
    intro x hx
    obtain ⟨entry, hentry, rfl⟩ := List.mem_map.mp hx
    exact h.loose entry (List.mem_append_left _ hentry)
  obtain ⟨t', hok, hnew⟩ := exists_furnished (h.sound ht) c hnodup.of_append_left hloose
  exact ⟨w.tree.size, { w with tree := t' }, Action.edit_eq_ok_iff.mpr ⟨t', hok, rfl⟩,
    h.furnish hnew⟩

lemma yields_add (c : Construct) (h : Assembled t p stock w.tree row spare) :
    (Action.add c).Yields w fun id t' =>
      Assembled t p stock t' row ((.made c [], id) :: spare) := by
  obtain ⟨t', hok, hnew⟩ := exists_furnished (h.sound ht) c List.nodup_nil (by simp)
  cases hok
  have h' : Assembled t p stock w.tree row ([] ++ spare) := h
  exact ⟨w.tree.size, _, rfl, h'.furnish hnew⟩

lemma yields_addItem (key : String) (value : Sketch × NodeId)
    (h : Assembled t p stock w.tree row (value :: spare)) :
    (Action.addItem key value.2).Yields w fun id t' =>
      Assembled t p stock t' row ((.item key value.1, id) :: spare) := by
  refine (yields_add ht (.string key) h).bind fun k w' hk => ?_
  exact yields_addWithChildren ht [(.made (.string key) [], k), value] (.arrayItem true) hk

omit ht in
/-- A loop that makes one loose piece of those it uses up in each turn. -/
lemma yields_mapM {α β : Type} {f : α → Action β} (used : α → List (Sketch × NodeId))
    (sketch : α → Sketch) (result : α → NodeId → β)
    (hf : ∀ a (w : Workspace) spare, Assembled t p stock w.tree row (used a ++ spare) →
      (f a).Yields w fun b t' =>
        ∃ id, b = result a id ∧ Assembled t p stock t' row ((sketch a, id) :: spare))
    (l : List α) (spare : List (Sketch × NodeId))
    (h : Assembled t p stock w.tree row (l.flatMap used ++ spare)) :
    (l.mapM f).Yields w fun bs t' => ∃ ids : List NodeId, ids.length = l.length ∧
      bs = List.zipWith result l ids ∧
        Assembled t p stock t' row ((l.map sketch).zip ids ++ spare) := by
  induction l generalizing w spare with
  | nil => exact Action.Yields.pure ⟨[], rfl, rfl, h⟩
  | cons a l ih =>
    rw [List.mapM_cons]
    rw [List.flatMap_cons, List.append_assoc] at h
    refine (hf a w _ h).bind ?_
    rintro b w' ⟨id, rfl, hb⟩
    refine (ih ((sketch a, id) :: spare) (hb.perm List.perm_middle.symm)).bind ?_
    rintro bs w'' ⟨ids, hlength, rfl, hbs⟩
    refine Action.Yields.pure ⟨id :: ids, by simp [hlength], rfl, ?_⟩
    exact hbs.perm List.perm_middle

/-- Loose pieces become the items of an array. -/
lemma yields_addArray (entries : List (String × Sketch × NodeId)) (spare : List (Sketch × NodeId))
    (h : Assembled t p stock w.tree row (entries.map Prod.snd ++ spare)) :
    ((do
      let items ← (entries.map fun e => (e.1, e.2.2)).mapM fun (key, value) =>
        Action.addItem key value
      Action.addWithChildren .array items) : Action NodeId).Yields w fun id t' =>
        Assembled t p stock t' row
          ((.made .array (entries.map fun e => .item e.1 e.2.1), id) :: spare) := by
  have hstep : ∀ (e : String × Sketch × NodeId) (w' : Workspace) spare',
      Assembled t p stock w'.tree row ([e.2] ++ spare') →
      (Action.addItem e.1 e.2.2).Yields w' fun b t' =>
        ∃ id, b = id ∧ Assembled t p stock t' row ((.item e.1 e.2.1, id) :: spare') := by
    intro e w' spare' h'
    refine (yields_addItem ht e.1 e.2 h').mono ?_
    exact fun id t' hid => ⟨id, rfl, hid⟩
  rw [List.map_eq_flatMap] at h
  rw [List.mapM_map]
  refine (yields_mapM (fun e => [e.2]) _ (fun _ id => id) hstep entries spare h).bind ?_
  rintro items w' ⟨ids, hlength, rfl, hids⟩
  have hnodes : List.zipWith (fun (_ : String × Sketch × NodeId) id => id) entries ids =
      ((entries.map fun e => Sketch.item e.1 e.2.1).zip ids).map Prod.snd := by
    rw [List.map_snd_zip (by simp [hlength]), ← List.map_uncurry_zip_eq_zipWith]
    exact List.map_snd_zip (by simp [hlength])
  rw [hnodes]
  refine (yields_addWithChildren ht _ .array hids).mono fun id t' hid => ?_
  rwa [List.map_fst_zip (by simp [hlength])] at hid

end building

end Assembled

end Tree

end CodeMigration
