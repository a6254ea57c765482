import CodeMigration.Proofs.Document.Numbering
import CodeMigration.Proofs.Tree.Records

/-!
# Attributes and live nodes

A history is careful when each attribute is set on a live node and points, if at any node, at a live
one. Then no attribute outlives its node: whatever else the history does, with checkpoints and
rollbacks, the tree is anchored at each point of it. Discarding takes the attributes of the
discarded nodes away together with every reference to them, and a rollback leads back to a tree that
was anchored when the checkpoint was opened.
-/

namespace CodeMigration

namespace Tree

variable {t t' : Tree}

/-- Every attribute is on a live node, and a node it points at is live. -/
def Anchored (t : Tree) : Prop :=
  ∀ n, ∀ e ∈ t.attributes.ofNode n,
    t.isLive n = true ∧ ∀ m, e.value = .node m → t.isLive m = true

/-! ### Parts of edits -/

namespace Anchored

/-- Attributes may go as long as no node does. -/
lemma of_trimmed (h : t.Anchored) (hlive : ∀ n, t.isLive n = true → t'.isLive n = true)
    (htrimmed : t.attributes.Trimmed t'.attributes) : t'.Anchored := by
  intro n e he
  obtain ⟨hn, hpoints⟩ := h n e ((htrimmed n).subset he)
  exact ⟨hlive n hn, fun m hm => hlive m (hpoints m hm)⟩

lemma of_same (h : t.Anchored) (hlive : ∀ n, t.isLive n = true → t'.isLive n = true)
    (hattributes : t'.attributes = t.attributes) : t'.Anchored :=
  h.of_trimmed hlive (hattributes ▸ .refl _)

lemma touch (h : t.Anchored) : t.touch.Anchored := h

lemma relink (h : t.Anchored) (p : NodeId) (row new out : List NodeId) :
    (t.relink p row new out).Anchored :=
  h.of_same (fun n hn => (isLive_relink t p row new out n).trans hn) (attributes_relink ..)

lemma add (h : t.Anchored) (c : Construct) : (t.add c).1.Anchored := by
  refine h.of_same (fun n hn => ?_) rfl
  rw [isLive_add, hn, Bool.or_true]

/-- Both what is recorded on the discarded nodes and what points at them is forgotten. -/
lemma discard (h : t.Anchored) (id : NodeId) : (t.discard id).Anchored := by
  intro n e he
  rw [attributes_discard, Attributes.ofNode, Attributes.bags_forget] at he
  cases hb : t.attributes.bags[n]? with
  | none => simp [hb] at he
  | some b =>
    by_cases hn : n ∈ t.descendants id
    · simp [hb, hn] at he
    · have hmem : e ∈ b.forget (t.descendants id) := by
        rw [hb, Option.bind_some, if_neg hn, Bag.nonempty?] at he
        split at he
        · cases he
        · exact he
      obtain ⟨he, hout⟩ := List.mem_filter.mp hmem
      obtain ⟨hlive, hpoints⟩ := h n e (by rwa [Attributes.ofNode, hb])
      refine ⟨by simp [isLive_discard, hlive, hn], fun m hm => ?_⟩
      have hm' : m ∉ t.descendants id := by
        simpa [hm, AttributeValue.pointsInto, AttributeValue.asNode?] using hout
      simp [isLive_discard, hpoints m hm, hm']

lemma setAttribute (h : t.Anchored) {n : NodeId} (hn : t.isLive n = true) (key : AttributeKey)
    {value : AttributeValue} (hvalue : ∀ m, value = .node m → t.isLive m = true) :
    (t.setAttribute n key value).Anchored := by
  intro m e he
  have he : e ∈ (t.attributes.set n key value).ofNode m := he
  rw [Attributes.ofNode_set] at he
  split at he
  · next hm =>
    rcases Bag.mem_set he with rfl | he
    · exact ⟨hm ▸ hn, hvalue⟩
    · exact h m e (hm ▸ he)
  · exact h m e he

/-! ### Edits -/

section edits

variable (h : t.Anchored) (ht : t.WellLinked)
include h ht

lemma pushChild {p c : NodeId} (hok : t.pushChild p c = .ok t') : t'.Anchored := by
  obtain ⟨_, rfl⟩ := (pushChild_eq_ok_iff ht).mp hok
  exact (h.relink _ _ _ _).touch

lemma pushChildren (p : NodeId) (children : List NodeId) :
    (t.pushChildren p children).1.Anchored := by
  refine (pushChildren_induction (P := fun t => t.Anchored ∧ t.WellLinked) ?_ ⟨h, ht⟩ children).1
  intro t₁ t₂ c ⟨h₁, ht₁⟩ hok
  exact ⟨h₁.pushChild ht₁ hok, ht₁.pushChild hok⟩

lemma removeChild {p c : NodeId} (hok : t.removeChild p c = .ok t') : t'.Anchored := by
  obtain ⟨_, _, rfl⟩ := (removeChild_eq_ok_iff ht).mp hok
  exact (h.relink _ _ _ _).touch.discard c

lemma replaceChild {p old new : NodeId} (hok : t.replaceChild p old new = .ok t') :
    t'.Anchored := by
  obtain ⟨_, _, _, rfl⟩ := (replaceChild_eq_ok_iff ht).mp hok
  exact ((h.relink _ _ _ _).discard old).touch

end edits

end Anchored

end Tree

/-! ### Commands -/

namespace Command

variable {t : Tree} {c : Command NodeId}

/-- A command that sets an attribute sets it on a live node, and to no reference but to one. -/
def isCareful (t : Tree) : Command NodeId → Bool
  | .setAttribute n _ value => t.isLive n && value.asNode?.all t.isLive
  | .pointAttribute n _ target => t.isLive n && t.isLive target
  | _ => true

/-- Each command of a row is careful when its turn comes. -/
def areCareful (t : Tree) : List (Command NodeId) → Bool
  | [] => true
  | c :: cmds => c.isCareful t && areCareful (c.run t).1 cmds

lemma anchored_run (hplain : c.isPlain = true) (hcare : c.isCareful t = true) (ht : t.WellLinked)
    (h : t.Anchored) : (c.run t).1.Anchored := by
  cases c with
  | add k => exact h.add k
  | addWithChildren k children =>
    rw [run_addWithChildren, Tree.addWithChildren_eq]
    exact (h.add k).pushChildren (ht.add k) t.size children
  | pushChild p child =>
    exact settle_fst (Edit.atomic_pushChild ..) h fun t' hok => h.pushChild ht hok
  | insertChild p i child =>
    refine settle_fst (Edit.atomic_insertChild ..) h fun t' hok => ?_
    obtain ⟨_, _, rfl⟩ := (Tree.insertChild_eq_ok_iff ht).mp hok
    exact (h.relink _ _ _ _).touch
  | detach p child =>
    refine settle_fst (Edit.atomic_detach ..) h fun t' hok => ?_
    obtain ⟨_, _, rfl⟩ := (Tree.detach_eq_ok_iff ht).mp hok
    exact (h.relink _ _ _ _).touch
  | removeChild p child =>
    exact settle_fst (Edit.atomic_removeChild ..) h fun t' hok => h.removeChild ht hok
  | remove n =>
    refine settle_fst (Edit.atomic_remove ..) h fun t' hok => ?_
    obtain ⟨_, ⟨p, _, hok⟩ | ⟨_, _, rfl⟩⟩ := Tree.remove_eq_ok_iff.mp hok
    · exact h.removeChild ht hok
    · exact (h.discard n).touch
  | replaceChild p old new =>
    exact settle_fst (Edit.atomic_replaceChild ..) h fun t' hok => h.replaceChild ht hok
  | replace old new =>
    refine settle_fst (Edit.atomic_replace ..) h fun t' hok => ?_
    obtain ⟨_, ⟨p, _, hok⟩ | ⟨_, _, _, _, _, rfl⟩⟩ := (Tree.replace_eq_ok_iff ht).mp hok
    · exact h.replaceChild ht hok
    · have hroot : ({ t with root := new } : Tree).Anchored := h
      exact (hroot.discard old).touch
  | replaceWithMany old new =>
    refine inside_fst h fun _ => settle_fst (Edit.atomic_replaceWithMany ..) h fun t' hok => ?_
    obtain ⟨p, _, _, _, _, rfl⟩ := (Tree.replaceWithMany_eq_ok_iff ht).mp hok
    exact ((h.relink _ _ _ _).discard old).touch
  | takeChildren n =>
    refine inside_fst h fun _ => ?_
    have hrow : (t.relink n [] [] (t.children n)).Anchored := h.relink _ _ _ _
    exact t.takeChildren_cases (fun _ => hrow) hrow.touch
  | setConstruct n k =>
    refine inside_fst h fun _ => h.of_trimmed (fun m hm => ?_) ?_
    · rwa [Tree.isLive_setConstruct]
    · rw [Tree.setConstruct, Tree.attributes_modifySlot]
      exact t.attributes.trimmed_erase n .resolvedType
  | setAttribute n key value =>
    obtain ⟨hn, hvalue⟩ := Bool.and_eq_true_iff.mp hcare
    refine h.setAttribute hn key fun m hm => ?_
    simpa [hm, AttributeValue.asNode?] using hvalue
  | pointAttribute n key target =>
    obtain ⟨hn, htarget⟩ := Bool.and_eq_true_iff.mp hcare
    refine h.setAttribute hn key fun m hm => ?_
    rwa [← AttributeValue.node.inj hm]
  | removeAttribute n key =>
    exact h.of_trimmed (fun _ hm => hm) (t.attributes.trimmed_erase n key)
  | clearKey key => exact h.of_trimmed (fun _ hm => hm) (t.attributes.trimmed_clearKey key)
  | forget nodes =>
    exact h.of_trimmed (fun _ hm => hm) (t.attributes.trimmed_forget nodes)
  | checkpoint => cases hplain
  | commit => cases hplain
  | rollback => cases hplain

end Command

/-! ### Histories -/

namespace Tree

variable {t : Tree}

/-- The trees that come about by careful commands, successful or refused, from a new tree or the
tree of a document. -/
inductive CarefullyReachable : Tree → Prop
  | new (c : Construct) : CarefullyReachable (Tree.new c)
  | withOrigin {t : Tree} (path source : Option String) :
      CarefullyReachable t → CarefullyReachable (t.withOrigin path source)
  | ofDocument {d : Document} {t : Tree} (hok : ofDocument d = .ok t) : CarefullyReachable t
  | run {t : Tree} {c : Command NodeId} (hcare : c.isCareful t = true) :
      CarefullyReachable t → CarefullyReachable (c.run t).1

namespace CarefullyReachable

lemma reachable (h : t.CarefullyReachable) : t.Reachable := by
  induction h with
  | new c => exact .new c
  | withOrigin path source _ ih => exact .withOrigin path source ih
  | ofDocument hok => exact .ofDocument hok
  | @run t c _ _ ih => exact .run c ih

lemma runAll (h : t.CarefullyReachable) {cmds : List (Command NodeId)}
    (hcare : Command.areCareful t cmds = true) :
    (Command.runAll t cmds).CarefullyReachable := by
  induction cmds generalizing t with
  | nil => exact h
  | cons c cmds ih =>
    obtain ⟨hc, hcmds⟩ := Bool.and_eq_true_iff.mp hcare
    exact ih (.run hc h) hcmds

end CarefullyReachable

/-- The tree of a document has positions and formatting data on its nodes, all of which are live,
and no references. -/
lemma anchored_ofDocument {d : Document} (hok : ofDocument d = .ok t) : t.Anchored := by
  intro n e he
  have hplain : t.Plain := (outline_ofDocument hok).1
  have hlinked : t.WellLinked := (Reachable.ofDocument hok).sound.linked
  have hget : t.attribute? n e.key = some e.value := hplain.distinct.get?_of_mem he
  have hlt : n < t.size := by
    by_contra hge
    rw [hplain.known n e.key (Nat.not_lt.mp hge)] at hget
    cases hget
  refine ⟨hlinked.isLive_of_attached ?_, fun m hm => ?_⟩
  · rwa [← hlinked.mem_nodes_iff, nodes_ofDocument hok, List.mem_range]
  · -- neither a position nor formatting data is a reference
    rw [hm] at hget
    by_cases hspan : e.key = .span
    · rw [hspan, hplain.spans, Option.map_eq_some_iff] at hget
      obtain ⟨_, _, hvalue⟩ := hget
      cases hvalue
    · by_cases hlayout : e.key = .layout
      · rw [hlayout, hplain.layouts, Option.map_eq_some_iff] at hget
        obtain ⟨_, _, hvalue⟩ := hget
        cases hvalue
      · rw [hplain.keys n e.key hspan hlayout] at hget
        cases hget

/-- A command keeps a tree anchored, and the tree that a rollback leads to as well. -/
lemma Sound.anchored_run (hs : t.Sound) {c : Command NodeId} (hcare : c.isCareful t = true)
    (h : t.Anchored) (hback : t.rollback.Anchored) :
    (c.run t).1.Anchored ∧ (c.run t).1.rollback.Anchored := by
  have hrun : (c.run t).1.Anchored := by
    cases hplain : c.isPlain with
    | true => exact Command.anchored_run hplain hcare hs.linked h
    | false =>
      cases c with
      | checkpoint => exact h
      | commit => exact h
      | rollback => exact hback
      | _ => cases hplain
  refine ⟨hrun, ?_⟩
  rcases hs.rollback_run c with hsame | hnone | hopened
  · rwa [hsame]
  · rwa [hnone]
  · rw [hopened]
    exact h

lemma CarefullyReachable.anchored (h : t.CarefullyReachable) :
    t.Anchored ∧ t.rollback.Anchored := by
  have hnew : ∀ c, (Tree.new c).Anchored := by
    intro c n e he
    simp [Tree.new, Attributes.ofNode] at he
  induction h with
  | new c => exact ⟨hnew c, hnew c⟩
  | withOrigin path source _ ih =>
    rw [rollback_withOrigin]
    exact ih
  | @ofDocument d t hok =>
    -- a document is read without a checkpoint
    have hanchored : t.Anchored := anchored_ofDocument hok
    refine ⟨hanchored, ?_⟩
    obtain ⟨cmds, hplain, rfl⟩ := edited_ofDocument hok
    have hs := (sound_new d.root.construct).withOrigin d.path d.source
    obtain ⟨_, hopen, _⟩ := (recorded_runAll hplain hs.linked).1 hs.journaled
    have hclosed : (Command.runAll _ cmds).journal = none :=
      Option.isNone_iff_eq_none.mp (Option.isSome_eq_false_iff.mp hopen)
    rwa [rollback, hclosed]
  | run hcare ht ih => exact ht.reachable.sound.anchored_run hcare ih.1 ih.2

/-- No attribute outlives its node. After every careful history the nodes with attributes are live,
and every reference names a live node of the arena. -/
theorem CarefullyReachable.attributes_live (h : t.CarefullyReachable) :
    (∀ n ∈ t.attributes.nodes, t.isLive n = true) ∧
      ∀ n, ∀ e ∈ t.attributes.ofNode n, ∀ m, e.value = .node m →
        m < t.size ∧ t.isLive m = true := by
  have hanchored : t.Anchored := h.anchored.1
  refine ⟨fun n hn => ?_, fun n e he m hm => ?_⟩
  · rw [Attributes.nodes, Std.ExtTreeMap.mem_keys, Std.ExtTreeMap.mem_iff_isSome_getElem?,
      Option.isSome_iff_exists] at hn
    obtain ⟨b, hb⟩ := hn
    have hne : b ≠ [] := (h.reachable.sound.journaled.tidy.bags n b hb).1
    obtain ⟨e, rest, rfl⟩ := List.exists_cons_of_ne_nil hne
    refine (hanchored n e ?_).1
    rw [Attributes.ofNode, hb]
    exact List.mem_cons_self
  · have hlive := (hanchored n e he).2 m hm
    exact ⟨t.lt_size_of_isLive hlive, hlive⟩

/-- A history in which a node is discarded with its attributes and a reference to it, comes back by
a rollback, and leaves the number of a node that the rollback has dropped to another one. -/
def sampleHistory : List (Command NodeId) :=
  [.add .null, .pushChild 0 1, .add .null, .pushChild 1 2,
    .setAttribute 2 .processed (.flag true), .pointAttribute 0 .derivedFrom 2,
    .checkpoint, .remove 1, .add .null, .pointAttribute 0 .derivedFrom 3, .rollback,
    .add .null, .pointAttribute 3 .derivedFrom 1]

theorem attributes_live_sample :
    Command.areCareful (Tree.new .null) sampleHistory = true ∧
    (Command.runAll (Tree.new .null) sampleHistory).attributes.nodes = [0, 2, 3] ∧
    ∀ n ∈ [0, 2, 3], (Command.runAll (Tree.new .null) sampleHistory).isLive n = true := by
  have hcare : Command.areCareful (Tree.new .null) sampleHistory = true := by decide +kernel
  have hnodes : (Command.runAll (Tree.new .null) sampleHistory).attributes.nodes = [0, 2, 3] := by
    decide +kernel
  have hlive := ((CarefullyReachable.new .null).runAll hcare).attributes_live.1
  rw [hnodes] at hlive
  exact ⟨hcare, hnodes, hlive⟩

end Tree

end CodeMigration
