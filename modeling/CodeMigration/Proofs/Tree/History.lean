import CodeMigration.Document.Tree
import CodeMigration.Proofs.Tree.Undo
import CodeMigration.Proofs.Tree.Validate
import CodeMigration.Tree.Command

/-!
# Trees and their histories

What a single command can do to a tree is said once, by `Tree.Step`; what holds along every row of
commands follows by induction. A tree is reachable when it comes about from a new tree or the tree
of a document by commands, each of which may succeed or be refused.
-/

namespace CodeMigration

namespace Command

variable {t : Tree}

/-- Everything but the opening and closing of checkpoints. -/
def isPlain {ρ : Type} : Command ρ → Bool
  | .checkpoint | .commit | .rollback => false
  | _ => true

/-- The tree after a row of commands, whether they succeed or not. -/
def runAll (t : Tree) (cmds : List (Command NodeId)) : Tree :=
  cmds.foldl (fun t c => (c.run t).1) t

@[simp] lemma runAll_nil (t : Tree) : runAll t [] = t := rfl

@[simp] lemma runAll_cons (t : Tree) (c : Command NodeId) (cmds : List (Command NodeId)) :
    runAll t (c :: cmds) = runAll (c.run t).1 cmds := rfl

lemma runAll_append (t : Tree) (cmds cmds' : List (Command NodeId)) :
    runAll t (cmds ++ cmds') = runAll (runAll t cmds) cmds' := List.foldl_append

lemma settle_fst {m : Edit Unit} {reply : Reply} {P : Tree → Prop} (hm : m.Atomic) (hrefl : P t)
    (hok : ∀ t', m.result t = .ok t' → P t') : P (settle t reply m).1 := by
  rw [settle, hm.apply_eq t]
  cases hresult : m.result t with
  | ok t' => exact hok t' hresult
  | error e => exact hrefl

lemma settle_of_ok {m : Edit Unit} {t' : Tree} (reply : Reply) (hok : m.result t = .ok t') :
    settle t reply m = (t', .ok reply) := by
  rw [settle, Edit.result_eq_ok_iff.mp hok]

lemma inside_fst {id : NodeId} {r : Tree × Except Failure Reply} {P : Tree → Prop} (hrefl : P t)
    (hin : id < t.size → P r.1) : P (inside t id r).1 := by
  rw [inside]
  split
  · next hid => exact hin (by simpa [Tree.contains] using hid)
  · exact hrefl

lemma run_addWithChildren (t : Tree) (c : Construct) (children : List NodeId) :
    ((Command.addWithChildren c children).run t).1 = (t.addWithChildren c children).1 := by
  rw [run, Tree.addWithChildren, Edit.outcome]
  split
  · next h => rw [h]
  · next h => rw [h]

end Command

namespace Tree

variable {t t' t'' : Tree}

/-! ### Single steps -/

/-- What a command other than those of checkpoints can do to a tree. -/
inductive Step (t : Tree) : Tree → Prop
  | refused : Step t t
  | add (c : Construct) : Step t (t.add c).1
  | addWithChildren (c : Construct) (children : List NodeId) :
      Step t (t.addWithChildren c children).1
  | pushChild {p c : NodeId} {t' : Tree} (hok : t.pushChild p c = .ok t') : Step t t'
  | insertChild {p c : NodeId} {i : Nat} {t' : Tree} (hok : t.insertChild p i c = .ok t') :
      Step t t'
  | detach {p c : NodeId} {t' : Tree} (hok : t.detach p c = .ok t') : Step t t'
  | removeChild {p c : NodeId} {t' : Tree} (hok : t.removeChild p c = .ok t') : Step t t'
  | remove {n : NodeId} {t' : Tree} (hok : t.remove n = .ok t') : Step t t'
  | replaceChild {p old new : NodeId} {t' : Tree} (hok : t.replaceChild p old new = .ok t') :
      Step t t'
  | replace {old new : NodeId} {t' : Tree} (hok : t.replace old new = .ok t') : Step t t'
  | replaceWithMany {old : NodeId} {new : List NodeId} {t' : Tree}
      (hok : t.replaceWithMany old new = .ok t') : Step t t'
  | takeChildren {n : NodeId} (hn : n < t.size) : Step t (t.takeChildren n).1
  | setConstruct {n : NodeId} (hn : n < t.size) (c : Construct) : Step t (t.setConstruct n c)
  | setAttribute (n : NodeId) (key : AttributeKey) (value : AttributeValue) :
      Step t (t.setAttribute n key value)
  | removeAttribute (n : NodeId) (key : AttributeKey) : Step t (t.mapAttributes (·.erase n key))
  | clearKey (key : AttributeKey) : Step t (t.mapAttributes (·.clearKey key))
  | forget (nodes : List NodeId) : Step t (t.mapAttributes (·.forget nodes))

lemma step_run {c : Command NodeId} (hc : c.isPlain = true) (t : Tree) : Step t (c.run t).1 := by
  cases c with
  | add c => exact .add c
  | addWithChildren c children =>
    rw [Command.run_addWithChildren]
    exact .addWithChildren c children
  | pushChild p c =>
    exact Command.settle_fst (Edit.atomic_pushChild ..) .refused fun _ hok => .pushChild hok
  | insertChild p i c =>
    exact Command.settle_fst (Edit.atomic_insertChild ..) .refused fun _ hok => .insertChild hok
  | detach p c => exact Command.settle_fst (Edit.atomic_detach ..) .refused fun _ hok => .detach hok
  | removeChild p c =>
    exact Command.settle_fst (Edit.atomic_removeChild ..) .refused fun _ hok => .removeChild hok
  | remove n => exact Command.settle_fst (Edit.atomic_remove ..) .refused fun _ hok => .remove hok
  | replaceChild p old new =>
    exact Command.settle_fst (Edit.atomic_replaceChild ..) .refused fun _ hok => .replaceChild hok
  | replace old new =>
    exact Command.settle_fst (Edit.atomic_replace ..) .refused fun _ hok => .replace hok
  | replaceWithMany old new =>
    refine Command.inside_fst .refused fun _ => ?_
    exact Command.settle_fst (Edit.atomic_replaceWithMany ..) .refused
      fun _ hok => .replaceWithMany hok
  | takeChildren n => exact Command.inside_fst .refused fun hn => .takeChildren hn
  | setConstruct n c => exact Command.inside_fst .refused fun hn => .setConstruct hn c
  | setAttribute n key value => exact .setAttribute n key value
  | pointAttribute n key target => exact .setAttribute n key (.node target)
  | removeAttribute n key => exact .removeAttribute n key
  | clearKey key => exact .clearKey key
  | forget nodes => exact .forget nodes
  | checkpoint => cases hc
  | commit => cases hc
  | rollback => cases hc

lemma Step.wellLinked (hs : Step t t') (h : t.WellLinked) : t'.WellLinked := by
  cases hs with
  | refused => exact h
  | add c => exact h.add c
  | addWithChildren c children => exact h.addWithChildren c children
  | pushChild hok => exact h.pushChild hok
  | insertChild hok => exact h.insertChild hok
  | detach hok => exact h.detach hok
  | removeChild hok => exact h.removeChild hok
  | remove hok => exact h.remove hok
  | replaceChild hok => exact h.replaceChild hok
  | replace hok => exact h.replace hok
  | replaceWithMany hok => exact h.replaceWithMany hok
  | takeChildren hn => exact h.takeChildren hn
  | setConstruct _ c => exact h.setConstruct _ c
  | setAttribute | removeAttribute | clearKey | forget => exact h.mapAttributes _

lemma Step.recorded (hs : Step t t') (h : t.WellLinked) : Recorded t t' := by
  cases hs with
  | refused => exact Recorded.refl t
  | add c => exact recorded_add t c
  | addWithChildren c children => exact recorded_addWithChildren h c children
  | pushChild hok => exact recorded_pushChild h hok
  | insertChild hok => exact recorded_insertChild h hok
  | detach hok => exact recorded_detach h hok
  | removeChild hok => exact recorded_removeChild h hok
  | remove hok => exact recorded_remove h hok
  | replaceChild hok => exact recorded_replaceChild h hok
  | replace hok => exact recorded_replace h hok
  | replaceWithMany hok => exact recorded_replaceWithMany h hok
  | takeChildren => exact recorded_takeChildren t _
  | setConstruct _ c => exact recorded_setConstruct t _ c
  | setAttribute n key value => exact recorded_mapAttributes t (Attributes.recorded_set _ _ _ _)
  | removeAttribute n key => exact recorded_mapAttributes t (Attributes.recorded_erase _ _ _)
  | clearKey key => exact recorded_mapAttributes t (Attributes.recorded_clearKey _ _)
  | forget nodes => exact recorded_mapAttributes t (Attributes.recorded_forget _ _)

/-! ### Rows of steps -/

/-- A row of plain commands keeps every relation between trees that each step keeps. -/
lemma runAll_induct {R : Tree → Tree → Prop} (hrefl : ∀ t, R t t)
    (htrans : ∀ {t t' t''}, R t t' → R t' t'' → R t t'')
    (hstep : ∀ {t t'}, t.WellLinked → Step t t' → R t t') {cmds : List (Command NodeId)}
    (hplain : ∀ c ∈ cmds, c.isPlain = true) (h : t.WellLinked) :
    R t (Command.runAll t cmds) ∧ (Command.runAll t cmds).WellLinked := by
  induction cmds generalizing t with
  | nil => exact ⟨hrefl t, h⟩
  | cons c cmds ih =>
    have hc : Step t (c.run t).1 := step_run (hplain c List.mem_cons_self) t
    obtain ⟨hR, hlinked⟩ := ih (fun d hd => hplain d (List.mem_cons_of_mem c hd)) (hc.wellLinked h)
    exact ⟨htrans (hstep h hc) hR, hlinked⟩

lemma recorded_runAll {cmds : List (Command NodeId)} (hplain : ∀ c ∈ cmds, c.isPlain = true)
    (h : t.WellLinked) : Recorded t (Command.runAll t cmds) ∧ (Command.runAll t cmds).WellLinked :=
  runAll_induct Recorded.refl Recorded.trans (fun h hs => hs.recorded h) hplain h

/-! ### Documents -/

/-- `t'` comes about from `t` by plain commands. -/
def Edited (t t' : Tree) : Prop :=
  ∃ cmds : List (Command NodeId), (∀ c ∈ cmds, c.isPlain = true) ∧ t' = Command.runAll t cmds

lemma Edited.refl (t : Tree) : Edited t t := ⟨[], by simp, rfl⟩

lemma Edited.trans (h : Edited t t') (h' : Edited t' t'') : Edited t t'' := by
  obtain ⟨cmds, hplain, rfl⟩ := h
  obtain ⟨cmds', hplain', rfl⟩ := h'
  refine ⟨cmds ++ cmds', ?_, (Command.runAll_append _ _ _).symm⟩
  intro c hc
  rcases List.mem_append.mp hc with hc | hc
  · exact hplain c hc
  · exact hplain' c hc

lemma edited_run (t : Tree) (c : Command NodeId) (hc : c.isPlain = true) :
    Edited t (c.run t).1 := ⟨[c], by simpa using hc, rfl⟩

lemma edited_add (t : Tree) (c : Construct) : Edited t (t.add c).1 := edited_run t (.add c) rfl

lemma edited_setAttribute (t : Tree) (n : NodeId) (key : AttributeKey) (value : AttributeValue) :
    Edited t (t.setAttribute n key value) := edited_run t (.setAttribute n key value) rfl

lemma edited_pushChild {p c : NodeId} (hok : t.pushChild p c = .ok t') : Edited t t' := by
  have hrun := edited_run t (.pushChild p c) rfl
  rwa [Command.run, Command.settle_of_ok _ hok] at hrun

lemma edited_setExtras (t : Tree) (n : NodeId) (span : Option Span) (layout : Option Json) :
    Edited t (t.setExtras n span layout) := by
  cases span with
  | none =>
    cases layout with
    | none => exact Edited.refl t
    | some l => exact edited_setAttribute t n _ _
  | some s =>
    have hspan := edited_setAttribute t n .span (.span s)
    cases layout with
    | none => exact hspan
    | some l => exact hspan.trans (edited_setAttribute _ n _ _)

mutual

lemma edited_plant (n : DocNode) {p : NodeId} {level : Nat} {t t' : Tree}
    (hok : plant p level n t = .ok t') : Edited t t' := by
  match n with
  | .node c children span layout =>
    rw [plant] at hok
    split at hok
    · cases hok
    · obtain ⟨t₁, hpush, hrest⟩ := Except.bind_eq_ok_iff.mp hok
      have hnode := (edited_add t c).trans (edited_setExtras _ t.size span layout)
      exact (hnode.trans (edited_pushChild hpush)).trans (edited_plantAll children hrest)

lemma edited_plantAll (ns : List DocNode) {p : NodeId} {level : Nat} {t t' : Tree}
    (hok : plantAll p level ns t = .ok t') : Edited t t' := by
  match ns with
  | [] =>
    cases hok
    exact Edited.refl t
  | n :: ns =>
    rw [plantAll] at hok
    obtain ⟨t₁, hn, hns⟩ := Except.bind_eq_ok_iff.mp hok
    exact (edited_plant n hn).trans (edited_plantAll ns hns)

end

/-- The tree of a document comes about by commands from a tree of a single node. -/
lemma edited_ofDocument {d : Document} (hok : ofDocument d = .ok t) :
    Edited ((Tree.new d.root.construct).withOrigin d.path d.source) t :=
  (edited_setExtras _ _ _ _).trans (edited_plantAll _ hok)

/-! ### Reachable trees -/

/-- The trees that come about by commands, successful or refused, from a new tree or the tree of a
document. -/
inductive Reachable : Tree → Prop
  | new (c : Construct) : Reachable (Tree.new c)
  | withOrigin {t : Tree} (path source : Option String) :
      Reachable t → Reachable (t.withOrigin path source)
  | ofDocument {d : Document} {t : Tree} (hok : ofDocument d = .ok t) : Reachable t
  | run {t : Tree} (c : Command NodeId) : Reachable t → Reachable (c.run t).1

/-- The invariant of reachable trees: the links are good now and after a rollback. -/
structure Sound (t : Tree) : Prop where
  linked : t.WellLinked
  journaled : t.Journaled
  back : t.rollback.WellLinked

lemma Sound.of_closed (h : t.WellLinked) (hj : t.Journaled) (hclosed : t.journal = none) :
    t.Sound := by
  refine ⟨h, hj, ?_⟩
  rwa [rollback, hclosed]

/-- No pair of a node and a key has two values. -/
lemma Sound.distinct (h : t.Sound) : t.attributes.Distinct := h.journaled.tidy.bags.distinct

lemma sound_new (c : Construct) : (Tree.new c).Sound := by
  refine Sound.of_closed (wellLinked_new c) ⟨?_, rfl, ?_⟩ rfl
  · exact ⟨by simp [Tree.new, Attributes.Compact], by simp [Tree.new]⟩
  · intro j hj
    cases hj

lemma rollback_withOrigin (t : Tree) (path source : Option String) :
    (t.withOrigin path source).rollback = t.rollback.withOrigin path source := by
  obtain ⟨slots, root, revision, attributes, origin, _ | journal⟩ := t
  · rfl
  · rfl

lemma Sound.withOrigin (h : t.Sound) (path source : Option String) :
    (t.withOrigin path source).Sound := by
  have hlinked : ∀ {t : Tree}, t.WellLinked → (t.withOrigin path source).WellLinked :=
    fun h => h.congr (fun _ => rfl) (fun _ => rfl) (fun _ => rfl) rfl
  refine ⟨hlinked h.linked, ⟨h.journaled.tidy, h.journaled.isSome_eq, h.journaled.size_le⟩, ?_⟩
  rw [rollback_withOrigin]
  exact hlinked h.back

lemma Sound.edited (h : t.Sound) (he : Edited t t') : t'.Sound := by
  obtain ⟨cmds, hplain, rfl⟩ := he
  obtain ⟨hrec, hlinked⟩ := recorded_runAll hplain h.linked
  obtain ⟨hj, hopen, hback⟩ := hrec h.journaled
  refine ⟨hlinked, hj, ?_⟩
  cases hjournal : t.journal with
  | none =>
    rw [hjournal, Option.isSome_none, Option.isSome_eq_false_iff, Option.isNone_iff_eq_none]
      at hopen
    rwa [rollback, hopen]
  | some j =>
    rw [hback (by rw [hjournal]; rfl)]
    exact h.back

lemma Sound.checkpoint (h : t.Sound) : t.checkpoint.Sound := by
  refine ⟨h.linked.checkpoint, h.journaled.checkpoint, ?_⟩
  rw [rollback_checkpoint]
  exact h.linked.commit

lemma Sound.commit (h : t.Sound) : t.commit.Sound :=
  Sound.of_closed h.linked.commit h.journaled.commit rfl

/-- A rollback undoes what plain commands did since the checkpoint. -/
lemma Sound.rollback_edited (h : t.Sound) (he : Edited t.checkpoint t') :
    t'.rollback = t.commit := by
  obtain ⟨cmds, hplain, rfl⟩ := he
  have hs : t.checkpoint.Sound := h.checkpoint
  obtain ⟨_, _, hback⟩ := (recorded_runAll hplain hs.linked).1 hs.journaled
  rw [hback rfl, rollback_checkpoint]

lemma journal_rollback (t : Tree) : t.rollback.journal = none := by
  rw [rollback]
  cases hj : t.journal with
  | none => exact hj
  | some j => rfl

lemma Sound.rollback (h : t.Sound) : t.rollback.Sound :=
  Sound.of_closed h.back h.journaled.rollback (journal_rollback t)

lemma Sound.run (h : t.Sound) (c : Command NodeId) : (c.run t).1.Sound := by
  cases hc : c.isPlain with
  | true => exact h.edited (edited_run t c hc)
  | false =>
    cases c with
    | checkpoint => exact h.checkpoint
    | commit => exact h.commit
    | rollback => exact h.rollback
    | _ => cases hc

/-- After a command a rollback leads where it led before, nowhere because no checkpoint is open, or
to the tree at which the command has opened one. -/
lemma Sound.rollback_run (h : t.Sound) (c : Command NodeId) :
    (c.run t).1.rollback = t.rollback ∨ (c.run t).1.rollback = (c.run t).1 ∨
      (c.run t).1.rollback = t.commit := by
  cases hc : c.isPlain with
  | true =>
    obtain ⟨_, hopen, hsame⟩ := (step_run hc t).recorded h.linked h.journaled
    cases hj : t.journal with
    | none =>
      rw [hj, Option.isSome_none, Option.isSome_eq_false_iff, Option.isNone_iff_eq_none] at hopen
      exact Or.inr (Or.inl (by rw [Tree.rollback, hopen]))
    | some j => exact Or.inl (hsame (by rw [hj]; rfl))
  | false =>
    cases c with
    | checkpoint => exact Or.inr (Or.inr (rollback_checkpoint t))
    | commit => exact Or.inr (Or.inl rfl)
    | rollback =>
      refine Or.inl ?_
      show t.rollback.rollback = t.rollback
      rw [Tree.rollback, journal_rollback]
    | _ => cases hc

/-- What plain commands keep, and what does not depend on the journals, is kept by every row of
commands, provided that a rollback in the row leads back to a tree that has it. -/
lemma Sound.runAll_preserves {P : Tree → Prop} {cmds : List (Command NodeId)}
    (hplain : ∀ {t c}, c ∈ cmds → c.isPlain = true → Sound t → P t → P (c.run t).1)
    (hcheckpoint : ∀ {t}, P t → P t.checkpoint) (hcommit : ∀ {t}, P t → P t.commit)
    (hs : t.Sound) (h : P t) (hback : .rollback ∈ cmds → P t.rollback) :
    P (Command.runAll t cmds) := by
  induction cmds generalizing t with
  | nil => exact h
  | cons c cmds ih =>
    have hrun : P (c.run t).1 := by
      cases hc : c.isPlain with
      | true => exact hplain List.mem_cons_self hc hs h
      | false =>
        cases c with
        | checkpoint => exact hcheckpoint h
        | commit => exact hcommit h
        | rollback => exact hback List.mem_cons_self
        | _ => cases hc
    refine ih (fun hd => hplain (List.mem_cons_of_mem c hd)) (hs.run c) hrun fun hmem => ?_
    rcases hs.rollback_run c with hsame | hnone | hopened
    · rw [hsame]
      exact hback (List.mem_cons_of_mem c hmem)
    · rwa [hnone]
    · rw [hopened]
      exact hcommit h

lemma Reachable.sound (h : t.Reachable) : t.Sound := by
  induction h with
  | new c => exact sound_new c
  | withOrigin path source _ ih => exact ih.withOrigin path source
  | ofDocument hok => exact ((sound_new _).withOrigin _ _).edited (edited_ofDocument hok)
  | run c _ ih => exact ih.run c

lemma Reachable.runAll (h : t.Reachable) (cmds : List (Command NodeId)) :
    (Command.runAll t cmds).Reachable := by
  induction cmds generalizing t with
  | nil => exact h
  | cons c cmds ih => exact ih (h.run c)

/-- In a reachable tree the links of all slots, live or discarded, agree in both directions and form
a forest, so the check finds nothing wrong and no edit meets a child that its parent misses. -/
theorem Reachable.arena_invariant (h : t.Reachable) :
    (∀ p c, c ∈ t.children p ↔ t.parent? c = some p) ∧
    (∀ p, (t.children p).Nodup) ∧
    (∀ p c, c ∈ t.children p → t.isLive p = t.isLive c) ∧
    (∀ n, ¬ Relation.TransGen (fun p c => t.parent? c = some p) n n) ∧
    t.isLive t.root = true ∧ t.parent? t.root = none ∧
    t.validate = .ok () ∧
    ∀ p c v, t.checkChild p c ≠ .error (.invariantViolation v) := by
  have hw : t.WellLinked := h.sound.linked
  refine ⟨hw.mem_children_iff, hw.nodup_children, ?_, hw.acyclic, hw.root_live, hw.root_free,
    hw.validate_eq_ok, ?_⟩
  · intro p c hc
    exact hw.isLive_eq p c ((hw.mem_children_iff p c).mp hc)
  · intro p c v
    exact checkChild_ne_invariantViolation hw v

/-- A chain of three nodes, after a refused edit and one that was undone. -/
def sampleTree : Tree :=
  Command.runAll (Tree.new .null) [.add .null, .pushChild 0 1, .add .null, .pushChild 1 2,
    .pushChild 2 0, .checkpoint, .remove 1, .rollback]

lemma reachable_sampleTree : sampleTree.Reachable := (Reachable.new .null).runAll _

theorem arena_invariant_sample :
    sampleTree.children 0 = [1] ∧ sampleTree.validate = .ok () := by
  obtain ⟨_, _, _, _, _, _, hvalid, _⟩ := reachable_sampleTree.arena_invariant
  exact ⟨by decide +kernel, hvalid⟩

/-- Whatever plain commands do after a checkpoint, a rollback undoes all of it and closes both
journals. -/
theorem Reachable.rollback_exact (h : t.Reachable) {cmds : List (Command NodeId)}
    (hplain : ∀ c ∈ cmds, c.isPlain = true) :
    (Command.runAll t.checkpoint cmds).rollback =
      { t with journal := none, attributes := { t.attributes with journal := none } } := by
  rw [h.sound.rollback_edited ⟨cmds, hplain, rfl⟩]
  rfl

/-- Edits of the sample tree: an attribute, a removal, a new root, and a refused edit. -/
def sampleEdits : List (Command NodeId) :=
  [.setAttribute 2 .processed (.flag true), .remove 1, .add .null, .replace 0 3, .pushChild 3 0]

theorem rollback_exact_sample :
    (Command.runAll sampleTree.checkpoint sampleEdits).root = 3 ∧
    (Command.runAll sampleTree.checkpoint sampleEdits).rollback =
      { sampleTree with
        journal := none, attributes := { sampleTree.attributes with journal := none } } :=
  ⟨by decide +kernel, reachable_sampleTree.rollback_exact (by decide)⟩

end Tree

end CodeMigration
