import CodeMigration.Proofs.Pass.Abreast
import CodeMigration.Proofs.Rule.Commands

/-!
# Rules that never succeed

A rule whose every application gives up leaves nothing behind: the rollback takes the tree back, and
the files it asked for are dropped. So a pass with such a rule goes abreast of the pass without it,
on trees that are the same but for their journals.
-/

namespace CodeMigration

namespace Rule

/-- An application to a reachable tree ends with a reachable tree. -/
def StaysReachable (r : Rule) : Prop :=
  ∀ oracle pass node (w : Workspace), w.tree.Reachable →
    ((r.apply oracle pass node).after w).tree.Reachable

lemma ActsByCommands.staysReachable {r : Rule} (h : r.ActsByCommands) : r.StaysReachable := by
  intro oracle pass node w hw
  obtain ⟨cmds, _, hrun⟩ := h oracle pass node w
  rw [hrun]
  exact hw.runAll cmds

/-- Every application works on the tree by plain commands, may ask for files, and then gives up. -/
def GivesUp (q : Rule) : Prop :=
  ∀ oracle pass node (w : Workspace), ∃ id reason w',
    q.apply oracle pass node w = .error (.error (.invalidMutation id reason)) w' ∧
      w.tree.Edited w'.tree ∧ w.files <+: w'.files

end Rule

namespace Pass

/-- The same reachable tree but for the journals, and the same files. -/
structure Twin (w w' : Workspace) : Prop where
  reachable : w.tree.Reachable
  commit : w'.tree.commit = w.tree.commit
  files : w'.files = w.files

namespace Twin

variable {w w' : Workspace} (h : Twin w w')
include h

/-- What a commit leaves alone is the same on both sides. -/
lemma eq_of_commit {α : Type} {f : Tree → α} (hf : ∀ t : Tree, f t.commit = f t) :
    f w'.tree = f w.tree := by
  rw [← hf, ← hf w.tree, h.commit]

lemma revision : w'.tree.revision = w.tree.revision := h.eq_of_commit fun _ => rfl

/-- A checkpoint forgets the journals, so both sides go on from the same workspace. -/
lemma checkpoint : (⟨w'.tree.checkpoint, w'.files⟩ : Workspace) = ⟨w.tree.checkpoint, w.files⟩ := by
  rw [h.eq_of_commit (f := Tree.checkpoint) fun _ => rfl, h.files]

end Twin

section rules

variable {σ σ' : PassSetting} {s s' s₁ : PassState} {r q : Rule} {n : NodeId} {o : Outcome}

/-- An offer to a rule of both passes ends with one and the same workspace. -/
lemma offer_twin (horacle : σ'.oracle = σ.oracle) (hpass : σ'.pass = σ.pass)
    (hr : r.StaysReachable) (ha : Abreast (fun w _ => Twin w) s s')
    (hok : offer σ r n s = .ok o s₁) :
    ∃ s₁', offer σ' r n s' = .ok o s₁' ∧ Abreast (fun w _ => Twin w) s₁ s₁' ∧
      s₁'.tree = s₁.tree := by
  have hafter := hr σ.oracle σ.pass n ⟨s.tree.checkpoint, s.files⟩
    (ha.work.reachable.run .checkpoint)
  have hsame : r.apply σ'.oracle σ'.pass n ⟨s'.tree.checkpoint, s'.files⟩ =
      r.apply σ.oracle σ.pass n ⟨s.tree.checkpoint, s.files⟩ := by
    rw [horacle, hpass, ha.work.checkpoint]
  rcases offer_eq_ok_iff.mp hok with ⟨o₀, w, happ, hjudge, rfl⟩ | ⟨e, w, happ, hfatal, rfl, rfl⟩
  · rw [Action.after, happ] at hafter
    refine ⟨_, offer_eq_ok_iff.mpr (Or.inl ⟨o₀, w, hsame.trans happ, ?_, rfl⟩), ?_, rfl⟩
    · rw [ha.work.revision]
      exact hjudge
    · exact ha.step rfl rfl ⟨hafter.run .commit, rfl, rfl⟩
  · rw [Action.after, happ] at hafter
    refine ⟨_, offer_eq_ok_iff.mpr (Or.inr ⟨e, w, hsame.trans happ, hfatal, rfl, rfl⟩), ?_, rfl⟩
    have hfiles : s'.files = s.files := ha.work.files
    rw [hfiles]
    exact ha.recover rfl rfl ⟨hafter.run .rollback, rfl, rfl⟩

/-- An offer to a rule that gives up is undone. -/
lemma offer_givesUp (hq : q.GivesUp) (ha : Abreast (fun w _ => Twin w) s s') :
    ∃ s₁', offer σ' q n s' = .ok .unchanged s₁' ∧ Abreast (fun w _ => Twin w) s s₁' := by
  obtain ⟨id, reason, w, happ, hedited, hfiles⟩ :=
    hq σ'.oracle σ'.pass n ⟨s'.tree.checkpoint, s'.files⟩
  have hback : w.tree.rollback = s.tree.commit := by
    rw [ha.work.checkpoint] at hedited
    exact ha.work.reachable.sound.rollback_edited hedited
  have htake : w.files.take s'.files.length = s.files := by
    rw [List.prefix_iff_eq_take.mp hfiles |>.symm]
    exact ha.work.files
  refine ⟨_, offer_eq_ok_iff.mpr (Or.inr ⟨_, w, happ, rfl, rfl, rfl⟩), ?_⟩
  rw [hback, htake]
  exact { ha with slots := rfl, root := rfl, work := ⟨ha.work.reachable, rfl, rfl⟩ }

lemma finishRemoval_twin {rule : String} {s₂ : PassState} (ha : Abreast (fun w _ => Twin w) s s')
    (htree : s'.tree = s.tree) (hok : finishRemoval rule n s = .ok () s₂) :
    ∃ s₂', finishRemoval rule n s' = .ok () s₂' ∧ Abreast (fun w _ => Twin w) s₂ s₂' := by
  rcases finishRemoval_eq_ok_iff.mp hok with ⟨hdead, rfl⟩ | ⟨hlive, hroot, t, hremove, rfl⟩
  · refine ⟨s', finishRemoval_eq_ok_iff.mpr (Or.inl ⟨?_, rfl⟩), ha⟩
    rw [htree]
    exact hdead
  · refine ⟨_, finishRemoval_eq_ok_iff.mpr (Or.inr ⟨?_, ?_, t, ?_, rfl⟩), ?_⟩
    · rw [htree]
      exact hlive
    · rw [htree]
      exact hroot
    · rw [htree]
      exact hremove
    · have hrun := ha.work.reachable.run (.remove n)
      rw [Command.run, Command.settle_of_ok _ hremove] at hrun
      exact { ha with slots := rfl, root := rfl, work := ⟨hrun, rfl, ha.work.files⟩ }

lemma keepsUp_givesUp {l₁ l₂ : List Rule} (hrules : σ.rules = l₁ ++ l₂)
    (hfits : allowance { σ with rules := l₁ ++ q :: l₂ } < UInt32.size)
    (hreach : ∀ r ∈ σ.rules, r.StaysReachable) (hq : q.GivesUp) :
    KeepsUp σ { σ with rules := l₁ ++ q :: l₂ } (· = q) (fun _ => True) Set.univ
      fun w _ => Twin w where
  rules := by
    rw [hrules]
    exact @Padded.insert (· = q) q rfl l₁ l₂
  bound := rfl
  limit := by
    refine replacementLimit_le_of_length_le rfl ?_ hfits
    rw [hrules]
    exact (@Padded.insert (· = q) q rfl l₁ l₂).length_le
  depth := rfl
  suffix _ _ := trivial
  entry h := h
  child _ _ _ := Set.mem_univ _
  offer hr _ ha _ hok _ := by
    obtain ⟨s₁', hok', ha', _⟩ := offer_twin rfl rfl (hreach _ hr) ha hok
    exact ⟨s₁', hok', ha', fun _ _ => Set.mem_univ _⟩
  removal hr _ ha _ hok _ hremoval := by
    obtain ⟨s₁', hok', ha', htree⟩ := offer_twin rfl rfl (hreach _ hr) ha hok
    obtain ⟨s₂', hremoval', ha₂⟩ := finishRemoval_twin ha' htree hremoval
    exact ⟨s₁', s₂', hok', hremoval', ha₂⟩
  spare := by
    rintro s s' _ n rfl _ ha _
    exact offer_givesUp hq ha

end rules

end Pass

/-- A rule that turns a null into a string. -/
def namingRule : Rule where
  id := "naming"
  kinds := [.null]
  apply _ _ n := do
    Action.require n
    Action.update (·.setConstruct n (.string "null"))
    return .mutated

lemma namingRule_actsByCommands : namingRule.ActsByCommands := by
  refine Rule.EditsOnly.actsByCommands fun _ _ n => Action.EditsFrom.require_bind ?_
  exact (Action.EditsFrom.setConstruct (Nat.lt_succ_self n) _).bind fun _ =>
    Action.EditsFrom.pure _

/-- A rule that allocates a node, marks it, asks for a file and then gives up. -/
def hesitantRule : Rule where
  id := "hesitant"
  kinds := [.null, .string]
  order := .post
  apply _ _ n := do
    let m ← Action.add .null
    Action.mark m .processed
    Action.addFile ⟨"a.php", ""⟩
    Action.refuse (.invalidMutation n .notFree)

lemma hesitantRule_givesUp : hesitantRule.GivesUp := by
  intro _ _ n w
  refine ⟨n, .notFree, _, rfl, ?_, List.prefix_append _ _⟩
  exact (w.tree.edited_add .null).trans (Tree.edited_setAttribute _ _ _ _)

/-- A rule that turns a null into a string, and says that it has replaced the node. -/
def renewingRule : Rule where
  id := "renewing"
  kinds := [.null]
  apply _ _ n := do
    Action.require n
    Action.update (·.setConstruct n (.string "null"))
    return .replaced n

lemma renewingRule_actsByCommands : renewingRule.ActsByCommands := by
  refine Rule.EditsOnly.actsByCommands fun _ _ n => Action.EditsFrom.require_bind ?_
  exact (Action.EditsFrom.setConstruct (Nat.lt_succ_self n) _).bind fun _ =>
    Action.EditsFrom.pure _

end CodeMigration
