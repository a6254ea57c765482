import CodeMigration.Proofs.Tree.History

/-!
# Edits that are refused

`Tree.Permits` says in which trees an edit may be made. In a reachable tree an edit that is
permitted succeeds, and one that is not is refused as invalid and leaves the tree as it was
(`Tree.Reachable.succeeds_or_refused`).
-/

namespace CodeMigration

/-- The edits of links that can be refused. -/
def Command.isStructural {ρ : Type} : Command ρ → Bool
  | .pushChild .. | .insertChild .. | .detach .. | .removeChild .. | .remove .. => true
  | .replaceChild .. | .replace .. | .replaceWithMany .. => true
  | _ => false

/-- The nodes that an edit of links names. -/
def Command.nodes {ρ : Type} : Command ρ → List ρ
  | .pushChild parent child | .insertChild parent _ child => [parent, child]
  | .detach parent child | .removeChild parent child => [parent, child]
  | .remove node => [node]
  | .replaceChild parent old new => [parent, old, new]
  | .replace old new => [old, new]
  | .replaceWithMany old new => old :: new
  | _ => []

namespace Tree

variable {α β : Type} {t t' : Tree} {p c : NodeId}

/-! ### What is permitted -/

/-- Both nodes are live, and the child is not the root, has no parent, and is neither the parent
nor above it. -/
def CanAttach (t : Tree) (p c : NodeId) : Prop :=
  t.isLive p = true ∧ t.isLive c = true ∧ c ≠ t.root ∧ t.parent? c = none ∧ c ∉ p :: t.ancestors p

instance : Decidable (t.CanAttach p c) := inferInstanceAs (Decidable (_ ∧ _))

/-- Both nodes are live, and one is a child of the other. -/
def HasChild (t : Tree) (p c : NodeId) : Prop :=
  t.isLive p = true ∧ t.isLive c = true ∧ c ∈ t.children p

instance : Decidable (t.HasChild p c) := inferInstanceAs (Decidable (_ ∧ _))

/-- The edit may be made. -/
def Permits (t : Tree) : Command NodeId → Prop
  | .pushChild parent child => t.CanAttach parent child
  | .insertChild parent index child =>
    t.CanAttach parent child ∧ index ≤ (t.children parent).length
  | .detach parent child | .removeChild parent child => t.HasChild parent child
  | .remove node => t.isLive node = true ∧ node ≠ t.root
  | .replaceChild parent old new => t.HasChild parent old ∧ t.CanAttach parent new
  | .replace old new =>
    if old = t.root then t.isLive new = true ∧ t.parent? new = none ∧ new ≠ old
    else ∃ parent ∈ t.parent? old, t.HasChild parent old ∧ t.CanAttach parent new
  | .replaceWithMany old new =>
    ∃ parent ∈ t.parent? old, t.HasChild parent old ∧ new.Nodup ∧ ∀ n ∈ new, t.CanAttach parent n
  | _ => True

section permits

variable (h : t.WellLinked)
include h

lemma canAttach_iff : t.CanAttach p c ↔ t.Attachable p c := by
  have habove : c ∈ p :: t.ancestors p ↔ t.Reaches c p := by
    rw [List.mem_cons, h.mem_ancestors_iff, reaches_iff]
  constructor
  · rintro ⟨hp, hc, hroot, hfree, hnot⟩
    exact ⟨hp, hc, hroot, hfree, fun hr => hnot (habove.mpr hr)⟩
  · rintro ⟨hp, hc, hroot, hfree, hnot⟩
    exact ⟨hp, hc, hroot, hfree, fun hm => hnot (habove.mp hm)⟩

lemma hasChild_iff : t.HasChild p c ↔ t.isLive c = true ∧ t.Link p c := by
  rw [HasChild, h.mem_children_iff]
  refine ⟨And.right, fun ⟨hlive, hlink⟩ => ⟨?_, hlive, hlink⟩⟩
  exact (h.isLive_eq p c hlink).trans hlive

lemma removeChild_succeeds_iff : (∃ t', t.removeChild p c = .ok t') ↔ t.HasChild p c := by
  simp only [removeChild_eq_ok_iff h, hasChild_iff h, exists_and_left, exists_eq, and_true]

lemma replaceChild_succeeds_iff {old new : NodeId} :
    (∃ t', t.replaceChild p old new = .ok t') ↔ t.HasChild p old ∧ t.CanAttach p new := by
  simp only [replaceChild_eq_ok_iff h, hasChild_iff h, canAttach_iff h, exists_and_left, exists_eq,
    and_true, and_assoc]

/-- Nodes without a parent are removed unless they are the root. -/
lemma remove_succeeds_iff {n : NodeId} :
    (∃ t', t.remove n = .ok t') ↔ t.isLive n = true ∧ n ≠ t.root := by
  simp only [remove_eq_ok_iff, exists_and_left]
  refine and_congr_right fun hlive => ?_
  constructor
  · rintro ⟨t', ⟨p, hlink, _⟩ | ⟨_, hroot, _⟩⟩
    · exact h.ne_root_of_link hlink
    · exact hroot
  · intro hroot
    cases hn : t.parent? n with
    | none => exact ⟨_, Or.inr ⟨rfl, hroot, rfl⟩⟩
    | some p =>
      obtain ⟨t', hok⟩ := (removeChild_succeeds_iff h).mpr ((hasChild_iff h).mpr ⟨hlive, hn⟩)
      exact ⟨t', Or.inl ⟨p, hn, hok⟩⟩

lemma replace_succeeds_iff {old new : NodeId} :
    (∃ t', t.replace old new = .ok t') ↔ t.Permits (.replace old new) := by
  rw [Permits]
  split
  · next hroot =>
    subst hroot
    constructor
    · rintro ⟨t', hok⟩
      obtain ⟨_, ⟨p, hlink, _⟩ | ⟨_, _, hnew, hfree, hne, _⟩⟩ := (replace_eq_ok_iff h).mp hok
      · exact absurd rfl (h.ne_root_of_link hlink)
      · exact ⟨hnew, hfree, hne.symm⟩
    · rintro ⟨hnew, hfree, hne⟩
      exact ⟨_, (replace_eq_ok_iff h).mpr
        ⟨h.root_live, Or.inr ⟨h.root_free, rfl, hnew, hfree, hne.symm, rfl⟩⟩⟩
  · next hroot =>
    simp only [← replaceChild_succeeds_iff h, replace_eq_ok_iff h]
    constructor
    · rintro ⟨t', _, ⟨p, hlink, hok⟩ | ⟨_, hold, _⟩⟩
      · exact ⟨p, hlink, t', hok⟩
      · exact absurd hold hroot
    · rintro ⟨p, hlink, t', hok⟩
      exact ⟨t', ((replaceChild_eq_ok_iff h).mp hok).1, Or.inl ⟨p, hlink, hok⟩⟩

lemma replaceWithMany_succeeds_iff {old : NodeId} {new : List NodeId} :
    (∃ t', t.replaceWithMany old new = .ok t') ↔ t.Permits (.replaceWithMany old new) := by
  simp only [Permits, replaceWithMany_eq_ok_iff h, hasChild_iff h, canAttach_iff h]
  constructor
  · rintro ⟨t', p, hlink, hlive, hnd, hnew, _⟩
    exact ⟨p, hlink, ⟨hlive, hlink⟩, hnd, hnew⟩
  · rintro ⟨p, hlink, ⟨hlive, _⟩, hnd, hnew⟩
    exact ⟨_, p, hlink, hlive, hnd, hnew, rfl⟩

end permits

/-! ### What a refusal is -/

/-- The result is a value or says that an edit is invalid. -/
def OkOrRefused (x : Except Error α) : Prop := (∃ a, x = .ok a) ∨ ∃ n reason, x = refuse n reason

namespace OkOrRefused

lemma ok (a : α) : OkOrRefused (.ok a) := Or.inl ⟨a, rfl⟩

lemma refuse (n : NodeId) (reason : Refusal) : OkOrRefused (refuse n reason : Except Error α) :=
  Or.inr ⟨n, reason, rfl⟩

lemma bind {x : Except Error α} {f : α → Except Error β} (hx : OkOrRefused x)
    (hf : ∀ a, OkOrRefused (f a)) : OkOrRefused (x >>= f) := by
  rcases hx with ⟨a, rfl⟩ | ⟨n, reason, rfl⟩
  · exact hf a
  · exact refuse n reason

lemma ite {b : Prop} [Decidable b] {x y : Except Error α} (hx : OkOrRefused x)
    (hy : OkOrRefused y) : OkOrRefused (if b then x else y) := by
  split
  · exact hx
  · exact hy

lemma check {f : Tree → Except Error α} {g : α → Edit Unit} (hx : OkOrRefused (f t))
    (hg : ∀ a, OkOrRefused ((g a).result t)) : OkOrRefused ((Edit.check f >>= g).result t) := by
  rw [Edit.result_check_bind]
  exact hx.bind hg

lemma iteEdit {b : Prop} [Decidable b] {m m' : Edit Unit} (hm : OkOrRefused (m.result t))
    (hm' : OkOrRefused (m'.result t)) : OkOrRefused ((if b then m else m').result t) := by
  split
  · exact hm
  · exact hm'

end OkOrRefused

lemma okOrRefused_checkLive (t : Tree) (n : NodeId) : OkOrRefused (t.checkLive n) :=
  .ite (.ok ()) (.refuse n _)

lemma okOrRefused_checkAttachable (t : Tree) (p c : NodeId) :
    OkOrRefused (t.checkAttachable p c) := by
  refine .bind (t.okOrRefused_checkLive p) fun _ => .bind (t.okOrRefused_checkLive c) fun _ => ?_
  refine .ite (.refuse c _) ?_
  split
  · exact .refuse c _
  · exact .ite (.refuse c _) (.ok ())

lemma okOrRefused_checkReplacements (t : Tree) (p : NodeId) (seen new : List NodeId) :
    OkOrRefused (t.checkReplacements p seen new) := by
  induction new generalizing seen with
  | nil => exact .ok ()
  | cons n new ih =>
    rw [checkReplacements]
    refine .ite (.refuse n _) (.bind (t.okOrRefused_checkLive n) fun _ => ?_)
    exact .ite (.refuse n _) (ih (n :: seen))

section refusals

variable (h : t.WellLinked)
include h

/-- A child is found below its parent, so the check is never at a loss. -/
lemma okOrRefused_checkChild (p c : NodeId) : OkOrRefused (t.checkChild p c) := by
  refine .bind (t.okOrRefused_checkLive p) fun _ => .bind (t.okOrRefused_checkLive c) fun _ => ?_
  split
  · exact .refuse c _
  · next hlink =>
    rw [idxOf?_of_mem ((h.mem_children_iff p c).mpr (not_not.mp hlink))]
    exact .ok _

lemma okOrRefused_detach (p c : NodeId) : OkOrRefused (t.detach p c) :=
  .check (okOrRefused_checkChild h p c) fun _ => .ok _

lemma okOrRefused_removeChild (p c : NodeId) : OkOrRefused (t.removeChild p c) := by
  rw [removeChild, Edit.removeChild, Edit.result_bind_modify]
  exact .bind (okOrRefused_detach h p c) fun _ => .ok _

lemma okOrRefused_replaceChild (p old new : NodeId) : OkOrRefused (t.replaceChild p old new) := by
  refine .check (okOrRefused_checkChild h p old) fun _ => ?_
  refine .check (t.okOrRefused_checkLive new) fun _ => ?_
  exact .iteEdit (.refuse new _) (.iteEdit (.refuse new _) (.ok _))

lemma okOrRefused_remove (n : NodeId) : OkOrRefused (t.remove n) := by
  refine .check (t.okOrRefused_checkLive n) fun _ => ?_
  rw [Edit.result_get_bind]
  split
  · exact okOrRefused_removeChild h _ n
  · exact .iteEdit (.refuse n _) (.ok _)

lemma okOrRefused_replace (old new : NodeId) : OkOrRefused (t.replace old new) := by
  refine .check (t.okOrRefused_checkLive old) fun _ => ?_
  rw [Edit.result_get_bind]
  split
  · exact okOrRefused_replaceChild h _ old new
  · refine .iteEdit (.check (t.okOrRefused_checkLive new) fun _ => ?_) (.refuse old _)
    exact .iteEdit (.refuse new _) (.ok _)

lemma okOrRefused_replaceWithMany (old : NodeId) (new : List NodeId) :
    OkOrRefused (t.replaceWithMany old new) := by
  rw [replaceWithMany, Edit.replaceWithMany, Edit.result_get_bind]
  split
  · exact .refuse old _
  · next p _ =>
    refine .check (okOrRefused_checkChild h p old) fun _ => ?_
    exact .check (t.okOrRefused_checkReplacements p [] new) fun _ => .ok _

end refusals

/-! ### Every edit -/

/-- An edit that succeeds exactly when it is permitted, and is otherwise refused: as it is atomic,
it has left the tree as it was. -/
lemma settle_succeeds_or_refused {permitted : Prop} {m : Edit Unit} (reply : Reply)
    (hm : m.Atomic) (hx : OkOrRefused (m.result t))
    (hiff : (∃ t', m.result t = .ok t') ↔ permitted) :
    (permitted ∧ ∃ t' reply', Command.settle t reply m = (t', .ok reply')) ∨
      (¬ permitted ∧ ∃ n reason,
        Command.settle t reply m = (t, .error (.error (.invalidMutation n reason)))) := by
  rcases hx with ⟨t', hok⟩ | ⟨n, reason, herror⟩
  · exact Or.inl ⟨hiff.mp ⟨t', hok⟩, t', reply, Command.settle_of_ok reply hok⟩
  · refine Or.inr ⟨fun hp => ?_, n, reason, ?_⟩
    · obtain ⟨t', hok⟩ := hiff.mpr hp
      cases hok.symm.trans herror
    · rw [Command.settle, hm.apply_eq t, herror]
      rfl

/-- An edit of links succeeds where it is permitted; elsewhere it is refused as invalid, and nothing
of the tree has changed, though it is edited step by step. -/
theorem Reachable.succeeds_or_refused (h : t.Reachable) {c : Command NodeId}
    (hc : c.isStructural = true) (hin : ∀ n ∈ c.nodes, t.contains n = true) :
    (t.Permits c ∧ ∃ t' reply, c.run t = (t', .ok reply)) ∨
      (¬ t.Permits c ∧
        ∃ n reason, c.run t = (t, .error (.error (.invalidMutation n reason)))) := by
  have hw : t.WellLinked := h.sound.linked
  cases c with
  | pushChild p c =>
    refine settle_succeeds_or_refused _ (Edit.atomic_pushChild p c)
      (.check (t.okOrRefused_checkAttachable p c) fun _ => .ok _) ?_
    exact (exists_congr fun _ => pushChild_eq_ok_iff hw).trans (by
      simp only [Permits, canAttach_iff hw, exists_and_left, exists_eq, and_true])
  | insertChild p i c =>
    refine settle_succeeds_or_refused _ (Edit.atomic_insertChild p i c)
      (.check (t.okOrRefused_checkAttachable p c) fun _ => .iteEdit (.refuse p _) (.ok _)) ?_
    exact (exists_congr fun _ => insertChild_eq_ok_iff hw).trans (by
      simp only [Permits, canAttach_iff hw, exists_and_left, exists_eq, and_true])
  | detach p c =>
    refine settle_succeeds_or_refused _ (Edit.atomic_detach p c) (okOrRefused_detach hw p c) ?_
    exact (exists_congr fun _ => detach_eq_ok_iff hw).trans (by
      simp only [Permits, hasChild_iff hw, exists_and_left, exists_eq, and_true])
  | removeChild p c =>
    exact settle_succeeds_or_refused _ (Edit.atomic_removeChild p c)
      (okOrRefused_removeChild hw p c) (removeChild_succeeds_iff hw)
  | remove n =>
    exact settle_succeeds_or_refused _ (Edit.atomic_remove n) (okOrRefused_remove hw n)
      (remove_succeeds_iff hw)
  | replaceChild p old new =>
    exact settle_succeeds_or_refused _ (Edit.atomic_replaceChild p old new)
      (okOrRefused_replaceChild hw p old new) (replaceChild_succeeds_iff hw)
  | replace old new =>
    exact settle_succeeds_or_refused _ (Edit.atomic_replace old new)
      (okOrRefused_replace hw old new) (replace_succeeds_iff hw)
  | replaceWithMany old new =>
    rw [Command.run, Command.inside, if_pos (hin old List.mem_cons_self)]
    exact settle_succeeds_or_refused _ (Edit.atomic_replaceWithMany old new)
      (okOrRefused_replaceWithMany hw old new) (replaceWithMany_succeeds_iff hw)
  | _ => cases hc

/-- A node that was taken out cannot hang below its own child, but it can be put back. -/
theorem succeeds_or_refused_detached :
    let t := ((Command.detach 0 1).run sampleTree).1
    (∃ n reason, (Command.pushChild 2 1).run t =
      (t, .error (.error (.invalidMutation n reason)))) ∧
    ∃ t' reply, (Command.insertChild 0 0 1).run t = (t', .ok reply) := by
  intro t
  have hr : t.Reachable := reachable_sampleTree.run (.detach 0 1)
  constructor
  · have hnot : ¬ t.CanAttach 2 1 := by decide +kernel
    rcases hr.succeeds_or_refused (c := .pushChild 2 1) rfl (by decide +kernel)
      with ⟨hcan, _⟩ | ⟨_, hrefused⟩
    · exact absurd hcan hnot
    · exact hrefused
  · have hcan : t.CanAttach 0 1 := by decide +kernel
    rcases hr.succeeds_or_refused (c := .insertChild 0 0 1) rfl (by decide +kernel)
      with ⟨_, hdone⟩ | ⟨hnot, _⟩
    · exact hdone
    · exact absurd ⟨hcan, Nat.zero_le _⟩ hnot

end Tree

end CodeMigration
