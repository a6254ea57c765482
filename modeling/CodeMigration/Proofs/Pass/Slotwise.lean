import CodeMigration.Proofs.Pass.Course
import CodeMigration.Proofs.Pass.Quiet
import CodeMigration.Proofs.Tree.Growth
import CodeMigration.Proofs.Tree.Place

/-!
# Accounting for places

A rule is local to the slot of a node when it leaves the tree around the node alone and reports what
stands in its place. In a pass with such rules a visit returns how many nodes stand in the place of
its node, so the walk over the children of a node neither leaves one out nor takes one twice.

A visit of `n` is followed by `Advance`: which row stands in the place of `n`, and what is kept
outside. Before the visit everything below `n` is `Ahead`, afterwards everything below the row is
`Finished`. What rules establish at a node and keep elsewhere (`Settles`) holds everywhere in the
end.
-/

namespace CodeMigration

/-- What an application at `n` has to leave behind, by the outcome it reports. -/
def Outcome.Leaves (t : Tree) (n : NodeId) (t' : Tree) : Outcome → Prop
  | .unchanged => t.Occupied n [n] t'
  | .mutated => t.Occupied n [n] t'
  | .replaced new => t.Occupied n [new] t' ∧ t'.isLive n = false
  | .expanded new => t.Occupied n new t' ∧ t'.isLive n = false
  | .removed => t.Occupied n [] t' ∨ t.Occupied n [n] t'

/-- A commit does not move anything. -/
lemma Outcome.Leaves.commit {t t' : Tree} {n : NodeId} {o : Outcome} (h : o.Leaves t n t') :
    o.Leaves t n t'.commit := by
  have hocc : ∀ {row}, t.Occupied n row t' → t.Occupied n row t'.commit :=
    fun h => ⟨h.of_root, h.root, h.children⟩
  cases o with
  | unchanged => exact hocc h
  | mutated => exact hocc h
  | replaced new => exact ⟨hocc h.1, h.2⟩
  | expanded new => exact ⟨hocc h.1, h.2⟩
  | removed => exact h.imp hocc hocc

/-- Every application works on the tree by commands, changes nothing outside the subtree of the node
but what stands in its place, and reports that as it is. An application that gives up leaves the
node in its place once it is undone. -/
structure Rule.SlotLocal (oracle : Oracle) (r : Rule) : Prop where
  pre : r.order = .pre
  commands : ∀ pass n (w : Workspace), ∃ cmds,
    ((r.apply oracle pass n).after w).tree = Command.runAll w.tree cmds
  success : ∀ {pass n} {t : Tree} {files o w}, t.Reachable → t.Reaches t.root n →
    Pass.accepts t r n = true → r.apply oracle pass n ⟨t.checkpoint, files⟩ = .ok o w →
    o.Leaves t n w.tree
  failure : ∀ {pass n} {t : Tree} {files e w}, t.Reachable → t.Reaches t.root n →
    Pass.accepts t r n = true →
    r.apply oracle pass n ⟨t.checkpoint, files⟩ = .error (.error e) w → e.isFatal = false →
    t.Occupied n [n] w.tree.rollback

/-- Where an application works by plain commands, giving up undoes all of it. -/
lemma Rule.SlotLocal.of_commands {oracle : Oracle} {r : Rule} (hpre : r.order = .pre)
    (hcmds : r.ActsByCommands)
    (hsuccess : ∀ {pass n} {t : Tree} {files o w}, t.Reachable → t.Reaches t.root n →
      Pass.accepts t r n = true → r.apply oracle pass n ⟨t.checkpoint, files⟩ = .ok o w →
      o.Leaves t n w.tree) : r.SlotLocal oracle where
  pre := hpre
  commands pass n w := by
    obtain ⟨cmds, _, hrun⟩ := hcmds oracle pass n w
    exact ⟨cmds, hrun⟩
  success := hsuccess
  failure {pass n t files e w} ht hn _ happ _ := by
    have hedited := hcmds oracle pass n ⟨t.checkpoint, files⟩
    rw [Action.after, happ] at hedited
    rw [ht.sound.rollback_edited hedited]
    exact .of_same rfl fun _ _ _ => rfl

namespace Pass

variable {σ : PassSetting} {s s' s₁ s₂ : PassState} {n m : NodeId} {row : List NodeId}

/-! ### States -/

/-- The tree is reachable, and what has been entered and is in use is attached. -/
structure Orderly (s : PassState) : Prop where
  reachable : s.tree.Reachable
  known : ∀ m, s.stateOf m ≠ .pending →
    m < s.tree.size ∧ (s.tree.isLive m = true → s.tree.Reaches s.tree.root m)

lemma Orderly.linked (h : Orderly s) : s.tree.WellLinked := h.reachable.sound.linked

lemma Orderly.mark (h : Orderly s) (hm : s.stateOf m ≠ .pending) (v : VisitState) :
    Orderly (s.mark m v) := by
  refine ⟨h.reachable, fun k hk => h.known k ?_⟩
  rw [PassState.stateOf_mark] at hk
  split at hk
  · next he => rwa [he]
  · exact hk

lemma Orderly.mark_attached (h : Orderly s) (hm : s.tree.Reaches s.tree.root m) (v : VisitState) :
    Orderly (s.mark m v) := by
  refine ⟨h.reachable, fun k hk => ?_⟩
  rw [PassState.stateOf_mark] at hk
  split at hk
  · next he =>
    rw [he]
    exact ⟨h.linked.lt_size_of_reaches hm, fun _ => hm⟩
  · exact h.known k hk

/-- The node has been entered, and nothing below it. -/
structure Ahead (s : PassState) (n : NodeId) : Prop where
  attached : s.tree.Reaches s.tree.root n
  begun : s.stateOf n ≠ .pending
  fresh : ∀ m, s.tree.Reaches n m → m ≠ n → s.stateOf m = .pending

/-- Everything below the row is still to be visited. -/
def Waiting (s : PassState) (row : List NodeId) : Prop :=
  ∀ x ∈ row, ∀ m, s.tree.Reaches x m → s.stateOf m = .pending

/-- Everything below the row has been visited and is settled. -/
def Finished (P : Tree → NodeId → Prop) (s : PassState) (row : List NodeId) : Prop :=
  ∀ x ∈ row, ∀ m, s.tree.Reaches x m → s.stateOf m = .visited ∧ P s.tree m

/-- What a part of the visit of `n` does: the row stands in the place of `n`, the laws `J` hold, and
outside the visits are where they were and what was settled in the sense of `P` is settled. -/
structure Advance (J : Tree → Prop) (P : Tree → NodeId → Prop) (s : PassState) (n : NodeId)
    (row : List NodeId) (s' : PassState) : Prop where
  orderly : Orderly s'
  lawful : J s'.tree
  occupied : s.tree.Occupied n row s'.tree
  begun : ∀ m, s.stateOf m ≠ .pending → s'.stateOf m ≠ .pending
  states : ∀ m, s.tree.Outside n m → s'.stateOf m = s.stateOf m
  settled : ∀ m, s.tree.Outside n m → P s.tree m → P s'.tree m

variable {J : Tree → Prop} {P : Tree → NodeId → Prop}

namespace Advance

lemma refl (hs : Orderly s) (hJ : J s.tree) (n : NodeId) : Advance J P s n [n] s :=
  ⟨hs, hJ, .refl _ n, fun _ h => h, fun _ _ => rfl, fun _ _ h => h⟩

/-- What is done in the place of one node of the row comes after what put it there. -/
lemma trans {x : NodeId} {before after new : List NodeId} (hs : Orderly s)
    (hn : s.tree.Reaches s.tree.root n) (h : Advance J P s n (before ++ x :: after) s₁)
    (h' : Advance J P s₁ x new s₂) : Advance J P s n (before ++ new ++ after) s₂ := by
  have hx : x ∈ before ++ x :: after := List.mem_append_right _ List.mem_cons_self
  have hout : ∀ m, s.tree.Outside n m → s₁.tree.Outside x m := fun m hm =>
    ⟨h.occupied.attached hs.linked h.orderly.linked hm,
      h.occupied.not_reaches_row hs.linked h.orderly.linked hn hx hm⟩
  refine ⟨h'.orderly, h'.lawful, h.occupied.trans h'.occupied hs.linked h.orderly.linked hn,
    fun m hm => h'.begun m (h.begun m hm), fun m hm => ?_, fun m hm hP => ?_⟩
  · rw [h'.states m (hout m hm), h.states m hm]
  · exact h'.settled m (hout m hm) (h.settled m hm hP)

lemma trans_single {x : NodeId} {new : List NodeId} (hs : Orderly s)
    (hn : s.tree.Reaches s.tree.root n) (h : Advance J P s n [x] s₁)
    (h' : Advance J P s₁ x new s₂) : Advance J P s n new s₂ := by
  have hsingle : Advance J P s n ([] ++ x :: []) s₁ := h
  have hrow := hsingle.trans hs hn h'
  rwa [List.nil_append, List.append_nil] at hrow

/-- A visit of a child leaves its parent in its place. -/
lemma of_child {p c : NodeId} (hs : Orderly s) (hlink : s.tree.Link p c)
    (h : Advance J P s c row s') : Advance J P s p [p] s' := by
  have hout : ∀ m, s.tree.Outside p m → s.tree.Outside c m := fun m hm =>
    ⟨hm.attached, fun hc => hm.out (hlink.reaches.trans hc)⟩
  exact ⟨h.orderly, h.lawful, h.occupied.of_child hs.linked hlink, h.begun,
    fun m hm => h.states m (hout m hm), fun m hm hP => h.settled m (hout m hm) hP⟩

/-- A step that leaves the visits alone. -/
lemma of_states (hstates : s'.states = s.states) (hs : Orderly s')
    (hocc : s.tree.Occupied n row s'.tree)
    (h : J s'.tree ∧ ∀ m, s.tree.Outside n m → P s.tree m → P s'.tree m) :
    Advance J P s n row s' := by
  have hsame : ∀ m, s'.stateOf m = s.stateOf m := fun m => by
    rw [PassState.stateOf, hstates, PassState.stateOf]
  exact ⟨hs, h.1, hocc, fun m hm => (hsame m).symm ▸ hm, fun m _ => hsame m, h.2⟩

/-- A mark inside the place changes nothing outside. -/
lemma mark (h : Advance J P s n row s') {v : VisitState} (hs : Orderly (s'.mark m v))
    (hv : v ≠ .pending) (hout : ¬ s.tree.Outside n m) : Advance J P s n row (s'.mark m v) := by
  refine ⟨hs, h.lawful, h.occupied, fun k hk => ?_, fun k hk => ?_, h.settled⟩
  · rw [PassState.stateOf_mark]
    split
    · exact hv
    · exact h.begun k hk
  · have hkm : k ≠ m := by
      rintro rfl
      exact hout hk
    rw [PassState.stateOf_mark, if_neg hkm, h.states k hk]

end Advance

lemma Finished.mark {s : PassState} (h : Finished P s row) (m : NodeId) :
    Finished P (s.mark m .visited) row := by
  intro x hx k hk
  obtain ⟨hvisited, hP⟩ := h x hx k hk
  refine ⟨?_, hP⟩
  rw [PassState.stateOf_mark, hvisited, ite_self]

/-! ### Offers -/

lemma Outcome.leaves_judge {rule : String} {before : Nat} {t t' : Tree} {o₀ o : Outcome}
    (hjudge : judge rule n before t' o₀ = .ok o) (h : o₀.Leaves t n t') : o.Leaves t n t' := by
  cases o₀ with
  | unchanged =>
    obtain rfl := Except.ok.inj hjudge
    split
    · exact h
    · exact h
  | mutated =>
    obtain rfl := Except.ok.inj hjudge
    exact h
  | replaced new =>
    rw [judge] at hjudge
    split at hjudge
    · obtain rfl := Except.ok.inj hjudge
      exact h
    · cases hjudge
  | expanded new =>
    rw [judge] at hjudge
    split at hjudge
    · cases hjudge
    · obtain rfl := Except.ok.inj hjudge
      exact h
  | removed =>
    obtain rfl := Except.ok.inj hjudge
    exact h

/-- An offer ends with what its outcome says in the place of the node. -/
lemma offer_slotLocal {r : Rule} (hr : r.SlotLocal σ.oracle) (hs : s.tree.Reachable)
    (hn : s.tree.Reaches s.tree.root n) (hacc : accepts s.tree r n = true) {o : Outcome}
    (hok : offer σ r n s = .ok o s₁) :
    s₁.states = s.states ∧ s₁.tree.Reachable ∧ s.tree.Grown s₁.tree ∧
      o.Leaves s.tree n s₁.tree := by
  obtain ⟨cmds, hcmds⟩ := hr.commands σ.pass n ⟨s.tree.checkpoint, s.files⟩
  have hreach := (hs.run .checkpoint).runAll cmds
  obtain ⟨hgrown, hback⟩ := hs.sound.grown_runAll cmds
  rcases offer_eq_ok_iff.mp hok with ⟨o₀, w, happ, hjudge, rfl⟩ | ⟨e, w, happ, hfatal, rfl, rfl⟩
  · rw [Action.after, happ] at hcmds
    have hcmds : w.tree = Command.runAll s.tree.checkpoint cmds := hcmds
    rw [← hcmds] at hgrown
    refine ⟨rfl, ?_, hgrown.trans (.of_slots rfl), ?_⟩
    · have hw : w.tree.Reachable := by
        rw [hcmds]
        exact hreach
      exact hw.run .commit
    · exact Outcome.leaves_judge hjudge (hr.success hs hn hacc happ).commit
  · rw [Action.after, happ] at hcmds
    have hcmds : w.tree = Command.runAll s.tree.checkpoint cmds := hcmds
    rw [← hcmds] at hback
    refine ⟨rfl, ?_, hback, hr.failure hs hn hacc happ hfatal⟩
    have hw : w.tree.Reachable := by
      rw [hcmds]
      exact hreach
    exact hw.run .rollback

section places

variable (hs : Orderly s) (hn : Ahead s n) (hstates : s₁.states = s.states)
  (hreach : s₁.tree.Reachable) (hgrown : s.tree.Grown s₁.tree)
  (hocc : s.tree.Occupied n row s₁.tree)
include hs hn hstates hreach hgrown hocc

/-- Below the row nothing has been entered but `n` itself. -/
lemma eq_of_begun {x : NodeId} (hx : x ∈ row) (hxm : s₁.tree.Reaches x m)
    (hm : s₁.stateOf m ≠ .pending) : m = n := by
  have hlinked := hreach.sound.linked
  have hm' : s.stateOf m ≠ .pending := by rwa [PassState.stateOf, ← hstates]
  obtain ⟨hlt, hattached⟩ := hs.known m hm'
  have hlive : s₁.tree.isLive m = true :=
    hlinked.isLive_of_attached ((hocc.attached_row hs.linked hlinked hn.attached hx).trans hxm)
  have hbelow := hocc.reaches_of_below hs.linked hlinked hn.attached hx hxm
    (hattached (hgrown.live m hlt hlive))
  by_contra hne
  exact hm' (hn.fresh m hbelow hne)

/-- After an offer what has been entered is attached, if the node is in its place or gone. -/
lemma orderly_of_offer (hend : n ∈ row ∨ s₁.tree.isLive n = false) : Orderly s₁ := by
  have hlinked := hreach.sound.linked
  refine ⟨hreach, fun m hm => ?_⟩
  have hm' : s.stateOf m ≠ .pending := by rwa [PassState.stateOf, ← hstates]
  obtain ⟨hlt, hattached⟩ := hs.known m hm'
  refine ⟨Nat.lt_of_lt_of_le hlt hgrown.size_le, fun hlive => ?_⟩
  have hm₀ : s.tree.Reaches s.tree.root m := hattached (hgrown.live m hlt hlive)
  by_cases hbelow : s.tree.Reaches n m
  · obtain rfl : m = n := by
      by_contra hne
      exact hm' (hn.fresh m hbelow hne)
    rcases hend with hrow | hdead
    · exact hocc.attached_row hs.linked hlinked hn.attached hrow
    · rw [hdead] at hlive
      cases hlive
  · exact hocc.attached hs.linked hlinked ⟨hm₀, hbelow⟩

end places

/-- When a removal has been finished, nothing stands in the place of the node. -/
lemma occupied_of_finishRemoval {rule : String} (hs : s.tree.WellLinked)
    (hn : s.tree.Reaches s.tree.root n) (hreach : s₁.tree.Reachable)
    (hgrown : s.tree.Grown s₁.tree)
    (hleaves : s.tree.Occupied n [] s₁.tree ∨ s.tree.Occupied n [n] s₁.tree)
    (hfinish : finishRemoval rule n s₁ = .ok () s₂) :
    s₂.tree.Reachable ∧ s.tree.Grown s₂.tree ∧ s.tree.Occupied n [] s₂.tree ∧
      s₂.tree.isLive n = false := by
  have ht₁ := hreach.sound.linked
  rcases finishRemoval_eq_ok_iff.mp hfinish with ⟨hdead, rfl⟩ | ⟨_, hroot, t, hremove, rfl⟩
  · refine ⟨hreach, hgrown, hleaves.resolve_right fun hocc => ?_, hdead⟩
    have hlive := ht₁.isLive_of_attached (hocc.attached_row hs ht₁ hn (List.mem_singleton_self n))
    rw [hdead] at hlive
    cases hlive
  · obtain ⟨hroot', hdead, hchildren⟩ := ht₁.children_remove hremove
    have hrun := hreach.run (.remove n)
    rw [Command.run, Command.settle_of_ok _ hremove] at hrun
    refine ⟨hrun, hgrown.trans (Tree.Step.remove hremove).grown, ?_, hdead⟩
    rcases hleaves with hocc | hocc
    · -- the rule has taken the node out itself
      refine ⟨fun h => ?_, fun h => hroot'.trans (hocc.root h), fun p hp hout => ?_⟩
      · exact absurd (hocc.of_root h) (List.cons_ne_nil _ _).symm
      · rw [hchildren, hocc.children p hp hout, Tree.put_of_not_mem]
        intro hin
        rcases Tree.mem_put.mp hin with ⟨_, hnil⟩ | ⟨_, hne⟩
        · cases hnil
        · exact hne rfl
    · refine hocc.trans_single ⟨fun h => absurd h hroot, fun _ => hroot', fun p _ _ => ?_⟩ hs ht₁ hn
      exact hchildren p

lemma states_of_finishRemoval {rule : String} (hfinish : finishRemoval rule n s = .ok () s') :
    s'.states = s.states ∧ s'.log = s.log := by
  rcases finishRemoval_eq_ok_iff.mp hfinish with ⟨_, rfl⟩ | ⟨_, _, t, _, rfl⟩
  · exact ⟨rfl, rfl⟩
  · exact ⟨rfl, rfl⟩

/-- An offer that reports a removal, once the node has been taken out. -/
lemma removal_slotLocal {r : Rule} (hr : r.SlotLocal σ.oracle) (hs : s.tree.Reachable)
    (hn : s.tree.Reaches s.tree.root n) (hacc : accepts s.tree r n = true)
    (hok : offer σ r n s = .ok .removed s₁) (hfinish : finishRemoval r.id n s₁ = .ok () s₂) :
    s₂.states = s.states ∧ s₂.tree.Reachable ∧ s.tree.Grown s₂.tree ∧
      s.tree.Occupied n [] s₂.tree ∧ s₂.tree.isLive n = false := by
  obtain ⟨hstates, hreach, hgrown, hleaves⟩ := offer_slotLocal hr hs hn hacc hok
  exact ⟨(states_of_finishRemoval hfinish).1.trans hstates,
    occupied_of_finishRemoval hs.sound.linked hn hreach hgrown hleaves hfinish⟩

/-! ### What rules establish -/

/-- The laws `J` are kept by every offer. What is settled in the sense of `P` stays so under offers
elsewhere, and a node is settled after a round that has not changed anything. -/
structure Settles (σ : PassSetting) (J : Tree → Prop) (P : Tree → NodeId → Prop) : Prop where
  offer : ∀ {s s₁ : PassState} {r : Rule} {n : NodeId} {o : Outcome}, r ∈ σ.rules →
    s.tree.Reachable → J s.tree → s.tree.Reaches s.tree.root n → accepts s.tree r n = true →
    Pass.offer σ r n s = .ok o s₁ → o ≠ .removed →
    J s₁.tree ∧ ∀ m, s.tree.Outside n m → P s.tree m → P s₁.tree m
  removal : ∀ {s s₁ s₂ : PassState} {r : Rule} {n : NodeId}, r ∈ σ.rules →
    s.tree.Reachable → J s.tree → s.tree.Reaches s.tree.root n → accepts s.tree r n = true →
    Pass.offer σ r n s = .ok .removed s₁ → finishRemoval r.id n s₁ = .ok () s₂ →
    J s₂.tree ∧ ∀ m, s.tree.Outside n m → P s.tree m → P s₂.tree m
  done : ∀ {v : NodeId → UInt32 → PassM Nat} {s s' : PassState} {n current : NodeId}
    {lineage lineage' : UInt32}, s.tree.Reachable → J s.tree → s.tree.Reaches s.tree.root n →
    Pass.round σ v (σ.rules.filter (·.order = .pre)) n lineage none s =
      .ok (.ongoing current lineage' none) s' → P s'.tree current

/-- Nothing has to be established. -/
lemma settles_trivial (σ : PassSetting) : Settles σ (fun _ => True) fun _ _ => True :=
  ⟨fun _ _ _ _ _ _ _ => ⟨trivial, fun _ _ _ => trivial⟩,
    fun _ _ _ _ _ _ _ => ⟨trivial, fun _ _ _ => trivial⟩, fun _ _ _ _ => trivial⟩

/-- A visit returns how many nodes stand in the place of its node and finishes them; `u'` agrees
with it. -/
def Accounts (J : Tree → Prop) (P : Tree → NodeId → Prop) (u u' : NodeId → PassM Nat) : Prop :=
  ∀ {s s' : PassState} {n : NodeId} {count : Nat}, Orderly s → J s.tree →
    s.tree.Reaches s.tree.root n → Waiting s [n] → u n s = .ok count s' →
    u' n s = .ok count s' ∧
      ∃ row, row.length = count ∧ Advance J P s n row s' ∧ Finished P s' row

/-- What the rounds of the node `n` lead to. -/
def Placed (J : Tree → Prop) (P : Tree → NodeId → Prop) (s : PassState) (n : NodeId)
    (s' : PassState) : Occupancy → Prop
  | .node current => Advance J P s n [current] s' ∧ Ahead s' current ∧ P s'.tree current
  | place => ∃ row, row.length = place.count ∧ Advance J P s n row s' ∧ Finished P s' row

/-- What a single round of the node `n` leads to. -/
def Ended (J : Tree → Prop) (P : Tree → NodeId → Prop) (s : PassState) (n : NodeId)
    (s' : PassState) : RoundEnd → Prop
  | .ongoing current _ _ => Advance J P s n [current] s' ∧ Ahead s' current
  | .settled place => Placed J P s n s' place

section composition

variable (hs : Orderly s) (hn : s.tree.Reaches s.tree.root n) {x : NodeId}
  (h : Advance J P s n [x] s₁)
include hs hn h

lemma Placed.after {place : Occupancy} (h' : Placed J P s₁ x s' place) :
    Placed J P s n s' place := by
  cases place with
  | node current => exact ⟨h.trans_single hs hn h'.1, h'.2⟩
  | expanded count =>
    obtain ⟨row, hlen, hadv, hfin⟩ := h'
    exact ⟨row, hlen, h.trans_single hs hn hadv, hfin⟩
  | removed =>
    obtain ⟨row, hlen, hadv, hfin⟩ := h'
    exact ⟨row, hlen, h.trans_single hs hn hadv, hfin⟩

lemma Ended.after {e : RoundEnd} (h' : Ended J P s₁ x s' e) : Ended J P s n s' e := by
  cases e with
  | ongoing current lineage last => exact ⟨h.trans_single hs hn h'.1, h'.2⟩
  | settled place => exact Placed.after hs hn h h'

end composition

/-- Nodes that are apart from a visited one are where they were before its visit. -/
lemma Advance.apart {x z : NodeId} (hs : Orderly s) (h : Advance J P s x row s')
    (hz : s.tree.Reaches s.tree.root z) (hxz : ¬ s.tree.Reaches x z) (hzx : ¬ s.tree.Reaches z x) :
    (Waiting s [z] → Waiting s' [z]) ∧ (Finished P s [z] → Finished P s' [z]) := by
  have hkeep : ∀ m, s'.tree.Reaches z m → s.tree.Outside x m ∧ s.tree.Reaches z m := fun m hm =>
    h.occupied.outside_of_below hs.linked h.orderly.linked ⟨hz, hxz⟩ hzx hm
  refine ⟨fun hwait y hy m hm => ?_, fun hfin y hy m hm => ?_⟩
  · obtain rfl := List.mem_singleton.mp hy
    obtain ⟨hout, hzm⟩ := hkeep m hm
    rw [h.states m hout]
    exact hwait y hy m hzm
  · obtain rfl := List.mem_singleton.mp hy
    obtain ⟨hout, hzm⟩ := hkeep m hm
    obtain ⟨hvisited, hP⟩ := hfin y hy m hzm
    rw [h.states m hout]
    exact ⟨hvisited, h.settled m hout hP⟩

/-- The accounting as a course of the pass. -/
def accounting (J : Tree → Prop) (P : Tree → NodeId → Prop) : Course where
  Good s := Orderly s ∧ J s.tree
  Step := Advance J P
  Before s x := Waiting s [x]
  After s x := Finished P s [x]
  Keeps m s s' := P s.tree m → P s'.tree m
  linked hs := hs.1.linked
  good h := ⟨h.orderly, h.lawful⟩
  occupied h := h.occupied
  refl n hs := Advance.refl hs.1 hs.2 n
  trans hs hn h h' := h.trans hs.1 hn h'
  of_child hs hlink h := h.of_child hs.1 hlink
  apart hs h hz hnz hzn := h.apart hs.1 hz hnz hzn
  keeps h hout := h.settled _ hout
  keeps_refl _ _ := id
  keeps_trans h h' := h' ∘ h

lemma finished_iff : Finished P s row ↔ ∀ x ∈ row, Finished P s [x] := by
  simp [Finished]

lemma waiting_iff : Waiting s row ↔ ∀ x ∈ row, Waiting s [x] := by
  simp [Waiting]

lemma Accounts.follows {u u' : NodeId → PassM Nat} (hu : Accounts J P u u') :
    (accounting J P).Follows u u' := by
  intro s s' n count hs hn hwait hok
  obtain ⟨hok', row, hlen, hadv, hfin⟩ := hu hs.1 hs.2 hn hwait hok
  exact ⟨hok', row, hlen, hadv, finished_iff.mp hfin⟩

/-- A row of nodes is visited one after the other. -/
lemma visitAll_accounts {u u' : NodeId → PassM Nat} (hu : Accounts J P u u') (hs : Orderly s)
    (hJ : J s.tree) (hn : s.tree.Reaches s.tree.root n) {ms : List NodeId} {count : Nat}
    (h : Advance J P s n ms s₁) (hwait : Waiting s₁ ms) (hok : visitAll u ms s₁ = .ok count s') :
    visitAll u' ms s₁ = .ok count s' ∧
      ∃ out, out.length = count ∧ Advance J P s n out s' ∧ Finished P s' out := by
  have hgood : (accounting J P).Good s := ⟨hs, hJ⟩
  obtain ⟨hok', out, hlen, hadv, hfin⟩ := Course.visitAll_follows hu.follows hgood hn
    (List.nil_append ms ▸ h) (by simp) (waiting_iff.mp hwait) hok
  exact ⟨hok', out, hlen, hadv, finished_iff.mpr hfin⟩

/-! ### Rounds -/

section rounds

variable (hrules : ∀ r ∈ σ.rules, r.SlotLocal σ.oracle) (hsettles : Settles σ J P)
  {v v' : NodeId → UInt32 → PassM Nat} (hv : ∀ l, Accounts J P (v · l) (v' · l))
include hrules hsettles

/-- An offer that leaves the node in its place. -/
lemma advance_of_offer {r : Rule} (hr : r ∈ σ.rules) (hs : Orderly s) (hJ : J s.tree)
    (hn : Ahead s n) (hacc : accepts s.tree r n = true) {o : Outcome}
    (hok : offer σ r n s = .ok o s₁) (hne : o ≠ .removed)
    (hocc : s.tree.Occupied n [n] s₁.tree) : Advance J P s n [n] s₁ ∧ Ahead s₁ n := by
  obtain ⟨hstates, hreach, hgrown, _⟩ :=
    offer_slotLocal (hrules r hr) hs.reachable hn.attached hacc hok
  have hmem : n ∈ [n] := List.mem_singleton_self n
  have hs₁ := orderly_of_offer hs hn hstates hreach hgrown hocc (Or.inl hmem)
  refine ⟨.of_states hstates hs₁ hocc
      (hsettles.offer hr hs.reachable hJ hn.attached hacc hok hne),
    hocc.attached_row hs.linked hs₁.linked hn.attached hmem, ?_, fun m hm hne => ?_⟩
  · rw [PassState.stateOf, hstates]
    exact hn.begun
  · by_contra hbegun
    exact hne (eq_of_begun hs hn hstates hreach hgrown hocc hmem hm hbegun)

/-- An offer that puts a row of new nodes in the place of the node, which is gone. -/
lemma advance_of_replaced {r : Rule} (hr : r ∈ σ.rules) (hs : Orderly s) (hJ : J s.tree)
    (hn : Ahead s n) (hacc : accepts s.tree r n = true) {o : Outcome}
    (hok : offer σ r n s = .ok o s₁) (hne : o ≠ .removed)
    (hocc : s.tree.Occupied n row s₁.tree) (hdead : s₁.tree.isLive n = false) :
    Advance J P s n row (s₁.mark n .visited) ∧ Waiting (s₁.mark n .visited) row := by
  obtain ⟨hstates, hreach, hgrown, _⟩ :=
    offer_slotLocal (hrules r hr) hs.reachable hn.attached hacc hok
  have hs₁ := orderly_of_offer hs hn hstates hreach hgrown hocc (Or.inr hdead)
  have hbegun : s₁.stateOf n ≠ .pending := by
    rw [PassState.stateOf, hstates]
    exact hn.begun
  have hadv := Advance.of_states hstates hs₁ hocc
    (hsettles.offer hr hs.reachable hJ hn.attached hacc hok hne)
  refine ⟨hadv.mark (hs₁.mark hbegun _) VisitState.noConfusion fun h => h.ne rfl,
    fun x hx m hm => ?_⟩
  have hmn : m ≠ n := by
    rintro rfl
    have hlive := hs₁.linked.isLive_of_attached
      ((hocc.attached_row hs.linked hs₁.linked hn.attached hx).trans hm)
    rw [hdead] at hlive
    cases hlive
  rw [PassState.stateOf_mark, if_neg hmn]
  by_contra hm'
  exact hmn (eq_of_begun hs hn hstates hreach hgrown hocc hx hm hm')

/-- An offer that takes the node out. -/
lemma advance_of_removed {r : Rule} (hr : r ∈ σ.rules) (hs : Orderly s) (hJ : J s.tree)
    (hn : Ahead s n) (hacc : accepts s.tree r n = true) (hok : offer σ r n s = .ok .removed s₁)
    (hfinish : finishRemoval r.id n s₁ = .ok () s₂) : Advance J P s n [] s₂ := by
  obtain ⟨hstates, hreach, hgrown, hocc, hdead⟩ :=
    removal_slotLocal (hrules r hr) hs.reachable hn.attached hacc hok hfinish
  exact .of_states hstates (orderly_of_offer hs hn hstates hreach hgrown hocc (Or.inr hdead)) hocc
    (hsettles.removal hr hs.reachable hJ hn.attached hacc hok hfinish)

include hv

lemma round_accounts {rules : List Rule} (hsub : ∀ r ∈ rules, r ∈ σ.rules) {lineage : UInt32}
    {last : Option String} {e : RoundEnd} (hs : Orderly s) (hJ : J s.tree) (hn : Ahead s n)
    (hok : round σ v rules n lineage last s = .ok e s') :
    round σ v' rules n lineage last s = .ok e s' ∧ Ended J P s n s' e := by
  induction rules generalizing s n lineage last with
  | nil =>
    obtain ⟨rfl, rfl⟩ := EStateM.pure_eq_ok_iff.mp hok
    exact ⟨rfl, Advance.refl hs hJ n, hn⟩
  | cons r rules ih =>
    have hrest : ∀ q ∈ rules, q ∈ σ.rules := fun q hq => hsub q (List.mem_cons_of_mem r hq)
    have hr : r ∈ σ.rules := hsub r List.mem_cons_self
    rcases round_cons_eq_ok_iff.mp hok with ⟨hacc, hok⟩ | ⟨hacc, o, s₁, hoffer, hok⟩
    · obtain ⟨hok', hend⟩ := ih hrest hs hJ hn hok
      exact ⟨round_cons_eq_ok_iff.mpr (Or.inl ⟨hacc, hok'⟩), hend⟩
    · have hleaves := (offer_slotLocal (hrules r hr) hs.reachable hn.attached hacc hoffer).2.2.2
      have hmatch : afterOffer σ v' r rules n lineage last o s₁ = .ok e s' →
          round σ v' (r :: rules) n lineage last s = .ok e s' := fun h =>
        round_cons_eq_ok_iff.mpr (Or.inr ⟨hacc, o, s₁, hoffer, h⟩)
      cases o with
      | unchanged =>
        obtain ⟨hadv, hn₁⟩ := advance_of_offer hrules hsettles hr hs hJ hn hacc hoffer
          Outcome.noConfusion hleaves
        obtain ⟨hok', hend⟩ := ih hrest hadv.orderly hadv.lawful hn₁ hok
        exact ⟨hmatch hok', hend.after hs hn.attached hadv⟩
      | mutated =>
        obtain ⟨hadv, hn₁⟩ := advance_of_offer hrules hsettles hr hs hJ hn hacc hoffer
          Outcome.noConfusion hleaves
        obtain ⟨hok', hend⟩ := ih hrest hadv.orderly hadv.lawful hn₁ hok
        exact ⟨hmatch hok', hend.after hs hn.attached hadv⟩
      | replaced new =>
        obtain ⟨hle, hok⟩ := afterReplaced_eq_ok_iff.mp hok
        obtain ⟨hadv, hwait⟩ := advance_of_replaced hrules hsettles hr hs hJ hn hacc hoffer
          Outcome.noConfusion hleaves.1 hleaves.2
        have hmem : new ∈ [new] := List.mem_singleton_self new
        have hnew : s₁.tree.Reaches s₁.tree.root new :=
          hadv.occupied.attached_row hs.linked hadv.orderly.linked hn.attached hmem
        have hadv' := hadv.mark (hadv.orderly.mark_attached hnew .visiting) VisitState.noConfusion
          fun hout => hadv.occupied.not_reaches_row hs.linked hadv.orderly.linked hn.attached hmem
            hout (Tree.Reaches.refl new)
        have hahead : Ahead ((s₁.mark n .visited).mark new .visiting) new := by
          refine ⟨hnew, ?_, fun m hm hne => ?_⟩
          · rw [PassState.stateOf_mark, if_pos rfl]
            exact VisitState.noConfusion
          · rw [PassState.stateOf_mark, if_neg hne]
            exact hwait new hmem m hm
        obtain ⟨hok', hend⟩ := ih hrest hadv'.orderly hadv'.lawful hahead hok
        exact ⟨hmatch (afterReplaced_eq_ok_iff.mpr ⟨hle, hok'⟩), hend.after hs hn.attached hadv'⟩
      | expanded new =>
        obtain ⟨hle, count, hvisit, rfl⟩ := afterExpanded_eq_ok_iff.mp hok
        obtain ⟨hadv, hwait⟩ := advance_of_replaced hrules hsettles hr hs hJ hn hacc hoffer
          Outcome.noConfusion hleaves.1 hleaves.2
        obtain ⟨hvisit', hplaced⟩ :=
          visitAll_accounts (hv (lineage + 1)) hs hJ hn.attached hadv hwait hvisit
        exact ⟨hmatch (afterExpanded_eq_ok_iff.mpr ⟨hle, count, hvisit', rfl⟩), hplaced⟩
      | removed =>
        have hremoved := hok
        obtain ⟨hremoval, rfl⟩ := afterRemoved_eq_ok_iff.mp hok
        have hadv := advance_of_removed hrules hsettles hr hs hJ hn hacc hoffer hremoval
        exact ⟨hmatch hremoved, [], rfl, hadv, fun _ hx => absurd hx List.not_mem_nil⟩

lemma roundsFrom_accounts {k : Nat} {lineage : UInt32} {place : Occupancy} (hs : Orderly s)
    (hJ : J s.tree) (hn : Ahead s n) (hok : roundsFrom σ v .pre k n lineage s = .ok place s') :
    roundsFrom σ v' .pre k n lineage s = .ok place s' ∧ Placed J P s n s' place := by
  induction k generalizing s n lineage with
  | zero => cases hok
  | succ k ih =>
    obtain ⟨e, s₁, hround, hok⟩ := roundsFrom_succ_eq_ok_iff.mp hok
    obtain ⟨hround', hend⟩ :=
      round_accounts hrules hsettles hv (fun r hr => List.mem_of_mem_filter hr) hs hJ hn hround
    match e, hend, hok with
    | .settled place, hplaced, ⟨hplace, hs'⟩ =>
      subst hplace hs'
      exact ⟨roundsFrom_succ_eq_ok_iff.mpr ⟨_, s', hround', rfl, rfl⟩, hplaced⟩
    | .ongoing current _ none, ⟨hadv, hahead⟩, ⟨hplace, hs'⟩ =>
      subst hplace hs'
      exact ⟨roundsFrom_succ_eq_ok_iff.mpr ⟨_, s', hround', rfl, rfl⟩, hadv, hahead,
        hsettles.done hs.reachable hJ hn.attached hround⟩
    | .ongoing current lineage (some rule), ⟨hadv, hahead⟩, ⟨s₂, hcount, hrest⟩ =>
      obtain ⟨rs, rfl⟩ := exists_revisits_of_recount hcount
      have hadv' : Advance J P s n [current] { s₁ with revisits := rs } :=
        ⟨⟨hadv.orderly.reachable, hadv.orderly.known⟩, hadv.lawful, hadv.occupied, hadv.begun,
          hadv.states, hadv.settled⟩
      obtain ⟨hrest', hplaced⟩ := ih hadv'.orderly hadv'.lawful
        ⟨hahead.attached, hahead.begun, hahead.fresh⟩ hrest
      exact ⟨roundsFrom_succ_eq_ok_iff.mpr ⟨_, s₁, hround', _, hcount, hrest'⟩,
        hplaced.after hs hn.attached hadv'⟩

end rounds

/-- Without rules for the way up a node stays as it is on the way up. -/
lemma rounds_post_eq {v : NodeId → UInt32 → PassM Nat} (hrules : ∀ r ∈ σ.rules, r.order = .pre)
    {lineage : UInt32} {place : Occupancy}
    (hok : rounds σ v .post n lineage s = .ok place s') (v' : NodeId → UInt32 → PassM Nat) :
    place = .node n ∧ s' = s ∧ rounds σ v' .post n lineage s = .ok place s' := by
  have hnone : ∀ r ∈ σ.rules, r.order ≠ .post := by
    intro r hr
    simp [hrules r hr]
  have hdepth := depth_pos_of_rounds hok
  rw [rounds_of_no_rules hdepth hnone] at hok ⊢
  cases hok
  exact ⟨rfl, rfl, rfl⟩

/-! ### Visits -/

/-- The children of a node are visited one after the other. -/
lemma walk_accounts {u u' : NodeId → PassM Nat} (hu : Accounts J P u u') {k : Nat} (hs : Orderly s)
    (hJ : J s.tree) (hn : s.tree.Reaches s.tree.root n) (hwait : Waiting s (s.tree.children n))
    (hok : walk u n k 0 s = .ok () s') :
    walk u' n k 0 s = .ok () s' ∧ Advance J P s n [n] s' ∧
      Finished P s' (s'.tree.children n) ∧ (P s.tree n → P s'.tree n) := by
  have hgood : (accounting J P).Good s := ⟨hs, hJ⟩
  have hnone : ∀ x ∈ ([] : List NodeId), (accounting J P).After s x := by simp
  obtain ⟨hok', hadv, hfin, hkeeps⟩ := Course.walk_follows hu.follows hgood hn
    (List.nil_append _).symm hnone (waiting_iff.mp hwait) hok
  exact ⟨hok', hadv, finished_iff.mpr hfin, hkeeps⟩

section visits

variable (hrules : ∀ r ∈ σ.rules, r.SlotLocal σ.oracle) (hsettles : Settles σ J P)
  {v v' : NodeId → UInt32 → PassM Nat} (hv : ∀ l, Accounts J P (v · l) (v' · l))
include hrules hsettles hv

omit hsettles in
/-- After the rounds of a node its children are visited, if it is still one node. -/
lemma leaveWith_accounts {k count : Nat} {lineage : UInt32} {place : Occupancy} (hs : Orderly s)
    (hn : s.tree.Reaches s.tree.root n) (hbegun : s.stateOf n ≠ .pending)
    (hplaced : Placed J P s n s₁ place)
    (hok : leaveWith σ v k n lineage place s₁ = .ok count s') :
    leaveWith σ v' k n lineage place s₁ = .ok count s' ∧
      ∃ row, row.length = count ∧ Advance J P s n row s' ∧ Finished P s' row := by
  have hmark : ∀ {row s₁}, Advance J P s n row s₁ → Advance J P s n row (s₁.mark n .visited) :=
    fun hadv => hadv.mark (hadv.orderly.mark (hadv.begun n hbegun) _) VisitState.noConfusion
      fun h => h.ne rfl
  match place, hplaced, hok with
  | .expanded _, ⟨row, hlen, hadv, hfin⟩, hok =>
    cases hok
    exact ⟨rfl, row, hlen, hmark hadv, hfin.mark n⟩
  | .removed, ⟨row, hlen, hadv, hfin⟩, hok =>
    cases hok
    exact ⟨rfl, row, hlen, hmark hadv, hfin.mark n⟩
  | .node current, ⟨hadv, hcurrent, hP⟩, hok =>
    obtain ⟨s₂, place, s₃, hwalk, hpost, rfl, rfl⟩ := leaveWith_node_eq_ok_iff.mp hok
    obtain ⟨rfl, hsame, hpost'⟩ := rounds_post_eq (fun r hr => (hrules r hr).pre) hpost v'
    have hs₁ : Orderly (s₁.mark current .visiting) := hadv.orderly.mark hcurrent.begun _
    have hwait : Waiting (s₁.mark current .visiting) (s₁.tree.children current) := by
      intro c hc m hm
      have hlink : s₁.tree.Link current c := (hs₁.linked.mem_children_iff current c).mp hc
      have hne : m ≠ current := by
        rintro rfl
        exact hs₁.linked.not_reaches_of_link hlink hm
      rw [PassState.stateOf_mark, if_neg hne]
      exact hcurrent.fresh m (hlink.reaches.trans hm) hne
    obtain ⟨hwalk', hadv₂, hfin, hP'⟩ :=
      walk_accounts (hv 0) hs₁ hadv.lawful hcurrent.attached hwait hwalk
    have hinside : ¬ s.tree.Outside n current := fun hout =>
      hadv.occupied.not_reaches_row hs.linked hadv.orderly.linked hn
        (List.mem_singleton_self current) hout (Tree.Reaches.refl current)
    have hall : Advance J P s n [current] s₂ :=
      (hadv.mark hs₁ VisitState.noConfusion hinside).trans_single hs hn hadv₂
    have hattached : s₂.tree.Reaches s₂.tree.root current :=
      hall.occupied.attached_row hs.linked hall.orderly.linked hn (List.mem_singleton_self current)
    subst hsame
    refine ⟨leaveWith_node_eq_ok_iff.mpr ⟨s₃, _, s₃, hwalk', hpost', rfl, rfl⟩, [current], rfl,
      (hmark hall).mark ((hmark hall).orderly.mark_attached hattached _) VisitState.noConfusion
        hinside, ?_⟩
    intro x hx m hm
    obtain rfl := List.mem_singleton.mp hx
    rcases (reaches_iff_below hall.orderly.linked).mp hm with rfl | ⟨c, hc, hcm⟩
    · refine ⟨?_, hP' hP⟩
      rw [PassState.stateOf_mark, if_pos rfl]
    · exact ((hfin.mark n).mark x) c hc m hcm

/-- A visit accounts for the place of its node when the visits below it do. -/
lemma visitWith_accounts (k : Nat) (lineage : UInt32) :
    Accounts J P (visitWith σ v k · lineage) (visitWith σ v' k · lineage) := by
  intro s s' n count hs hJ hn hwait hok
  have hpending : s.stateOf n = .pending :=
    hwait n (List.mem_singleton_self n) n (Tree.Reaches.refl n)
  have hlive : s.tree.isLive n = true := hs.linked.isLive_of_attached hn
  rcases visitWith_eq_ok_iff.mp hok with ⟨hseen, _⟩ | ⟨hnew, place, s₁, hpre, hok⟩
  · rcases hseen with hseen | hdead
    · exact absurd hpending hseen
    · rw [hlive] at hdead
      cases hdead
  · have hs₀ : Orderly (s.enter n) := by
      have hmark := hs.mark_attached hn .visiting
      exact ⟨hmark.reachable, hmark.known⟩
    have hstate : ∀ m, m ≠ n → (s.enter n).stateOf m = s.stateOf m := fun m hm => by
      rw [PassState.stateOf_enter, if_neg hm]
    have hbegun : (s.enter n).stateOf n ≠ .pending := by
      rw [PassState.stateOf_enter, if_pos rfl]
      exact VisitState.noConfusion
    have hahead : Ahead (s.enter n) n := by
      refine ⟨hn, hbegun, fun m hm hne => ?_⟩
      rw [hstate m hne]
      exact hwait n (List.mem_singleton_self n) m hm
    obtain ⟨hpre', hplaced⟩ := roundsFrom_accounts hrules hsettles hv hs₀ hJ hahead hpre
    obtain ⟨hleave', row, hlen, hadv, hfin⟩ :=
      leaveWith_accounts hrules hv hs₀ hn hbegun hplaced hok
    refine ⟨visitWith_eq_ok_iff.mpr (Or.inr ⟨hnew, place, s₁, hpre', hleave'⟩), row, hlen, ?_, hfin⟩
    -- entering the node shows only at the node
    refine ⟨hadv.orderly, hadv.lawful, hadv.occupied, fun m hm => hadv.begun m ?_, fun m hm => ?_,
      hadv.settled⟩
    · by_cases hmn : m = n
      · exact hmn ▸ hbegun
      · rwa [hstate m hmn]
    · rw [hadv.states m ⟨hm.attached, hm.out⟩, hstate m hm.ne]

end visits

lemma visit_accounts (hrules : ∀ r ∈ σ.rules, r.SlotLocal σ.oracle) (hsettles : Settles σ J P)
    (k : Nat) (lineage : UInt32) : Accounts J P (visit σ k · lineage) (visit σ k · lineage) := by
  induction k generalizing lineage with
  | zero =>
    intro s s' n count _ _ _ _ hok
    cases hok
  | succ k ih => exact visitWith_accounts hrules hsettles ih k lineage

/-- A pass that succeeds leaves every attached node visited and settled. -/
lemma run_settles (hrules : ∀ r ∈ σ.rules, r.SlotLocal σ.oracle) (hsettles : Settles σ J P)
    {w w' : Workspace} {stats : PassStats} (hw : w.tree.Reachable) (hJ : J w.tree)
    (hrun : run σ w = .ok stats w') :
    w'.tree.Reachable ∧ J w'.tree ∧ ∀ n, w'.tree.Reaches w'.tree.root n → P w'.tree n := by
  obtain ⟨count, s, hvisit, rfl, rfl, _⟩ := run_eq_ok hrun
  have hs : Orderly { tree := w.tree, files := w.files } := ⟨hw, fun _ h => absurd rfl h⟩
  obtain ⟨_, row, _, hadv, hfin⟩ := visit_accounts hrules hsettles σ.depth 0 hs hJ
    (Tree.Reaches.refl _) (fun _ _ _ _ => rfl) hvisit
  refine ⟨hadv.orderly.reachable, hadv.lawful, fun n hn => ?_⟩
  have hroot : row = [s.tree.root] := hadv.occupied.of_root rfl
  exact (hfin s.tree.root (hroot ▸ List.mem_singleton_self _) n hn).2

/-! ### Every visit of a pass -/

/-- Whether `count` nodes stand in `t'` where `n` stood in `t`: the row below its parent is the same
up to that place, and from there on after as many nodes. The place of the root holds one node. -/
def fills (t : Tree) (n : NodeId) (count : Nat) (t' : Tree) : Bool :=
  match t.parent? n with
  | none => count == 1
  | some p =>
    let i := (t.children p).idxOf n
    (t'.children p).take i == (t.children p).take i &&
      (t'.children p).drop (i + count) == (t.children p).drop (i + 1) &&
      (t'.children p).length + 1 == (t.children p).length + count

lemma fills_of_occupied {t t' : Tree} (ht : t.WellLinked) (hn : t.Reaches t.root n)
    (h : t.Occupied n row t') : fills t n row.length t' = true := by
  rw [fills]
  cases hp : t.parent? n with
  | none =>
    have hroot : t.root = n := hn.eq_of_free hp
    rw [h.of_root hroot.symm]
    rfl
  | some p =>
    have hout : t.Outside n p := ht.outside_parent hp hn
    obtain ⟨l₁, l₂, hl, hnot, _, hput⟩ :=
      Tree.put_split (ht.nodup_children p) ((ht.mem_children_iff p n).mpr hp)
    have hidx : (l₁ ++ n :: l₂).idxOf n = l₁.length := by
      rw [List.idxOf_append_of_notMem hnot, List.idxOf_cons_self, Nat.add_zero]
    dsimp only
    rw [h.children p hout.attached hout.out, hput, hl, hidx]
    have htake : (l₁ ++ row ++ l₂).take l₁.length = (l₁ ++ n :: l₂).take l₁.length := by
      rw [List.append_assoc, List.take_left, List.take_left]
    have hdrop : (l₁ ++ row ++ l₂).drop (l₁.length + row.length)
        = (l₁ ++ n :: l₂).drop (l₁.length + 1) := by
      rw [← List.length_append, List.drop_left, List.append_cons, ← List.length_singleton,
        ← List.length_append, List.drop_left]
    rw [htake, hdrop]
    simp
    omega

/-- A visit that breaks off as soon as it or one of the visits below it returns a number other than
the number of nodes in the place. -/
def watched (σ : PassSetting) : Nat → NodeId → UInt32 → PassM Nat
  | 0, _, _ => throw (.fault .exhausted)
  | k + 1, node, lineage => fun s =>
    match visitWith σ (watched σ k) k node lineage s with
    | .ok count s' =>
      if fills s.tree node count s'.tree then .ok count s' else .error (.fault .silent) s'
    | .error e s' => .error e s'

lemma watched_accounts (hrules : ∀ r ∈ σ.rules, r.SlotLocal σ.oracle) (hsettles : Settles σ J P)
    (k : Nat) (lineage : UInt32) : Accounts J P (visit σ k · lineage) (watched σ k · lineage) := by
  induction k generalizing lineage with
  | zero =>
    intro s s' n count _ _ _ _ hok
    cases hok
  | succ k ih =>
    intro s s' n count hs hJ hn hwait hok
    obtain ⟨hwatched, row, hlen, hadv, hfin⟩ :=
      visitWith_accounts hrules hsettles ih k lineage hs hJ hn hwait hok
    refine ⟨?_, row, hlen, hadv, hfin⟩
    have hfills := fills_of_occupied hs.linked hn hadv.occupied
    rw [hlen] at hfills
    show (match visitWith σ (watched σ k) k n lineage s with
      | .ok count s' => _
      | .error e s' => _) = _
    simp only [hwatched]
    rw [if_pos hfills]

end Pass

/-- In a pass with slot-local rules that succeeds every visit, the one of the root and all visits
below it, returns the number of nodes that stand in the place of its node, and in the end every
attached node has been visited. -/
theorem slots_accounted {σ : PassSetting} (hrules : ∀ r ∈ σ.rules, r.SlotLocal σ.oracle)
    {w w' : Workspace} {stats : PassStats} (hw : w.tree.Reachable)
    (hrun : Pass.run σ w = .ok stats w') :
    ∃ count s, Pass.visitRoot σ { tree := w.tree, files := w.files } = .ok count s ∧
      w' = s.toWorkspace ∧
      Pass.watched σ σ.depth w.tree.root 0 { tree := w.tree, files := w.files } = .ok count s ∧
      ∀ n, s.tree.Reaches s.tree.root n → s.stateOf n = .visited := by
  obtain ⟨count, s, hvisit, rfl, rfl, _⟩ := Pass.run_eq_ok hrun
  have hs : Pass.Orderly { tree := w.tree, files := w.files } := ⟨hw, fun _ h => absurd rfl h⟩
  obtain ⟨hwatched, row, _, hadv, hfin⟩ :=
    Pass.watched_accounts hrules (Pass.settles_trivial σ) σ.depth 0 hs trivial
      (Tree.Reaches.refl _) (fun _ _ _ _ => rfl) hvisit
  refine ⟨count, s, hvisit, rfl, hwatched, fun n hn => ?_⟩
  have hroot : row = [s.tree.root] := hadv.occupied.of_root rfl
  exact (hfin s.tree.root (hroot ▸ List.mem_singleton_self _) n hn).1

/-- A rule that declares every string removed and leaves it to the pass to take it out. -/
def droppingRule : Rule where
  id := "dropping"
  kinds := [.string]
  apply _ _ _ := return .removed

lemma droppingRule_slotLocal (oracle : Oracle) : droppingRule.SlotLocal oracle := by
  refine .of_commands rfl (fun _ _ _ w => Tree.Edited.refl w.tree) ?_
  intro pass n t files o w _ _ _ happ
  obtain ⟨rfl, rfl⟩ := EStateM.pure_eq_ok_iff.mp happ
  exact Or.inr (.of_same rfl fun _ _ _ => rfl)

/-- Two strings around a null. -/
def Tree.sampleRow : Tree :=
  Command.runAll (Tree.new .null) [.add (.string "a"), .pushChild 0 1, .add .null, .pushChild 0 2,
    .add (.string "b"), .pushChild 0 3]

theorem slots_accounted_sample :
    ∃ s : PassState, s.tree.children 0 = [2] ∧ s.stateOf 2 = .visited ∧
      Pass.watched ⟨[droppingRule], .unknown, 1, 3, 5⟩ 5 0 0 { tree := Tree.sampleRow } =
        .ok 1 s := by
  obtain ⟨stats, w, hok, hrun⟩ := EStateM.exists_eq_ok
    (x := Pass.run ⟨[droppingRule], .unknown, 1, 3, 5⟩ ⟨Tree.sampleRow, []⟩)
    (P := fun _ w => w.tree.children 0 == [2] && w.tree.parent? 2 == some 0 && w.tree.root == 0)
    (by decide +kernel)
  simp only [Bool.and_eq_true, beq_iff_eq] at hrun
  obtain ⟨⟨hchildren, hlink⟩, hroot⟩ := hrun
  obtain ⟨count, s, hvisit, rfl, hwatched, hvisited⟩ :=
    slots_accounted (by simp [droppingRule_slotLocal]) ((Tree.Reachable.new .null).runAll _) hok
  have hcount : count = 1 := by
    obtain ⟨one, s', hvisit', hone⟩ := EStateM.exists_eq_ok
      (x := Pass.visitRoot ⟨[droppingRule], .unknown, 1, 3, 5⟩ { tree := Tree.sampleRow })
      (P := fun count _ => count == 1) (by decide +kernel)
    cases hvisit.symm.trans hvisit'
    exact eq_of_beq hone
  refine ⟨s, hchildren, hvisited 2 ?_, hcount ▸ hwatched⟩
  rw [hroot]
  exact Tree.Link.reaches hlink

end CodeMigration
