import CodeMigration.Proofs.Pass.Quiet
import CodeMigration.Proofs.Rule.Accounts

/-!
# The story of a pass

Besides keeping books on its visits a pass does nothing but apply rules. `Story` tells its
applications one after the other, each with the state it found and the state it led to. What every
application preserves the whole pass preserves: when the rules account for what they discard, every
node that is gone at the end was discarded by an application.
-/

namespace CodeMigration

namespace Pass

variable {σ : PassSetting} {s s' s'' : PassState}

/-- An application of a rule, with the state it was made in and the state after it. -/
structure Application where
  rule : Rule
  node : NodeId
  outcome : Outcome
  before : PassState
  after : PassState

/-- The application is made in a pass: the node was offered to a rule that accepts it, and a node
that was declared removed has been taken out. -/
structure Application.Happens (σ : PassSetting) (a : Application) : Prop where
  mem : a.rule ∈ σ.rules
  accepts : Pass.accepts a.before.tree a.rule a.node = true
  offered : ∃ s, offer σ a.rule a.node a.before = .ok a.outcome s ∧
    if a.outcome = .removed then finishRemoval a.rule.id a.node s = .ok () a.after
    else a.after = s

/-- No rule was applied: the tree and the files are the same, and only visits that began have been
noted. -/
def Idles (s s' : PassState) : Prop :=
  s'.toWorkspace = s.toWorkspace ∧ ∃ nodes : List NodeId, s'.log = nodes.map .entered ++ s.log

lemma Idles.refl (s : PassState) : Idles s s := ⟨rfl, [], rfl⟩

lemma Idles.trans (h : Idles s s') (h' : Idles s' s'') : Idles s s'' := by
  obtain ⟨hsame, nodes, hlog⟩ := h
  obtain ⟨hsame', nodes', hlog'⟩ := h'
  refine ⟨hsame'.trans hsame, nodes' ++ nodes, ?_⟩
  rw [hlog', hlog, List.map_append, List.append_assoc]

lemma Idles.mark (h : Idles s s') (id : NodeId) (v : VisitState) : Idles s (s'.mark id v) :=
  h.trans ⟨rfl, [], rfl⟩

/-- A pass leads from one state to another by the given applications. -/
inductive Story (σ : PassSetting) : PassState → List Application → PassState → Prop
  | rest {s s' : PassState} (h : Idles s s') : Story σ s [] s'
  | step {s s' : PassState} {a : Application} {apps : List Application} (h : Idles s a.before)
    (ha : a.Happens σ) (hrest : Story σ a.after apps s') : Story σ s (a :: apps) s'

namespace Story

variable {apps apps' : List Application}

lemma idles (h : Idles s s') (h' : Story σ s' apps s'') : Story σ s apps s'' := by
  cases h' with
  | rest h' => exact .rest (h.trans h')
  | step h' ha hrest => exact .step (h.trans h') ha hrest

lemma trans (h : Story σ s apps s') (h' : Story σ s' apps' s'') :
    Story σ s (apps ++ apps') s'' := by
  induction h with
  | rest h => exact idles h h'
  | step h ha _ ih => exact .step h ha (ih h')

end Story

/-! ### Passes have a story -/

/-- Whatever the step does can be told. -/
def Tells (σ : PassSetting) {α : Type} (m : PassM α) : Prop :=
  ∀ s a s', m s = .ok a s' → ∃ apps, Story σ s apps s'

namespace Tells

variable {α β : Type}

lemma pure (a : α) : Tells σ (pure a : PassM α) := by
  intro s b s' h
  obtain ⟨_, rfl⟩ := EStateM.pure_eq_ok_iff.mp h
  exact ⟨[], .rest (.refl s')⟩

lemma bind {m : PassM α} {f : α → PassM β} (hm : Tells σ m) (hf : ∀ a, Tells σ (f a)) :
    Tells σ (m >>= f) := by
  intro s b s'' h
  obtain ⟨a, s', ha, hb⟩ := EStateM.bind_eq_ok_iff.mp h
  obtain ⟨apps, hstory⟩ := hm s a s' ha
  obtain ⟨apps', hstory'⟩ := hf a s' b s'' hb
  exact ⟨_, hstory.trans hstory'⟩

end Tells

lemma tells_setState (id : NodeId) (v : VisitState) : Tells σ (setState id v) := by
  intro s a s' h
  cases h
  exact ⟨[], .rest ((Idles.refl s).mark id v)⟩

lemma tells_visitAll {u : NodeId → PassM Nat} (hu : ∀ n, Tells σ (u n)) (ns : List NodeId) :
    Tells σ (visitAll u ns) := by
  induction ns with
  | nil => exact Tells.pure 0
  | cons n ns ih => exact (hu n).bind fun _ => ih.bind fun _ => Tells.pure _

section rounds

variable {v : NodeId → UInt32 → PassM Nat} {r : Rule} {rules : List Rule} {node : NodeId}
  {lineage : UInt32} {last : Option String}

/-- An offer whose outcome asks for nothing more. -/
lemma exists_story_of_offer (hr : r ∈ σ.rules) (hacc : accepts s.tree r node = true) {o : Outcome}
    (ho : offer σ r node s = .ok o s') (hne : o ≠ .removed)
    (hrest : ∃ apps, Story σ s' apps s'') : ∃ apps, Story σ s apps s'' := by
  obtain ⟨apps, hrest⟩ := hrest
  refine ⟨⟨r, node, o, s, s'⟩ :: apps, .step (.refl s) ⟨hr, hacc, s', ho, ?_⟩ hrest⟩
  rw [if_neg hne]

lemma tells_round (hv : ∀ n l, Tells σ (v n l)) (hsub : rules ⊆ σ.rules) :
    Tells σ (round σ v rules node lineage last) := by
  induction rules generalizing node lineage last with
  | nil => exact Tells.pure _
  | cons r rules ih =>
    obtain ⟨hr, hsub⟩ := List.cons_subset.mp hsub
    intro s e s' h
    rcases round_cons_eq_ok_iff.mp h with ⟨_, h⟩ | ⟨hacc, o, s₁, ho, h⟩
    · exact ih hsub s e s' h
    cases o with
    | unchanged => exact exists_story_of_offer hr hacc ho (by simp) (ih hsub s₁ e s' h)
    | mutated => exact exists_story_of_offer hr hacc ho (by simp) (ih hsub s₁ e s' h)
    | replaced new =>
      obtain ⟨_, h⟩ := afterReplaced_eq_ok_iff.mp h
      obtain ⟨apps, hstory⟩ := ih hsub _ e s' h
      refine exists_story_of_offer hr hacc ho (by simp) ⟨apps, .idles ?_ hstory⟩
      exact ((Idles.refl s₁).mark node _).mark new _
    | expanded new =>
      obtain ⟨_, count, h, _⟩ := afterExpanded_eq_ok_iff.mp h
      obtain ⟨apps, hstory⟩ := tells_visitAll (fun n => hv n _) new _ count s' h
      exact exists_story_of_offer hr hacc ho (by simp)
        ⟨apps, .idles ((Idles.refl s₁).mark node _) hstory⟩
    | removed =>
      obtain ⟨h, _⟩ := afterRemoved_eq_ok_iff.mp h
      refine ⟨[⟨r, node, .removed, s, s'⟩],
        .step (.refl s) ⟨hr, hacc, s₁, ho, ?_⟩ (.rest (.refl s'))⟩
      rwa [if_pos rfl]

lemma tells_roundsFrom (hv : ∀ n l, Tells σ (v n l)) (order : VisitOrder) (k : Nat) :
    Tells σ (roundsFrom σ v order k node lineage) := by
  induction k generalizing node lineage with
  | zero =>
    intro s place s' h
    cases h
  | succ k ih =>
    intro s place s' h
    obtain ⟨e, s₁, hround, h⟩ := roundsFrom_succ_eq_ok_iff.mp h
    obtain ⟨apps, hstory⟩ := tells_round hv (List.filter_subset_self _) s e s₁ hround
    match e, h with
    | .settled _, ⟨_, h⟩ => exact ⟨apps, h ▸ hstory⟩
    | .ongoing _ _ none, ⟨_, h⟩ => exact ⟨apps, h ▸ hstory⟩
    | .ongoing current lineage (some rule), ⟨s₂, hcount, h⟩ =>
      obtain ⟨revisits, rfl⟩ := exists_revisits_of_recount hcount
      obtain ⟨apps', hstory'⟩ := ih _ place s' h
      have hidles : Idles s₁ { s₁ with revisits } := ⟨rfl, [], rfl⟩
      exact ⟨apps ++ apps', hstory.trans (.idles hidles hstory')⟩

end rounds

lemma tells_walk {u : NodeId → PassM Nat} (hu : ∀ n, Tells σ (u n)) (node : NodeId) (k i : Nat) :
    Tells σ (walk u node k i) := by
  induction k generalizing i with
  | zero =>
    intro s a s' h
    cases h
  | succ k ih =>
    intro s a s' h
    rcases walk_succ_eq_ok_iff.mp h with ⟨_, rfl⟩ | ⟨c, _, _, count, s₁, hc, h⟩
    · exact ⟨[], .rest (.refl s')⟩
    · obtain ⟨apps, hstory⟩ := hu c s count s₁ hc
      obtain ⟨apps', hstory'⟩ := ih _ s₁ a s' h
      exact ⟨_, hstory.trans hstory'⟩

lemma tells_leave {k : Nat} (hv : ∀ n l, Tells σ (visit σ k n l)) (node : NodeId) (lineage : UInt32)
    (place : Occupancy) : Tells σ (leave σ k node lineage place) := by
  cases place with
  | node current =>
    refine (tells_setState _ _).bind fun _ => (tells_walk (fun n => hv n 0) _ _ _).bind fun _ => ?_
    refine (tells_roundsFrom hv _ _).bind fun place => ?_
    exact (tells_setState _ _).bind fun _ => (tells_setState _ _).bind fun _ => Tells.pure _
  | expanded n => exact (tells_setState _ _).bind fun _ => Tells.pure _
  | removed => exact (tells_setState _ _).bind fun _ => Tells.pure _

lemma tells_visit (k : Nat) (node : NodeId) (lineage : UInt32) :
    Tells σ (visit σ k node lineage) := by
  induction k generalizing node lineage with
  | zero =>
    intro s count s' h
    cases h
  | succ k ih =>
    intro s count s' h
    rcases visit_succ_eq_ok_iff.mp h with ⟨_, _, rfl⟩ | ⟨_, place, s₁, hrounds, h⟩
    · exact ⟨[], .rest (.refl s')⟩
    · obtain ⟨apps, hstory⟩ := tells_roundsFrom ih _ _ (s.enter node) place s₁ hrounds
      obtain ⟨apps', hstory'⟩ := tells_leave ih node lineage place s₁ count s' h
      have hidles : Idles s (s.enter node) := ⟨rfl, [node], rfl⟩
      exact ⟨apps ++ apps', .idles hidles (hstory.trans hstory')⟩

/-- The state at the beginning of a pass. -/
def start (w : Workspace) : PassState := { tree := w.tree, files := w.files }

/-- A pass that succeeds has a story, and its counters are taken from the log of the story. -/
lemma exists_story_of_run {w w' : Workspace} {stats : PassStats} (h : run σ w = .ok stats w') :
    ∃ apps s, Story σ (start w) apps s ∧ s.toWorkspace = w' ∧ stats = .ofLog s.log := by
  rw [run] at h
  cases hvisit : visitRoot σ { tree := w.tree, files := w.files } with
  | error e s =>
    rw [hvisit] at h
    cases h
  | ok count s =>
    rw [hvisit] at h
    cases h
    obtain ⟨apps, hstory⟩ := tells_visit σ.depth w.tree.root 0 (start w) count s hvisit
    exact ⟨apps, s, hstory, rfl, rfl⟩

/-! ### The balance of a story -/

lemma eq_removed_of_judge {rule : String} {node : NodeId} {before : Nat} {t : Tree} {o : Outcome}
    (h : judge rule node before t o = .ok .removed) : o = .removed := by
  cases o with
  | unchanged =>
    rw [judge] at h
    split at h <;> cases h
  | mutated => cases h
  | replaced new =>
    rw [judge] at h
    split at h <;> cases h
  | expanded new =>
    rw [judge] at h
    split at h <;> cases h
  | removed => rfl

section balance

variable {discards : Oracle → Tree → NodeId → NodeId → Prop}

/-- Taking out a node that was declared removed. -/
lemma balance_finishRemoval {rule : String} {n : NodeId} {t : Tree} {gone : NodeId → Prop}
    (ht : t.Sound) (h : t.Whole) (hs : s.tree = t.commit) (hroot : n ≠ t.root)
    (hgone : ∀ m, t.Reaches n m → gone m) (hok : finishRemoval rule n s = .ok () s') :
    t.commit.Balance gone s'.tree := by
  have ht' : t.commit.Sound := ht.commit
  have h' : t.commit.Whole := h
  rcases finishRemoval_eq_ok_iff.mp hok with ⟨_, rfl⟩ | ⟨hlive, _, t', hremove, rfl⟩
  · rw [hs]
    exact .refl ht' h' gone
  · rw [hs] at hlive hremove
    obtain ⟨_, ⟨p, _, hremove⟩ | ⟨hfree, _⟩⟩ := Tree.remove_eq_ok_iff.mp hremove
    · exact ((Tree.Ledger.start h' gone).removeChild ht' hremove
        fun m hm _ => hgone m hm).balance ht'
    · exact absurd ((h' n hlive).eq_of_free hfree).symm hroot

lemma Application.Happens.balance {a : Application} (ha : a.Happens σ)
    (haccounts : a.rule.Accounts discards) (hcommands : a.rule.ActsByCommands)
    (hs : a.before.tree.Sound) (h : a.before.tree.Whole) :
    a.before.tree.Balance (discards σ.oracle a.before.tree.checkpoint a.node) a.after.tree := by
  have hopen : a.before.tree.checkpoint.Whole := h
  obtain ⟨s, ho, hafter⟩ := ha.offered
  rcases offer_eq_ok_iff.mp ho with ⟨o, w, happ, hjudge, rfl⟩ | ⟨e, w, happ, _, hsame, rfl⟩
  · have haccounted := haccounts σ.oracle σ.pass a.node
      ⟨a.before.tree.checkpoint, a.before.files⟩ hs.checkpoint hopen ha.accepts o w happ
    by_cases hremoved : a.outcome = .removed
    · rw [if_pos hremoved] at hafter
      rw [hremoved] at hjudge
      obtain rfl := eq_removed_of_judge hjudge
      obtain ⟨htree, hroot, hgone⟩ := haccounted
      have hbalance := balance_finishRemoval hs.checkpoint hopen (congrArg Tree.commit htree) hroot
        hgone hafter
      exact ⟨hbalance.sound, hbalance.whole, hbalance.root, hbalance.lost, hbalance.layouts⟩
    · rw [if_neg hremoved] at hafter
      rw [hafter]
      have hledger : a.before.tree.checkpoint.Ledger
          (discards σ.oracle a.before.tree.checkpoint a.node) w.tree [] := by
        cases o with
        | removed => exact absurd (Except.ok.inj hjudge).symm hremoved
        | _ => exact haccounted
      exact (hledger.balance hs.checkpoint).commit
  · -- the work was undone
    rw [hsame, if_neg (by simp)] at hafter
    have hedited := hcommands σ.oracle σ.pass a.node ⟨a.before.tree.checkpoint, a.before.files⟩
    rw [Action.after, happ] at hedited
    have htree : a.after.tree = a.before.tree.commit := by
      rw [hafter]
      exact hs.rollback_edited hedited
    rw [htree]
    exact (Tree.Balance.refl hs.checkpoint hopen _).commit

/-- In a pass whose rules account for what they discard, every node that is gone at the end was
attached before one of the applications and discarded by it. -/
lemma Story.balance {discards : Rule → Oracle → Tree → NodeId → NodeId → Prop}
    (hrules : ∀ r ∈ σ.rules, r.Accounts (discards r) ∧ r.ActsByCommands)
    {apps : List Application} (hstory : Story σ s apps s') (hs : s.tree.Sound) (h : s.tree.Whole) :
    s.tree.Balance (fun m => ∃ a ∈ apps, a.before.tree.isAttached m = true ∧
      a.after.tree.isLive m = false ∧
        discards a.rule σ.oracle a.before.tree.checkpoint a.node m) s'.tree := by
  induction hstory with
  | @rest s s' hidles =>
    rw [show s'.tree = s.tree from congrArg Workspace.tree hidles.1]
    exact .refl hs h _
  | @step s s' a apps hidles ha _ ih =>
    have htree : a.before.tree = s.tree := congrArg Workspace.tree hidles.1
    rw [← htree] at hs h ⊢
    obtain ⟨haccounts, hcommands⟩ := hrules a.rule ha.mem
    have hfirst : a.before.tree.Balance (fun m => a.before.tree.isAttached m = true ∧
        a.after.tree.isLive m = false ∧
          discards a.rule σ.oracle a.before.tree.checkpoint a.node m) a.after.tree :=
      (ha.balance haccounts hcommands hs h).weaken fun m hm hm' hgone =>
        ⟨(h.isAttached hs.linked m).trans hm, hm', hgone⟩
    refine (hfirst.trans (ih hfirst.sound hfirst.whole)).weaken fun m _ _ hgone => ?_
    rcases hgone with hgone | ⟨b, hb, hgone⟩
    · exact ⟨a, List.mem_cons_self, hgone⟩
    · exact ⟨b, List.mem_cons_of_mem a hb, hgone⟩

end balance

end Pass

end CodeMigration
