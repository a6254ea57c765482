import CodeMigration.Proofs.Pass.Steps
import CodeMigration.Proofs.Tree.Frame
import Mathlib.Data.Finset.Card
import Mathlib.Data.Prod.Lex

/-!
# Tame rules

A tame rule never fails, works below the node it is offered, and changes a node only when that node
is ripe, after which it is ripe no more. A pass with tame rules ends: every visit of a pending node
takes a ripe one out of the count or, when nothing new is allocated, a pending one. The bound of
repeated offers and, where rules replace nodes, the limit of replacements must not be zero.
-/

namespace CodeMigration

/-- A sign of nodes that rules may still change. It is lost when a node is discarded, and does not
come up in nodes that stand for what they stood for. -/
structure Gauge where
  ripe : Tree → NodeId → Bool
  live : ∀ t n, ripe t n = true → t.isLive n = true
  fades : ∀ t t' n, t.Fades t' → ripe t' n = true → ripe t n = true

/-- What a tame rule may do at the node `n`, with the outcome it has to report. -/
inductive Conduct (g : Gauge) (t : Tree) (n : NodeId) (t' : Tree) : Outcome → Prop
  | idle (hkept : t.Kept t') (hsize : t'.size = t.size) : Conduct g t n t' .unchanged
  | mutated (hripe : g.ripe t n = true) (hdone : g.ripe t' n = false) (hframe : t.Frame n t')
      (hplace : t'.parent? n = t.parent? n) : Conduct g t n t' .mutated
  | replaced {new : NodeId} (hripe : g.ripe t n = true) (hdone : g.ripe t' new = false)
      (hframe : t.Frame n t') (hnew : t.size ≤ new) (hattached : t'.Reaches t'.root new) :
      Conduct g t n t' (.replaced new)
  | removed (hkept : t.Kept t') (hsize : t'.size = t.size) (hplace : t.parent? n ≠ none) :
      Conduct g t n t' .removed

/-- Every application at an attached node of an accepted kind succeeds and is well conducted. -/
def Rule.Tame (g : Gauge) (oracle : Oracle) (r : Rule) : Prop :=
  r.order = .pre ∧ ∀ pass n (w : Workspace), w.tree.Sound → w.tree.Reaches w.tree.root n →
    Pass.accepts w.tree r n = true → ∃ o w', r.apply oracle pass n w = .ok o w' ∧
      w.tree.Edited w'.tree ∧ (∀ m, g.ripe w'.tree m = true → g.ripe w.tree m = true) ∧
      Conduct g w.tree n w'.tree o

/-- Some application puts another node in the place of the one it is offered. -/
def Rule.Replaces (oracle : Oracle) (r : Rule) : Prop :=
  ∃ pass n, ∃ w : Workspace, ∃ new w', Pass.accepts w.tree r n = true ∧
    r.apply oracle pass n w = .ok (.replaced new) w'

namespace Pass

variable {g : Gauge} {σ : PassSetting} {s s' s'' : PassState} {n : NodeId}

/-- A state of a pass in which nothing has gone wrong. -/
structure Good (s : PassState) : Prop where
  sound : s.tree.Sound
  fresh : ∀ m order, s.stateOf m = .pending → s.revisitsOf m order = 0
  clean : ∀ e ∈ s.log, e.isRecovery = false

/-- Nothing became pending or ripe. -/
structure Later (g : Gauge) (s s' : PassState) : Prop where
  pending : ∀ m, s'.stateOf m = .pending → s.stateOf m = .pending
  ripe : ∀ m, g.ripe s'.tree m = true → g.ripe s.tree m = true

lemma Later.refl (g : Gauge) (s : PassState) : Later g s s := ⟨fun _ h => h, fun _ h => h⟩

lemma Later.trans (h : Later g s s') (h' : Later g s' s'') : Later g s s'' :=
  ⟨fun m hm => h.pending m (h'.pending m hm), fun m hm => h.ripe m (h'.ripe m hm)⟩

lemma later_mark (g : Gauge) (s : PassState) (id : NodeId) {v : VisitState} (hv : v ≠ .pending) :
    Later g s (s.mark id v) := by
  refine ⟨fun m hm => ?_, fun m hm => hm⟩
  rw [PassState.stateOf_mark] at hm
  split at hm
  · exact absurd hm hv
  · exact hm

lemma Good.mark (h : Good s) (id : NodeId) {v : VisitState} (hv : v ≠ .pending) :
    Good (s.mark id v) :=
  ⟨h.sound, fun m order hm => h.fresh m order ((later_mark ⟨fun _ _ => false, by simp, by simp⟩
    s id hv).pending m hm), h.clean⟩

/-- A step that leaves the visits alone. -/
structure Stays (g : Gauge) (s s' : PassState) : Prop where
  good : Good s'
  states : s'.states = s.states
  revisits : s'.revisits = s.revisits
  ripe : ∀ m, g.ripe s'.tree m = true → g.ripe s.tree m = true

lemma Stays.later (h : Stays g s s') : Later g s s' := by
  refine ⟨fun m hm => ?_, h.ripe⟩
  rwa [PassState.stateOf, h.states] at hm

lemma Stays.refl (g : Gauge) (h : Good s) : Stays g s s := ⟨h, rfl, rfl, fun _ hm => hm⟩

lemma Stays.trans (h : Stays g s s') (h' : Stays g s' s'') : Stays g s s'' :=
  ⟨h'.good, h'.states.trans h.states, h'.revisits.trans h.revisits,
    fun m hm => h.ripe m (h'.ripe m hm)⟩

lemma Stays.unripe (h : Stays g s s') {m : NodeId} (hm : g.ripe s.tree m = false) :
    g.ripe s'.tree m = false := by
  rw [← Bool.not_eq_true] at hm ⊢
  exact fun hr => hm (h.ripe m hr)

lemma Good.of_step (h : Good s) (hsound : s'.tree.Sound) (hstates : s'.states = s.states)
    (hrevisits : s'.revisits = s.revisits) (hlog : ∀ e ∈ s'.log, e.isRecovery = false) :
    Good s' := by
  refine ⟨hsound, fun m order hm => ?_, hlog⟩
  rw [PassState.stateOf, hstates] at hm
  rw [PassState.revisitsOf, hrevisits]
  exact h.fresh m order hm

/-! ### Offers -/

/-- The checkpoint and the commit around an application do not show. -/
lemma conduct_unwrap {t t' : Tree} {o : Outcome} (h : Conduct g t.checkpoint n t' o) :
    Conduct g t n t'.commit o := by
  have hup : ∀ m, g.ripe t.checkpoint m = true → g.ripe t m = true :=
    fun m => g.fades t t.checkpoint m t.fades_checkpoint
  have hdown : ∀ m, g.ripe t' m = false → g.ripe t'.commit m = false := by
    intro m hm
    rw [← Bool.not_eq_true] at hm ⊢
    exact fun hc => hm (g.fades t' t'.commit m t'.fades_commit hc)
  cases h with
  | idle hkept hsize => exact .idle ((t.kept_checkpoint.trans hkept).trans t'.kept_commit) hsize
  | mutated hripe hdone hframe hplace =>
    exact .mutated (hup n hripe) (hdown n hdone) ⟨hframe.root, hframe.size_le, hframe.parent?⟩
      hplace
  | replaced hripe hdone hframe hnew hattached =>
    exact .replaced (hup n hripe) (hdown _ hdone) ⟨hframe.root, hframe.size_le, hframe.parent?⟩
      hnew hattached
  | removed hkept hsize hplace =>
    exact .removed ((t.kept_checkpoint.trans hkept).trans t'.kept_commit) hsize hplace

/-- A well conducted application stands up to the check of its outcome. -/
lemma judge_conduct {t t' : Tree} {o : Outcome} (h : Conduct g t n t' o)
    (ht' : t'.WellLinked) (rule : String) : judge rule n t.revision t' o = .ok o := by
  cases h with
  | idle hkept _ => rw [judge, if_pos hkept.revision]
  | mutated => rfl
  | replaced _ _ _ _ hattached => rw [judge, if_pos (ht'.isAttached_iff.mpr hattached)]
  | removed => rfl

lemma offer_tame {r : Rule} (hr : r.Tame g σ.oracle) (h : Good s)
    (hn : s.tree.Reaches s.tree.root n) (hacc : accepts s.tree r n = true) :
    ∃ o s', offer σ r n s = .ok o s' ∧ Stays g s s' ∧ Conduct g s.tree n s'.tree o := by
  obtain ⟨o, w, happ, hedited, hripe, hconduct⟩ :=
    hr.2 σ.pass n ⟨s.tree.checkpoint, s.files⟩ h.sound.checkpoint hn hacc
  have hsound : w.tree.commit.Sound := (h.sound.checkpoint.edited hedited).commit
  have hjudge := judge_conduct (conduct_unwrap hconduct) hsound.linked r.id
  refine ⟨o, _, offer_eq_ok_iff.mpr (Or.inl ⟨o, w, happ, hjudge, rfl⟩), ?_,
    conduct_unwrap hconduct⟩
  refine ⟨h.of_step hsound rfl rfl ?_, rfl, rfl, fun m hm => ?_⟩
  · intro e he
    rcases List.mem_cons.mp he with rfl | he
    · rfl
    · exact h.clean e he
  · refine g.fades s.tree _ m s.tree.fades_checkpoint (hripe m ?_)
    exact g.fades w.tree _ m w.tree.fades_commit hm

lemma replaces_of_offer {r : Rule} {new : NodeId} (hacc : accepts s.tree r n = true)
    (hok : offer σ r n s = .ok (.replaced new) s') : r.Replaces σ.oracle := by
  rcases offer_eq_ok_iff.mp hok with ⟨o, w, happ, hjudge, _⟩ | ⟨_, _, _, _, hunchanged, _⟩
  · obtain rfl := judge_replaced_iff.mp hjudge |>.1
    exact ⟨σ.pass, n, ⟨s.tree.checkpoint, s.files⟩, new, w, hacc, happ⟩
  · cases hunchanged

/-- The node of a removed outcome goes with everything below it. -/
lemma finishRemoval_tame (h : Good s) (hn : s.tree.Reaches s.tree.root n)
    (hplace : s.tree.parent? n ≠ none) (rule : String) :
    ∃ s', finishRemoval rule n s = .ok () s' ∧ Stays g s s' ∧ s.tree.Frame n s'.tree ∧
      s'.tree.size = s.tree.size := by
  have ht : s.tree.WellLinked := h.sound.linked
  have hlive : s.tree.isLive n = true := (ht.isLive_of_reaches hn).symm.trans ht.root_live
  obtain ⟨p, hp⟩ := Option.ne_none_iff_exists'.mp hplace
  obtain ⟨t', hremove, hmoved, _⟩ := Tree.exists_removeChild ht hp hlive
  have hok := Tree.remove_eq_ok_iff.mpr ⟨hlive, Or.inl ⟨p, hp, hremove⟩⟩
  refine ⟨{ s with tree := t' }, ?_, ?_, hmoved.frame (Tree.Reaches.refl n), hmoved.size⟩
  · exact finishRemoval_eq_ok_iff.mpr (Or.inr ⟨hlive, ht.ne_root_of_link hp, t', hok, rfl⟩)
  · exact ⟨h.of_step (h.sound.edited hmoved.edited) rfl rfl h.clean, rfl, rfl,
      fun m hm => g.fades s.tree t' m hmoved.fades hm⟩

/-- What a round does after a removed outcome. -/
lemma afterRemoved_tame (h : Good s) (hn : s.tree.Reaches s.tree.root n) {s₁ : PassState}
    (hstays : Stays g s s₁) (hkept : s.tree.Kept s₁.tree) (hsize : s₁.tree.size = s.tree.size)
    (hplace : s.tree.parent? n ≠ none) (rule : String) :
    ∃ s', (do finishRemoval rule n; return RoundEnd.settled .removed : PassM RoundEnd) s₁ =
        .ok (.settled .removed) s' ∧
      Stays g s s' ∧ s.tree.Frame n s'.tree ∧ s'.tree.size = s.tree.size := by
  have ht : s.tree.WellLinked := h.sound.linked
  have hplace₁ : s₁.tree.parent? n ≠ none := by
    rwa [hkept.parent? (ht.lt_size_of_reaches hn)]
  obtain ⟨s', hok, hstays', hframe, hsize'⟩ :=
    finishRemoval_tame hstays.good (hkept.attached ht hn) hplace₁ rule
  exact ⟨s', EStateM.bind_eq_ok_iff.mpr ⟨(), s', hok, rfl⟩, hstays.trans hstays',
    (hkept.frame n).trans ht (Or.inl rfl) hframe, hsize'.trans hsize⟩

/-! ### Rounds -/

variable {rules : List Rule}

/-- A round over a node that is not ripe leaves it alone or removes it. -/
lemma round_unripe (hrules : ∀ r ∈ rules, r.Tame g σ.oracle) (h : Good s)
    (hn : s.tree.Reaches s.tree.root n) (hunripe : g.ripe s.tree n = false) (lineage : UInt32)
    (last : Option String) :
    ∃ e s', (∀ v, round σ v rules n lineage last s = .ok e s') ∧ Stays g s s' ∧
      s.tree.Frame n s'.tree ∧ s'.tree.size = s.tree.size ∧
      (e = .settled .removed ∨ (e = .ongoing n lineage last ∧ s.tree.Kept s'.tree)) := by
  induction rules generalizing s with
  | nil =>
    exact ⟨_, s, fun _ => rfl, Stays.refl g h, (Tree.Kept.refl _).frame n, rfl,
      Or.inr ⟨rfl, Tree.Kept.refl _⟩⟩
  | cons r rules ih =>
    have hrest : ∀ q ∈ rules, q.Tame g σ.oracle := fun q hq => hrules q (List.mem_cons_of_mem r hq)
    cases hacc : accepts s.tree r n with
    | false =>
      obtain ⟨e, s', hok, hspec⟩ := ih hrest h hn hunripe
      exact ⟨e, s', fun v => round_cons_eq_ok_iff.mpr (Or.inl ⟨hacc, hok v⟩), hspec⟩
    | true =>
      obtain ⟨o, s₁, hoffer, hstays, hconduct⟩ := offer_tame (hrules r List.mem_cons_self) h hn hacc
      have hround : ∀ {e s'}, (∀ v, afterOffer σ v r rules n lineage last o s₁ = .ok e s') →
          ∀ v, round σ v (r :: rules) n lineage last s = .ok e s' :=
        fun hok v => round_cons_eq_ok_iff.mpr (Or.inr ⟨hacc, o, s₁, hoffer, hok v⟩)
      cases hconduct with
      | idle hkept hsize =>
        have hn₁ : s₁.tree.Reaches s₁.tree.root n := hkept.attached h.sound.linked hn
        obtain ⟨e, s', hok, hstays', hframe, hsize', hend⟩ :=
          ih hrest hstays.good hn₁ (hstays.unripe hunripe)
        refine ⟨e, s', hround hok, hstays.trans hstays',
          (hkept.frame n).trans h.sound.linked (Or.inl rfl) hframe, hsize'.trans hsize, ?_⟩
        exact hend.imp_right fun ⟨he, hkept'⟩ => ⟨he, hkept.trans hkept'⟩
      | mutated hripe =>
        rw [hunripe] at hripe
        cases hripe
      | replaced hripe =>
        rw [hunripe] at hripe
        cases hripe
      | removed hkept hsize hplace =>
        obtain ⟨s', hok, hstays', hframe, hsize'⟩ :=
          afterRemoved_tame h hn hstays hkept hsize hplace r.id
        exact ⟨_, s', hround fun _ => hok, hstays', hframe, hsize', Or.inl rfl⟩

/-- How a round over a node may end: with the node gone, or with a node in its place that is the
same as before or ripe no more. -/
inductive RoundResult (g : Gauge) (s : PassState) (n : NodeId) (s' : PassState) : RoundEnd → Prop
  | removed : RoundResult g s n s' (.settled .removed)
  | same (hkept : s.tree.Kept s'.tree) : RoundResult g s n s' (.ongoing n 0 none)
  | changed {current : NodeId} {lineage : UInt32} {rule : String} (hripe : g.ripe s.tree n = true)
      (hdone : g.ripe s'.tree current = false) (hplace : current = n ∨ s.tree.size ≤ current)
      (hattached : s'.tree.Reaches s'.tree.root current) :
      RoundResult g s n s' (.ongoing current lineage (some rule))

/-- What is left of a round after a change leaves the node in its place alone or removes it. -/
lemma RoundResult.of_rest {s₁ : PassState} {current : NodeId} {lineage : UInt32} {rule : String}
    {e : RoundEnd} (hend : e = .settled .removed ∨
      (e = .ongoing current lineage (some rule) ∧ s₁.tree.Kept s'.tree))
    (hripe : g.ripe s.tree n = true) (hdone : g.ripe s'.tree current = false)
    (hplace : current = n ∨ s.tree.size ≤ current) (ht₁ : s₁.tree.WellLinked)
    (hattached : s₁.tree.Reaches s₁.tree.root current) : RoundResult g s n s' e := by
  rcases hend with rfl | ⟨rfl, hkept⟩
  · exact .removed
  · exact .changed hripe hdone hplace (hkept.attached ht₁ hattached)

/-- A node changes at most once in a round. -/
lemma round_tame (hrules : ∀ r ∈ rules, r.Tame g σ.oracle)
    (hroom : ∀ r ∈ rules, r.Replaces σ.oracle → 1 ≤ replacementLimit σ) (h : Good s)
    (hn : s.tree.Reaches s.tree.root n) :
    ∃ e s', (∀ v, round σ v rules n 0 none s = .ok e s') ∧ Good s' ∧ Later g s s' ∧
      s'.revisits = s.revisits ∧ s.tree.Frame n s'.tree ∧
      (s'.tree.size = s.tree.size ∨ g.ripe s.tree n = true) ∧ RoundResult g s n s' e := by
  induction rules generalizing s with
  | nil =>
    exact ⟨_, s, fun _ => rfl, h, Later.refl g s, rfl, (Tree.Kept.refl _).frame n, Or.inl rfl,
      .same (Tree.Kept.refl _)⟩
  | cons r rules ih =>
    have ht : s.tree.WellLinked := h.sound.linked
    have hrest : ∀ q ∈ rules, q.Tame g σ.oracle := fun q hq => hrules q (List.mem_cons_of_mem r hq)
    have hroom' : ∀ q ∈ rules, q.Replaces σ.oracle → 1 ≤ replacementLimit σ :=
      fun q hq => hroom q (List.mem_cons_of_mem r hq)
    cases hacc : accepts s.tree r n with
    | false =>
      obtain ⟨e, s', hok, hspec⟩ := ih hrest hroom' h hn
      exact ⟨e, s', fun v => round_cons_eq_ok_iff.mpr (Or.inl ⟨hacc, hok v⟩), hspec⟩
    | true =>
      obtain ⟨o, s₁, hoffer, hstays, hconduct⟩ := offer_tame (hrules r List.mem_cons_self) h hn hacc
      have hround : ∀ {e s'}, (∀ v, afterOffer σ v r rules n 0 none o s₁ = .ok e s') →
          ∀ v, round σ v (r :: rules) n 0 none s = .ok e s' :=
        fun hok v => round_cons_eq_ok_iff.mpr (Or.inr ⟨hacc, o, s₁, hoffer, hok v⟩)
      cases hconduct with
      | idle hkept hsize =>
        obtain ⟨e, s', hok, hgood, hlater, hrev, hframe, hsize', hresult⟩ :=
          ih hrest hroom' hstays.good (hkept.attached ht hn)
        refine ⟨e, s', hround hok, hgood, hstays.later.trans hlater, hrev.trans hstays.revisits,
          (hkept.frame n).trans ht (Or.inl rfl) hframe, ?_, ?_⟩
        · exact hsize'.imp (·.trans hsize) (hstays.ripe n)
        · cases hresult with
          | removed => exact .removed
          | same hkept' => exact .same (hkept.trans hkept')
          | changed hripe hdone hplace hattached =>
            exact .changed (hstays.ripe n hripe) hdone (hsize ▸ hplace) hattached
      | mutated hripe hdone hframe hplace =>
        -- the rest of the round finds a node that is ripe no more
        have hn₁ := hframe.attached ht hn hplace
        obtain ⟨e, s', hok, hstays', hframe', hsize', hend⟩ :=
          round_unripe hrest hstays.good hn₁ hdone 0 (some r.id)
        refine ⟨e, s', hround hok, hstays'.good, hstays.later.trans hstays'.later,
          hstays'.revisits.trans hstays.revisits, hframe.trans ht (Or.inl rfl) hframe',
          Or.inr hripe, ?_⟩
        exact .of_rest hend hripe (hstays'.unripe hdone) (Or.inl rfl) hstays.good.sound.linked hn₁
      | replaced hripe hdone hframe hnew hattached =>
        next new =>
        have hgood₂ : Good ((s₁.mark n .visited).mark new .visiting) :=
          (hstays.good.mark n (by simp)).mark new (by simp)
        have hlater₂ : Later g s₁ ((s₁.mark n .visited).mark new .visiting) :=
          (later_mark g s₁ n (by simp)).trans (later_mark g _ new (by simp))
        obtain ⟨e, s', hok, hstays', hframe', hsize', hend⟩ :=
          round_unripe hrest hgood₂ hattached hdone (0 + 1) (some r.id)
        have hlimit : 0 + 1 ≤ replacementLimit σ :=
          hroom r List.mem_cons_self (replaces_of_offer hacc hoffer)
        have hafter : ∀ v, afterOffer σ v r rules n 0 none (.replaced new) s₁ = .ok e s' :=
          fun v => afterReplaced_eq_ok_iff.mpr ⟨hlimit, hok v⟩
        refine ⟨e, s', hround hafter, hstays'.good,
          (hstays.later.trans hlater₂).trans hstays'.later, hstays'.revisits.trans hstays.revisits,
          hframe.trans ht (Or.inr hnew) hframe', Or.inr hripe, ?_⟩
        exact .of_rest hend hripe (hstays'.unripe hdone) (Or.inr hnew) hgood₂.sound.linked hattached
      | removed hkept hsize hplace =>
        obtain ⟨s', hok, hstays', hframe, hsize'⟩ :=
          afterRemoved_tame h hn hstays hkept hsize hplace r.id
        exact ⟨_, s', hround fun _ => hok, hstays'.good, hstays'.later, hstays'.revisits, hframe,
          Or.inl hsize', .removed⟩

/-- Counting that a node is offered again, the first time. -/
lemma countRevisit_tame (hbound : 1 ≤ σ.revisitBound) (h : Good s) (hn : s.stateOf n ≠ .pending)
    (hfirst : s.revisitsOf n .pre = 0) (rule : String) :
    ∃ s', countRevisit σ .pre n rule s = .ok () s' ∧ Good s' ∧ Later g s s' ∧
      s'.tree = s.tree := by
  have hone : s.revisitsOf n .pre + 1 ≤ σ.revisitBound := by
    rw [hfirst]
    exact hbound
  refine ⟨_, countRevisit_eq_ok_iff.mpr ⟨hone, rfl⟩, ⟨h.sound, ?_, h.clean⟩,
    ⟨fun _ hm => hm, fun _ hm => hm⟩, rfl⟩
  · intro m order hm
    have hne : ((m, order) == (n, .pre)) = false := by
      refine beq_false_of_ne fun heq => hn ?_
      rw [← (Prod.mk.inj heq).1]
      exact hm
    rw [PassState.revisitsOf, List.lookup_cons, hne]
    exact h.fresh m order hm

/-- The count is only taken when the node is still the same. -/
lemma recount_tame (hbound : 1 ≤ σ.revisitBound) (h : Good s) (hn : s.stateOf n ≠ .pending)
    (hfirst : s.revisitsOf n .pre = 0) (current : NodeId) (rule : String) :
    ∃ s', recount σ .pre n current rule s = .ok () s' ∧ Good s' ∧ Later g s s' ∧
      s'.tree = s.tree := by
  rw [recount]
  by_cases hc : current = n
  · subst hc
    rw [if_pos rfl]
    exact countRevisit_tame hbound h hn hfirst rule
  · rw [if_neg hc]
    exact ⟨s, rfl, h, Later.refl g s, rfl⟩

/-- The rounds over a node end after the second at the latest. -/
lemma roundsFrom_tame (hrules : ∀ r ∈ σ.rules, r.Tame g σ.oracle)
    (hroom : ∀ r ∈ σ.rules, r.Replaces σ.oracle → 1 ≤ replacementLimit σ)
    (hbound : 1 ≤ σ.revisitBound) (h : Good s) (hn : s.tree.Reaches s.tree.root n)
    (hstate : s.stateOf n ≠ .pending) (hfirst : s.revisitsOf n .pre = 0) :
    ∃ place s', (∀ v k, roundsFrom σ v .pre (k + 2) n 0 s = .ok place s') ∧ Good s' ∧
      Later g s s' ∧ s.tree.Frame n s'.tree ∧
      (s'.tree.size = s.tree.size ∨ g.ripe s.tree n = true) ∧
      (place = .removed ∨ ∃ current, place = .node current ∧
        s'.tree.Reaches s'.tree.root current ∧ (current = n ∨ s.tree.size ≤ current)) := by
  have hpre : ∀ r ∈ σ.rules.filter (·.order = .pre), r.Tame g σ.oracle :=
    fun r hr => hrules r (List.mem_of_mem_filter hr)
  have hroom' : ∀ r ∈ σ.rules.filter (·.order = .pre), r.Replaces σ.oracle →
      1 ≤ replacementLimit σ := fun r hr => hroom r (List.mem_of_mem_filter hr)
  obtain ⟨e, s₁, hround, hgood, hlater, hrev, hframe, hsize, hresult⟩ :=
    round_tame hpre hroom' h hn
  cases hresult with
  | removed =>
    refine ⟨_, s₁, fun v k => ?_, hgood, hlater, hframe, hsize, Or.inl rfl⟩
    exact roundsFrom_succ_eq_ok_iff.mpr ⟨_, s₁, hround v, rfl, rfl⟩
  | same hkept =>
    refine ⟨_, s₁, fun v k => ?_, hgood, hlater, hframe, hsize,
      Or.inr ⟨n, rfl, hkept.attached h.sound.linked hn, Or.inl rfl⟩⟩
    exact roundsFrom_succ_eq_ok_iff.mpr ⟨_, s₁, hround v, rfl, rfl⟩
  | changed hripe hdone hplace hattached =>
    next current lineage rule =>
    have hfirst₁ : s₁.revisitsOf n .pre = 0 := by rwa [PassState.revisitsOf, hrev]
    obtain ⟨s₂, hcount, hgood₂, hlater₂, htree⟩ :=
      recount_tame hbound hgood (fun hp => hstate (hlater.pending n hp)) hfirst₁ current rule
    rw [← htree] at hdone hattached hframe
    obtain ⟨e', s', hround', hstays', hframe', hsize', hend⟩ :=
      round_unripe hpre hgood₂ hattached hdone lineage none
    have hframe'' : s.tree.Frame n s'.tree := hframe.trans h.sound.linked hplace hframe'
    have hlater' : Later g s s' := (hlater.trans hlater₂).trans hstays'.later
    rcases hend with rfl | ⟨rfl, hkept'⟩
    · refine ⟨_, s', fun v k => roundsFrom_succ_eq_ok_iff.mpr ⟨_, s₁, hround v, s₂, hcount, ?_⟩,
        hstays'.good, hlater', hframe'', Or.inr hripe, Or.inl rfl⟩
      exact roundsFrom_succ_eq_ok_iff.mpr ⟨_, s', hround' v, rfl, rfl⟩
    · refine ⟨_, s', fun v k => roundsFrom_succ_eq_ok_iff.mpr ⟨_, s₁, hround v, s₂, hcount, ?_⟩,
        hstays'.good, hlater', hframe'', Or.inr hripe,
        Or.inr ⟨current, rfl, hkept'.attached hgood₂.sound.linked hattached, hplace⟩⟩
      exact roundsFrom_succ_eq_ok_iff.mpr ⟨_, s', hround' v, rfl, rfl⟩

/-- No rule is offered a node on the way up. -/
lemma rounds_post (hrules : ∀ r ∈ σ.rules, r.Tame g σ.oracle) (hdepth : 0 < σ.depth)
    (v : NodeId → UInt32 → PassM Nat) (lineage : UInt32) (s : PassState) :
    rounds σ v .post n lineage s = .ok (.node n) s :=
  rounds_of_no_rules hdepth (fun r hr => by simp [(hrules r hr).1]) v n lineage s

/-! ### What is left to do -/

/-- The allocated nodes that are pending. -/
def pendingNodes (s : PassState) : Finset NodeId :=
  (Finset.range s.tree.size).filter (s.stateOf · = .pending)

/-- How much is left to do: the pending nodes that are ripe, and then all that are pending. -/
def load (g : Gauge) (s : PassState) : ℕ ×ₗ ℕ :=
  toLex (((pendingNodes s).filter (g.ripe s.tree · = true)).card, (pendingNodes s).card)

lemma mem_pendingNodes {m : NodeId} :
    m ∈ pendingNodes s ↔ m < s.tree.size ∧ s.stateOf m = .pending := by
  rw [pendingNodes, Finset.mem_filter, Finset.mem_range]

lemma Later.ripe_subset (h : Later g s s') :
    (pendingNodes s').filter (g.ripe s'.tree · = true) ⊆
      (pendingNodes s).filter (g.ripe s.tree · = true) := by
  intro m hm
  rw [Finset.mem_filter, mem_pendingNodes] at hm ⊢
  have hripe : g.ripe s.tree m = true := h.ripe m hm.2
  exact ⟨⟨s.tree.lt_size_of_isLive (g.live _ _ hripe), h.pending m hm.1.2⟩, hripe⟩

lemma Later.pending_subset (h : Later g s s') (hsize : s'.tree.size = s.tree.size) :
    pendingNodes s' ⊆ pendingNodes s := by
  intro m hm
  rw [mem_pendingNodes] at hm ⊢
  exact ⟨hsize ▸ hm.1, h.pending m hm.2⟩

/-- Nothing new was allocated. -/
lemma Later.load_le (h : Later g s s') (hsize : s'.tree.size = s.tree.size) :
    load g s' ≤ load g s := by
  rw [load, load, Prod.Lex.toLex_le_toLex']
  exact ⟨Finset.card_le_card h.ripe_subset,
    fun _ => Finset.card_le_card (h.pending_subset hsize)⟩

/-- A pending node has been dealt with, and something new was allocated only if it was ripe. -/
lemma Later.load_lt (h : Later g s s') (hn : s.stateOf n = .pending)
    (hlive : s.tree.isLive n = true) (hn' : s'.stateOf n ≠ .pending)
    (hsize : s'.tree.size = s.tree.size ∨ g.ripe s.tree n = true) : load g s' < load g s := by
  have hmem : n ∈ pendingNodes s := mem_pendingNodes.mpr ⟨s.tree.lt_size_of_isLive hlive, hn⟩
  have hnot : n ∉ pendingNodes s' := fun hm => hn' (mem_pendingNodes.mp hm).2
  rw [load, load, Prod.Lex.toLex_lt_toLex']
  rcases hsize with hsize | hripe
  · have hlt : (pendingNodes s').card < (pendingNodes s).card :=
      Finset.card_lt_card (Finset.ssubset_iff_subset_ne.mpr
        ⟨h.pending_subset hsize, fun he => hnot (he ▸ hmem)⟩)
    exact ⟨Finset.card_le_card h.ripe_subset, fun _ => hlt⟩
  · have hlt : ((pendingNodes s').filter (g.ripe s'.tree · = true)).card <
        ((pendingNodes s).filter (g.ripe s.tree · = true)).card := by
      refine Finset.card_lt_card (Finset.ssubset_iff_subset_ne.mpr ⟨h.ripe_subset, fun he => ?_⟩)
      have hin : n ∈ (pendingNodes s).filter (g.ripe s.tree · = true) :=
        Finset.mem_filter.mpr ⟨hmem, hripe⟩
      rw [← he] at hin
      exact hnot (Finset.mem_filter.mp hin).1
    exact ⟨Nat.le_of_lt hlt, fun he => absurd he (Nat.ne_of_lt hlt)⟩

/-! ### Visits -/

/-- A visit of `n`, with enough depth. -/
structure Visited (g : Gauge) (s : PassState) (n : NodeId) (count : Nat) (s' : PassState) :
    Prop where
  good : Good s'
  later : Later g s s'
  frame : s.tree.Frame n s'.tree
  load_lt : s.stateOf n = .pending → load g s' < load g s
  same : s.stateOf n ≠ .pending → count = 1 ∧ s' = s

/-- From some depth on visits of nodes below the load `L` succeed, and the depth makes no
difference, as long as two rounds are allowed. -/
def SettlesBelow (g : Gauge) (σ : PassSetting) (L : ℕ ×ₗ ℕ) : Prop :=
  ∀ s n, load g s < L → Good s → s.tree.Reaches s.tree.root n →
    ∃ count s', (∃ N, ∀ k ≥ N, ∀ d ≥ 2, visit (withDepth σ d) k n 0 s = .ok count s') ∧
      Visited g s n count s'

/-- The children of a node are visited one after the other until none is left. -/
lemma walk_tame {L : ℕ ×ₗ ℕ} (hvisit : SettlesBelow g σ L) (h : Good s) (hload : load g s < L)
    (hn : s.tree.Reaches s.tree.root n) (i : Nat) :
    ∃ s', (∃ N, ∀ k ≥ N, ∀ j ≥ N, ∀ d ≥ 2,
        walk (visit (withDepth σ d) k · 0) n j i s = .ok () s') ∧ Good s' ∧
      Later g s s' ∧ s.tree.Frame n s'.tree ∧ load g s' ≤ load g s := by
  -- a visit of a pending child lowers the load, any other one only moves on
  induction hl : load g s using WellFoundedLT.induction generalizing s i with
  | _ l ih =>
    have ht : s.tree.WellLinked := h.sound.linked
    induction hd : (s.tree.children n).length - i generalizing i with
    | zero =>
      have hnone : s.tree.child? n i = none :=
        List.getElem?_eq_none_iff.mpr (Nat.sub_eq_zero_iff_le.mp hd)
      refine ⟨s, ⟨1, fun k _ j hj d _ => ?_⟩, h, Later.refl g s, (Tree.Kept.refl _).frame n, hl.le⟩
      obtain ⟨j, rfl⟩ := Nat.exists_eq_add_of_le' hj
      exact walk_succ_eq_ok_iff.mpr (Or.inl ⟨hnone, rfl⟩)
    | succ d ihd =>
      have hi : i < (s.tree.children n).length := by omega
      obtain ⟨c, hc⟩ : ∃ c, s.tree.child? n i = some c := ⟨_, List.getElem?_eq_getElem hi⟩
      have hlink : s.tree.Link n c := ht.link_of_child? hc
      obtain ⟨count, s₁, ⟨N₁, hok₁⟩, hvisited⟩ :=
        hvisit s c hload h (hn.trans hlink.reaches)
      have hframe₁ : s.tree.Frame n s₁.tree := hvisited.frame.mono hlink.reaches
      have hrest : ∀ s' N₂, (∀ k ≥ N₂, ∀ j ≥ N₂, ∀ d ≥ 2,
          walk (visit (withDepth σ d) k · 0) n j (i + count) s₁ = .ok () s') →
          ∃ N, ∀ k ≥ N, ∀ j ≥ N, ∀ d ≥ 2,
            walk (visit (withDepth σ d) k · 0) n j i s = .ok () s' := by
        intro s' N₂ hok₂
        refine ⟨max N₁ N₂ + 1, fun k hk j hj d hd => ?_⟩
        obtain ⟨j, rfl⟩ := Nat.exists_eq_add_of_le' (Nat.le_trans (Nat.le_add_left 1 _) hj)
        exact walk_succ_eq_ok_iff.mpr (Or.inr ⟨c, hc, hlink, count, s₁, hok₁ k (by omega) d hd,
          hok₂ k (by omega) j (by omega) d hd⟩)
      by_cases hpending : s.stateOf c = .pending
      · have hlt : load g s₁ < load g s := hvisited.load_lt hpending
        have hn₁ : s₁.tree.Reaches s₁.tree.root n := by
          rw [hvisited.frame.root]
          exact (hvisited.frame.reaches_same ht (ht.lt_size_of_reaches hn)
            (ht.not_reaches_of_link hlink)).mpr hn
        obtain ⟨s', ⟨N₂, hok₂⟩, hgood, hlater, hframe, hle⟩ :=
          ih _ (hl ▸ hlt) hvisited.good (hlt.trans hload) hn₁ (i + count) rfl
        exact ⟨s', hrest s' N₂ hok₂, hgood, hvisited.later.trans hlater,
          hframe₁.trans ht (Or.inl rfl) hframe, hle.trans (hl ▸ hlt.le)⟩
      · obtain ⟨rfl, rfl⟩ := hvisited.same hpending
        obtain ⟨s', ⟨N₂, hok₂⟩, hspec⟩ := ihd (i + 1) (by omega)
        exact ⟨s', hrest s' N₂ hok₂, hspec⟩

/-- With enough depth every visit succeeds. -/
lemma visit_tame (hrules : ∀ r ∈ σ.rules, r.Tame g σ.oracle)
    (hroom : ∀ r ∈ σ.rules, r.Replaces σ.oracle → 1 ≤ replacementLimit σ)
    (hbound : 1 ≤ σ.revisitBound) (L : ℕ ×ₗ ℕ) : SettlesBelow g σ L := by
  induction L using WellFoundedLT.induction with
  | _ L ih =>
    intro s n hload h hn
    have ht : s.tree.WellLinked := h.sound.linked
    have hlive : s.tree.isLive n = true := ht.isLive_of_attached hn
    by_cases hpending : s.stateOf n = .pending
    · have hgood₀ : Good (s.enter n) := by
        refine ⟨h.sound, (h.mark n (by simp)).fresh, fun e he => ?_⟩
        rcases List.mem_cons.mp he with rfl | he
        · rfl
        · exact h.clean e he
      have hlater₀ : Later g s (s.enter n) :=
        ⟨(later_mark g s n (v := .visiting) (by simp)).pending, fun _ hm => hm⟩
      have hstate₀ : (s.enter n).stateOf n ≠ .pending := by
        rw [PassState.stateOf_enter, if_pos rfl]
        simp
      obtain ⟨place, s₁, hfrom, hgood₁, hlater₁, hframe₁, hsize₁, hplace⟩ :=
        roundsFrom_tame hrules hroom hbound hgood₀ hn hstate₀ (h.fresh n .pre hpending)
      have hrounds : ∀ v, ∀ d ≥ 2,
          rounds (withDepth σ d) v .pre n 0 (s.enter n) = .ok place s₁ := by
        intro v d hd
        obtain ⟨k, rfl⟩ := Nat.exists_eq_add_of_le' hd
        rw [rounds_withDepth, hfrom]
      have hlater : Later g s s₁ := hlater₀.trans hlater₁
      have hlt : load g s₁ < load g s :=
        hlater.load_lt hpending hlive (fun hp => hstate₀ (hlater₁.pending n hp)) hsize₁
      rcases hplace with rfl | ⟨current, rfl, hcurrent, hfresh⟩
      · refine ⟨0, s₁.mark n .visited, ⟨1, fun k hk d hd => ?_⟩, hgood₁.mark n (by simp),
          hlater.trans (later_mark g s₁ n (by simp)), hframe₁, fun _ => ?_,
          fun hne => absurd hpending hne⟩
        · obtain ⟨k, rfl⟩ := Nat.exists_eq_add_of_le' hk
          exact visit_succ_eq_ok_iff.mpr (Or.inr ⟨⟨hpending, hlive⟩, .removed, s₁,
            hrounds _ d hd, rfl⟩)
        · exact lt_of_le_of_lt ((later_mark g s₁ n (by simp)).load_le rfl) hlt
      · have hlater₁' := later_mark g s₁ current (v := .visiting) (by simp)
        have hload₁ : load g (s₁.mark current .visiting) < load g s :=
          lt_of_le_of_lt (hlater₁'.load_le rfl) hlt
        obtain ⟨s₂, ⟨N, hwalk⟩, hgood₂, hlater₂, hframe₂, hle₂⟩ :=
          walk_tame (ih (load g s) hload) (hgood₁.mark current (by simp)) hload₁ hcurrent 0
        have hmarks : Later g s₂ ((s₂.mark n .visited).mark current .visited) :=
          (later_mark g s₂ n (by simp)).trans (later_mark g _ current (by simp))
        refine ⟨1, (s₂.mark n .visited).mark current .visited, ⟨N + 1, fun k hk d hd => ?_⟩,
          (hgood₂.mark n (by simp)).mark current (by simp),
          ((hlater.trans hlater₁').trans hlater₂).trans hmarks,
          hframe₁.trans ht hfresh hframe₂, fun _ => ?_, fun hne => absurd hpending hne⟩
        · obtain ⟨k, rfl⟩ := Nat.exists_eq_add_of_le' (Nat.le_trans (Nat.le_add_left 1 N) hk)
          refine visit_succ_eq_ok_iff.mpr (Or.inr ⟨⟨hpending, hlive⟩, .node current, s₁,
            hrounds _ d hd, leave_node_eq_ok_iff.mpr ?_⟩)
          exact ⟨s₂, .node current, s₂, hwalk k (by omega) k (by omega) d hd,
            rounds_post (σ := withDepth σ d) hrules (Nat.lt_of_lt_of_le Nat.zero_lt_two hd) _ _ _,
            rfl, rfl⟩
        · exact lt_of_le_of_lt (hmarks.load_le rfl) (lt_of_le_of_lt hle₂ hload₁)
    · refine ⟨1, s, ⟨1, fun k hk d _ => ?_⟩, h, Later.refl g s, (Tree.Kept.refl _).frame n,
        fun hp => absurd hp hpending, fun _ => ⟨rfl, rfl⟩⟩
      obtain ⟨k, rfl⟩ := Nat.exists_eq_add_of_le' hk
      exact visit_succ_eq_ok_iff.mpr (Or.inl ⟨Or.inl hpending, rfl, rfl⟩)

/-! ### Whole passes -/

/-- From some depth on a pass succeeds without failed offers, and the depth makes no difference. -/
lemma run_tame (hrules : ∀ r ∈ σ.rules, r.Tame g σ.oracle)
    (hroom : ∀ r ∈ σ.rules, r.Replaces σ.oracle → 1 ≤ replacementLimit σ)
    (hbound : 1 ≤ σ.revisitBound) {w : Workspace} (h : w.tree.Sound) :
    ∃ stats w', (∃ N, ∀ d ≥ N, run (withDepth σ d) w = .ok stats w') ∧ stats.recovered = 0 ∧
      w'.tree.Sound := by
  have hgood : Good { tree := w.tree, files := w.files } :=
    ⟨h, fun _ _ _ => rfl, fun e he => absurd he List.not_mem_nil⟩
  obtain ⟨L, hL⟩ : ∃ L : ℕ ×ₗ ℕ, load g { tree := w.tree, files := w.files } < L :=
    ⟨toLex (_ + 1, 0), Prod.Lex.toLex_lt_toLex.mpr (Or.inl (Nat.lt_succ_self _))⟩
  obtain ⟨count, s, ⟨N, hvisit⟩, hvisited⟩ :=
    visit_tame hrules hroom hbound L _ w.tree.root hL hgood (Tree.Reaches.refl _)
  refine ⟨.ofLog s.log, s.toWorkspace, ⟨max N 2, fun d hd => ?_⟩, ?_, hvisited.good.sound⟩
  · have hroot : visitRoot (withDepth σ d) { tree := w.tree, files := w.files } = .ok count s := by
      exact hvisit d (le_of_max_le_left hd) d (le_of_max_le_right hd)
    rw [run, hroot]
  · refine List.countP_eq_zero.mpr fun e he => ?_
    rw [hvisited.good.clean e he]
    exact Bool.false_ne_true

end Pass

end CodeMigration
