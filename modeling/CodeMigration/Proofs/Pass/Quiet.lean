import CodeMigration.Proofs.Document.Outline
import CodeMigration.Proofs.Pass.Steps
import Mathlib.Data.Set.Card

/-!
# Quiet passes

A pass whose log holds no change has left every slot alone, and has taken every attached node once
to every rule that accepts it. The walk is followed by `Tour`: which nodes a piece of the log
entered, and to which rules it took them.
-/

namespace CodeMigration

/-- The workspace after an action, whether it succeeded or not. -/
def Action.after {α : Type} (m : Action α) (w : Workspace) : Workspace :=
  match m w with
  | .ok _ w' => w'
  | .error _ w' => w'

namespace Rule

/-- Every application works on the tree by plain commands. -/
def ActsByCommands (r : Rule) : Prop :=
  ∀ oracle pass node (w : Workspace), w.tree.Edited ((r.apply oracle pass node).after w).tree

/-- No application touches the position or the formatting data of a node it does not discard. -/
def KeepsExtras (r : Rule) : Prop :=
  ∀ oracle pass node (w : Workspace) n, w.tree.isLive n = true →
    ((r.apply oracle pass node).after w).tree.isLive n = true →
    ((r.apply oracle pass node).after w).tree.extras n = w.tree.extras n

end Rule

namespace Event

/-- The node whose visit began. -/
def entry? : Event → Option NodeId
  | .entered node => some node
  | _ => none

/-- The rule and the order of an offer of the given node, undone or not. -/
def offerOf? (n : NodeId) : Event → Option (String × VisitOrder)
  | .offered rule order node _ | .abandoned rule order node _ =>
    if node = n then some (rule, order) else none
  | .entered _ => none

end Event

namespace Pass

/-- What happened in a pass, the first event first. -/
def trace (σ : PassSetting) (w : Workspace) : List Event :=
  match visitRoot σ { tree := w.tree, files := w.files } with
  | .ok _ s | .error _ s => s.log.reverse

/-- The rules that are to be offered a node of the tree, in the order of the offers. -/
def due (σ : PassSetting) (t : Tree) (n : NodeId) : List (String × VisitOrder) :=
  (((σ.rules.filter (·.order = .pre)) ++ (σ.rules.filter (·.order = .post))).filter
    (accepts t · n)).map fun r => (r.id, r.order)

/-- Nothing was changed. -/
def Quiet (log : List Event) : Prop := ∀ e ∈ log, e.isMutation = false

lemma Quiet.suffix {log log' : List Event} (h : Quiet log') (hs : log <:+ log') : Quiet log :=
  fun e he => h e (hs.subset he)

lemma Quiet.cons {log : List Event} (h : Quiet log) {e : Event} (he : e.isMutation = false) :
    Quiet (e :: log) := by
  intro e' he'
  rcases List.mem_cons.mp he' with rfl | he'
  · exact he
  · exact h e' he'

variable {σ : PassSetting} {t : Tree} {s s' : PassState} {node : NodeId}

/-- The state of a pass that has changed nothing since it found the tree `t`. -/
structure Calm (σ : PassSetting) (t : Tree) (s : PassState) : Prop where
  sound : s.tree.Sound
  kept : t.Kept s.tree
  extras : (∀ r ∈ σ.rules, r.KeepsExtras) → ∀ n, t.isLive n = true →
    s.tree.extras n = t.extras n

lemma Calm.of_tree (h : Calm σ t s) (ht : s'.tree = s.tree) : Calm σ t s' := by
  obtain ⟨hsound, hkept, hextras⟩ := h
  rw [← ht] at hsound hkept hextras
  exact ⟨hsound, hkept, hextras⟩

/-! ### Offers -/

section offers

variable (hrules : ∀ r ∈ σ.rules, r.ActsByCommands)
include hrules

lemma Calm.commit (h : Calm σ t s) {r : Rule} (hr : r ∈ σ.rules) {w : Workspace}
    (hw : (r.apply σ.oracle σ.pass node).after ⟨s.tree.checkpoint, s.files⟩ = w)
    (hrev : w.tree.revision = s.tree.revision) (hs' : s'.tree = w.tree.commit) : Calm σ t s' := by
  have hedited : s.tree.checkpoint.Edited w.tree := by
    rw [← hw]
    exact hrules r hr σ.oracle σ.pass node _
  have hkept : s.tree.checkpoint.Kept w.tree :=
    (hedited.counted h.sound.checkpoint.linked).2 hrev
  refine ⟨?_, ?_, fun hkeep n hn => ?_⟩
  · rw [hs']
    exact (h.sound.checkpoint.edited hedited).commit
  · rw [hs']
    exact ((h.kept.trans s.tree.kept_checkpoint).trans hkept).trans w.tree.kept_commit
  · have hlt : n < s.tree.size := Nat.lt_of_lt_of_le (t.lt_size_of_isLive hn) h.kept.size_le
    have hlive : s.tree.checkpoint.isLive n = true :=
      (h.kept.isLive (t.lt_size_of_isLive hn)).trans hn
    have hspared := hkeep r hr σ.oracle σ.pass node ⟨s.tree.checkpoint, s.files⟩ n hlive
    rw [hw] at hspared
    rw [hs', ← h.extras hkeep n hn]
    exact hspared ((hkept.isLive hlt).trans hlive)

lemma Calm.rollback (h : Calm σ t s) {r : Rule} (hr : r ∈ σ.rules) {w : Workspace}
    (hw : (r.apply σ.oracle σ.pass node).after ⟨s.tree.checkpoint, s.files⟩ = w)
    (hs' : s'.tree = w.tree.rollback) : Calm σ t s' := by
  have hedited : s.tree.checkpoint.Edited w.tree := by
    rw [← hw]
    exact hrules r hr σ.oracle σ.pass node _
  rw [h.sound.rollback_edited hedited] at hs'
  refine ⟨?_, ?_, fun hkeep n hn => ?_⟩
  · rw [hs']
    exact h.sound.commit
  · rw [hs']
    exact h.kept.trans s.tree.kept_commit
  · rw [hs', ← h.extras hkeep n hn]
    rfl

/-- An offer in a quiet pass reports that nothing was changed, and nothing was. -/
lemma offer_quiet (h : Calm σ t s) {r : Rule} (hr : r ∈ σ.rules) {o : Outcome}
    (hok : offer σ r node s = .ok o s') (hquiet : Quiet s'.log) :
    o = .unchanged ∧ Calm σ t s' ∧ s'.states = s.states ∧
      ∃ e, s'.log = e :: s.log ∧ e.entry? = none ∧
        ∀ n, e.offerOf? n = if node = n then some (r.id, r.order) else none := by
  rcases offer_eq_ok_iff.mp hok with ⟨o₀, w, happ, hjudge, rfl⟩ | ⟨e, w, happ, _, rfl, rfl⟩
  · have hsame : o = .unchanged := by
      have hevent := hquiet _ List.mem_cons_self
      simpa [Event.isMutation, Outcome.isChange] using hevent
    subst hsame
    have hw : (r.apply σ.oracle σ.pass node).after ⟨s.tree.checkpoint, s.files⟩ = w := by
      rw [Action.after, happ]
    obtain ⟨_, hrev⟩ := judge_unchanged_iff.mp hjudge
    exact ⟨rfl, h.commit hrules hr hw hrev rfl, rfl, _, rfl, rfl, fun _ => rfl⟩
  · have hw : (r.apply σ.oracle σ.pass node).after ⟨s.tree.checkpoint, s.files⟩ = w := by
      rw [Action.after, happ]
    exact ⟨rfl, h.rollback hrules hr hw rfl, rfl, _, rfl, rfl, fun _ => rfl⟩

end offers

/-! ### Tours -/

/-- A piece of the log that offers one node to the rules of a list that accept it. -/
structure Offers (t : Tree) (rules : List Rule) (node : NodeId) (log : List Event) : Prop where
  entries : log.filterMap Event.entry? = []
  here : log.filterMap (Event.offerOf? node) =
    (rules.filter (accepts t · node)).map fun r => (r.id, r.order)
  elsewhere : ∀ n, n ≠ node → log.filterMap (Event.offerOf? n) = []

/-- A piece of the log that enters the nodes of a set once, and takes them and no others to the
rules that are due. -/
structure Tour (σ : PassSetting) (t : Tree) (S : Set NodeId) (log : List Event) : Prop where
  nodup : (log.filterMap Event.entry?).Nodup
  mem_iff : ∀ n, n ∈ log.filterMap Event.entry? ↔ n ∈ S
  inside : ∀ n ∈ S, log.filterMap (Event.offerOf? n) = due σ t n
  outside : ∀ n ∉ S, log.filterMap (Event.offerOf? n) = []

lemma Tour.nil : Tour σ t ∅ [] :=
  ⟨List.nodup_nil, fun n => by simp, fun n hn => absurd hn (Set.notMem_empty n), fun n _ => rfl⟩

/-- One tour after another. -/
lemma Tour.append {S S' : Set NodeId} {log log' : List Event} (h : Tour σ t S log)
    (h' : Tour σ t S' log') (hdisj : ∀ n ∈ S, n ∉ S') : Tour σ t (S ∪ S') (log ++ log') := by
  refine ⟨?_, fun n => ?_, fun n hn => ?_, fun n hn => ?_⟩
  · rw [List.filterMap_append, List.nodup_append']
    refine ⟨h.nodup, h'.nodup, fun n hn hn' => ?_⟩
    exact hdisj n ((h.mem_iff n).mp hn) ((h'.mem_iff n).mp hn')
  · rw [List.filterMap_append, List.mem_append, h.mem_iff, h'.mem_iff, Set.mem_union]
  · rw [List.filterMap_append]
    rcases hn with hn | hn
    · rw [h.inside n hn, h'.outside n (hdisj n hn), List.append_nil]
    · rw [h'.inside n hn, h.outside n fun hm => hdisj n hm hn, List.nil_append]
  · rw [List.filterMap_append, h.outside n fun hm => hn (Or.inl hm),
      h'.outside n fun hm => hn (Or.inr hm), List.append_nil]

/-- The visit of a node: its entry, its offers on the way down, a tour below it, and its offers on
the way up. -/
lemma Tour.visit {S : Set NodeId} {pre log post : List Event} (h : Tour σ t S log)
    (hnode : node ∉ S) (hpre : Offers t (σ.rules.filter (·.order = .pre)) node pre)
    (hpost : Offers t (σ.rules.filter (·.order = .post)) node post) :
    Tour σ t (insert node S) (.entered node :: pre ++ log ++ post) := by
  have hentries : (.entered node :: pre ++ log ++ post).filterMap Event.entry? =
      node :: log.filterMap Event.entry? := by
    simp [Event.entry?, hpre.entries, hpost.entries]
  have hoffers : ∀ n, (.entered node :: pre ++ log ++ post).filterMap (Event.offerOf? n) =
      pre.filterMap (Event.offerOf? n) ++ log.filterMap (Event.offerOf? n) ++
        post.filterMap (Event.offerOf? n) := by
    intro n
    have hentry : (Event.entered node).offerOf? n = none := rfl
    simp [hentry]
  refine ⟨?_, fun n => ?_, fun n hn => ?_, fun n hn => ?_⟩
  · rw [hentries, List.nodup_cons, h.mem_iff]
    exact ⟨hnode, h.nodup⟩
  · rw [hentries, List.mem_cons, h.mem_iff, Set.mem_insert_iff]
  · rw [hoffers]
    rcases hn with rfl | hn
    · rw [h.outside n hnode, List.append_nil, hpre.here, hpost.here, due, List.filter_append,
        List.map_append]
    · have hne : n ≠ node := fun he => hnode (he ▸ hn)
      rw [hpre.elsewhere n hne, hpost.elsewhere n hne, h.inside n hn, List.nil_append,
        List.append_nil]
  · have hne : n ≠ node := fun he => hn (Or.inl he)
    rw [hoffers, hpre.elsewhere n hne, hpost.elsewhere n hne,
      h.outside n fun hm => hn (Or.inr hm)]
    rfl

/-! ### Rounds and visits -/

/-- The nodes of a row and everything below them. -/
def below (t : Tree) (row : List NodeId) : Set NodeId := {m | ∃ c ∈ row, t.Reaches c m}

lemma below_nil : below t [] = ∅ := by
  ext m
  simp [below]

lemma below_cons (c : NodeId) (row : List NodeId) :
    below t (c :: row) = {m | t.Reaches c m} ∪ below t row := by
  ext m
  simp [below]

lemma reaches_iff_below (ht : t.WellLinked) {n m : NodeId} :
    t.Reaches n m ↔ m = n ∨ m ∈ below t (t.children n) := by
  constructor
  · intro hm
    rcases Relation.ReflTransGen.cases_head hm with rfl | ⟨c, hc, hcm⟩
    · exact Or.inl rfl
    · exact Or.inr ⟨c, (ht.mem_children_iff n c).mpr hc, hcm⟩
  · rintro (rfl | ⟨c, hc, hcm⟩)
    · exact Tree.Reaches.refl m
    · exact ((ht.mem_children_iff n c).mp hc).reaches.trans hcm

/-- A quiet visit of a node that was pending with everything below it. -/
def QuietVisit (σ : PassSetting) (t : Tree) (n : NodeId) (m : PassM Nat) : Prop :=
  ∀ s count s', m s = .ok count s' → Quiet s'.log → Calm σ t s →
    (∀ m, t.Reaches n m → s.stateOf m = .pending) →
    count = 1 ∧ Calm σ t s' ∧ (∀ m, ¬ t.Reaches n m → s'.stateOf m = s.stateOf m) ∧
      ∃ log, s'.log = log.reverse ++ s.log ∧ Tour σ t {m | t.Reaches n m} log

section visits

variable (hrules : ∀ r ∈ σ.rules, r.ActsByCommands)
include hrules

/-- A quiet round offers the node to the rules that accept it and ends with the node. -/
lemma round_quiet {v : NodeId → UInt32 → PassM Nat} (hv : ∀ n l, Grows (v n l)) {rules : List Rule}
    (hsub : ∀ r ∈ rules, r ∈ σ.rules) (hnode : node < t.size) {lineage : UInt32} {e : RoundEnd}
    (h : Calm σ t s) (hok : round σ v rules node lineage none s = .ok e s')
    (hquiet : Quiet s'.log) :
    e = .ongoing node lineage none ∧ Calm σ t s' ∧ s'.states = s.states ∧
      ∃ log, s'.log = log.reverse ++ s.log ∧ Offers t rules node log := by
  induction rules generalizing s with
  | nil =>
    obtain ⟨rfl, rfl⟩ := EStateM.pure_eq_ok_iff.mp hok
    exact ⟨rfl, h, rfl, [], rfl, rfl, rfl, fun _ _ => rfl⟩
  | cons r rules ih =>
    have hrest : ∀ q ∈ rules, q ∈ σ.rules := fun q hq => hsub q (List.mem_cons_of_mem r hq)
    have hacc : accepts s.tree r node = accepts t r node := by
      rw [accepts, accepts, h.kept.kind? hnode]
    rcases round_cons_eq_ok_iff.mp hok with ⟨hno, hok⟩ | ⟨hyes, o, s₁, hoffer, hok⟩
    · obtain ⟨he, hcalm, hstates, log, hlog, hoffers⟩ := ih hrest h hok
      refine ⟨he, hcalm, hstates, log, hlog, hoffers.entries, ?_, hoffers.elsewhere⟩
      rw [hoffers.here, List.filter_cons_of_neg]
      rw [← hacc, hno]
      exact Bool.false_ne_true
    · have hafter : s₁.log <:+ s'.log :=
        grows_afterOffer hv (grows_round hv rules) o s₁ e s' hok
      obtain ⟨rfl, hcalm₁, hstates₁, ev, hlog₁, hentry, hof⟩ :=
        offer_quiet hrules h (hsub r List.mem_cons_self) hoffer (hquiet.suffix hafter)
      obtain ⟨he, hcalm, hstates, log, hlog, hoffers⟩ := ih hrest hcalm₁ hok
      refine ⟨he, hcalm, hstates.trans hstates₁, ev :: log, ?_, ?_, ?_, fun n hn => ?_⟩
      · rw [hlog, hlog₁, List.reverse_cons, List.append_assoc, List.singleton_append]
      · rw [List.filterMap_cons_none hentry, hoffers.entries]
      · rw [List.filterMap_cons_some ((hof node).trans (if_pos rfl)), hoffers.here,
          List.filter_cons, if_pos (hacc.symm.trans hyes), List.map_cons]
      · rw [List.filterMap_cons_none ((hof n).trans (if_neg hn.symm)), hoffers.elsewhere n hn]

lemma rounds_quiet {v : NodeId → UInt32 → PassM Nat} (hv : ∀ n l, Grows (v n l))
    {order : VisitOrder} (hnode : node < t.size) {lineage : UInt32} {place : Occupancy}
    (h : Calm σ t s) (hok : rounds σ v order node lineage s = .ok place s')
    (hquiet : Quiet s'.log) :
    place = .node node ∧ Calm σ t s' ∧ s'.states = s.states ∧
      ∃ log, s'.log = log.reverse ++ s.log ∧
        Offers t (σ.rules.filter (·.order = order)) node log := by
  obtain ⟨k, hfrom⟩ := exists_roundsFrom_succ hok
  obtain ⟨e, s₁, hround, hok⟩ := roundsFrom_succ_eq_ok_iff.mp hfrom
  have hsuffix : s₁.log <:+ s'.log := by
    cases e with
    | settled =>
      obtain ⟨_, rfl⟩ := hok
      exact List.suffix_rfl
    | ongoing current lineage last =>
      cases last with
      | none =>
        obtain ⟨_, rfl⟩ := hok
        exact List.suffix_rfl
      | some rule =>
        obtain ⟨s₂, hcount, h⟩ := hok
        exact (grows_recount _ _ _ _ s₁ () s₂ hcount).trans
          (grows_roundsFrom hv _ _ _ _ s₂ place s' h)
  obtain ⟨rfl, hcalm, hstates, hlog⟩ :=
    round_quiet hrules hv (fun r hr => List.mem_of_mem_filter hr) hnode h hround
      (hquiet.suffix hsuffix)
  obtain ⟨rfl, rfl⟩ := hok
  exact ⟨rfl, hcalm, hstates, hlog⟩

omit hrules in
/-- The children of a node from a position on are visited one after the other. -/
lemma walk_quiet (ht : t.WellLinked) {u : NodeId → PassM Nat} (hg : ∀ n, Grows (u n))
    (hu : ∀ n, t.Reaches t.root n → QuietVisit σ t n (u n)) {k i : Nat}
    (hnode : t.Reaches t.root node) (h : Calm σ t s) (hok : walk u node k i s = .ok () s')
    (hquiet : Quiet s'.log)
    (hpending : ∀ m ∈ below t ((t.children node).drop i), s.stateOf m = .pending) :
    Calm σ t s' ∧ (∀ m ∉ below t ((t.children node).drop i), s'.stateOf m = s.stateOf m) ∧
      ∃ log, s'.log = log.reverse ++ s.log ∧ Tour σ t (below t ((t.children node).drop i)) log := by
  induction k generalizing s i with
  | zero => cases hok
  | succ k ih =>
    have hlt : node < t.size := t.lt_size_of_isLive ((ht.isLive_of_reaches hnode).symm.trans
      ht.root_live)
    have hchild : s.tree.child? node i = (t.children node)[i]? := by
      rw [Tree.child?, h.kept.children hlt]
    rcases walk_succ_eq_ok_iff.mp hok with ⟨hnone, rfl⟩ | ⟨c, hc, _, count, s₁, hvisit, hok⟩
    · rw [hchild, List.getElem?_eq_none_iff] at hnone
      rw [List.drop_eq_nil_of_le hnone, below_nil]
      exact ⟨h, fun _ _ => rfl, [], rfl, Tour.nil⟩
    · rw [hchild] at hc
      have hdrop : (t.children node).drop i = c :: (t.children node).drop (i + 1) := by
        obtain ⟨hi, hget⟩ := List.getElem?_eq_some_iff.mp hc
        rw [List.drop_eq_getElem_cons hi, hget]
      rw [hdrop, below_cons] at hpending ⊢
      have hlink : t.Link node c := ht.link_of_child? hc
      have hsuffix : s₁.log <:+ s'.log := grows_walk hg node k _ s₁ () s' hok
      obtain ⟨rfl, hcalm₁, hstates₁, log₁, hlog₁, htour₁⟩ :=
        hu c (hnode.trans hlink.reaches) s count s₁ hvisit (hquiet.suffix hsuffix) h
          fun m hm => hpending m (Or.inl hm)
      -- what lies below the other children is not below this one
      have hapart : ∀ m, t.Reaches c m → m ∉ below t ((t.children node).drop (i + 1)) := by
        rintro m hcm ⟨d, hd, hdm⟩
        have hnd : (c :: (t.children node).drop (i + 1)).Nodup := by
          rw [← hdrop]
          exact (ht.nodup_children node).sublist (List.drop_sublist _ _)
        have hlink' : t.Link node d :=
          (ht.mem_children_iff node d).mp (List.mem_of_mem_drop hd)
        have heq : c = d := ht.eq_of_siblings hlink hlink' hcm hdm
        exact (List.nodup_cons.mp hnd).1 (heq ▸ hd)
      obtain ⟨hcalm, hstates, log, hlog, htour⟩ := ih hcalm₁ hok fun m hm => by
        rw [hstates₁ m fun hcm => hapart m hcm hm]
        exact hpending m (Or.inr hm)
      refine ⟨hcalm, fun m hm => ?_, log₁ ++ log, ?_, htour₁.append htour hapart⟩
      · rw [Set.mem_union, not_or] at hm
        rw [hstates m hm.2, hstates₁ m hm.1]
      · rw [hlog, hlog₁, List.reverse_append, List.append_assoc]

/-- A quiet visit takes a node and everything below it to the rules. -/
lemma visit_quiet (ht : t.WellLinked) (k : Nat) (lineage : UInt32) {n : NodeId}
    (hn : t.Reaches t.root n) : QuietVisit σ t n (visit σ k n lineage) := by
  induction k generalizing n lineage with
  | zero =>
    intro s count s' hok
    cases hok
  | succ k ih =>
    intro s count s' hok hquiet h hpending
    have hlive : t.isLive n = true := (ht.isLive_of_reaches hn).symm.trans ht.root_live
    have hlt : n < t.size := t.lt_size_of_isLive hlive
    rcases visit_succ_eq_ok_iff.mp hok with ⟨hseen, _⟩ | ⟨_, place, s₁, hpre, hok⟩
    · rcases hseen with hseen | hdead
      · exact absurd (hpending n (Tree.Reaches.refl n)) hseen
      · rw [h.kept.isLive hlt, hlive] at hdead
        cases hdead
    · have hgrows : ∀ n l, Grows (visit σ k n l) := grows_visit k
      have hsuffix : s₁.log <:+ s'.log := grows_leave hgrows n lineage place s₁ count s' hok
      have hcalm₀ : Calm σ t (s.enter n) := h.of_tree rfl
      obtain ⟨rfl, hcalm₁, hstates₁, log₁, hlog₁, hoffers₁⟩ :=
        rounds_quiet hrules hgrows hlt hcalm₀ hpre (hquiet.suffix hsuffix)
      obtain ⟨s₂, place₂, s₃, hwalk, hpost, rfl, rfl⟩ := leave_node_eq_ok_iff.mp hok
      have hstate₁ : ∀ m, m ≠ n → (s₁.mark n .visiting).stateOf m = s.stateOf m := by
        intro m hm
        have hs₁ : s₁.stateOf m = (s.enter n).stateOf m := by
          rw [PassState.stateOf, hstates₁, PassState.stateOf]
        rw [PassState.stateOf_mark, if_neg hm, hs₁, PassState.stateOf_enter, if_neg hm]
      have hsuffix₃ : s₂.log <:+ s₃.log := grows_roundsFrom hgrows _ _ _ _ s₂ place₂ s₃ hpost
      have hquiet₃ : Quiet s₃.log := hquiet
      have hnotbelow : n ∉ below t (t.children n) := by
        rintro ⟨c, hc, hcn⟩
        exact ht.not_reaches_of_link ((ht.mem_children_iff n c).mp hc) hcn
      have hcalm₁' : Calm σ t (s₁.mark n .visiting) := hcalm₁.of_tree rfl
      obtain ⟨hcalm₂, hstates₂, log₂, hlog₂, htour⟩ :=
        walk_quiet ht (fun n => hgrows n 0) (fun m hm => ih 0 hm) hn hcalm₁' hwalk
          (hquiet₃.suffix hsuffix₃) fun m hm => by
            rw [hstate₁ m fun he => hnotbelow (he ▸ hm)]
            exact hpending m ((reaches_iff_below ht).mpr (Or.inr hm))
      obtain ⟨rfl, hcalm₃, hstates₃, log₃, hlog₃, hoffers₃⟩ :=
        rounds_quiet hrules hgrows hlt hcalm₂ hpost hquiet₃
      refine ⟨rfl, hcalm₃.of_tree rfl, fun m hm => ?_, .entered n :: log₁ ++ log₂ ++ log₃, ?_, ?_⟩
      · have hmn : m ≠ n := by
          rintro rfl
          exact hm (Tree.Reaches.refl m)
        have hs₃ : s₃.stateOf m = s₂.stateOf m := by
          rw [PassState.stateOf, hstates₃, PassState.stateOf]
        rw [PassState.stateOf_mark, if_neg hmn, PassState.stateOf_mark, if_neg hmn, hs₃,
          hstates₂ m fun hb => hm ((reaches_iff_below ht).mpr (Or.inr hb)), hstate₁ m hmn]
      · show s₃.log = _
        have hmark : (s₁.mark n .visiting).log = s₁.log := rfl
        have henter : (s.enter n).log = .entered n :: s.log := rfl
        rw [hlog₃, hlog₂, hmark, hlog₁, henter]
        simp
      · have hset : {m | t.Reaches n m} = insert n (below t (t.children n)) := by
          ext m
          exact reaches_iff_below ht
        rw [hset]
        exact htour.visit hnotbelow hoffers₁ hoffers₃

end visits

/-! ### Whole passes -/

section passes

variable {w w' : Workspace} {stats : PassStats}

lemma ofLog_reverse (log : List Event) : PassStats.ofLog log.reverse = PassStats.ofLog log := by
  simp only [PassStats.ofLog, List.countP_reverse]

/-- A run that succeeds leaves its log behind. -/
lemma run_eq_ok (hrun : run σ w = .ok stats w') :
    ∃ count s, visit σ σ.depth w.tree.root 0 { tree := w.tree, files := w.files } = .ok count s ∧
      stats = .ofLog s.log ∧ w' = s.toWorkspace ∧ trace σ w = s.log.reverse := by
  have hvisit : visitRoot σ { tree := w.tree, files := w.files } =
      visit σ σ.depth w.tree.root 0 { tree := w.tree, files := w.files } := rfl
  rw [run, hvisit] at hrun
  rw [trace, hvisit]
  cases hs : visit σ σ.depth w.tree.root 0 { tree := w.tree, files := w.files } with
  | ok count s =>
    rw [hs] at hrun
    cases hrun
    exact ⟨count, s, rfl, rfl, rfl, rfl⟩
  | error e s =>
    rw [hs] at hrun
    cases hrun

lemma run_quiet (hrules : ∀ r ∈ σ.rules, r.ActsByCommands) (h : w.tree.Sound)
    (hrun : run σ w = .ok stats w') (hquiet : stats.mutations = 0) :
    (∃ s, s.tree = w'.tree ∧ Calm σ w.tree s) ∧ stats = .ofLog (trace σ w) ∧
      Tour σ w.tree {m | w.tree.Reaches w.tree.root m} (trace σ w) := by
  obtain ⟨count, s, hvisit, rfl, rfl, htrace⟩ := run_eq_ok hrun
  have hlog : Quiet s.log := by
    intro e he
    simpa using List.countP_eq_zero.mp hquiet e he
  have hcalm : Calm σ w.tree { tree := w.tree, files := w.files } :=
    ⟨h, Tree.Kept.refl _, fun _ _ _ => rfl⟩
  obtain ⟨_, hcalm', _, log, hs, htour⟩ :=
    visit_quiet hrules h.linked σ.depth 0 (Tree.Reaches.refl _) _ count s hvisit hlog hcalm
      fun _ _ => rfl
  have hlog' : trace σ w = log := by
    rw [htrace, hs]
    simp
  refine ⟨⟨s, rfl, hcalm'⟩, ?_, ?_⟩
  · rw [htrace, ofLog_reverse]
  · rw [hlog']
    exact htour

lemma Tour.visited_eq {S : Set NodeId} {log : List Event} (h : Tour σ t S log) :
    (PassStats.ofLog log).visited = S.ncard := by
  have hset : S = ((log.filterMap Event.entry?).toFinset : Set NodeId) := by
    ext n
    rw [List.coe_toFinset]
    exact (h.mem_iff n).symm
  have hentry : Event.isEntry = fun e => e.entry?.isSome := by
    funext e
    cases e <;> rfl
  rw [hset, Set.ncard_coe_finset, List.toFinset_card_of_nodup h.nodup,
    List.length_filterMap_eq_countP, PassStats.ofLog, hentry]

end passes

end Pass

end CodeMigration
