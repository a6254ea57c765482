import CodeMigration.Proofs.Pass.Revisits
import CodeMigration.Proofs.Pass.Tame

/-!
# Every pass ends

With rules that allocate nothing a pass ends, whatever they do to the tree and whatever they say
about it. A visit that begins takes a node out of those that are pending, and these cannot become
more. Between two such visits the walk over the children of a node only moves on. The rounds at one
node are limited by the counts of replacements and of repeated offers.

So a pass over an arena of `n` slots needs no more than `2 * n + 1` nested visits and steps of a
walk, and allowing more makes no difference. This is shown by following two passes that are allowed
a different number (`Concurs`).
-/

namespace CodeMigration

/-! ### Rules that allocate nothing -/

namespace Command

variable {t : Tree} {c : Command NodeId}

/-- Whether the command may allocate a node. -/
def allocates {ρ : Type} : Command ρ → Bool
  | .add _ | .addWithChildren .. => true
  | _ => false

lemma size_run (h : t.WellLinked) (hplain : c.isPlain = true) (hc : c.allocates = false) :
    (c.run t).1.size = t.size := by
  have hsettle : ∀ {reply : Reply} {m : Edit Unit}, m.Atomic →
      (∀ t', m.result t = .ok t' → t'.size = t.size) → (settle t reply m).1.size = t.size :=
    fun hm hok => settle_fst (P := fun t' => t'.size = t.size) hm rfl hok
  have hinside : ∀ {n : NodeId} {x : Tree × Except Failure Reply},
      (n < t.size → x.1.size = t.size) → (inside t n x).1.size = t.size :=
    inside_fst (P := fun t' => t'.size = t.size) rfl
  have hremoveChild : ∀ {p n t'}, t.removeChild p n = .ok t' → t'.size = t.size := by
    intro p n t' hok
    obtain ⟨_, _, rfl⟩ := (Tree.removeChild_eq_ok_iff h).mp hok
    simp
  have hreplaceChild : ∀ {p old new t'}, t.replaceChild p old new = .ok t' → t'.size = t.size := by
    intro p old new t' hok
    obtain ⟨_, _, _, rfl⟩ := (Tree.replaceChild_eq_ok_iff h).mp hok
    simp
  cases c with
  | pushChild p n =>
    refine hsettle (Edit.atomic_pushChild ..) fun t' hok => ?_
    obtain ⟨_, rfl⟩ := (Tree.pushChild_eq_ok_iff h).mp hok
    simp
  | insertChild p i n =>
    refine hsettle (Edit.atomic_insertChild ..) fun t' hok => ?_
    obtain ⟨_, _, rfl⟩ := (Tree.insertChild_eq_ok_iff h).mp hok
    simp
  | detach p n =>
    refine hsettle (Edit.atomic_detach ..) fun t' hok => ?_
    obtain ⟨_, _, rfl⟩ := (Tree.detach_eq_ok_iff h).mp hok
    simp
  | removeChild p n => exact hsettle (Edit.atomic_removeChild ..) fun t' hok => hremoveChild hok
  | remove n =>
    refine hsettle (Edit.atomic_remove ..) fun t' hok => ?_
    obtain ⟨_, ⟨p, _, hok⟩ | ⟨_, _, rfl⟩⟩ := Tree.remove_eq_ok_iff.mp hok
    · exact hremoveChild hok
    · simp
  | replaceChild p old new =>
    exact hsettle (Edit.atomic_replaceChild ..) fun t' hok => hreplaceChild hok
  | replace old new =>
    refine hsettle (Edit.atomic_replace ..) fun t' hok => ?_
    obtain ⟨_, ⟨p, _, hok⟩ | ⟨_, _, _, _, _, rfl⟩⟩ := (Tree.replace_eq_ok_iff h).mp hok
    · exact hreplaceChild hok
    · rw [Tree.size_touch, Tree.size_discard]
      rfl
  | replaceWithMany old new =>
    refine hinside fun _ => hsettle (Edit.atomic_replaceWithMany ..) fun t' hok => ?_
    obtain ⟨p, _, _, _, _, rfl⟩ := (Tree.replaceWithMany_eq_ok_iff h).mp hok
    simp
  | takeChildren n =>
    exact hinside fun _ => t.takeChildren_cases (P := fun t' => t'.size = t.size)
      (fun _ => by simp) (by simp)
  | setConstruct n k => exact hinside fun _ => Tree.size_setConstruct n k
  | setAttribute | pointAttribute | removeAttribute | clearKey | forget => rfl
  | add => cases hc
  | addWithChildren => cases hc
  | checkpoint | commit | rollback => cases hplain

end Command

/-- Every application works on the tree by plain commands that allocate nothing. -/
def Rule.WorksInPlace (r : Rule) : Prop :=
  ∀ oracle pass node (w : Workspace), ∃ cmds : List (Command NodeId),
    (∀ c ∈ cmds, c.isPlain = true ∧ c.allocates = false) ∧
      ((r.apply oracle pass node).after w).tree = Command.runAll w.tree cmds

lemma Rule.WorksInPlace.edited {r : Rule} (hr : r.WorksInPlace) (oracle : Oracle) (pass : Nat)
    (node : NodeId) {w : Workspace} (h : w.tree.WellLinked) :
    w.tree.Edited ((r.apply oracle pass node).after w).tree ∧
      ((r.apply oracle pass node).after w).tree.size = w.tree.size := by
  obtain ⟨cmds, hcmds, hrun⟩ := hr oracle pass node w
  rw [hrun]
  refine ⟨⟨cmds, fun c hc => (hcmds c hc).1, rfl⟩, ?_⟩
  clear hrun
  generalize w.tree = t at h
  induction cmds generalizing t with
  | nil => rfl
  | cons c cmds ih =>
    obtain ⟨hplain, hc⟩ := hcmds c List.mem_cons_self
    rw [Command.runAll_cons, ih (fun d hd => hcmds d (List.mem_cons_of_mem c hd)) _
      ((Tree.step_run hplain t).wellLinked h), Command.size_run h hplain hc]

/-- The children of a node are different slots. -/
lemma Tree.WellLinked.length_children_le {t : Tree} (h : t.WellLinked) (n : NodeId) :
    (t.children n).length ≤ t.size := by
  have hlt : ∀ c ∈ t.children n, c ∈ List.range t.size := by
    intro c hc
    exact List.mem_range.mpr (h.link_lt ((h.mem_children_iff n c).mp hc)).2
  simpa using (List.subperm_of_subset (h.nodup_children n) hlt).length_le

namespace Pass

variable {α β : Type} {σ : PassSetting} {s s' s'' : PassState} {node : NodeId} {lineage : UInt32}
  {order : VisitOrder}

/-! ### Two passes that do the same -/

/-- A rule has raised the fault in this workspace. -/
def Raised (σ : PassSetting) (f : Fault) (w : Workspace) : Prop :=
  ∃ r ∈ σ.rules, ∃ n w₀, r.apply σ.oracle σ.pass n w₀ = .error (.fault f) w

/-- The result is an error, a fault of a rule, or a value of which something holds. -/
inductive Fair (σ : PassSetting) (Q : α → PassState → Prop) :
    EStateM.Result Failure PassState α → Prop
  | ok {a : α} {s : PassState} (h : Q a s) : Fair σ Q (.ok a s)
  | error (e : Error) (s : PassState) : Fair σ Q (.error (.error e) s)
  | fault {f : Fault} {s : PassState} (h : Raised σ f s.toWorkspace) :
      Fair σ Q (.error (.fault f) s)

lemma Fair.imp {Q R : α → PassState → Prop} {x : EStateM.Result Failure PassState α}
    (h : Fair σ Q x) (hR : ∀ a s, x = .ok a s → Q a s → R a s) : Fair σ R x := by
  cases h with
  | ok h => exact .ok (hR _ _ rfl h)
  | error e s => exact .error e s
  | fault h => exact .fault h

/-- The two steps end in the same way, and neither of them is ever cut off. -/
def Concurs (σ : PassSetting) (m m' : PassM α) (s : PassState) (Q : α → PassState → Prop) : Prop :=
  m' s = m s ∧ Fair σ Q (m s)

namespace Concurs

variable {m m' : PassM α} {Q R : α → PassState → Prop}

lemma same (h : Fair σ Q (m s)) : Concurs σ m m s Q := ⟨rfl, h⟩

lemma congr {n n' : PassM α} (hm : m s = n s') (hm' : m' s = n' s') (h : Concurs σ n n' s' Q) :
    Concurs σ m m' s Q := by
  rw [Concurs, hm, hm']
  exact h

lemma pure {a : α} (h : Q a s) : Concurs σ (pure a : PassM α) (Pure.pure a) s Q := same (.ok h)

lemma refuse (e : Error) : Concurs σ (refuse e : PassM α) (Pass.refuse e) s Q := same (.error e s)

lemma modify {f : PassState → PassState} {Q : Unit → PassState → Prop} (h : Q () (f s)) :
    Concurs σ (modify f : PassM Unit) (modify f) s Q := same (.ok h)

lemma get_bind {f f' : PassState → PassM α} (h : Concurs σ (f s) (f' s) s Q) :
    Concurs σ (get >>= f) (get >>= f') s Q := h

lemma setState_bind {n : NodeId} {v : VisitState} {f f' : Unit → PassM α}
    (h : Concurs σ (f ()) (f' ()) (s.mark n v) Q) :
    Concurs σ (setState n v >>= f) (setState n v >>= f') s Q := h

lemma bind {f f' : α → PassM β} {R : β → PassState → Prop} (hm : Concurs σ m m' s Q)
    (hf : ∀ a s', Q a s' → Concurs σ (f a) (f' a) s' R) : Concurs σ (m >>= f) (m' >>= f') s R := by
  obtain ⟨heq, hfair⟩ := hm
  show EStateM.bind m' f' s = EStateM.bind m f s ∧ Fair σ R (EStateM.bind m f s)
  rw [EStateM.bind, EStateM.bind, heq]
  generalize m s = x at hfair
  cases hfair with
  | ok h => exact hf _ _ h
  | error e s => exact ⟨rfl, .error e s⟩
  | fault h => exact ⟨rfl, .fault h⟩

lemma mono (hm : Concurs σ m m' s Q) (hQ : ∀ a s', Q a s' → R a s') : Concurs σ m m' s R :=
  ⟨hm.1, hm.2.imp fun a s' _ => hQ a s'⟩

lemma ok (hm : Concurs σ m m' s Q) : Concurs σ m m' s fun a s' => m s = .ok a s' ∧ Q a s' :=
  ⟨hm.1, hm.2.imp fun _ _ hok hspec => ⟨hok, hspec⟩⟩

end Concurs

/-! ### What no step undoes -/

/-- The tree is sound and of the same size, and no node has become pending. -/
structure Onward (s s' : PassState) : Prop where
  sound : s'.tree.Sound
  size : s'.tree.size = s.tree.size
  pending : ∀ n, s'.stateOf n = .pending → s.stateOf n = .pending

namespace Onward

lemma refl (h : s.tree.Sound) : Onward s s := ⟨h, rfl, fun _ hn => hn⟩

lemma trans (h : Onward s s') (h' : Onward s' s'') : Onward s s'' :=
  ⟨h'.sound, h'.size.trans h.size, fun n hn => h.pending n (h'.pending n hn)⟩

lemma mark (h : Onward s s') (n : NodeId) {v : VisitState} (hv : v ≠ .pending) :
    Onward s (s'.mark n v) := by
  refine ⟨h.sound, h.size, fun m hm => h.pending m ?_⟩
  rw [PassState.stateOf_mark] at hm
  split at hm
  · exact absurd hm hv
  · exact hm

/-- A step that changes the tree only. -/
lemma of_tree (hsound : s'.tree.Sound) (hsize : s'.tree.size = s.tree.size)
    (hstates : s'.states = s.states) : Onward s s' := by
  refine ⟨hsound, hsize, fun n hn => ?_⟩
  rwa [PassState.stateOf, hstates] at hn

lemma card_le (h : Onward s s') : (pendingNodes s').card ≤ (pendingNodes s).card := by
  refine Finset.card_le_card fun n hn => ?_
  rw [mem_pendingNodes] at hn ⊢
  exact ⟨h.size ▸ hn.1, h.pending n hn.2⟩

end Onward

/-- A visit that begins takes its node out of those that are pending. -/
lemma card_enter_lt (hstate : s.stateOf node = .pending) (hlive : s.tree.isLive node = true) :
    (pendingNodes (s.enter node)).card < (pendingNodes s).card := by
  have hmem : node ∈ pendingNodes s :=
    mem_pendingNodes.mpr ⟨s.tree.lt_size_of_isLive hlive, hstate⟩
  refine Finset.card_lt_card (Finset.ssubset_iff_subset_ne.mpr ⟨fun n hn => ?_, fun heq => ?_⟩)
  · obtain ⟨hlt, hn⟩ := mem_pendingNodes.mp hn
    rw [PassState.stateOf_enter] at hn
    split at hn
    · cases hn
    · exact mem_pendingNodes.mpr ⟨hlt, hn⟩
  · rw [← heq, mem_pendingNodes, PassState.stateOf_enter, if_pos rfl] at hmem
    cases hmem.2

/-! ### Offers and checks -/

lemma offer_concurs {r : Rule} (hr : r ∈ σ.rules) (hrule : r.WorksInPlace) (h : s.tree.Sound)
    (node : NodeId) :
    Concurs σ (offer σ r node) (offer σ r node) s fun _ s' => Onward s s' := by
  refine .same ?_
  obtain ⟨hedited, hsize⟩ := hrule.edited σ.oracle σ.pass node
    (w := ⟨s.tree.checkpoint, s.files⟩) h.checkpoint.linked
  rw [offer]
  rw [Action.after] at hedited hsize
  cases happ : r.apply σ.oracle σ.pass node ⟨s.tree.checkpoint, s.files⟩ with
  | ok o w =>
    rw [happ] at hedited hsize
    dsimp only
    cases judge r.id node s.tree.revision w.tree.commit o with
    | ok o' =>
      exact .ok (.of_tree (h.checkpoint.edited hedited).commit hsize rfl)
    | error e => exact .error e _
  | error f w =>
    rw [happ] at hedited hsize
    cases f with
    | fault f => exact .fault ⟨r, hr, node, _, happ⟩
    | error e =>
      dsimp only
      cases e.isFatal with
      | true => exact .error e _
      | false =>
        have hback : w.tree.rollback = s.tree.commit := h.rollback_edited hedited
        refine .ok (.of_tree ?_ ?_ rfl)
        · show w.tree.rollback.Sound
          rw [hback]
          exact h.commit
        · show w.tree.rollback.size = _
          rw [hback]
          rfl

lemma finishRemoval_concurs (h : s.tree.Sound) (rule : String) (node : NodeId) :
    Concurs σ (finishRemoval rule node) (finishRemoval rule node) s fun _ s' => Onward s s' := by
  refine .get_bind ?_
  dsimp only
  split
  · exact .pure (.refl h)
  · split
    · exact .refuse _
    · split
      · next t hok =>
        have hrun : ((Command.remove node).run s.tree).1 = t := by
          rw [Command.run, Command.settle_of_ok _ (Edit.result_eq_ok_iff.mpr hok)]
        refine .modify (.of_tree ?_ ?_ rfl)
        · exact hrun ▸ h.run (.remove node)
        · exact hrun ▸ Command.size_run h.linked rfl rfl
      · exact .same (.error _ _)

lemma checkLineage_concurs (s : PassState) (node : NodeId) (rule : String) (lineage : UInt32) :
    Concurs σ (checkLineage σ node rule lineage) (checkLineage σ node rule lineage) s fun _ s' =>
      s' = s := by
  rw [checkLineage]
  split
  · exact .refuse _
  · exact .pure rfl

lemma recount_concurs (h : s.tree.Sound) (order : VisitOrder) (node current : NodeId)
    (rule : String) :
    Concurs σ (recount σ order node current rule) (recount σ order node current rule) s fun _ s' =>
      Onward s s' := by
  rw [recount]
  split
  · refine .get_bind (.bind (Q := fun _ s' => Onward s s') (.modify (.of_tree h rfl rfl))
      fun _ s' hs' => ?_)
    split
    · exact .refuse _
    · exact .pure hs'
  · exact .pure (.refl h)

/-! ### Rounds -/

/-- Two ways of visiting do the same in states with so many slots and at most so many pending
nodes: after a visit there are fewer pending nodes, or nothing has happened and the node keeps its
place. -/
def VisitsConcur (σ : PassSetting) (size pending : Nat) (v v' : NodeId → UInt32 → PassM Nat) :
    Prop :=
  ∀ n l s, s.tree.Sound → s.tree.size = size → (pendingNodes s).card ≤ pending →
    Concurs σ (v n l) (v' n l) s fun count s' => Onward s s' ∧
      ((pendingNodes s').card < (pendingNodes s).card ∨ (count = 1 ∧ s' = s))

section rounds

variable {size pending : Nat} {v v' : NodeId → UInt32 → PassM Nat}
  (hv : VisitsConcur σ size pending v v')
include hv

lemma visitAll_concurs (l : UInt32) (ns : List NodeId) (h : s.tree.Sound)
    (hsize : s.tree.size = size) (hpending : (pendingNodes s).card ≤ pending) :
    Concurs σ (visitAll (v · l) ns) (visitAll (v' · l) ns) s fun _ s' => Onward s s' := by
  induction ns generalizing s with
  | nil => exact .pure (.refl h)
  | cons n ns ih =>
    refine (hv n l s h hsize hpending).bind fun count s₁ ⟨hs₁, _⟩ => ?_
    have hrest := ih hs₁.sound (hs₁.size.trans hsize) (hs₁.card_le.trans hpending)
    exact hrest.bind fun _ s₂ hs₂ => .pure (hs₁.trans hs₂)

lemma round_concurs {rules : List Rule} (hrules : ∀ r ∈ rules, r ∈ σ.rules ∧ r.WorksInPlace)
    (last : Option String) (h : s.tree.Sound) (hsize : s.tree.size = size)
    (hpending : (pendingNodes s).card ≤ pending) :
    Concurs σ (round σ v rules node lineage last) (round σ v' rules node lineage last) s
      fun _ s' => Onward s s' := by
  induction rules generalizing node lineage last s with
  | nil => exact .pure (.refl h)
  | cons r rules ih =>
    have hrest : ∀ q ∈ rules, q ∈ σ.rules ∧ q.WorksInPlace :=
      fun q hq => hrules q (List.mem_cons_of_mem r hq)
    obtain ⟨hr, hrule⟩ := hrules r List.mem_cons_self
    by_cases hacc : accepts s.tree r node = true
    · refine .congr (by rw [round_cons, if_pos hacc]) (by rw [round_cons, if_pos hacc]) ?_
      refine (offer_concurs hr hrule h node).bind fun o s₁ hs₁ => ?_
      have hsize₁ := hs₁.size.trans hsize
      have hpending₁ := hs₁.card_le.trans hpending
      cases o with
      | unchanged => exact (ih hrest last hs₁.sound hsize₁ hpending₁).mono fun _ _ => hs₁.trans
      | mutated => exact (ih hrest _ hs₁.sound hsize₁ hpending₁).mono fun _ _ => hs₁.trans
      | replaced new =>
        refine (checkLineage_concurs s₁ node r.id (lineage + 1)).bind fun _ s₂ hs₂ => ?_
        subst hs₂
        have hs₂ : Onward s₂ ((s₂.mark node .visited).mark new .visiting) :=
          ((Onward.refl hs₁.sound).mark node (by simp)).mark new (by simp)
        refine .setState_bind (.setState_bind ?_)
        exact (ih hrest (some r.id) hs₂.sound hsize₁ (hs₂.card_le.trans hpending₁)).mono
          fun _ s' hs' => (hs₁.trans hs₂).trans hs'
      | expanded new =>
        refine (checkLineage_concurs s₁ node r.id (lineage + 1)).bind fun _ s₂ hs₂ => ?_
        subst hs₂
        have hs₂ : Onward s₂ (s₂.mark node .visited) := (Onward.refl hs₁.sound).mark node (by simp)
        refine .setState_bind ?_
        exact (visitAll_concurs hv (lineage + 1) new hs₂.sound hsize₁
          (hs₂.card_le.trans hpending₁)).bind fun _ s' hs' => .pure ((hs₁.trans hs₂).trans hs')
      | removed =>
        exact (finishRemoval_concurs hs₁.sound r.id node).bind fun _ s₂ hs₂ =>
          .pure (hs₁.trans hs₂)
    · refine .congr (by rw [round_cons, if_neg hacc]) (by rw [round_cons, if_neg hacc]) ?_
      exact ih hrest last h hsize hpending

lemma roundsFrom_concurs (hσ : Narrow σ) (hrules : ∀ r ∈ σ.rules, r.WorksInPlace) {k k' : Nat}
    (hk : roundsLeft σ order s node lineage < k) (hk' : roundsLeft σ order s node lineage < k')
    (h : s.tree.Sound) (hsize : s.tree.size = size) (hpending : (pendingNodes s).card ≤ pending) :
    Concurs σ (roundsFrom σ v order k node lineage) (roundsFrom σ v' order k' node lineage) s
      fun _ s' => Onward s s' := by
  induction k generalizing k' node lineage s with
  | zero => cases hk
  | succ k ih =>
    obtain ⟨k', rfl⟩ := Nat.exists_eq_succ_of_ne_zero (Nat.ne_zero_of_lt hk')
    have hordered : ∀ r ∈ σ.rules.filter (·.order = order), r ∈ σ.rules ∧ r.WorksInPlace := by
      intro r hr
      exact ⟨List.mem_of_mem_filter hr, hrules r (List.mem_of_mem_filter hr)⟩
    rw [roundsFrom_succ, roundsFrom_succ]
    refine (round_concurs hv hordered none h hsize hpending).ok.bind fun e s₁ ⟨hround, hs₁⟩ => ?_
    match e, hround with
    | .settled place, _ => exact .pure hs₁
    | .ongoing current lineage' none, _ => exact .pure hs₁
    | .ongoing current lineage' (some rule), hround =>
      refine (recount_concurs hs₁.sound order node current rule).ok.bind
        fun _ s₂ ⟨hcount, hs₂⟩ => ?_
      have hleft := roundsLeft_lt hσ (goes_of_round hσ hround) hcount
      exact (ih (Nat.lt_of_lt_of_le hleft (Nat.le_of_lt_succ hk))
        (Nat.lt_of_lt_of_le hleft (Nat.le_of_lt_succ hk')) hs₂.sound
        ((hs₂.size.trans hs₁.size).trans hsize)
        ((hs₂.card_le.trans hs₁.card_le).trans hpending)).mono
          fun _ s' hs' => (hs₁.trans hs₂).trans hs'

variable {d d' : Nat} (hσ : Narrow σ) (hd : roundBound σ ≤ d) (hd' : roundBound σ ≤ d')
include hσ hd hd'

/-- The bound on the rounds in one place is never met. -/
lemma rounds_concurs (hrules : ∀ r ∈ σ.rules, r.WorksInPlace) (h : s.tree.Sound)
    (hsize : s.tree.size = size) (hpending : (pendingNodes s).card ≤ pending) :
    Concurs σ (rounds (withDepth σ d) v order node lineage)
      (rounds (withDepth σ d') v' order node lineage) s fun _ s' => Onward s s' := by
  have hleft := roundsLeft_lt_roundBound σ order s node lineage
  rw [rounds_withDepth, rounds_withDepth]
  exact roundsFrom_concurs hv hσ hrules (hleft.trans_le hd) (hleft.trans_le hd') h hsize hpending

/-! ### Visits -/

omit hσ hd hd' in
lemma walk_concurs {j j' i : Nat} (hj : (pendingNodes s).card + (size - i) < j)
    (hj' : (pendingNodes s).card + (size - i) < j') (h : s.tree.Sound) (hsize : s.tree.size = size)
    (hpending : (pendingNodes s).card ≤ pending) :
    Concurs σ (walk (v · 0) node j i) (walk (v' · 0) node j' i) s fun _ s' => Onward s s' := by
  induction j generalizing j' i s with
  | zero => cases hj
  | succ j ih =>
    obtain ⟨j', rfl⟩ := Nat.exists_eq_succ_of_ne_zero (Nat.ne_zero_of_lt hj')
    cases hc : s.tree.child? node i with
    | none =>
      have hend : ∀ {u : NodeId → PassM Nat} {k : Nat},
          walk u node (k + 1) i s = (Pure.pure () : PassM Unit) s := by
        intro u k
        rw [walk_succ, hc]
        rfl
      exact .congr hend hend (.pure (.refl h))
    | some c =>
      have hlink : s.tree.parent? c = some node := h.linked.link_of_child? hc
      have hnext : ∀ {u : NodeId → PassM Nat} {k : Nat},
          walk u node (k + 1) i s = (u c >>= fun count => walk u node k (i + count)) s := by
        intro u k
        rw [walk_succ, hc]
        exact if_pos hlink
      have hi : i < size := by
        have hlt : i < (s.tree.children node).length := (List.getElem?_eq_some_iff.mp hc).1
        exact hsize ▸ hlt.trans_le (h.linked.length_children_le node)
      refine .congr hnext hnext ?_
      refine (hv c 0 s h hsize hpending).bind fun count s₁ ⟨hs₁, hless⟩ => ?_
      have hleft : (pendingNodes s₁).card + (size - (i + count)) <
          (pendingNodes s).card + (size - i) := by
        rcases hless with hlt | ⟨rfl, rfl⟩
        · omega
        · omega
      exact (ih (by omega) (by omega) hs₁.sound (hs₁.size.trans hsize)
        (hs₁.card_le.trans hpending)).mono fun _ s' hs' => hs₁.trans hs'

lemma leaveWith_concurs (hrules : ∀ r ∈ σ.rules, r.WorksInPlace) {k k' : Nat}
    (hk : pending + size < k) (hk' : pending + size < k') (place : Occupancy) (h : s.tree.Sound)
    (hsize : s.tree.size = size) (hpending : (pendingNodes s).card ≤ pending) :
    Concurs σ (leaveWith (withDepth σ d) v k node lineage place)
      (leaveWith (withDepth σ d') v' k' node lineage place) s fun _ s' => Onward s s' := by
  cases place with
  | node current =>
    have hs₀ : Onward s (s.mark current .visiting) := (Onward.refl h).mark current (by simp)
    have hpending₀ := hs₀.card_le.trans hpending
    refine .setState_bind ?_
    refine (walk_concurs hv (by omega) (by omega) hs₀.sound hsize hpending₀).bind fun _ s₁ hs₁ => ?_
    refine (rounds_concurs hv hσ hd hd' hrules hs₁.sound (hs₁.size.trans hsize)
      (hs₁.card_le.trans hpending₀)).bind fun place s₂ hs₂ => ?_
    have hs := (hs₀.trans hs₁).trans hs₂
    exact .setState_bind (.setState_bind
      (.pure ((hs.mark node (by simp)).mark current (by simp))))
  | expanded count => exact .setState_bind (.pure ((Onward.refl h).mark node (by simp)))
  | removed => exact .setState_bind (.pure ((Onward.refl h).mark node (by simp)))

omit hv hσ hd hd' in
/-- Where no visit begins nothing happens. -/
lemma seen_concurs {k k' : Nat} (hseen : s.stateOf node ≠ .pending ∨ s.tree.isLive node = false)
    (h : s.tree.Sound) :
    Concurs σ (visitWith (withDepth σ d) v k node lineage)
      (visitWith (withDepth σ d') v' k' node lineage) s fun count s' =>
      Onward s s' ∧ ((pendingNodes s').card < (pendingNodes s).card ∨ (count = 1 ∧ s' = s)) := by
  have hone : ∀ {d u k},
      visitWith (withDepth σ d) u k node lineage s = (Pure.pure 1 : PassM Nat) s :=
    visitWith_of_seen hseen
  exact .congr hone hone (.pure ⟨.refl h, Or.inr ⟨rfl, rfl⟩⟩)

/-- A visit that begins leaves one pending node less to those below it. -/
lemma visitWith_concurs (hrules : ∀ r ∈ σ.rules, r.WorksInPlace) {k k' : Nat}
    (hk : pending + size < k) (hk' : pending + size < k') :
    VisitsConcur σ size (pending + 1) (visitWith (withDepth σ d) v k)
      (visitWith (withDepth σ d') v' k') := by
  intro n l s h hsize hpending
  by_cases hnew : s.stateOf n = .pending ∧ s.tree.isLive n = true
  · have hlt := card_enter_lt hnew.1 hnew.2
    have hs₀ : Onward s (s.enter n) := by
      have hmark : Onward s (s.mark n .visiting) := (Onward.refl h).mark n (by simp)
      exact ⟨hmark.sound, hmark.size, hmark.pending⟩
    refine .congr (visitWith_of_pending hnew.1 hnew.2) (visitWith_of_pending hnew.1 hnew.2) ?_
    refine (rounds_concurs hv hσ hd hd' hrules hs₀.sound hsize (by omega)).bind
      fun place s₁ hs₁ => ?_
    refine (leaveWith_concurs hv hσ hd hd' hrules hk hk' place hs₁.sound (hs₁.size.trans hsize)
      (hs₁.card_le.trans (by omega))).mono fun _ s' hs' => ⟨(hs₀.trans hs₁).trans hs', Or.inl ?_⟩
    exact Nat.lt_of_le_of_lt (hs₁.trans hs').card_le hlt
  · exact seen_concurs (by simpa [imp_iff_not_or] using hnew) h

end rounds

/-- Visits that are allowed enough do the same. -/
lemma visit_concurs (hσ : Narrow σ) (hrules : ∀ r ∈ σ.rules, r.WorksInPlace) {d d' : Nat}
    (hd : roundBound σ ≤ d) (hd' : roundBound σ ≤ d') {size pending k k' : Nat}
    (hk : pending + size < k) (hk' : pending + size < k') :
    VisitsConcur σ size pending (visit (withDepth σ d) k) (visit (withDepth σ d') k') := by
  induction pending generalizing k k' with
  | zero =>
    obtain ⟨k, rfl⟩ := Nat.exists_eq_succ_of_ne_zero (Nat.ne_zero_of_lt hk)
    obtain ⟨k', rfl⟩ := Nat.exists_eq_succ_of_ne_zero (Nat.ne_zero_of_lt hk')
    intro n l s h hsize hpending
    refine seen_concurs ?_ h
    by_contra hnew
    simp only [not_or, not_not, Bool.not_eq_false] at hnew
    exact absurd (card_enter_lt hnew.1 hnew.2) (by omega)
  | succ pending ih =>
    obtain ⟨k, rfl⟩ := Nat.exists_eq_succ_of_ne_zero (Nat.ne_zero_of_lt hk)
    obtain ⟨k', rfl⟩ := Nat.exists_eq_succ_of_ne_zero (Nat.ne_zero_of_lt hk')
    have hbelow : VisitsConcur σ size pending (visit (withDepth σ d) k)
      (visit (withDepth σ d') k') := ih (by omega) (by omega)
    exact visitWith_concurs hbelow hσ hd hd' hrules (by omega) (by omega)

/-- A pass that is allowed enough ends in a way that does not depend on how much it is allowed. -/
lemma run_concurs (hσ : Narrow σ) (hrules : ∀ r ∈ σ.rules, r.WorksInPlace) {w : Workspace}
    (h : w.tree.Sound) :
    ∃ result, (∀ d, 2 * w.tree.size < d → roundBound σ ≤ d → run (withDepth σ d) w = result) ∧
      ∀ f w', result = .error (.fault f) w' → Raised σ f w' := by
  have hpending : (pendingNodes { tree := w.tree, files := w.files }).card ≤ w.tree.size := by
    simpa [pendingNodes] using Finset.card_filter_le (Finset.range w.tree.size) _
  have hconcurs : ∀ {d d'}, 2 * w.tree.size < d → roundBound σ ≤ d → 2 * w.tree.size < d' →
      roundBound σ ≤ d' → Concurs σ (visit (withDepth σ d) d w.tree.root 0)
        (visit (withDepth σ d') d' w.tree.root 0) { tree := w.tree, files := w.files }
          fun _ _ => True := by
    intro d d' hd hrounds hd' hrounds'
    have hconcur : VisitsConcur σ w.tree.size w.tree.size (visit (withDepth σ d) d)
      (visit (withDepth σ d') d') := visit_concurs hσ hrules hrounds hrounds' (by omega) (by omega)
    exact (hconcur _ _ _ h rfl hpending).mono fun _ _ _ => trivial
  have hroot : ∀ d, visitRoot (withDepth σ d) { tree := w.tree, files := w.files } =
      visit (withDepth σ d) d w.tree.root 0 { tree := w.tree, files := w.files } := fun _ => rfl
  -- One that is allowed just enough stands for all of them.
  obtain ⟨e, hsize, hrounds⟩ : ∃ e, 2 * w.tree.size < e ∧ roundBound σ ≤ e :=
    ⟨2 * w.tree.size + 1 + roundBound σ, by omega, by omega⟩
  refine ⟨run (withDepth σ e) w, fun d hd hd' => ?_, fun f w' hrun => ?_⟩
  · rw [run, run, hroot, hroot, (hconcurs hsize hrounds hd hd').1]
  · have hfair := (hconcurs hsize hrounds hsize hrounds).2
    rw [run, hroot] at hrun
    generalize visit (withDepth σ e) e w.tree.root 0 _ = x at hfair hrun
    cases hfair with
    | ok _ => cases hrun
    | error e s => cases hrun
    | fault hraised =>
      cases hrun
      exact hraised

end Pass

/-- A rule that takes the first child of a node out, puts it back as the last one, and says that
nothing has changed. -/
def turningRule : Rule where
  id := "turning"
  kinds := [.null]
  apply _ _ node := do
    Action.update fun t => Command.runAll t
      (((t.child? node 0).toList.map (.detach node ·)) ++
        ((t.child? node 0).toList.map (.pushChild node ·)))
    return .unchanged

lemma turningRule_worksInPlace : turningRule.WorksInPlace := by
  intro oracle pass node w
  refine ⟨_, fun c hc => ?_, rfl⟩
  rcases List.mem_append.mp hc with hc | hc
  · obtain ⟨_, _, rfl⟩ := List.mem_map.mp hc
    exact ⟨rfl, rfl⟩
  · obtain ⟨_, _, rfl⟩ := List.mem_map.mp hc
    exact ⟨rfl, rfl⟩

lemma markingRule_worksInPlace : (markingRule true).WorksInPlace := by
  intro oracle pass node w
  exact ⟨[.setAttribute node .processed (.flag true)], by simp [Command.isPlain, Command.allocates],
    rfl⟩

end CodeMigration
