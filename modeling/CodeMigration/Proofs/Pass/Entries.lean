import CodeMigration.Proofs.Pass.Quiet

/-!
# No visit begins twice

A visit begins at a node that is pending, and from then on that node is pending no more, whatever
the rules do. So in every pass, whether it succeeds or not, each node is entered at most once
(`Pass.nodup_entries`).
-/

namespace CodeMigration

namespace Pass

variable {σ : PassSetting} {s : PassState} {node : NodeId} {lineage : UInt32} {order : VisitOrder}
  {v : NodeId → UInt32 → PassM Nat} {r : Rule} {rules : List Rule} {last : Option String}

/-! ### Steps as equations -/

lemma round_cons (s : PassState) :
    round σ v (r :: rules) node lineage last s =
      if accepts s.tree r node then
        (offer σ r node >>= afterOffer σ v r rules node lineage last) s
      else round σ v rules node lineage last s := by
  show (if !accepts s.tree r node then round σ v rules node lineage last else _) s = _
  cases accepts s.tree r node <;> rfl

/-- What follows a round. -/
def afterRound (σ : PassSetting) (v : NodeId → UInt32 → PassM Nat) (order : VisitOrder) (k : Nat)
    (node : NodeId) : RoundEnd → PassM Occupancy
  | .settled place => return place
  | .ongoing current _ none => return .node current
  | .ongoing current lineage (some rule) => do
    recount σ order node current rule
    roundsFrom σ v order k current lineage

lemma roundsFrom_succ (k : Nat) :
    roundsFrom σ v order (k + 1) node lineage =
      round σ v (σ.rules.filter (·.order = order)) node lineage none >>=
        afterRound σ v order k node := by
  rw [roundsFrom]
  congr 1
  funext e
  cases e with
  | settled _ => rfl
  | ongoing current _ last =>
    cases last with
    | none => rfl
    | some _ =>
      rw [afterRound, recount]
      by_cases hc : current = node
      · simp only [if_pos hc]
      · simp only [if_neg hc]
        rfl

lemma walk_succ {u : NodeId → PassM Nat} (k i : Nat) (s : PassState) :
    walk u node (k + 1) i s =
      match s.tree.child? node i with
      | none => .ok () s
      | some c =>
        if s.tree.parent? c = some node then (u c >>= fun count => walk u node k (i + count)) s
        else .error (.error (.invariantViolation (.wrongParent c node (s.tree.parent? c)))) s := by
  show (match s.tree.child? node i with
    | none => pure ()
    | some c =>
      if s.tree.parent? c = some node then u c >>= fun count => walk u node k (i + count)
      else violate (.wrongParent c node (s.tree.parent? c)) : PassM Unit) s = _
  cases s.tree.child? node i with
  | none => rfl
  | some c =>
    dsimp only
    split <;> rfl

lemma visitWith_of_seen {k : Nat} (h : s.stateOf node ≠ .pending ∨ s.tree.isLive node = false) :
    visitWith σ v k node lineage s = .ok 1 s :=
  visitWith_eq_ok_iff.mpr (Or.inl ⟨h, rfl, rfl⟩)

lemma visitWith_of_pending {k : Nat} (hstate : s.stateOf node = .pending)
    (hlive : s.tree.isLive node = true) :
    visitWith σ v k node lineage s =
      (rounds σ v .pre node lineage >>= leaveWith σ v k node lineage) (s.enter node) := by
  show (if s.stateOf node ≠ .pending ∨ !s.tree.isLive node then pure 1 else _ : PassM Nat) s = _
  rw [if_neg (by simp [hstate, hlive])]
  rfl

/-! ### Entries -/

/-- No visit has begun twice, and a node whose visit has begun is not pending. -/
structure EnteredOnce (s : PassState) : Prop where
  nodup : (s.log.filterMap Event.entry?).Nodup
  begun : ∀ n ∈ s.log.filterMap Event.entry?, s.stateOf n ≠ .pending

namespace EnteredOnce

variable {s s' : PassState}

lemma of_same (h : EnteredOnce s) (hstates : s'.states = s.states)
    (hlog : s'.log.filterMap Event.entry? = s.log.filterMap Event.entry?) : EnteredOnce s' := by
  refine ⟨hlog ▸ h.nodup, fun n hn => ?_⟩
  rw [PassState.stateOf, hstates]
  exact h.begun n (hlog ▸ hn)

lemma mark (h : EnteredOnce s) (node : NodeId) {v : VisitState} (hv : v ≠ .pending) :
    EnteredOnce (s.mark node v) := by
  refine ⟨h.nodup, fun n hn => ?_⟩
  rw [PassState.stateOf_mark]
  split
  · exact hv
  · exact h.begun n hn

lemma enter (h : EnteredOnce s) (hnode : s.stateOf node = .pending) :
    EnteredOnce (s.enter node) := by
  have hentries : (s.enter node).log.filterMap Event.entry? =
      node :: s.log.filterMap Event.entry? := rfl
  refine ⟨?_, fun n hn => ?_⟩
  · rw [hentries, List.nodup_cons]
    exact ⟨fun hin => h.begun node hin hnode, h.nodup⟩
  · rw [PassState.stateOf_enter]
    split
    · simp
    · next hne =>
      rw [hentries, List.mem_cons] at hn
      exact h.begun n (hn.resolve_left hne)

end EnteredOnce

/-- Wherever the step ends, no visit has begun twice. -/
def EntersOnce {α : Type} (m : PassM α) : Prop :=
  ∀ s, EnteredOnce s → match m s with
    | .ok _ s' | .error _ s' => EnteredOnce s'

namespace EntersOnce

variable {α β : Type}

lemma pure (a : α) : EntersOnce (pure a : PassM α) := fun _ h => h

lemma throw (f : Failure) : EntersOnce (throw f : PassM α) := fun _ h => h

lemma bind {m : PassM α} {f : α → PassM β} (hm : EntersOnce m) (hf : ∀ a, EntersOnce (f a)) :
    EntersOnce (m >>= f) := by
  intro s h
  have hfirst := hm s h
  show match EStateM.bind m f s with
    | .ok _ s' | .error _ s' => EnteredOnce s'
  rw [EStateM.bind]
  cases hs : m s with
  | ok a s' =>
    rw [hs] at hfirst
    exact hf a s' hfirst
  | error e s' =>
    rw [hs] at hfirst
    exact hfirst

lemma modify {f : PassState → PassState} (hf : ∀ s, EnteredOnce s → EnteredOnce (f s)) :
    EntersOnce (modify f : PassM Unit) := hf

lemma get_bind {f : PassState → PassM α} (hf : ∀ s, EntersOnce (f s)) : EntersOnce (get >>= f) :=
  bind (fun _ h => h) hf

lemma ite {p : Prop} [Decidable p] {m m' : PassM α} (hm : EntersOnce m) (hm' : EntersOnce m') :
    EntersOnce (if p then m else m') := by
  split
  · exact hm
  · exact hm'

end EntersOnce

lemma entersOnce_setState (n : NodeId) {state : VisitState} (h : state ≠ .pending) :
    EntersOnce (setState n state) := fun _ hs => hs.mark n h

lemma entersOnce_offer (r : Rule) (node : NodeId) : EntersOnce (offer σ r node) := by
  intro s h
  rw [offer]
  cases r.apply σ.oracle σ.pass node ⟨s.tree.checkpoint, s.files⟩ with
  | ok o w =>
    dsimp only
    cases judge r.id node s.tree.revision w.tree.commit o with
    | ok o' => exact h.of_same rfl rfl
    | error e => exact h.of_same rfl rfl
  | error f w =>
    cases f with
    | fault f => exact h.of_same rfl rfl
    | error e =>
      dsimp only
      cases e.isFatal with
      | true => exact h.of_same rfl rfl
      | false => exact h.of_same rfl rfl

lemma entersOnce_finishRemoval (rule : String) (node : NodeId) :
    EntersOnce (finishRemoval rule node) := by
  refine .get_bind fun s => .ite (.pure ()) (.ite (.throw _) ?_)
  split
  · exact .modify fun _ h => h.of_same rfl rfl
  · exact .bind (.modify fun _ h => h.of_same rfl rfl) fun _ => .throw _

lemma entersOnce_checkLineage (node : NodeId) (rule : String) (lineage : UInt32) :
    EntersOnce (checkLineage σ node rule lineage) := .ite (.throw _) (.pure ())

lemma entersOnce_recount (order : VisitOrder) (node current : NodeId) (rule : String) :
    EntersOnce (recount σ order node current rule) := by
  refine .ite (.get_bind fun s => .bind (.modify fun _ h => h.of_same rfl rfl) fun _ => ?_)
    (.pure ())
  exact .ite (.throw _) (.pure ())

lemma entersOnce_visitAll {u : NodeId → PassM Nat} (hu : ∀ n, EntersOnce (u n))
    (ns : List NodeId) : EntersOnce (visitAll u ns) := by
  induction ns with
  | nil => exact .pure 0
  | cons n ns ih => exact (hu n).bind fun _ => ih.bind fun _ => .pure _

section visits

variable (hv : ∀ n l, EntersOnce (v n l))
include hv

lemma entersOnce_round (rules : List Rule) (node : NodeId) (lineage : UInt32)
    (last : Option String) : EntersOnce (round σ v rules node lineage last) := by
  induction rules generalizing node lineage last with
  | nil => exact .pure _
  | cons r rules ih =>
    intro s h
    rw [round_cons]
    by_cases hacc : accepts s.tree r node = true
    · rw [if_pos hacc]
      refine (entersOnce_offer r node).bind (fun o => ?_) s h
      cases o with
      | unchanged => exact ih _ _ _
      | mutated => exact ih _ _ _
      | replaced new =>
        exact (entersOnce_checkLineage _ _ _).bind fun _ =>
          (entersOnce_setState node (by simp)).bind fun _ =>
            (entersOnce_setState new (by simp)).bind fun _ => ih _ _ _
      | expanded new =>
        exact (entersOnce_checkLineage _ _ _).bind fun _ =>
          (entersOnce_setState node (by simp)).bind fun _ =>
            (entersOnce_visitAll (fun n => hv n _) new).bind fun _ => .pure _
      | removed => exact (entersOnce_finishRemoval _ _).bind fun _ => .pure _
    · rw [if_neg hacc]
      exact ih _ _ _ s h

lemma entersOnce_roundsFrom (order : VisitOrder) (k : Nat) (node : NodeId) (lineage : UInt32) :
    EntersOnce (roundsFrom σ v order k node lineage) := by
  induction k generalizing node lineage with
  | zero => exact .throw _
  | succ k ih =>
    rw [roundsFrom_succ]
    refine (entersOnce_round hv _ _ _ _).bind fun e => ?_
    cases e with
    | settled _ => exact .pure _
    | ongoing _ _ last =>
      cases last with
      | none => exact .pure _
      | some _ => exact (entersOnce_recount _ _ _ _).bind fun _ => ih _ _

lemma entersOnce_walk (node : NodeId) (k i : Nat) : EntersOnce (walk (v · 0) node k i) := by
  induction k generalizing i with
  | zero => exact .throw _
  | succ k ih =>
    intro s h
    rw [walk_succ]
    cases s.tree.child? node i with
    | none => exact h
    | some c =>
      dsimp only
      by_cases hlink : s.tree.parent? c = some node
      · rw [if_pos hlink]
        exact (hv c 0).bind (fun _ => ih _) s h
      · rw [if_neg hlink]
        exact h

lemma entersOnce_leaveWith (k : Nat) (node : NodeId) (lineage : UInt32) (place : Occupancy) :
    EntersOnce (leaveWith σ v k node lineage place) := by
  have hvisited : ∀ n, EntersOnce (setState n .visited) := fun n =>
    entersOnce_setState n (by simp)
  cases place with
  | node current =>
    refine (entersOnce_setState current (by simp)).bind fun _ =>
      (entersOnce_walk hv current k 0).bind fun _ => ?_
    exact (entersOnce_roundsFrom hv _ _ _ _).bind fun _ =>
      (hvisited node).bind fun _ => (hvisited current).bind fun _ => .pure _
  | expanded count => exact (hvisited node).bind fun _ => .pure _
  | removed => exact (hvisited node).bind fun _ => .pure _

/-- A visit begins only where none has begun. -/
lemma entersOnce_visitWith (k : Nat) (node : NodeId) (lineage : UInt32) :
    EntersOnce (visitWith σ v k node lineage) := by
  intro s h
  by_cases hnew : s.stateOf node = .pending ∧ s.tree.isLive node = true
  · rw [visitWith_of_pending hnew.1 hnew.2]
    exact (entersOnce_roundsFrom hv _ _ _ _).bind (entersOnce_leaveWith hv k node lineage) _
      (h.enter hnew.1)
  · rw [visitWith_of_seen (by simpa [imp_iff_not_or] using hnew)]
    exact h

end visits

lemma entersOnce_visit (k : Nat) (node : NodeId) (lineage : UInt32) :
    EntersOnce (visit σ k node lineage) := by
  induction k generalizing node lineage with
  | zero => exact .throw _
  | succ k ih =>
    rw [visit_succ]
    exact entersOnce_visitWith ih k node lineage

/-- In a pass no visit begins twice. -/
lemma nodup_entries (σ : PassSetting) (w : Workspace) :
    ((trace σ w).filterMap Event.entry?).Nodup := by
  have hstart : EnteredOnce { tree := w.tree, files := w.files } :=
    ⟨List.nodup_nil, fun n hn => absurd hn List.not_mem_nil⟩
  have hend := entersOnce_visit σ.depth w.tree.root 0 (σ := σ) _ hstart
  have hroot : visitRoot σ { tree := w.tree, files := w.files } =
      visit σ σ.depth w.tree.root 0 { tree := w.tree, files := w.files } := rfl
  rw [trace, hroot]
  cases hs : visit σ σ.depth w.tree.root 0 { tree := w.tree, files := w.files } with
  | ok count s =>
    rw [hs] at hend
    rw [List.filterMap_reverse, List.nodup_reverse]
    exact hend.nodup
  | error e s =>
    rw [hs] at hend
    rw [List.filterMap_reverse, List.nodup_reverse]
    exact hend.nodup

end Pass

end CodeMigration
