import CodeMigration.Proofs.Pass.Quiet
import CodeMigration.Proofs.Tree.Alike

/-!
# Passes side by side

Two passes over trees with the same slots go abreast when the second answers every offer that
succeeds in the first with the same outcome. The second may have further rules, as long as these
leave no trace. So what holds of one pass is carried over to another one by looking at single offers
only (`KeepsUp`, `run_keepsUp`).
-/

namespace CodeMigration

/-- The rules of the first list in their order, with further ones between them. -/
inductive Padded (extra : Rule → Prop) : List Rule → List Rule → Prop
  | nil : Padded extra [] []
  | keep (r : Rule) {l l' : List Rule} : Padded extra l l' → Padded extra (r :: l) (r :: l')
  | pad {q : Rule} (hq : extra q) {l l' : List Rule} : Padded extra l l' → Padded extra l (q :: l')

namespace Padded

variable {extra : Rule → Prop} {l l' : List Rule}

lemma refl (l : List Rule) : Padded extra l l := by
  induction l with
  | nil => exact .nil
  | cons r l ih => exact .keep r ih

lemma insert {q : Rule} (hq : extra q) (l₁ l₂ : List Rule) :
    Padded extra (l₁ ++ l₂) (l₁ ++ q :: l₂) := by
  induction l₁ with
  | nil => exact .pad hq (refl l₂)
  | cons r l₁ ih => exact .keep r ih

lemma filter (h : Padded extra l l') (p : Rule → Bool) :
    Padded extra (l.filter p) (l'.filter p) := by
  induction h with
  | nil => exact .nil
  | keep r _ ih =>
    rw [List.filter_cons, List.filter_cons]
    split
    · exact .keep r ih
    · exact ih
  | pad hq _ ih =>
    rw [List.filter_cons]
    split
    · exact .pad hq ih
    · exact ih

lemma length_le (h : Padded extra l l') : l.length ≤ l'.length := by
  induction h with
  | nil => exact Nat.le_refl _
  | keep r _ ih => exact Nat.succ_le_succ ih
  | pad _ _ ih => exact Nat.le_succ_of_le ih

end Padded

/-- The nodes that an outcome names. -/
def Outcome.nodes : Outcome → List NodeId
  | .replaced new => [new]
  | .expanded new => new
  | _ => []

namespace Pass

/-- Two states of passes that have come equally far, on trees with the same slots. What the passes
work on otherwise is related by `Q`, which may depend on what has happened in the first one. -/
structure Abreast (Q : Workspace → List Event → Workspace → Prop) (s s' : PassState) : Prop
    extends Tree.Alike s.tree s'.tree where
  states : s'.states = s.states
  revisits : s'.revisits = s.revisits
  visited : s'.log.countP Event.isEntry = s.log.countP Event.isEntry
  mutations : s'.log.countP Event.isMutation = s.log.countP Event.isMutation
  work : Q s.toWorkspace s.log s'.toWorkspace

lemma accepts_alike {t t' : Tree} (h : t.Alike t') (r : Rule) (n : NodeId) :
    accepts t' r n = accepts t r n := by
  rw [accepts, h.kind?, accepts]

namespace Abreast

variable {Q : Workspace → List Event → Workspace → Prop} {s s' : PassState} (h : Abreast Q s s')
include h

lemma stateOf (n : NodeId) : s'.stateOf n = s.stateOf n := by
  rw [PassState.stateOf, h.states, PassState.stateOf]

lemma revisitsOf (n : NodeId) (order : VisitOrder) :
    s'.revisitsOf n order = s.revisitsOf n order := by
  rw [PassState.revisitsOf, h.revisits, PassState.revisitsOf]

lemma mark (n : NodeId) (v : VisitState) : Abreast Q (s.mark n v) (s'.mark n v) :=
  { h with states := congrArg ((n, v) :: ·) h.states }

lemma enter {n : NodeId} (hwork : Q s.toWorkspace (.entered n :: s.log) s'.toWorkspace) :
    Abreast Q (s.enter n) (s'.enter n) :=
  { h.mark n .visiting with
    work := hwork
    visited := by
      show (Event.entered n :: s'.log).countP _ = (Event.entered n :: s.log).countP _
      rw [List.countP_cons, List.countP_cons, h.visited]
    mutations := by
      show (Event.entered n :: s'.log).countP _ = (Event.entered n :: s.log).countP _
      rw [List.countP_cons, List.countP_cons, h.mutations] }

/-- One offer more on either side, with the same outcome. -/
lemma step {t t' : Tree} {files files' : List AddedFile} {r r' : String} {order order' : VisitOrder}
    {n : NodeId} {o : Outcome} (hslots : t'.slots = t.slots) (hroot : t'.root = t.root)
    (hwork : Q ⟨t, files⟩ (.offered r order n o :: s.log) ⟨t', files'⟩) :
    Abreast Q { s with tree := t, files := files, log := .offered r order n o :: s.log }
      { s' with tree := t', files := files', log := .offered r' order' n o :: s'.log } where
  slots := hslots
  root := hroot
  states := h.states
  revisits := h.revisits
  visited := by
    rw [List.countP_cons, List.countP_cons, h.visited]
    rfl
  mutations := by
    rw [List.countP_cons, List.countP_cons, h.mutations]
    rfl
  work := hwork

/-- One undone offer more on either side. -/
lemma recover {t t' : Tree} {files files' : List AddedFile} {r r' : String}
    {order order' : VisitOrder} {n : NodeId} {e e' : Error} (hslots : t'.slots = t.slots)
    (hroot : t'.root = t.root)
    (hwork : Q ⟨t, files⟩ (.abandoned r order n e :: s.log) ⟨t', files'⟩) :
    Abreast Q { s with tree := t, files := files, log := .abandoned r order n e :: s.log }
      { s' with tree := t', files := files', log := .abandoned r' order' n e' :: s'.log } where
  slots := hslots
  root := hroot
  states := h.states
  revisits := h.revisits
  visited := h.visited
  mutations := h.mutations
  work := hwork

end Abreast

/-! ### Keeping up -/

/-- The node in a place, if there is a single one that is still to be looked after, is among
`here`. -/
def PlacedIn (here : Set NodeId) : Occupancy → Prop
  | .node current => current ∈ here
  | _ => True

/-- The node a round ended with is among `here`. -/
def EndsIn (here : Set NodeId) : RoundEnd → Prop
  | .ongoing current _ _ => current ∈ here
  | .settled place => PlacedIn here place

/-- What makes a pass with the setting `σ'` keep up with one with the setting `σ`, as long as the
log of the latter is `good` and its offers are made at the nodes `here`. -/
structure KeepsUp (σ σ' : PassSetting) (extra : Rule → Prop) (good : List Event → Prop)
    (here : Set NodeId) (Q : Workspace → List Event → Workspace → Prop) : Prop where
  rules : Padded extra σ.rules σ'.rules
  bound : σ'.revisitBound = σ.revisitBound
  limit : replacementLimit σ ≤ replacementLimit σ'
  depth : σ'.depth = σ.depth
  suffix : ∀ {log log' : List Event}, log <:+ log' → good log' → good log
  entry : ∀ {w w' : Workspace} {log : List Event} {n : NodeId}, Q w log w' →
    Q w (.entered n :: log) w'
  child : ∀ {s s' : PassState} {n c : NodeId} {i : Nat}, Abreast Q s s' → n ∈ here →
    s.tree.child? n i = some c → c ∈ here
  offer : ∀ {s s' s₁ : PassState} {r : Rule} {n : NodeId} {o : Outcome}, r ∈ σ.rules → n ∈ here →
    Abreast Q s s' → accepts s.tree r n = true → Pass.offer σ r n s = .ok o s₁ → good s₁.log →
    ∃ s₁', Pass.offer σ' r n s' = .ok o s₁' ∧ Abreast Q s₁ s₁' ∧ ∀ m ∈ o.nodes, m ∈ here
  removal : ∀ {s s' s₁ s₂ : PassState} {r : Rule} {n : NodeId}, r ∈ σ.rules → n ∈ here →
    Abreast Q s s' → accepts s.tree r n = true → Pass.offer σ r n s = .ok .removed s₁ →
    good s₁.log → finishRemoval r.id n s₁ = .ok () s₂ →
    ∃ s₁' s₂', Pass.offer σ' r n s' = .ok .removed s₁' ∧ finishRemoval r.id n s₁' = .ok () s₂' ∧
      Abreast Q s₂ s₂'
  spare : ∀ {s s' : PassState} {q : Rule} {n : NodeId}, extra q → n ∈ here → Abreast Q s s' →
    accepts s.tree q n = true → ∃ s₁', Pass.offer σ' q n s' = .ok .unchanged s₁' ∧ Abreast Q s s₁'

namespace KeepsUp

variable {σ σ' : PassSetting} {extra : Rule → Prop} {good : List Event → Prop} {here : Set NodeId}
  {Q : Workspace → List Event → Workspace → Prop} (h : KeepsUp σ σ' extra good here Q)
  {s s' s₁ : PassState} {n : NodeId} {lineage : UInt32}

/-- Visits on one side are matched by visits on the other that take as many places. -/
def Matched (good : List Event → Prop) (here : Set NodeId)
    (Q : Workspace → List Event → Workspace → Prop) (u u' : NodeId → PassM Nat) : Prop :=
  ∀ {s s' s₁ : PassState} {n : NodeId} {count : Nat}, u n s = .ok count s₁ → good s₁.log →
    n ∈ here → Abreast Q s s' → ∃ s₁', u' n s' = .ok count s₁' ∧ Abreast Q s₁ s₁'

include h

lemma visitAll {u u' : NodeId → PassM Nat} (hg : ∀ n, Grows (u n))
    (hu : Matched good here Q u u') {ns : List NodeId}
    (hns : ∀ m ∈ ns, m ∈ here) {count : Nat} (hok : Pass.visitAll u ns s = .ok count s₁)
    (hgood : good s₁.log) (ha : Abreast Q s s') :
    ∃ s₁', Pass.visitAll u' ns s' = .ok count s₁' ∧ Abreast Q s₁ s₁' := by
  induction ns generalizing s s' count with
  | nil =>
    obtain ⟨rfl, rfl⟩ := EStateM.pure_eq_ok_iff.mp hok
    exact ⟨s', rfl, ha⟩
  | cons m ns ih =>
    obtain ⟨c, s₂, cs, hm, hrest, rfl⟩ := visitAll_cons_eq_ok_iff.mp hok
    have hsuffix : s₂.log <:+ s₁.log := grows_visitAll hg ns s₂ cs s₁ hrest
    obtain ⟨s₂', hm', ha₂⟩ := hu hm (h.suffix hsuffix hgood) (hns m List.mem_cons_self) ha
    obtain ⟨s₁', hrest', ha₁⟩ := ih (fun k hk => hns k (List.mem_cons_of_mem m hk)) hrest ha₂
    exact ⟨s₁', visitAll_cons_eq_ok_iff.mpr ⟨c, s₂', cs, hm', hrest', rfl⟩, ha₁⟩

section rounds

variable {v v' : NodeId → UInt32 → PassM Nat} (hg : ∀ n l, Grows (v n l))
  (hv : ∀ l, Matched good here Q (v · l) (v' · l))
include hg hv

/-- A round is matched by a round; it ends with the same node, if with one. -/
lemma round {rules rules' : List Rule} (hp : Padded extra rules rules')
    (hsub : ∀ r ∈ rules, r ∈ σ.rules) {last : Option String} {e : RoundEnd}
    (hok : Pass.round σ v rules n lineage last s = .ok e s₁) (hgood : good s₁.log)
    (hn : n ∈ here) (ha : Abreast Q s s') :
    ∃ s₁', Pass.round σ' v' rules' n lineage last s' = .ok e s₁' ∧ Abreast Q s₁ s₁' ∧
      EndsIn here e := by
  induction hp generalizing s s' n lineage last with
  | nil =>
    obtain ⟨rfl, rfl⟩ := EStateM.pure_eq_ok_iff.mp hok
    exact ⟨s', rfl, ha, hn⟩
  | @pad q hq rules rules' _ ih =>
    cases hacc : accepts s.tree q n with
    | false =>
      obtain ⟨s₁', hok', hspec⟩ := ih hsub hok hn ha
      exact ⟨s₁', round_cons_eq_ok_iff.mpr
        (Or.inl ⟨(accepts_alike ha.toAlike q n).trans hacc, hok'⟩), hspec⟩
    | true =>
      obtain ⟨s₂', hoffer, ha₂⟩ := h.spare hq hn ha hacc
      obtain ⟨s₁', hok', hspec⟩ := ih hsub hok hn ha₂
      exact ⟨s₁', round_cons_eq_ok_iff.mpr
        (Or.inr ⟨(accepts_alike ha.toAlike q n).trans hacc, .unchanged, s₂', hoffer, hok'⟩), hspec⟩
  | @keep r rules rules' _ ih =>
    have hrest : ∀ q ∈ rules, q ∈ σ.rules := fun q hq => hsub q (List.mem_cons_of_mem r hq)
    have hr : r ∈ σ.rules := hsub r List.mem_cons_self
    rcases round_cons_eq_ok_iff.mp hok with ⟨hacc, hok⟩ | ⟨hacc, o, s₂, hoffer, hok⟩
    · obtain ⟨s₁', hok', hspec⟩ := ih hrest hok hn ha
      exact ⟨s₁', round_cons_eq_ok_iff.mpr
        (Or.inl ⟨(accepts_alike ha.toAlike r n).trans hacc, hok'⟩), hspec⟩
    · have hafter : s₂.log <:+ s₁.log :=
        grows_afterOffer hg (grows_round hg rules) o s₂ e s₁ hok
      have hgood₂ : good s₂.log := h.suffix hafter hgood
      have hmatch : ∀ {s₂' s₁'}, Pass.offer σ' r n s' = .ok o s₂' →
          afterOffer σ' v' r rules' n lineage last o s₂' = .ok e s₁' →
          Pass.round σ' v' (r :: rules') n lineage last s' = .ok e s₁' := by
        intro s₂' s₁' hoffer' hok'
        exact round_cons_eq_ok_iff.mpr
          (Or.inr ⟨(accepts_alike ha.toAlike r n).trans hacc, o, s₂', hoffer', hok'⟩)
      obtain ⟨s₂', hoffer', ha₂, hnodes⟩ := h.offer hr hn ha hacc hoffer hgood₂
      cases o with
      | unchanged =>
        obtain ⟨s₁', hok', hspec⟩ := ih hrest hok hn ha₂
        exact ⟨s₁', hmatch hoffer' hok', hspec⟩
      | mutated =>
        obtain ⟨s₁', hok', hspec⟩ := ih hrest hok hn ha₂
        exact ⟨s₁', hmatch hoffer' hok', hspec⟩
      | replaced new =>
        obtain ⟨hle, hok⟩ := afterReplaced_eq_ok_iff.mp hok
        have hnew : new ∈ here := hnodes new List.mem_cons_self
        obtain ⟨s₁', hok', hspec⟩ :=
          ih hrest hok hnew ((ha₂.mark n .visited).mark new .visiting)
        exact ⟨s₁', hmatch hoffer'
          (afterReplaced_eq_ok_iff.mpr ⟨UInt32.le_trans hle h.limit, hok'⟩), hspec⟩
      | expanded new =>
        obtain ⟨hle, count, hvisit, rfl⟩ := afterExpanded_eq_ok_iff.mp hok
        obtain ⟨s₁', hvisit', ha₁⟩ := h.visitAll (fun m => hg m (lineage + 1)) (hv (lineage + 1))
          hnodes hvisit hgood (ha₂.mark n .visited)
        exact ⟨s₁', hmatch hoffer' (afterExpanded_eq_ok_iff.mpr
          ⟨UInt32.le_trans hle h.limit, count, hvisit', rfl⟩), ha₁, trivial⟩
      | removed =>
        obtain ⟨hremoval, rfl⟩ := afterRemoved_eq_ok_iff.mp hok
        obtain ⟨s₃', s₁', hoffer₃, hremoval', ha₁⟩ :=
          h.removal hr hn ha hacc hoffer hgood₂ hremoval
        exact ⟨s₁', hmatch hoffer₃ (afterRemoved_eq_ok_iff.mpr ⟨hremoval', rfl⟩), ha₁, trivial⟩

omit hg hv in
lemma recount {order : VisitOrder} {current : NodeId} {rule : String}
    (hok : Pass.recount σ order n current rule s = .ok () s₁) (ha : Abreast Q s s') :
    ∃ s₁', Pass.recount σ' order n current rule s' = .ok () s₁' ∧ Abreast Q s₁ s₁' := by
  rw [Pass.recount] at hok ⊢
  split at hok
  · next hc =>
    obtain ⟨hle, rfl⟩ := countRevisit_eq_ok_iff.mp hok
    rw [if_pos hc]
    refine ⟨_, countRevisit_eq_ok_iff.mpr ⟨?_, rfl⟩, ?_⟩
    · rw [ha.revisitsOf, h.bound]
      exact hle
    · exact { ha with revisits := by rw [ha.revisitsOf, ha.revisits] }
  · next hc =>
    cases hok
    rw [if_neg hc]
    exact ⟨s', rfl, ha⟩

/-- Rounds are matched by rounds; more of them may be allowed on the other side. -/
lemma roundsFrom {order : VisitOrder} {k k' : Nat} (hk : k ≤ k') {place : Occupancy}
    (hok : Pass.roundsFrom σ v order k n lineage s = .ok place s₁) (hgood : good s₁.log)
    (hn : n ∈ here) (ha : Abreast Q s s') :
    ∃ s₁', Pass.roundsFrom σ' v' order k' n lineage s' = .ok place s₁' ∧ Abreast Q s₁ s₁' ∧
      PlacedIn here place := by
  induction k generalizing k' s s' n lineage with
  | zero => cases hok
  | succ k ih =>
    obtain ⟨k', rfl⟩ := Nat.exists_eq_add_of_le' (Nat.le_trans (Nat.le_add_left 1 k) hk)
    obtain ⟨e, s₂, hround, hend⟩ := roundsFrom_succ_eq_ok_iff.mp hok
    have hsuffix : s₂.log <:+ s₁.log := by
      match e, hend with
      | .settled _, ⟨_, he⟩ => exact he ▸ List.suffix_rfl
      | .ongoing _ _ none, ⟨_, he⟩ => exact he ▸ List.suffix_rfl
      | .ongoing current lineage (some rule), ⟨s₃, hcount, he⟩ =>
        exact (grows_recount _ _ _ _ s₂ () s₃ hcount).trans
          (grows_roundsFrom hg _ _ _ _ s₃ place s₁ he)
    obtain ⟨s₂', hround', ha₂, hcurrent⟩ := h.round hg hv (h.rules.filter _)
      (fun r hr => List.mem_of_mem_filter hr) hround (h.suffix hsuffix hgood) hn ha
    match e, hend, hcurrent with
    | .settled _, ⟨hplace, hs⟩, hplaced =>
      subst hplace hs
      exact ⟨s₂', roundsFrom_succ_eq_ok_iff.mpr ⟨_, s₂', hround', rfl, rfl⟩, ha₂, hplaced⟩
    | .ongoing current _ none, ⟨hplace, hs⟩, hcurrent =>
      subst hplace hs
      exact ⟨s₂', roundsFrom_succ_eq_ok_iff.mpr ⟨_, s₂', hround', rfl, rfl⟩, ha₂, hcurrent⟩
    | .ongoing current lineage (some rule), ⟨s₃, hcount, hrest⟩, hcurrent =>
      obtain ⟨s₃', hcount', ha₃⟩ := h.recount hcount ha₂
      obtain ⟨s₁', hrest', hspec⟩ :=
        ih (Nat.le_of_succ_le_succ hk) hrest hcurrent ha₃
      exact ⟨s₁', roundsFrom_succ_eq_ok_iff.mpr ⟨_, s₂', hround', s₃', hcount', hrest'⟩, hspec⟩

end rounds

lemma walk {u u' : NodeId → PassM Nat} (hg : ∀ n, Grows (u n))
    (hu : Matched good here Q u u') {k i : Nat}
    (hok : Pass.walk u n k i s = .ok () s₁) (hgood : good s₁.log) (hn : n ∈ here)
    (ha : Abreast Q s s') :
    ∃ s₁', Pass.walk u' n k i s' = .ok () s₁' ∧ Abreast Q s₁ s₁' := by
  induction k generalizing i s s' with
  | zero => cases hok
  | succ k ih =>
    rcases walk_succ_eq_ok_iff.mp hok with ⟨hnone, rfl⟩ | ⟨c, hc, hlink, count, s₂, hvisit, hok⟩
    · exact ⟨s', walk_succ_eq_ok_iff.mpr (Or.inl ⟨ha.toAlike.child? ▸ hnone, rfl⟩), ha⟩
    · have hsuffix : s₂.log <:+ s₁.log := grows_walk hg n k _ s₂ () s₁ hok
      obtain ⟨s₂', hvisit', ha₂⟩ :=
        hu hvisit (h.suffix hsuffix hgood) (h.child ha hn hc) ha
      obtain ⟨s₁', hok', ha₁⟩ := ih hok ha₂
      refine ⟨s₁', walk_succ_eq_ok_iff.mpr (Or.inr ⟨c, ha.toAlike.child? ▸ hc, ?_, count, s₂',
        hvisit', hok'⟩), ha₁⟩
      rwa [ha.toAlike.link]

/-- A visit is matched by a visit that takes as many places. -/
lemma visit (k : Nat) (lineage : UInt32) :
    Matched good here Q (Pass.visit σ k · lineage) (Pass.visit σ' k · lineage) := by
  induction k generalizing lineage with
  | zero =>
    intro s s' s₁ n count hok
    cases hok
  | succ k ih =>
    intro s s' s₁ n count hok hgood hn ha
    have hgrows : ∀ n l, Grows (Pass.visit σ k n l) := grows_visit k
    rcases visit_succ_eq_ok_iff.mp hok with ⟨hseen, rfl, rfl⟩ | ⟨hnew, place, s₂, hpre, hok⟩
    · refine ⟨s', visit_succ_eq_ok_iff.mpr (Or.inl ⟨?_, rfl, rfl⟩), ha⟩
      rwa [ha.stateOf, ha.toAlike.isLive]
    · have hsuffix : s₂.log <:+ s₁.log := grows_leave hgrows n lineage place s₂ count s₁ hok
      obtain ⟨s₂', hpre', ha₂, hplaced⟩ := h.roundsFrom hgrows ih h.depth.ge hpre
        (h.suffix hsuffix hgood) hn (ha.enter (h.entry ha.work))
      have hdone : ∀ s₁', Pass.leave σ' k n lineage place s₂' = .ok count s₁' →
          Pass.visit σ' (k + 1) n lineage s' = .ok count s₁' := by
        intro s₁' hleave
        refine visit_succ_eq_ok_iff.mpr (Or.inr ⟨?_, place, s₂', hpre', hleave⟩)
        rwa [ha.stateOf, ha.toAlike.isLive]
      match place, hok, hplaced with
      | .expanded _, hok, _ =>
        cases hok
        exact ⟨_, hdone _ rfl, ha₂.mark n .visited⟩
      | .removed, hok, _ =>
        cases hok
        exact ⟨_, hdone _ rfl, ha₂.mark n .visited⟩
      | .node current, hok, hcurrent =>
        obtain ⟨s₃, place, s₄, hwalk, hpost, rfl, rfl⟩ := leave_node_eq_ok_iff.mp hok
        have hsuffix₄ : s₃.log <:+ s₄.log := grows_roundsFrom hgrows _ _ _ _ s₃ place s₄ hpost
        obtain ⟨s₃', hwalk', ha₃⟩ := h.walk (fun m => hgrows m 0) (ih 0) hwalk
          (h.suffix hsuffix₄ hgood) hcurrent (ha₂.mark current .visiting)
        obtain ⟨s₄', hpost', ha₄, _⟩ :=
          h.roundsFrom hgrows ih h.depth.ge hpost hgood hcurrent ha₃
        exact ⟨_, hdone _ (leave_node_eq_ok_iff.mpr ⟨s₃', place, s₄', hwalk', hpost', rfl, rfl⟩),
          (ha₄.mark n .visited).mark current .visited⟩

/-- A pass that succeeds is matched by one that succeeds as well. -/
lemma run {w w' w₁ : Workspace} {stats : PassStats}
    (hrun : Pass.run σ w = .ok stats w₁) (hgood : good (trace σ w).reverse)
    (hroot : w.tree.root ∈ here) (halike : w.tree.Alike w'.tree) (hQ : Q w [] w') :
    ∃ stats' w₁', Pass.run σ' w' = .ok stats' w₁' ∧ stats'.visited = stats.visited ∧
      stats'.mutations = stats.mutations ∧ w₁'.tree.slots = w₁.tree.slots ∧
      w₁'.tree.root = w₁.tree.root ∧ Q w₁ (trace σ w).reverse w₁' := by
  obtain ⟨count, s, hvisit, rfl, rfl, htrace⟩ := run_eq_ok hrun
  rw [htrace, List.reverse_reverse] at hgood
  have ha : Abreast Q { tree := w.tree, files := w.files } { tree := w'.tree, files := w'.files } :=
    ⟨halike, rfl, rfl, rfl, rfl, hQ⟩
  obtain ⟨s', hvisit', ha'⟩ := h.visit σ.depth 0 hvisit hgood hroot ha
  have hwork := ha'.work
  rw [← List.reverse_reverse s.log, ← htrace] at hwork
  refine ⟨.ofLog s'.log, s'.toWorkspace, ?_, ha'.visited, ha'.mutations, ha'.slots, ha'.root,
    hwork⟩
  have hroot' : visitRoot σ' { tree := w'.tree, files := w'.files } = .ok count s' := by
    rw [← hvisit', ← h.depth, ← halike.root]
    rfl
  rw [Pass.run, hroot']

end KeepsUp

/-! ### A single pass -/

/-- A property of the workspace and the log of a pass that every offer keeps, as long as the log is
`good` and offers are made at the nodes `here`. -/
structure Invariant (σ : PassSetting) (good : List Event → Prop) (here : Set NodeId)
    (I : Workspace → List Event → Prop) : Prop where
  suffix : ∀ {log log' : List Event}, log <:+ log' → good log' → good log
  entry : ∀ {w : Workspace} {log : List Event} {n : NodeId}, I w log → I w (.entered n :: log)
  child : ∀ {w : Workspace} {log : List Event} {n c : NodeId} {i : Nat}, I w log → n ∈ here →
    w.tree.child? n i = some c → c ∈ here
  offer : ∀ {s s₁ : PassState} {r : Rule} {n : NodeId} {o : Outcome}, r ∈ σ.rules → n ∈ here →
    I s.toWorkspace s.log → accepts s.tree r n = true → Pass.offer σ r n s = .ok o s₁ →
    good s₁.log → I s₁.toWorkspace s₁.log ∧ ∀ m ∈ o.nodes, m ∈ here
  removal : ∀ {s s₁ s₂ : PassState} {r : Rule} {n : NodeId}, r ∈ σ.rules → n ∈ here →
    I s.toWorkspace s.log → accepts s.tree r n = true → Pass.offer σ r n s = .ok .removed s₁ →
    good s₁.log → finishRemoval r.id n s₁ = .ok () s₂ → I s₂.toWorkspace s₂.log

/-- What an offer does depends on the workspace only, and it adds one event to the log. -/
lemma offer_of_workspace {σ : PassSetting} {r : Rule} {n : NodeId} {o : Outcome}
    {s s' s₁ : PassState} (hw : s'.toWorkspace = s.toWorkspace) (hok : offer σ r n s = .ok o s₁) :
    ∃ e, s₁ = { s with toWorkspace := s₁.toWorkspace, log := e :: s.log } ∧
      offer σ r n s' = .ok o { s' with toWorkspace := s₁.toWorkspace, log := e :: s'.log } := by
  have htree : s'.tree = s.tree := congrArg Workspace.tree hw
  have hfiles : s'.files = s.files := congrArg Workspace.files hw
  rcases offer_eq_ok_iff.mp hok with ⟨o₀, w, happ, hjudge, rfl⟩ | ⟨e, w, happ, hfatal, rfl, rfl⟩
  · refine ⟨_, rfl, offer_eq_ok_iff.mpr (Or.inl ⟨o₀, w, ?_, ?_, rfl⟩)⟩
    · rw [htree, hfiles, happ]
    · rw [htree, hjudge]
  · refine ⟨_, rfl, offer_eq_ok_iff.mpr (Or.inr ⟨e, w, ?_, hfatal, rfl, ?_⟩)⟩
    · rw [htree, hfiles, happ]
    · rw [hfiles]

lemma finishRemoval_of_workspace {rule : String} {n : NodeId} {s s' s₁ : PassState}
    (hw : s'.toWorkspace = s.toWorkspace) (hok : finishRemoval rule n s = .ok () s₁) :
    s₁ = { s with toWorkspace := s₁.toWorkspace } ∧
      finishRemoval rule n s' = .ok () { s' with toWorkspace := s₁.toWorkspace } := by
  have htree : s'.tree = s.tree := congrArg Workspace.tree hw
  have hfiles : s'.files = s.files := congrArg Workspace.files hw
  rw [finishRemoval_eq_ok_iff, htree]
  rcases finishRemoval_eq_ok_iff.mp hok with ⟨hdead, rfl⟩ | ⟨hlive, hroot, t, hremove, rfl⟩
  · exact ⟨rfl, Or.inl ⟨hdead, by rw [← hw]⟩⟩
  · exact ⟨rfl, Or.inr ⟨hlive, hroot, t, hremove, by rw [← hfiles]⟩⟩

namespace Invariant

variable {σ : PassSetting} {good : List Event → Prop} {here : Set NodeId}
  {I : Workspace → List Event → Prop}

/-- Where every offer leaves the node alone, no node comes in its place and none is removed. -/
lemma of_unchanged
    (hsuffix : ∀ {log log' : List Event}, log <:+ log' → good log' → good log)
    (hentry : ∀ {w : Workspace} {log : List Event} {n : NodeId}, I w log → I w (.entered n :: log))
    (hchild : ∀ {w : Workspace} {log : List Event} {n c : NodeId} {i : Nat}, I w log → n ∈ here →
      w.tree.child? n i = some c → c ∈ here)
    (hoffer : ∀ {s s₁ : PassState} {r : Rule} {n : NodeId} {o : Outcome}, r ∈ σ.rules → n ∈ here →
      I s.toWorkspace s.log → accepts s.tree r n = true → Pass.offer σ r n s = .ok o s₁ →
      good s₁.log → o = .unchanged ∧ I s₁.toWorkspace s₁.log) : Invariant σ good here I where
  suffix := hsuffix
  entry := hentry
  child := hchild
  offer hr hn hI hacc hok hgood := by
    obtain ⟨rfl, hI'⟩ := hoffer hr hn hI hacc hok hgood
    exact ⟨hI', fun _ hk => absurd hk List.not_mem_nil⟩
  removal hr hn hI hacc hok hgood _ := by
    obtain ⟨hremoved, _⟩ := hoffer hr hn hI hacc hok hgood
    cases hremoved

variable (h : Invariant σ good here I)
include h

/-- A pass keeps up with itself. -/
lemma keepsUp : KeepsUp σ σ (fun _ => False) good here fun w log w' => w' = w ∧ I w log where
  rules := Padded.refl σ.rules
  bound := rfl
  limit := UInt32.le_refl _
  depth := rfl
  suffix := h.suffix
  entry hQ := ⟨hQ.1, h.entry hQ.2⟩
  child ha hn hc := h.child ha.work.2 hn hc
  offer {s s' s₁ r n o} hr hn ha hacc hok hgood := by
    obtain ⟨hw, hI⟩ := ha.work
    obtain ⟨hI₁, hnodes⟩ := h.offer hr hn hI hacc hok hgood
    obtain ⟨e, hs₁, hok'⟩ := offer_of_workspace hw hok
    refine ⟨_, hok', ?_, hnodes⟩
    rw [hs₁] at hI₁ ⊢
    exact {
      slots := rfl
      root := rfl
      states := ha.states
      revisits := ha.revisits
      visited := by rw [List.countP_cons, List.countP_cons, ha.visited]
      mutations := by rw [List.countP_cons, List.countP_cons, ha.mutations]
      work := ⟨rfl, hI₁⟩ }
  removal {s s' s₁ s₂ r n} hr hn ha hacc hok hgood hremoval := by
    obtain ⟨hw, hI⟩ := ha.work
    have hI₂ := h.removal hr hn hI hacc hok hgood hremoval
    obtain ⟨e, hs₁, hok'⟩ := offer_of_workspace hw hok
    have hw₁ : ({ s' with toWorkspace := s₁.toWorkspace, log := e :: s'.log } :
        PassState).toWorkspace = s₁.toWorkspace := rfl
    obtain ⟨hs₂, hremoval'⟩ := finishRemoval_of_workspace hw₁ hremoval
    refine ⟨_, _, hok', hremoval', ?_⟩
    rw [hs₂, hs₁] at hI₂ ⊢
    exact {
      slots := rfl
      root := rfl
      states := ha.states
      revisits := ha.revisits
      visited := by rw [List.countP_cons, List.countP_cons, ha.visited]
      mutations := by rw [List.countP_cons, List.countP_cons, ha.mutations]
      work := ⟨rfl, hI₂⟩ }
  spare hq := hq.elim

/-- What every offer keeps holds at the end of the pass. -/
lemma run {w w₁ : Workspace} {stats : PassStats} (hrun : Pass.run σ w = .ok stats w₁)
    (hgood : good (trace σ w).reverse) (hroot : w.tree.root ∈ here) (hI : I w []) :
    I w₁ (trace σ w).reverse := by
  obtain ⟨_, _, _, _, _, _, _, _, hI'⟩ :=
    h.keepsUp.run hrun hgood hroot (.refl _) ⟨rfl, hI⟩
  exact hI'

end Invariant

section sound

variable {σ : PassSetting} {s s₁ : PassState} {n : NodeId} {o : Outcome}

lemma sound_offer {r : Rule} (hr : r.ActsByCommands) (hs : s.tree.Sound)
    (hok : offer σ r n s = .ok o s₁) : s₁.tree.Sound := by
  have hedited := hr σ.oracle σ.pass n ⟨s.tree.checkpoint, s.files⟩
  rcases offer_eq_ok_iff.mp hok with ⟨_, w, happ, _, rfl⟩ | ⟨e, w, happ, _, _, rfl⟩
  · rw [Action.after, happ] at hedited
    exact (hs.checkpoint.edited hedited).commit
  · rw [Action.after, happ] at hedited
    exact (hs.checkpoint.edited hedited).rollback

lemma sound_finishRemoval {rule : String} (hs : s.tree.Sound)
    (hok : finishRemoval rule n s = .ok () s₁) : s₁.tree.Sound := by
  rcases finishRemoval_eq_ok_iff.mp hok with ⟨_, rfl⟩ | ⟨_, _, t, hremove, rfl⟩
  · exact hs
  · have hsound := hs.run (.remove n)
    rwa [Command.run, Command.settle_of_ok _ hremove] at hsound

/-- A pass with rules that work by commands ends with a sound tree. -/
lemma sound_run (hrules : ∀ r ∈ σ.rules, r.ActsByCommands) {w w₁ : Workspace} {stats : PassStats}
    (hw : w.tree.Sound) (hrun : run σ w = .ok stats w₁) : w₁.tree.Sound := by
  have hinvariant : Invariant σ (fun _ => True) Set.univ fun w _ => w.tree.Sound := by
    refine ⟨fun _ _ => trivial, fun hI => hI, fun _ _ _ => Set.mem_univ _, ?_, ?_⟩
    · exact fun hr _ hI _ hok _ => ⟨sound_offer (hrules _ hr) hI hok, fun _ _ => Set.mem_univ _⟩
    · exact fun hr _ hI _ hok _ hfinish =>
        sound_finishRemoval (sound_offer (hrules _ hr) hI hok) hfinish
  exact hinvariant.run hrun trivial (Set.mem_univ _) hw

end sound

end Pass

end CodeMigration
