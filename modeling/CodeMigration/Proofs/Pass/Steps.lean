import CodeMigration.Pass
import CodeMigration.Proofs.Tree.History

/-!
# The steps of a pass

What each part of a pass does when it succeeds, and what a whole pass keeps because every part keeps
it (`Carries`), such as a log that only grows.
-/

namespace CodeMigration

/-- What a test that evaluates a run says of it. -/
lemma EStateM.exists_eq_ok {ε σ α : Type} {x : EStateM.Result ε σ α} {P : α → σ → Bool}
    (h : (match x with | .ok a s => P a s | _ => false) = true) :
    ∃ a s, x = .ok a s ∧ P a s = true := by
  cases x with
  | ok a s => exact ⟨a, s, rfl, h⟩
  | error e s => cases h

/-- An action that edits the tree succeeds with the edit. -/
lemma Action.edit_eq_ok_iff {α : Type} {m : Edit α} {w w' : Workspace} {a : α} :
    Action.edit m w = .ok a w' ↔ ∃ t', m w.tree = .ok a t' ∧ w' = { w with tree := t' } := by
  rw [Action.edit]
  cases m w.tree with
  | ok b t' => simp [eq_comm]
  | error e t' => simp

namespace PassState

/-- The state in which the visit of a node has come so far. -/
def mark (s : PassState) (id : NodeId) (v : VisitState) : PassState :=
  { s with states := (id, v) :: s.states }

/-- The state at the beginning of a visit. -/
def enter (s : PassState) (id : NodeId) : PassState :=
  { s.mark id .visiting with log := .entered id :: s.log }

variable (s : PassState) (id n : NodeId) (v : VisitState)

lemma stateOf_mark : (s.mark id v).stateOf n = if n = id then v else s.stateOf n := by
  rw [stateOf, mark, List.lookup_cons]
  by_cases hn : n = id
  · simp [hn]
  · simp [hn, beq_false_of_ne hn, stateOf]

lemma stateOf_enter :
    (s.enter id).stateOf n = if n = id then .visiting else s.stateOf n :=
  stateOf_mark s id n .visiting

end PassState

namespace Pass

variable {σ : PassSetting} {s s' : PassState} {node : NodeId}

/-! ### Offers -/

lemma judge_unchanged_iff {rule : String} {before : Nat} {t : Tree} {o : Outcome} :
    judge rule node before t o = .ok .unchanged ↔ o = .unchanged ∧ t.revision = before := by
  cases o with
  | unchanged =>
    rw [judge]
    by_cases h : t.revision = before <;> simp [h]
  | mutated => simp [judge]
  | replaced new =>
    rw [judge]
    split <;> simp
  | expanded new =>
    rw [judge]
    split <;> simp
  | removed => simp [judge]

lemma judge_replaced_iff {rule : String} {before : Nat} {t : Tree} {o : Outcome} {new : NodeId} :
    judge rule node before t o = .ok (.replaced new) ↔
      o = .replaced new ∧ t.isAttached new = true := by
  cases o with
  | unchanged =>
    rw [judge]
    split <;> simp
  | mutated => simp [judge]
  | replaced m =>
    rw [judge]
    split
    · next hattached => grind
    · next hstray => grind
  | expanded ns =>
    rw [judge]
    split <;> simp
  | removed => simp [judge]

lemma offer_eq_ok_iff {r : Rule} {o : Outcome} :
    offer σ r node s = .ok o s' ↔
      (∃ o₀ w, r.apply σ.oracle σ.pass node ⟨s.tree.checkpoint, s.files⟩ = .ok o₀ w ∧
        judge r.id node s.tree.revision w.tree.commit o₀ = .ok o ∧
        s' = { s with
          tree := w.tree.commit, files := w.files, log := .offered r.id r.order node o :: s.log }) ∨
      ∃ e w, r.apply σ.oracle σ.pass node ⟨s.tree.checkpoint, s.files⟩ = .error (.error e) w ∧
        e.isFatal = false ∧ o = .unchanged ∧
        s' = { s with
          tree := w.tree.rollback, files := w.files.take s.files.length,
          log := .abandoned r.id r.order node e :: s.log } := by
  rw [offer]
  cases happ : r.apply σ.oracle σ.pass node ⟨s.tree.checkpoint, s.files⟩ with
  | ok o₀ w =>
    cases hj : judge r.id node s.tree.revision w.tree.commit o₀ with
    | ok o' =>
      simp only [hj, EStateM.Result.ok.injEq, reduceCtorEq, false_and, exists_false, or_false]
      constructor
      · rintro ⟨rfl, rfl⟩
        exact ⟨o₀, w, ⟨rfl, rfl⟩, hj, rfl⟩
      · rintro ⟨o₁, w₁, ⟨rfl, rfl⟩, hj', rfl⟩
        obtain rfl : o' = o := Except.ok.inj (hj.symm.trans hj')
        exact ⟨rfl, rfl⟩
    | error e =>
      simp only [hj, EStateM.Result.ok.injEq, reduceCtorEq, false_and, exists_false, or_false,
        false_iff, not_exists, not_and]
      rintro o₁ w₁ ⟨rfl, rfl⟩ hj'
      rw [hj] at hj'
      cases hj'
  | error f w =>
    cases f with
    | fault f => simp
    | error e =>
      cases hfatal : e.isFatal with
      | true => simp_all
      | false =>
        simp only [hfatal, Bool.false_eq_true, if_false, EStateM.Result.ok.injEq, reduceCtorEq,
          false_and, exists_false, false_or, EStateM.Result.error.injEq, Failure.error.injEq]
        constructor
        · rintro ⟨rfl, rfl⟩
          exact ⟨e, w, ⟨rfl, rfl⟩, hfatal, rfl, rfl⟩
        · rintro ⟨e', w', ⟨rfl, rfl⟩, _, rfl, rfl⟩
          exact ⟨rfl, rfl⟩

/-! ### Rounds -/

/-- Whether a rule is offered a node. -/
def accepts (t : Tree) (r : Rule) (n : NodeId) : Bool := (t.kind? n).any r.kinds.contains

variable {v : NodeId → UInt32 → PassM Nat} {r : Rule} {rules : List Rule} {lineage : UInt32}
  {last : Option String}

/-- What happens in a round after the outcome of an offer. -/
def afterOffer (σ : PassSetting) (v : NodeId → UInt32 → PassM Nat) (r : Rule) (rules : List Rule)
    (current : NodeId) (lineage : UInt32) (last : Option String) : Outcome → PassM RoundEnd
  | .unchanged => round σ v rules current lineage last
  | .mutated => round σ v rules current lineage (some r.id)
  | .replaced new => do
    checkLineage σ current r.id (lineage + 1)
    setState current .visited
    setState new .visiting
    round σ v rules new (lineage + 1) (some r.id)
  | .expanded new => do
    checkLineage σ current r.id (lineage + 1)
    setState current .visited
    return .settled (.expanded (← visitAll (v · (lineage + 1)) new))
  | .removed => do
    finishRemoval r.id current
    return .settled .removed

lemma round_cons_eq_ok_iff {e : RoundEnd} :
    round σ v (r :: rules) node lineage last s = .ok e s' ↔
      (accepts s.tree r node = false ∧ round σ v rules node lineage last s = .ok e s') ∨
      (accepts s.tree r node = true ∧ ∃ o s₁, offer σ r node s = .ok o s₁ ∧
        afterOffer σ v r rules node lineage last o s₁ = .ok e s') := by
  rw [round, EStateM.bind_eq_ok_iff]
  constructor
  · rintro ⟨s₀, _, hget, h⟩
    cases hget
    split at h
    · next hacc => exact Or.inl ⟨by simpa [accepts] using hacc, h⟩
    · next hacc =>
      obtain ⟨o, s₁, ho, h⟩ := EStateM.bind_eq_ok_iff.mp h
      refine Or.inr ⟨by simpa [accepts] using hacc, o, s₁, ho, ?_⟩
      cases o <;> exact h
  · rintro (⟨hacc, h⟩ | ⟨hacc, o, s₁, ho, h⟩)
    · refine ⟨s, s, rfl, ?_⟩
      rw [if_pos (by simpa [accepts] using hacc)]
      exact h
    · refine ⟨s, s, rfl, ?_⟩
      rw [if_neg (by simpa [accepts] using hacc), EStateM.bind_eq_ok_iff]
      refine ⟨o, s₁, ho, ?_⟩
      cases o <;> exact h

/-- A count that can be exceeded does not wrap around there. -/
lemma toNat_succ {a : UInt32} (h : a.toNat + 1 < UInt32.size) : (a + 1).toNat = a.toNat + 1 := by
  rw [UInt32.toNat_add, UInt32.toNat_one]
  exact Nat.mod_eq_of_lt h

lemma toNat_succ_of_le {a b : UInt32} (hb : b.toNat + 1 < UInt32.size) (h : a ≤ b) :
    (a + 1).toNat = a.toNat + 1 :=
  toNat_succ (Nat.lt_of_le_of_lt (Nat.succ_le_succ (UInt32.le_iff_toNat_le.mp h)) hb)

/-- The limit of replacements as a number that does not wrap around. -/
def allowance (σ : PassSetting) : Nat := max 1 σ.rules.length * (σ.revisitBound.toNat + 1)

/-- Within 32 bits the limit is what it is meant to be. -/
lemma toNat_replacementLimit (hfits : allowance σ < UInt32.size) :
    (replacementLimit σ).toNat = allowance σ := by
  have hrules : σ.rules.length < UInt32.size :=
    Nat.lt_of_le_of_lt (Nat.le_trans (Nat.le_max_right 1 _)
      (Nat.le_mul_of_pos_right _ (Nat.succ_pos _))) hfits
  have hbound : (σ.revisitBound + 1).toNat = σ.revisitBound.toNat + 1 := by
    rw [UInt32.toNat_add, UInt32.toNat_one]
    exact Nat.mod_eq_of_lt (Nat.lt_of_le_of_lt (Nat.le_mul_of_pos_left _
      (Nat.lt_of_lt_of_le Nat.zero_lt_one (Nat.le_max_left 1 σ.rules.length))) hfits)
  rw [replacementLimit, UInt32.toNat_mul, UInt32.toNat_max, UInt32.toNat_ofNat_of_lt' hrules,
    UInt32.toNat_one, hbound]
  exact Nat.mod_eq_of_lt hfits

/-- Within 32 bits more rules do not lower the limit. -/
lemma replacementLimit_le_of_length_le {σ σ' : PassSetting}
    (hbound : σ'.revisitBound = σ.revisitBound) (hrules : σ.rules.length ≤ σ'.rules.length)
    (hfits : allowance σ' < UInt32.size) : replacementLimit σ ≤ replacementLimit σ' := by
  have hle : allowance σ ≤ allowance σ' := by
    rw [allowance, allowance, hbound]
    exact Nat.mul_le_mul_right _ (by omega)
  rw [UInt32.le_iff_toNat_le, toNat_replacementLimit hfits,
    toNat_replacementLimit (Nat.lt_of_le_of_lt hle hfits)]
  exact hle

/-- When it wraps around, the limit is less than it is meant to be. -/
lemma toNat_replacementLimit_le (σ : PassSetting) : (replacementLimit σ).toNat ≤ allowance σ := by
  rw [replacementLimit, UInt32.toNat_mul, UInt32.toNat_max, UInt32.toNat_add, UInt32.toNat_ofNat',
    UInt32.toNat_one]
  refine (Nat.mod_le _ _).trans (Nat.mul_le_mul ?_ (Nat.mod_le _ _))
  have hle := Nat.mod_le σ.rules.length (2 ^ 32)
  omega

/-- Counts that a node is offered again, when it is still the same. -/
def recount (σ : PassSetting) (order : VisitOrder) (node current : NodeId) (rule : String) :
    PassM Unit :=
  if current = node then countRevisit σ order current rule else return ()

/-- A round in which nothing was changed is the last one. -/
lemma roundsFrom_succ_eq_ok_iff {order : VisitOrder} {k : Nat} {place : Occupancy} :
    roundsFrom σ v order (k + 1) node lineage s = .ok place s' ↔
      ∃ e s₁, round σ v (σ.rules.filter (·.order = order)) node lineage none s = .ok e s₁ ∧
        match e with
        | .settled place₁ => place = place₁ ∧ s' = s₁
        | .ongoing current _ none => place = .node current ∧ s' = s₁
        | .ongoing current lineage (some rule) =>
          ∃ s₂, recount σ order node current rule s₁ = .ok () s₂ ∧
            roundsFrom σ v order k current lineage s₂ = .ok place s' := by
  rw [roundsFrom, EStateM.bind_eq_ok_iff]
  refine exists_congr fun e => exists_congr fun s₁ => and_congr_right fun _ => ?_
  match e with
  | .settled place₁ => exact EStateM.pure_eq_ok_iff
  | .ongoing current _ none => exact EStateM.pure_eq_ok_iff
  | .ongoing current lineage (some rule) =>
    by_cases hc : current = node
    · simp only [recount, if_pos hc]
      rw [EStateM.bind_eq_ok_iff]
      exact ⟨fun ⟨_, s₂, hcount, h⟩ => ⟨s₂, hcount, h⟩, fun ⟨s₂, hcount, h⟩ => ⟨(), s₂, hcount, h⟩⟩
    · simp only [recount, if_neg hc]
      refine ⟨fun h => ⟨s₁, rfl, h⟩, fun ⟨s₂, hcount, h⟩ => ?_⟩
      cases hcount
      exact h

/-- Rounds that succeed were allowed at least one. -/
lemma depth_pos_of_rounds {order : VisitOrder} {place : Occupancy}
    (h : rounds σ v order node lineage s = .ok place s') : 0 < σ.depth := by
  rw [Nat.pos_iff_ne_zero]
  intro hdepth
  rw [rounds, hdepth] at h
  cases h

lemma exists_roundsFrom_succ {order : VisitOrder} {place : Occupancy}
    (h : rounds σ v order node lineage s = .ok place s') :
    ∃ k, roundsFrom σ v order (k + 1) node lineage s = .ok place s' := by
  obtain ⟨k, hk⟩ := Nat.exists_eq_succ_of_ne_zero (depth_pos_of_rounds h).ne'
  rw [rounds, hk] at h
  exact ⟨k, h⟩

/-- A round leaves alone a node that no rule accepts. -/
lemma round_of_unaccepted (hrules : ∀ r ∈ rules, accepts s.tree r node = false) :
    round σ v rules node lineage last s = .ok (.ongoing node lineage last) s := by
  induction rules with
  | nil => rfl
  | cons r rules ih =>
    obtain ⟨hr, hrest⟩ := List.forall_mem_cons.mp hrules
    exact round_cons_eq_ok_iff.mpr (Or.inl ⟨hr, ih hrest⟩)

lemma rounds_of_unaccepted {order : VisitOrder} (hdepth : 0 < σ.depth)
    (hrules : ∀ r ∈ σ.rules, r.order = order → accepts s.tree r node = false) :
    rounds σ v order node lineage s = .ok (.node node) s := by
  obtain ⟨k, hk⟩ := Nat.exists_eq_succ_of_ne_zero (Nat.ne_zero_of_lt hdepth)
  rw [rounds, hk, roundsFrom_succ_eq_ok_iff]
  refine ⟨_, s, round_of_unaccepted fun r hr => ?_, rfl, rfl⟩
  obtain ⟨hr, horder⟩ := List.mem_filter.mp hr
  exact hrules r hr (of_decide_eq_true horder)

/-- The rounds of an order without rules leave the node alone. -/
lemma rounds_of_no_rules {order : VisitOrder} (hdepth : 0 < σ.depth)
    (hrules : ∀ r ∈ σ.rules, r.order ≠ order) (v : NodeId → UInt32 → PassM Nat) (node : NodeId)
    (lineage : UInt32) (s : PassState) :
    rounds σ v order node lineage s = .ok (.node node) s :=
  rounds_of_unaccepted hdepth fun r hr horder => absurd horder (hrules r hr)

/-! ### Checks of a round -/

section checks

variable {σ : PassSetting} {s s' : PassState} {n : NodeId} {rule : String}

lemma checkLineage_eq_ok_iff {lineage : UInt32} :
    checkLineage σ n rule lineage s = .ok () s' ↔ lineage ≤ replacementLimit σ ∧ s' = s := by
  rw [checkLineage]
  split
  · next hlt =>
    refine ⟨fun h => ?_, fun h => absurd h.1 (UInt32.not_le.mpr hlt)⟩
    cases h
  · next hle =>
    rw [EStateM.pure_eq_ok_iff]
    exact ⟨fun h => ⟨UInt32.not_lt.mp hle, h.2⟩, fun h => ⟨rfl, h.2⟩⟩

lemma countRevisit_eq_ok_iff {order : VisitOrder} :
    countRevisit σ order n rule s = .ok () s' ↔
      s.revisitsOf n order + 1 ≤ σ.revisitBound ∧
        s' = { s with revisits := ((n, order), s.revisitsOf n order + 1) :: s.revisits } := by
  rw [countRevisit, EStateM.bind_eq_ok_iff]
  constructor
  · rintro ⟨s₀, _, hget, h⟩
    cases hget
    obtain ⟨_, s₁, hmodify, h⟩ := EStateM.bind_eq_ok_iff.mp h
    cases hmodify
    split at h
    · cases h
    · next hle =>
      cases h
      exact ⟨UInt32.not_lt.mp hle, rfl⟩
  · rintro ⟨hle, rfl⟩
    refine ⟨s, s, rfl, EStateM.bind_eq_ok_iff.mpr ⟨(), _, rfl, ?_⟩⟩
    rw [if_neg (UInt32.not_lt.mpr hle)]
    rfl

/-- Counting changes nothing but the counts. -/
lemma exists_revisits_of_recount {order : VisitOrder} {current : NodeId}
    (h : recount σ order n current rule s = .ok () s') : ∃ rs, s' = { s with revisits := rs } := by
  rw [recount] at h
  split at h
  · exact ⟨_, (countRevisit_eq_ok_iff.mp h).2⟩
  · cases h
    exact ⟨_, rfl⟩

variable {v : NodeId → UInt32 → PassM Nat} {r : Rule} {rules : List Rule} {lineage : UInt32}
  {last : Option String} {e : RoundEnd}

lemma afterReplaced_eq_ok_iff {new : NodeId} :
    afterOffer σ v r rules n lineage last (.replaced new) s = .ok e s' ↔
      lineage + 1 ≤ replacementLimit σ ∧
        round σ v rules new (lineage + 1) (some r.id) ((s.mark n .visited).mark new .visiting) =
          .ok e s' := by
  rw [afterOffer, EStateM.bind_eq_ok_iff]
  constructor
  · rintro ⟨_, s₁, hcheck, h⟩
    obtain ⟨hle, rfl⟩ := checkLineage_eq_ok_iff.mp hcheck
    obtain ⟨_, s₂, hset, h⟩ := EStateM.bind_eq_ok_iff.mp h
    cases hset
    obtain ⟨_, s₃, hset, h⟩ := EStateM.bind_eq_ok_iff.mp h
    cases hset
    exact ⟨hle, h⟩
  · rintro ⟨hle, h⟩
    refine ⟨(), s, checkLineage_eq_ok_iff.mpr ⟨hle, rfl⟩, ?_⟩
    exact EStateM.bind_eq_ok_iff.mpr ⟨(), _, rfl, EStateM.bind_eq_ok_iff.mpr ⟨(), _, rfl, h⟩⟩

lemma afterExpanded_eq_ok_iff {new : List NodeId} :
    afterOffer σ v r rules n lineage last (.expanded new) s = .ok e s' ↔
      lineage + 1 ≤ replacementLimit σ ∧ ∃ count,
        visitAll (v · (lineage + 1)) new (s.mark n .visited) = .ok count s' ∧
          e = .settled (.expanded count) := by
  rw [afterOffer, EStateM.bind_eq_ok_iff]
  constructor
  · rintro ⟨_, s₁, hcheck, h⟩
    obtain ⟨hle, rfl⟩ := checkLineage_eq_ok_iff.mp hcheck
    obtain ⟨_, s₂, hset, h⟩ := EStateM.bind_eq_ok_iff.mp h
    cases hset
    obtain ⟨count, s₃, hvisit, h⟩ := EStateM.bind_eq_ok_iff.mp h
    obtain ⟨rfl, rfl⟩ := EStateM.pure_eq_ok_iff.mp h
    exact ⟨hle, count, hvisit, rfl⟩
  · rintro ⟨hle, count, hvisit, rfl⟩
    refine ⟨(), s, checkLineage_eq_ok_iff.mpr ⟨hle, rfl⟩, ?_⟩
    refine EStateM.bind_eq_ok_iff.mpr ⟨(), _, rfl, EStateM.bind_eq_ok_iff.mpr ⟨count, s', ?_, rfl⟩⟩
    exact hvisit

lemma afterRemoved_eq_ok_iff :
    afterOffer σ v r rules n lineage last .removed s = .ok e s' ↔
      finishRemoval r.id n s = .ok () s' ∧ e = .settled .removed := by
  rw [afterOffer, EStateM.bind_eq_ok_iff]
  constructor
  · rintro ⟨_, s₁, hremoval, h⟩
    obtain ⟨rfl, rfl⟩ := EStateM.pure_eq_ok_iff.mp h
    exact ⟨hremoval, rfl⟩
  · rintro ⟨hremoval, rfl⟩
    exact ⟨(), s', hremoval, rfl⟩

lemma visitAll_cons_eq_ok_iff {u : NodeId → PassM Nat} {ns : List NodeId} {count : Nat} :
    visitAll u (n :: ns) s = .ok count s' ↔
      ∃ c s₁ cs, u n s = .ok c s₁ ∧ visitAll u ns s₁ = .ok cs s' ∧ count = c + cs := by
  rw [visitAll, EStateM.bind_eq_ok_iff]
  constructor
  · rintro ⟨c, s₁, hn, h⟩
    obtain ⟨cs, s₂, hns, h⟩ := EStateM.bind_eq_ok_iff.mp h
    obtain ⟨rfl, rfl⟩ := EStateM.pure_eq_ok_iff.mp h
    exact ⟨c, s₁, cs, hn, hns, rfl⟩
  · rintro ⟨c, s₁, cs, hn, hns, rfl⟩
    exact ⟨c, s₁, hn, EStateM.bind_eq_ok_iff.mpr ⟨cs, s', hns, rfl⟩⟩

lemma finishRemoval_eq_ok_iff :
    finishRemoval rule n s = .ok () s' ↔
      (s.tree.isLive n = false ∧ s' = s) ∨
      (s.tree.isLive n = true ∧ n ≠ s.tree.root ∧
        ∃ t, s.tree.remove n = .ok t ∧ s' = { s with tree := t }) := by
  rw [finishRemoval, EStateM.bind_eq_ok_iff]
  constructor
  · rintro ⟨s₀, _, hget, h⟩
    cases hget
    split at h
    · next hdead => exact Or.inl ⟨by simpa using hdead, (EStateM.pure_eq_ok_iff.mp h).2⟩
    · next hlive =>
      split at h
      · cases h
      · next hroot =>
        cases hok : Edit.remove n s.tree with
        | ok _ t =>
          rw [hok] at h
          cases h
          exact Or.inr ⟨by simpa using hlive, hroot, t, Edit.result_eq_ok_iff.mpr hok, rfl⟩
        | error e t =>
          rw [hok] at h
          cases h
  · rintro (⟨hdead, rfl⟩ | ⟨hlive, hroot, t, hok, rfl⟩)
    · refine ⟨s', s', rfl, ?_⟩
      rw [if_pos (by simpa using hdead)]
      rfl
    · refine ⟨s, s, rfl, ?_⟩
      rw [if_neg (by simpa using hlive), if_neg hroot, Edit.result_eq_ok_iff.mp hok]
      rfl

end checks

/-! ### The depth of a setting -/

/-- The setting with another depth. -/
def withDepth (σ : PassSetting) (d : Nat) : PassSetting := { σ with depth := d }

lemma round_withDepth (d : Nat) (v : NodeId → UInt32 → PassM Nat) (rules : List Rule) (n : NodeId)
    (lineage : UInt32) (last : Option String) :
    round (withDepth σ d) v rules n lineage last = round σ v rules n lineage last := by
  induction rules generalizing n lineage last with
  | nil => rfl
  | cons r rules ih =>
    simp only [round, ih]
    rfl

lemma roundsFrom_withDepth (d : Nat) (v : NodeId → UInt32 → PassM Nat) (order : VisitOrder)
    (k : Nat) (n : NodeId) (lineage : UInt32) :
    roundsFrom (withDepth σ d) v order k n lineage = roundsFrom σ v order k n lineage := by
  induction k generalizing n lineage with
  | zero => rfl
  | succ k ih =>
    simp only [roundsFrom, ih, round_withDepth]
    rfl

/-- The depth is the number of rounds that are allowed. -/
lemma rounds_withDepth (d : Nat) (v : NodeId → UInt32 → PassM Nat) (order : VisitOrder)
    (n : NodeId) (lineage : UInt32) :
    rounds (withDepth σ d) v order n lineage = roundsFrom σ v order d n lineage :=
  roundsFrom_withDepth d v order d n lineage

/-! ### Visits -/

lemma walk_succ_eq_ok_iff {u : NodeId → PassM Nat} {k i : Nat} :
    walk u node (k + 1) i s = .ok () s' ↔
      (s.tree.child? node i = none ∧ s' = s) ∨
      ∃ c, s.tree.child? node i = some c ∧ s.tree.Link node c ∧
        ∃ count s₁, u c s = .ok count s₁ ∧ walk u node k (i + count) s₁ = .ok () s' := by
  rw [walk, EStateM.bind_eq_ok_iff]
  constructor
  · rintro ⟨s₀, _, hget, h⟩
    cases hget
    cases hc : s.tree.child? node i with
    | none =>
      simp only [hc] at h
      exact Or.inl ⟨rfl, (EStateM.pure_eq_ok_iff.mp h).2⟩
    | some c =>
      simp only [hc] at h
      split at h
      · next hlink => exact Or.inr ⟨c, rfl, hlink, EStateM.bind_eq_ok_iff.mp h⟩
      · cases h
  · rintro (⟨hc, rfl⟩ | ⟨c, hc, hlink, h⟩)
    · refine ⟨s', s', rfl, ?_⟩
      simp only [hc]
      rfl
    · refine ⟨s, s, rfl, ?_⟩
      have hparent : s.tree.parent? c = some node := hlink
      simp only [hc]
      rw [if_pos hparent]
      exact EStateM.bind_eq_ok_iff.mpr h

/-- What a visit does after the rounds on the way down, with any visits below it. -/
def leaveWith (σ : PassSetting) (v : NodeId → UInt32 → PassM Nat) (k : Nat) (node : NodeId)
    (lineage : UInt32) : Occupancy → PassM Nat
  | .node current => do
    setState current .visiting
    walk (v · 0) current k 0
    let place ← rounds σ v .post current lineage
    setState node .visited
    setState current .visited
    return place.count
  | place => do
    setState node .visited
    return place.count

lemma leaveWith_node_eq_ok_iff {k count : Nat} {current : NodeId} :
    leaveWith σ v k node lineage (.node current) s = .ok count s' ↔
      ∃ s₁ place s₂, walk (v · 0) current k 0 (s.mark current .visiting) = .ok () s₁ ∧
        rounds σ v .post current lineage s₁ = .ok place s₂ ∧
        count = place.count ∧ s' = (s₂.mark node .visited).mark current .visited := by
  rw [leaveWith, EStateM.bind_eq_ok_iff]
  constructor
  · rintro ⟨_, _, hset, h⟩
    cases hset
    obtain ⟨_, s₁, hwalk, h⟩ := EStateM.bind_eq_ok_iff.mp h
    obtain ⟨place, s₂, hpost, h⟩ := EStateM.bind_eq_ok_iff.mp h
    cases h
    exact ⟨s₁, place, s₂, hwalk, hpost, rfl, rfl⟩
  · rintro ⟨s₁, place, s₂, hwalk, hpost, rfl, rfl⟩
    refine ⟨(), _, rfl, EStateM.bind_eq_ok_iff.mpr ⟨(), s₁, hwalk, ?_⟩⟩
    exact EStateM.bind_eq_ok_iff.mpr ⟨place, s₂, hpost, rfl⟩

/-- A visit of a node, with any visits below it. -/
def visitWith (σ : PassSetting) (v : NodeId → UInt32 → PassM Nat) (k : Nat) (node : NodeId)
    (lineage : UInt32) : PassM Nat := do
  let s ← get
  if s.stateOf node ≠ .pending ∨ !s.tree.isLive node then return 1
  else
    setState node .visiting
    note (.entered node)
    leaveWith σ v k node lineage (← rounds σ v .pre node lineage)

lemma visitWith_eq_ok_iff {k count : Nat} :
    visitWith σ v k node lineage s = .ok count s' ↔
      ((s.stateOf node ≠ .pending ∨ s.tree.isLive node = false) ∧ count = 1 ∧ s' = s) ∨
      ((s.stateOf node = .pending ∧ s.tree.isLive node = true) ∧
        ∃ place s₁, rounds σ v .pre node lineage (s.enter node) = .ok place s₁ ∧
          leaveWith σ v k node lineage place s₁ = .ok count s') := by
  rw [visitWith, EStateM.bind_eq_ok_iff]
  constructor
  · rintro ⟨s₀, _, hget, h⟩
    cases hget
    split at h
    · next hseen => exact Or.inl ⟨by simpa using hseen, EStateM.pure_eq_ok_iff.mp h⟩
    · next hnew =>
      obtain ⟨_, _, hset, h⟩ := EStateM.bind_eq_ok_iff.mp h
      cases hset
      obtain ⟨_, _, hnote, h⟩ := EStateM.bind_eq_ok_iff.mp h
      cases hnote
      exact Or.inr ⟨by simpa using hnew, EStateM.bind_eq_ok_iff.mp h⟩
  · rintro (⟨hseen, rfl, rfl⟩ | ⟨hnew, h⟩)
    · refine ⟨s', s', rfl, ?_⟩
      rw [if_pos (by simpa using hseen)]
      rfl
    · refine ⟨s, s, rfl, ?_⟩
      rw [if_neg (by simpa using hnew), EStateM.bind_eq_ok_iff]
      refine ⟨(), _, rfl, EStateM.bind_eq_ok_iff.mpr ⟨(), _, rfl, ?_⟩⟩
      exact EStateM.bind_eq_ok_iff.mpr h

lemma visit_succ (k : Nat) :
    visit σ (k + 1) node lineage = visitWith σ (visit σ k) k node lineage := rfl

/-- What a visit does after the rounds on the way down. -/
def leave (σ : PassSetting) (k : Nat) (node : NodeId) (lineage : UInt32) : Occupancy → PassM Nat
  | .node current => do
    setState current .visiting
    walk (visit σ k · 0) current k 0
    let place ← rounds σ (visit σ k) .post current lineage
    setState node .visited
    setState current .visited
    return place.count
  | place => do
    setState node .visited
    return place.count

lemma leave_eq (k : Nat) (place : Occupancy) :
    leave σ k node lineage place = leaveWith σ (visit σ k) k node lineage place := by
  cases place <;> rfl

lemma leave_node_eq_ok_iff {k count : Nat} {current : NodeId} :
    leave σ k node lineage (.node current) s = .ok count s' ↔
      ∃ s₁ place s₂, walk (visit σ k · 0) current k 0 (s.mark current .visiting) = .ok () s₁ ∧
        rounds σ (visit σ k) .post current lineage s₁ = .ok place s₂ ∧
        count = place.count ∧ s' = (s₂.mark node .visited).mark current .visited :=
  leaveWith_node_eq_ok_iff

lemma visit_succ_eq_ok_iff {k count : Nat} :
    visit σ (k + 1) node lineage s = .ok count s' ↔
      ((s.stateOf node ≠ .pending ∨ s.tree.isLive node = false) ∧ count = 1 ∧ s' = s) ∨
      ((s.stateOf node = .pending ∧ s.tree.isLive node = true) ∧
        ∃ place s₁, rounds σ (visit σ k) .pre node lineage (s.enter node) = .ok place s₁ ∧
          leave σ k node lineage place s₁ = .ok count s') := by
  simp only [visit_succ, leave_eq]
  exact visitWith_eq_ok_iff

/-! ### What every step carries on -/

/-- When the step succeeds, the state after it is so related to the state before it. -/
def Leads {α : Type} (R : PassState → PassState → Prop) (m : PassM α) : Prop :=
  ∀ s a s', m s = .ok a s' → R s s'

/-- A relation of states that is kept by whatever has nothing to do with rules. -/
structure Lasts (R : PassState → PassState → Prop) : Prop where
  refl : ∀ s, R s s
  trans : ∀ {s s' s''}, R s s' → R s' s'' → R s s''
  mark : ∀ s n state, R s (s.mark n state)
  enter : ∀ s n, R s (s.enter n)
  ofTree : ∀ (s : PassState) t, R s { s with tree := t }

/-- A relation of states that is kept by offers and by counting them, too. -/
structure Carries (σ : PassSetting) (R : PassState → PassState → Prop) : Prop extends Lasts R where
  offer : ∀ {r n s o s'}, offer σ r n s = .ok o s' → R s s'
  recount : ∀ {order node current rule s s'}, recount σ order node current rule s = .ok () s' →
    R s s'

section leads

variable {R : PassState → PassState → Prop} {α β : Type}

lemma leads_throw (f : Failure) : Leads R (throw f : PassM α) := by
  intro s a s' h
  cases h

namespace Lasts

variable (hR : Lasts R)
include hR

lemma leads_pure (a : α) : Leads R (pure a : PassM α) := by
  intro s b s' h
  obtain ⟨_, rfl⟩ := EStateM.pure_eq_ok_iff.mp h
  exact hR.refl s'

lemma leads_bind {m : PassM α} {f : α → PassM β} (hm : Leads R m) (hf : ∀ a, Leads R (f a)) :
    Leads R (m >>= f) := by
  intro s b s'' h
  obtain ⟨a, s', ha, hb⟩ := EStateM.bind_eq_ok_iff.mp h
  exact hR.trans (hm s a s' ha) (hf a s' b s'' hb)

lemma leads_setState (id : NodeId) (v : VisitState) : Leads R (setState id v) := by
  intro s a s' h
  cases h
  exact hR.mark s id v

lemma leads_checkLineage (node : NodeId) (rule : String) (lineage : UInt32) :
    Leads R (checkLineage σ node rule lineage) := by
  intro s a s' h
  obtain ⟨_, rfl⟩ := checkLineage_eq_ok_iff.mp h
  exact hR.refl s'

lemma leads_finishRemoval (rule : String) (node : NodeId) : Leads R (finishRemoval rule node) := by
  intro s a s' h
  rcases finishRemoval_eq_ok_iff.mp h with ⟨_, rfl⟩ | ⟨_, _, t, _, rfl⟩
  · exact hR.refl s'
  · exact hR.ofTree s t

lemma leads_visitAll {u : NodeId → PassM Nat} (hu : ∀ n, Leads R (u n)) (ns : List NodeId) :
    Leads R (visitAll u ns) := by
  induction ns with
  | nil => exact hR.leads_pure 0
  | cons n ns ih =>
    exact hR.leads_bind (hu n) fun _ => hR.leads_bind ih fun _ => hR.leads_pure _

lemma leads_walk {u : NodeId → PassM Nat} (hu : ∀ n, Leads R (u n)) (node : NodeId) (k i : Nat) :
    Leads R (walk u node k i) := by
  induction k generalizing i with
  | zero => exact leads_throw _
  | succ k ih =>
    intro s a s' h
    rcases walk_succ_eq_ok_iff.mp h with ⟨_, rfl⟩ | ⟨c, _, _, count, s₁, hc, h⟩
    · exact hR.refl s'
    · exact hR.trans (hu c s count s₁ hc) (ih _ s₁ a s' h)

end Lasts

namespace Carries

variable (hR : Carries σ R)
include hR

lemma leads_afterOffer (hv : ∀ n l, Leads R (v n l))
    (hround : ∀ node lineage last, Leads R (round σ v rules node lineage last)) (o : Outcome) :
    Leads R (afterOffer σ v r rules node lineage last o) := by
  cases o with
  | unchanged => exact hround _ _ _
  | mutated => exact hround _ _ _
  | replaced new =>
    refine hR.leads_bind (hR.leads_checkLineage _ _ _) fun _ => ?_
    refine hR.leads_bind (hR.leads_setState _ _) fun _ => ?_
    exact hR.leads_bind (hR.leads_setState _ _) fun _ => hround _ _ _
  | expanded new =>
    refine hR.leads_bind (hR.leads_checkLineage _ _ _) fun _ => ?_
    refine hR.leads_bind (hR.leads_setState _ _) fun _ => ?_
    exact hR.leads_bind (hR.leads_visitAll (fun n => hv n _) new) fun _ => hR.leads_pure _
  | removed => exact hR.leads_bind (hR.leads_finishRemoval _ _) fun _ => hR.leads_pure _

lemma leads_round (hv : ∀ n l, Leads R (v n l)) (rules : List Rule) (node : NodeId)
    (lineage : UInt32) (last : Option String) : Leads R (round σ v rules node lineage last) := by
  induction rules generalizing node lineage last with
  | nil => exact hR.leads_pure _
  | cons r rules ih =>
    intro s e s' h
    rcases round_cons_eq_ok_iff.mp h with ⟨_, h⟩ | ⟨_, o, s₁, ho, h⟩
    · exact ih _ _ _ s e s' h
    · exact hR.trans (hR.offer ho) (hR.leads_afterOffer hv ih o s₁ e s' h)

lemma leads_roundsFrom (hv : ∀ n l, Leads R (v n l)) (order : VisitOrder) (k : Nat)
    (node : NodeId) (lineage : UInt32) : Leads R (roundsFrom σ v order k node lineage) := by
  induction k generalizing node lineage with
  | zero => exact leads_throw _
  | succ k ih =>
    intro s place s' h
    obtain ⟨e, s₁, hround, h⟩ := roundsFrom_succ_eq_ok_iff.mp h
    refine hR.trans (hR.leads_round hv _ _ _ _ s e s₁ hround) ?_
    match e, h with
    | .settled _, ⟨_, h⟩ => exact h ▸ hR.refl s₁
    | .ongoing _ _ none, ⟨_, h⟩ => exact h ▸ hR.refl s₁
    | .ongoing current lineage (some rule), ⟨s₂, hcount, h⟩ =>
      exact hR.trans (hR.recount hcount) (ih _ _ s₂ place s' h)

lemma leads_leave {k : Nat} (hv : ∀ n l, Leads R (visit σ k n l)) (node : NodeId) (lineage : UInt32)
    (place : Occupancy) : Leads R (leave σ k node lineage place) := by
  cases place with
  | node current =>
    refine hR.leads_bind (hR.leads_setState _ _) fun _ => ?_
    refine hR.leads_bind (hR.leads_walk (fun n => hv n 0) _ _ _) fun _ => ?_
    refine hR.leads_bind (hR.leads_roundsFrom hv _ _ _ _) fun place => ?_
    refine hR.leads_bind (hR.leads_setState _ _) fun _ => ?_
    exact hR.leads_bind (hR.leads_setState _ _) fun _ => hR.leads_pure _
  | expanded n => exact hR.leads_bind (hR.leads_setState _ _) fun _ => hR.leads_pure _
  | removed => exact hR.leads_bind (hR.leads_setState _ _) fun _ => hR.leads_pure _

lemma leads_visit (k : Nat) (node : NodeId) (lineage : UInt32) :
    Leads R (visit σ k node lineage) := by
  induction k generalizing node lineage with
  | zero => exact leads_throw _
  | succ k ih =>
    intro s count s' h
    rcases visit_succ_eq_ok_iff.mp h with ⟨_, _, rfl⟩ | ⟨_, place, s₁, hrounds, h⟩
    · exact hR.refl s'
    · have hrounds' := hR.leads_roundsFrom ih _ _ _ _ (s.enter node) place s₁ hrounds
      refine hR.trans (hR.trans (hR.enter s node) hrounds') ?_
      exact hR.leads_leave ih node lineage place s₁ count s' h

end Carries

end leads

/-! ### The log -/

/-- Nothing is ever taken out of the log. -/
def Grows {α : Type} (m : PassM α) : Prop := ∀ s a s', m s = .ok a s' → s.log <:+ s'.log

lemma log_lasts : Lasts fun s s' => s.log <:+ s'.log where
  refl _ := List.suffix_rfl
  trans := List.IsSuffix.trans
  mark _ _ _ := List.suffix_rfl
  enter _ _ := List.suffix_cons _ _
  ofTree _ _ := List.suffix_rfl

lemma log_carries (σ : PassSetting) : Carries σ fun s s' => s.log <:+ s'.log where
  toLasts := log_lasts
  offer ho := by
    rcases offer_eq_ok_iff.mp ho with ⟨_, _, _, _, rfl⟩ | ⟨_, _, _, _, _, rfl⟩
    · exact List.suffix_cons _ _
    · exact List.suffix_cons _ _
  recount hcount := by
    obtain ⟨_, rfl⟩ := exists_revisits_of_recount hcount
    exact List.suffix_rfl

lemma grows_finishRemoval (rule : String) (node : NodeId) : Grows (finishRemoval rule node) :=
  log_lasts.leads_finishRemoval rule node

lemma grows_recount (order : VisitOrder) (node current : NodeId) (rule : String) :
    Grows (recount σ order node current rule) := fun _ _ _ h => (log_carries σ).recount h

lemma grows_visitAll {u : NodeId → PassM Nat} (hu : ∀ n, Grows (u n)) (ns : List NodeId) :
    Grows (visitAll u ns) := log_lasts.leads_visitAll hu ns

lemma grows_afterOffer (hv : ∀ n l, Grows (v n l))
    (hround : ∀ node lineage last, Grows (round σ v rules node lineage last)) (o : Outcome) :
    Grows (afterOffer σ v r rules node lineage last o) :=
  (log_carries σ).leads_afterOffer hv hround o

lemma grows_round (hv : ∀ n l, Grows (v n l)) (rules : List Rule) (node : NodeId) (lineage : UInt32)
    (last : Option String) : Grows (round σ v rules node lineage last) :=
  (log_carries σ).leads_round hv rules node lineage last

lemma grows_roundsFrom (hv : ∀ n l, Grows (v n l)) (order : VisitOrder) (k : Nat) (node : NodeId)
    (lineage : UInt32) : Grows (roundsFrom σ v order k node lineage) :=
  (log_carries σ).leads_roundsFrom hv order k node lineage

lemma grows_walk {u : NodeId → PassM Nat} (hu : ∀ n, Grows (u n)) (node : NodeId) (k i : Nat) :
    Grows (walk u node k i) := log_lasts.leads_walk hu node k i

lemma grows_leave {k : Nat} (hv : ∀ n l, Grows (visit σ k n l)) (node : NodeId) (lineage : UInt32)
    (place : Occupancy) : Grows (leave σ k node lineage place) :=
  (log_carries σ).leads_leave hv node lineage place

lemma grows_visit (k : Nat) (node : NodeId) (lineage : UInt32) : Grows (visit σ k node lineage) :=
  (log_carries σ).leads_visit k node lineage

end Pass

end CodeMigration
