import CodeMigration.Proofs.Pass.Entries

/-!
# Rounds at one place

How long the rounds at one place go on, whatever the rules do to the tree and whatever visits are
made in between. `Pass.RoundRuns` is one round as it goes, with the number of applications, and
`Pass.RoundsRun` is a row of rounds, with the applications of each and without a bound on their
number.

A round that is followed by another one has either left the node where it is, so that it is counted
that the node is offered again, or replaced it, possibly by the node it started with. Neither count
limits the rounds alone: a new node has been offered less often, and a node that stays leads to no
replacement. `Pass.roundsLeft` puts the two together. All of this needs limits that the counts can
exceed, so that no count wraps around below its limit (`Pass.Narrow`).
-/

namespace CodeMigration

namespace Pass

variable {σ : PassSetting} {v : NodeId → UInt32 → PassM Nat} {order : VisitOrder}
  {s s₁ s₂ : PassState} {node current : NodeId} {lineage lineage' : UInt32} {r : Rule}
  {rules : List Rule} {last : Option String} {count : Nat} {counts : List Nat}

/-! ### One round -/

/-- Where a round stands: the node in its place, the replacements that led to it, the last rule that
changed something, and the state of the pass. -/
structure Stand where
  node : NodeId
  lineage : UInt32
  last : Option String
  state : PassState

/-- How a round goes on after an offer, unless it ends there. -/
def Stand.next? (σ : PassSetting) (p : Stand) (r : Rule) (s : PassState) : Outcome → Option Stand
  | .unchanged => some { p with state := s }
  | .mutated => some { p with last := some r.id, state := s }
  | .replaced new =>
    if p.lineage + 1 ≤ replacementLimit σ then
      some ⟨new, p.lineage + 1, some r.id, (s.mark p.node .visited).mark new .visiting⟩
    else none
  | .expanded _ | .removed => none

/-- A round as it goes, with the number of applications and how it ends. -/
inductive RoundRuns (σ : PassSetting) (v : NodeId → UInt32 → PassM Nat) :
    List Rule → Stand → Nat → EStateM.Result Failure PassState RoundEnd → Prop
  | done {p : Stand} : RoundRuns σ v [] p 0 (.ok (.ongoing p.node p.lineage p.last) p.state)
  | skipped {r : Rule} {rules : List Rule} {p : Stand} {count : Nat}
    {x : EStateM.Result Failure PassState RoundEnd} (hacc : accepts p.state.tree r p.node = false)
    (hrest : RoundRuns σ v rules p count x) : RoundRuns σ v (r :: rules) p count x
  | failed {r : Rule} {rules : List Rule} {p : Stand} {e : Failure} {s : PassState}
    (hacc : accepts p.state.tree r p.node = true)
    (ho : offer σ r p.node p.state = .error e s) : RoundRuns σ v (r :: rules) p 1 (.error e s)
  | on {r : Rule} {rules : List Rule} {p q : Stand} {o : Outcome} {s : PassState} {count : Nat}
    {x : EStateM.Result Failure PassState RoundEnd} (hacc : accepts p.state.tree r p.node = true)
    (ho : offer σ r p.node p.state = .ok o s) (hnext : p.next? σ r s o = some q)
    (hrest : RoundRuns σ v rules q count x) : RoundRuns σ v (r :: rules) p (count + 1) x
  | ended {r : Rule} {rules : List Rule} {p : Stand} {o : Outcome} {s : PassState}
    (hacc : accepts p.state.tree r p.node = true)
    (ho : offer σ r p.node p.state = .ok o s) (hnext : p.next? σ r s o = none) :
    RoundRuns σ v (r :: rules) p 1 (afterOffer σ v r rules p.node p.lineage p.last o s)

lemma afterOffer_of_next? {p q : Stand} {o : Outcome} (hnext : p.next? σ r s o = some q) :
    afterOffer σ v r rules p.node p.lineage p.last o s =
      round σ v rules q.node q.lineage q.last q.state := by
  cases o with
  | unchanged =>
    cases hnext
    rfl
  | mutated =>
    cases hnext
    rfl
  | replaced new =>
    rw [Stand.next?] at hnext
    split at hnext
    · next hle =>
      cases hnext
      rw [afterOffer, EStateM.bind_of_ok (checkLineage_eq_ok_iff.mpr ⟨hle, rfl⟩)]
      rfl
    · cases hnext
  | expanded new => cases hnext
  | removed => cases hnext

lemma exists_roundRuns (σ : PassSetting) (v : NodeId → UInt32 → PassM Nat) (rules : List Rule)
    (p : Stand) : ∃ count x, RoundRuns σ v rules p count x := by
  induction rules generalizing p with
  | nil => exact ⟨0, _, .done⟩
  | cons r rules ih =>
    by_cases hacc : accepts p.state.tree r p.node = true
    · cases ho : offer σ r p.node p.state with
      | error e s => exact ⟨1, _, .failed hacc ho⟩
      | ok o s =>
        cases hnext : p.next? σ r s o with
        | none => exact ⟨1, _, .ended hacc ho hnext⟩
        | some q =>
          obtain ⟨count, x, hrest⟩ := ih q
          exact ⟨count + 1, x, .on hacc ho hnext hrest⟩
    · obtain ⟨count, x, hrest⟩ := ih p
      exact ⟨count, x, .skipped (by simpa using hacc) hrest⟩

namespace RoundRuns

variable {p : Stand} {x : EStateM.Result Failure PassState RoundEnd}

/-- The running definition does a round as it goes. -/
lemma round_eq (h : RoundRuns σ v rules p count x) :
    round σ v rules p.node p.lineage p.last p.state = x := by
  induction h with
  | done => rfl
  | skipped hacc _ ih => rw [round_cons, if_neg (by simp [hacc]), ih]
  | failed hacc ho => rw [round_cons, if_pos hacc, EStateM.bind_of_error ho]
  | on hacc ho hnext _ ih =>
    rw [round_cons, if_pos hacc, EStateM.bind_of_ok ho, afterOffer_of_next? hnext, ih]
  | ended hacc ho hnext => rw [round_cons, if_pos hacc, EStateM.bind_of_ok ho]

/-- No rule is applied twice in a round. -/
lemma count_le (h : RoundRuns σ v rules p count x) : count ≤ rules.length := by
  induction h with
  | done => simp
  | skipped _ _ ih => exact Nat.le_succ_of_le ih
  | failed _ _ => simp
  | on _ _ _ _ ih => exact Nat.succ_le_succ ih
  | ended _ _ _ => simp

end RoundRuns

/-! ### From one round to the next -/

/-- A count of 32 bits can exceed the limit of replacements, and one can exceed the bound of
repeated offers: neither is the greatest number of 32 bits. -/
structure Narrow (σ : PassSetting) : Prop where
  limit : (replacementLimit σ).toNat + 1 < UInt32.size
  bound : σ.revisitBound.toNat + 1 < UInt32.size

/-- The replacements that are left after so many: those until the count is beyond the limit. -/
def replacementsLeft (σ : PassSetting) (lineage : UInt32) : Nat :=
  (replacementLimit σ).toNat + 1 - (lineage + 1).toNat

/-- The repeated offers that are left after so many. -/
def offersLeft (σ : PassSetting) (count : UInt32) : Nat :=
  σ.revisitBound.toNat + 1 - (count + 1).toNat

/-- A count that stays within a limit leaves less below it than before, if it can exceed it. -/
lemma left_lt {limit c : UInt32} (hlimit : limit.toNat + 1 < UInt32.size) (hle : c + 1 ≤ limit) :
    limit.toNat + 1 - (c + 1 + 1).toNat < limit.toNat + 1 - (c + 1).toNat := by
  have hsucc := toNat_succ_of_le hlimit hle
  rw [UInt32.le_iff_toNat_le] at hle
  rw [hsucc]
  omega

/-- One replacement more leaves one less. -/
lemma replacementsLeft_lt (hlimit : (replacementLimit σ).toNat + 1 < UInt32.size) {l : UInt32}
    (hle : l + 1 ≤ replacementLimit σ) :
    replacementsLeft σ (l + 1) < replacementsLeft σ l := left_lt hlimit hle

/-- One repeated offer more leaves one less. -/
lemma offersLeft_lt (hbound : σ.revisitBound.toNat + 1 < UInt32.size) {c : UInt32}
    (hle : c + 1 ≤ σ.revisitBound) :
    offersLeft σ (c + 1) < offersLeft σ c := left_lt hbound hle

/-- A round that goes on has left the counts of offers alone, and either the node is the same or it
has been replaced within the limit. -/
def Goes (σ : PassSetting) (node : NodeId) (lineage : UInt32) (s s' : PassState) : RoundEnd → Prop
  | .settled _ => True
  | .ongoing current lineage' _ => s'.revisits = s.revisits ∧
    ((lineage' = lineage ∧ current = node) ∨
      replacementsLeft σ lineage' < replacementsLeft σ lineage)

lemma revisits_of_offer {o : Outcome} (ho : offer σ r node s = .ok o s₁) :
    s₁.revisits = s.revisits := by
  rcases offer_eq_ok_iff.mp ho with ⟨_, _, _, _, rfl⟩ | ⟨_, _, _, _, _, rfl⟩ <;> rfl

lemma goes_of_round (hσ : Narrow σ) {e : RoundEnd}
    (h : round σ v rules node lineage last s = .ok e s₁) :
    Goes σ node lineage s s₁ e := by
  induction rules generalizing node lineage last s with
  | nil =>
    obtain ⟨rfl, rfl⟩ := EStateM.pure_eq_ok_iff.mp h
    exact ⟨rfl, Or.inl ⟨rfl, rfl⟩⟩
  | cons r rules ih =>
    rcases round_cons_eq_ok_iff.mp h with ⟨_, h⟩ | ⟨_, o, s₂, ho, h⟩
    · exact ih h
    have hrevisits := revisits_of_offer ho
    cases o with
    | unchanged =>
      have hgoes := ih h
      rw [Goes.eq_def] at hgoes ⊢
      rwa [hrevisits] at hgoes
    | mutated =>
      have hgoes := ih h
      rw [Goes.eq_def] at hgoes ⊢
      rwa [hrevisits] at hgoes
    | replaced new =>
      obtain ⟨hle, h⟩ := afterReplaced_eq_ok_iff.mp h
      cases e with
      | settled place => trivial
      | ongoing current lineage' last' =>
        obtain ⟨hsame, hgoes⟩ := ih h
        refine ⟨hsame.trans hrevisits, Or.inr ?_⟩
        have hless := replacementsLeft_lt hσ.limit hle
        rcases hgoes with ⟨rfl, _⟩ | hlt
        · exact hless
        · exact hlt.trans hless
    | expanded new =>
      obtain ⟨_, count, _, rfl⟩ := afterExpanded_eq_ok_iff.mp h
      trivial
    | removed =>
      obtain ⟨_, rfl⟩ := afterRemoved_eq_ok_iff.mp h
      trivial

/-- The rounds that are left at a node: those until the next replacement, and as many more for
every replacement that is left. -/
def roundsLeft (σ : PassSetting) (order : VisitOrder) (s : PassState) (node : NodeId)
    (lineage : UInt32) : Nat :=
  replacementsLeft σ lineage * (σ.revisitBound.toNat + 2) +
    offersLeft σ (s.revisitsOf node order)

/-- From one round to the next fewer rounds are left. -/
lemma roundsLeft_lt (hσ : Narrow σ) {rule : String}
    (hgoes : Goes σ node lineage s s₁ (.ongoing current lineage' last))
    (hcount : recount σ order node current rule s₁ = .ok () s₂) :
    roundsLeft σ order s₂ current lineage' < roundsLeft σ order s node lineage := by
  obtain ⟨hrevisits, ⟨rfl, rfl⟩ | hlt⟩ := hgoes
  · -- The node is offered once more.
    rw [recount, if_pos rfl] at hcount
    obtain ⟨hbound, rfl⟩ := countRevisit_eq_ok_iff.mp hcount
    have hsame : s₁.revisitsOf current order = s.revisitsOf current order := by
      rw [PassState.revisitsOf, hrevisits, PassState.revisitsOf]
    rw [hsame] at hbound
    have hless := offersLeft_lt hσ.bound hbound
    simp only [roundsLeft, PassState.revisitsOf, List.lookup_cons_self, Option.getD_some,
      hrevisits] at hless ⊢
    omega
  · -- Another node starts with all its offers, but one replacement less is left.
    have hmul : (replacementsLeft σ lineage' + 1) * (σ.revisitBound.toNat + 2) ≤
        replacementsLeft σ lineage * (σ.revisitBound.toNat + 2) := Nat.mul_le_mul_right _ hlt
    have hoffers : offersLeft σ (s₂.revisitsOf current order) ≤ σ.revisitBound.toNat + 1 :=
      Nat.sub_le _ _
    rw [Nat.add_mul, Nat.one_mul] at hmul
    rw [roundsLeft, roundsLeft]
    omega

/-- More rounds than one place can see: each one that goes on replaces the node, which may happen
`replacementLimit` times, or offers it again, which may happen `revisitBound` times in between. -/
def roundBound (σ : PassSetting) : Nat :=
  ((replacementLimit σ).toNat + 2) * (σ.revisitBound.toNat + 2)

/-- The bound on the rounds in one place is beyond what is left at any time. -/
lemma roundsLeft_lt_roundBound (σ : PassSetting) (order : VisitOrder) (s : PassState)
    (node : NodeId) (lineage : UInt32) : roundsLeft σ order s node lineage < roundBound σ := by
  have hmul : replacementsLeft σ lineage * (σ.revisitBound.toNat + 2) ≤
      ((replacementLimit σ).toNat + 1) * (σ.revisitBound.toNat + 2) :=
    Nat.mul_le_mul_right _ (Nat.sub_le _ _)
  have hoffers : offersLeft σ (s.revisitsOf node order) ≤ σ.revisitBound.toNat + 1 :=
    Nat.sub_le _ _
  rw [roundsLeft, roundBound, Nat.succ_mul]
  omega

/-! ### All rounds -/

/-- The rounds at one place as they go, with the applications of each round and how they end. -/
inductive RoundsRun (σ : PassSetting) (v : NodeId → UInt32 → PassM Nat) (order : VisitOrder) :
    NodeId → UInt32 → PassState → List Nat → EStateM.Result Failure PassState Occupancy → Prop
  | failed {node : NodeId} {lineage : UInt32} {s s₁ : PassState} {count : Nat} {e : Failure}
    (hround : RoundRuns σ v (σ.rules.filter (·.order = order)) ⟨node, lineage, none, s⟩ count
      (.error e s₁)) : RoundsRun σ v order node lineage s [count] (.error e s₁)
  | settled {node : NodeId} {lineage : UInt32} {s s₁ : PassState} {count : Nat} {place : Occupancy}
    (hround : RoundRuns σ v (σ.rules.filter (·.order = order)) ⟨node, lineage, none, s⟩ count
      (.ok (.settled place) s₁)) : RoundsRun σ v order node lineage s [count] (.ok place s₁)
  | rested {node current : NodeId} {lineage lineage' : UInt32} {s s₁ : PassState} {count : Nat}
    (hround : RoundRuns σ v (σ.rules.filter (·.order = order)) ⟨node, lineage, none, s⟩ count
      (.ok (.ongoing current lineage' none) s₁)) :
    RoundsRun σ v order node lineage s [count] (.ok (.node current) s₁)
  | refused {node current : NodeId} {lineage lineage' : UInt32} {s s₁ s₂ : PassState} {count : Nat}
    {rule : String} {e : Failure}
    (hround : RoundRuns σ v (σ.rules.filter (·.order = order)) ⟨node, lineage, none, s⟩ count
      (.ok (.ongoing current lineage' (some rule)) s₁))
    (hcount : recount σ order node current rule s₁ = .error e s₂) :
    RoundsRun σ v order node lineage s [count] (.error e s₂)
  | again {node current : NodeId} {lineage lineage' : UInt32} {s s₁ s₂ : PassState} {count : Nat}
    {counts : List Nat} {rule : String} {x : EStateM.Result Failure PassState Occupancy}
    (hround : RoundRuns σ v (σ.rules.filter (·.order = order)) ⟨node, lineage, none, s⟩ count
      (.ok (.ongoing current lineage' (some rule)) s₁))
    (hcount : recount σ order node current rule s₁ = .ok () s₂)
    (hrest : RoundsRun σ v order current lineage' s₂ counts x) :
    RoundsRun σ v order node lineage s (count :: counts) x

/-- The rounds come to an end. -/
lemma exists_roundsRun (hσ : Narrow σ) (v : NodeId → UInt32 → PassM Nat) (order : VisitOrder)
    (node : NodeId) (lineage : UInt32) (s : PassState) :
    ∃ counts x, RoundsRun σ v order node lineage s counts x := by
  induction hleft : roundsLeft σ order s node lineage using Nat.strong_induction_on
    generalizing node lineage s with
  | _ left ih =>
    obtain ⟨count, x, hround⟩ := exists_roundRuns σ v (σ.rules.filter (·.order = order))
      ⟨node, lineage, none, s⟩
    match x, hround with
    | .error e s₁, hround => exact ⟨_, _, .failed hround⟩
    | .ok (.settled place) s₁, hround => exact ⟨_, _, .settled hround⟩
    | .ok (.ongoing current lineage' none) s₁, hround => exact ⟨_, _, .rested hround⟩
    | .ok (.ongoing current lineage' (some rule)) s₁, hround =>
      cases hcount : recount σ order node current rule s₁ with
      | error e s₂ => exact ⟨_, _, .refused hround hcount⟩
      | ok u s₂ =>
        have hlt := roundsLeft_lt hσ (goes_of_round hσ hround.round_eq) hcount
        obtain ⟨counts, x, hrest⟩ := ih _ (hleft ▸ hlt) current lineage' s₂ rfl
        exact ⟨_, _, .again hround hcount hrest⟩

namespace RoundsRun

variable {x : EStateM.Result Failure PassState Occupancy}

/-- There are no more rounds than were left, and the one that ends them. -/
lemma length_le (hσ : Narrow σ) (h : RoundsRun σ v order node lineage s counts x) :
    counts.length ≤ roundsLeft σ order s node lineage + 1 := by
  induction h with
  | failed | settled | rested | refused => simp
  | again hround hcount _ ih =>
    have hlt := roundsLeft_lt hσ (goes_of_round hσ hround.round_eq) hcount
    rw [List.length_cons]
    exact Nat.succ_le_succ (ih.trans hlt)

/-- No round has more applications than there are rules. -/
lemma count_le (h : RoundsRun σ v order node lineage s counts x) :
    ∀ count ∈ counts, count ≤ σ.rules.length := by
  have hone : ∀ {p count y}, RoundRuns σ v (σ.rules.filter (·.order = order)) p count y →
      count ≤ σ.rules.length := fun hround => hround.count_le.trans (List.length_filter_le _ _)
  induction h with
  | failed hround | settled hround | rested hround | refused hround _ => simpa using hone hround
  | again hround _ _ ih => exact List.forall_mem_cons.mpr ⟨hone hround, ih⟩

/-- As many rounds as there are, or more, are enough for the running definition. -/
lemma roundsFrom_eq (h : RoundsRun σ v order node lineage s counts x) {k : Nat}
    (hk : counts.length ≤ k) : roundsFrom σ v order k node lineage s = x := by
  induction h generalizing k with
  | failed hround =>
    obtain ⟨k, rfl⟩ := Nat.exists_eq_add_of_le' hk
    rw [List.length_singleton, roundsFrom_succ, EStateM.bind_of_error hround.round_eq]
  | settled hround | rested hround =>
    obtain ⟨k, rfl⟩ := Nat.exists_eq_add_of_le' hk
    rw [List.length_singleton, roundsFrom_succ, EStateM.bind_of_ok hround.round_eq]
    rfl
  | refused hround hcount =>
    obtain ⟨k, rfl⟩ := Nat.exists_eq_add_of_le' hk
    rw [List.length_singleton, roundsFrom_succ, EStateM.bind_of_ok hround.round_eq, afterRound,
      EStateM.bind_of_error hcount]
  | again hround hcount _ ih =>
    rw [List.length_cons] at hk
    obtain ⟨k, rfl⟩ := Nat.exists_eq_add_of_le' (Nat.le_trans (Nat.le_add_left 1 _) hk)
    rw [roundsFrom_succ, EStateM.bind_of_ok hround.round_eq, afterRound,
      EStateM.bind_of_ok hcount, ih (Nat.le_of_succ_le_succ hk)]

lemma length_le_roundBound (hσ : Narrow σ) (h : RoundsRun σ v order node lineage s counts x) :
    counts.length ≤ roundBound σ :=
  (h.length_le hσ).trans (roundsLeft_lt_roundBound σ order s node lineage)

end RoundsRun

end Pass

end CodeMigration
