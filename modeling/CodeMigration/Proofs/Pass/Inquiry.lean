import CodeMigration.Batch
import CodeMigration.Proofs.ClassIndex.Dialogue
import CodeMigration.Proofs.Pass.Steps

/-!
# Runs as dialogues

The oracle of an index reads the classes of the index directly; only its subtype questions go
through the table of remembered answers. With these questions left open (`Oracle.consulting`) the
run of a batch over one file is a dialogue, as soon as every application of a rule is one.
-/

namespace CodeMigration

/-- Knows the classes of an index, and has its subtype questions answered by a function. -/
def Oracle.consulting (index : ClassIndex) (answer : String → String → Bool) : Oracle where
  typeOf := index.typeOf?
  isSubtype := answer
  isInstance t id candidate :=
    match (index.typeOf? t id).bind (·.className?) with
    | none => false
    | some name =>
      answer name candidate ||
        (!index.contains name && (t.declaredSupertypes name).any (answer · candidate))

/-- The oracle of an index has the index answer its questions. -/
lemma Oracle.consulting_isSubtype (index : ClassIndex) :
    Oracle.consulting index index.isSubtype = Oracle.ofIndex index := rfl

lemma Oracle.inquires_isInstance (index : ClassIndex) (t : Tree) (id : NodeId)
    (candidate : String) :
    Inquires fun f => (Oracle.consulting index f).isInstance t id candidate := by
  simp only [Oracle.consulting]
  cases (index.typeOf? t id).bind (·.className?) with
  | none => exact .const false
  | some name =>
    refine (Inquires.question name candidate).or ((Inquires.const _).and ?_)
    exact .listAny (fun parent => .question parent candidate) _

/-! ### Computations -/

/-- In every state the computation is a dialogue. -/
def Asks {ε σ α : Type} (m : (String → String → Bool) → EStateM ε σ α) : Prop :=
  ∀ s, Inquires fun f => m f s

namespace Asks

variable {ε σ α β γ : Type} {m : (String → String → Bool) → EStateM ε σ α}

lemma const (m : EStateM ε σ α) : Asks fun _ => m := fun s => .const (m s)

lemma bind {k : α → (String → String → Bool) → EStateM ε σ β} (hm : Asks m)
    (hk : ∀ a, Asks (k a)) : Asks fun f => m f >>= fun a => k a f := by
  intro s
  have hnext : ∀ r : EStateM.Result ε σ α, Inquires fun f => match r with
      | .ok a s' => k a f s'
      | .error e s' => .error e s' := by
    rintro (⟨a, s'⟩ | ⟨e, s'⟩)
    · exact hk a s'
    · exact .const _
  exact (hm s).bind hnext

lemma ite {C : (String → String → Bool) → Bool} {n : (String → String → Bool) → EStateM ε σ α}
    (hC : Inquires C) (hm : Asks m) (hn : Asks n) :
    Asks fun f => if C f = true then m f else n f := by
  intro s
  refine hC.bind (G := fun c f => (if c = true then m f else n f) s) fun c => ?_
  cases c
  · exact hn s
  · exact hm s

/-- A branch that does not depend on the answers. -/
lemma branch {p : Prop} [Decidable p] {n : (String → String → Bool) → EStateM ε σ α}
    (hm : Asks m) (hn : Asks n) : Asks fun f => if p then m f else n f := by
  by_cases h : p
  · simpa only [if_pos h] using hm
  · simpa only [if_neg h] using hn

end Asks

/-- Every application of the rule is a dialogue with the index. -/
def Rule.AsksIndex (r : Rule) (index : ClassIndex) : Prop :=
  ∀ pass node, Asks fun f => r.apply (.consulting index f) pass node

/-- The rule does not look at the oracle. -/
def Rule.AsksNothing (r : Rule) : Prop := ∀ oracle oracle', r.apply oracle = r.apply oracle'

/-! ### Passes -/

/-- The setting of a pass with the subtype questions left open. -/
def PassSetting.consulting (σ : PassSetting) (index : ClassIndex)
    (answer : String → String → Bool) : PassSetting :=
  { σ with oracle := .consulting index answer }

namespace Pass

variable {σ : PassSetting} {index : ClassIndex} {r : Rule} {rules : List Rule}
  {v : (String → String → Bool) → NodeId → UInt32 → PassM Nat}

lemma asks_offer (hr : r.AsksIndex index) (node : NodeId) :
    Asks fun f => offer (σ.consulting index f) r node := by
  intro s
  have happ := hr σ.pass node ⟨s.tree.checkpoint, s.files⟩
  exact happ.map fun result => offer σ { r with apply := fun _ _ _ _ => result } node s

lemma asks_visitAll {u : (String → String → Bool) → NodeId → PassM Nat}
    (hu : ∀ n, Asks fun f => u f n) (ns : List NodeId) : Asks fun f => visitAll (u f) ns := by
  induction ns with
  | nil => exact .const _
  | cons n ns ih => exact (hu n).bind fun _ => ih.bind fun _ => .const _

lemma asks_afterOffer (hv : ∀ n l, Asks fun f => v f n l)
    (hround : ∀ node lineage last,
      Asks fun f => round (σ.consulting index f) (v f) rules node lineage last)
    (node : NodeId) (lineage : UInt32) (last : Option String) (o : Outcome) :
    Asks fun f => afterOffer (σ.consulting index f) (v f) r rules node lineage last o := by
  have hcheck : Asks fun f => checkLineage (σ.consulting index f) node r.id (lineage + 1) :=
    .const (checkLineage σ node r.id (lineage + 1))
  cases o with
  | unchanged => exact hround _ _ _
  | mutated => exact hround _ _ _
  | replaced new =>
    exact hcheck.bind fun _ => (Asks.const _).bind fun _ => (Asks.const _).bind fun _ =>
      hround _ _ _
  | expanded new =>
    exact hcheck.bind fun _ => (Asks.const _).bind fun _ =>
      (asks_visitAll (fun n => hv n _) new).bind fun _ => .const _
  | removed => exact .const _

lemma asks_round (hv : ∀ n l, Asks fun f => v f n l) (hrules : ∀ r ∈ rules, r.AsksIndex index)
    (node : NodeId) (lineage : UInt32) (last : Option String) :
    Asks fun f => round (σ.consulting index f) (v f) rules node lineage last := by
  induction rules generalizing node lineage last with
  | nil => exact .const _
  | cons r rules ih =>
    obtain ⟨hr, hrules⟩ := List.forall_mem_cons.mp hrules
    refine (Asks.const get).bind fun s => .ite (.const _) (ih hrules _ _ _) ?_
    refine (asks_offer hr node).bind fun o => ?_
    have hafter := asks_afterOffer (r := r) hv (ih hrules) node lineage last o
    cases o <;> exact hafter

lemma asks_roundsFrom (hv : ∀ n l, Asks fun f => v f n l)
    (hrules : ∀ r ∈ σ.rules, r.AsksIndex index) (order : VisitOrder) (k : Nat) (node : NodeId)
    (lineage : UInt32) :
    Asks fun f => roundsFrom (σ.consulting index f) (v f) order k node lineage := by
  have hfilter : ∀ r ∈ σ.rules.filter (·.order = order), r.AsksIndex index :=
    fun r hr => hrules r (List.mem_of_mem_filter hr)
  induction k generalizing node lineage with
  | zero => exact .const _
  | succ k ih =>
    refine (asks_round hv hfilter node lineage none).bind fun e => ?_
    match e with
    | .settled place => exact .const _
    | .ongoing current _ none => exact .const _
    | .ongoing current lineage (some rule) =>
      have hcount : Asks fun f => countRevisit (σ.consulting index f) order current rule :=
        .const (countRevisit σ order current rule)
      exact .branch (hcount.bind fun _ => ih _ _) (ih _ _)

lemma asks_rounds (hv : ∀ n l, Asks fun f => v f n l)
    (hrules : ∀ r ∈ σ.rules, r.AsksIndex index) (order : VisitOrder) (node : NodeId)
    (lineage : UInt32) : Asks fun f => rounds (σ.consulting index f) (v f) order node lineage :=
  asks_roundsFrom hv hrules order σ.depth node lineage

lemma asks_walk {u : (String → String → Bool) → NodeId → PassM Nat}
    (hu : ∀ n, Asks fun f => u f n) (node : NodeId) (k i : Nat) :
    Asks fun f => walk (u f) node k i := by
  induction k generalizing i with
  | zero => exact .const _
  | succ k ih =>
    refine (Asks.const get).bind fun s => ?_
    dsimp only
    cases s.tree.child? node i with
    | none => exact .const _
    | some c => exact .branch ((hu c).bind fun _ => ih _) (.const _)

lemma asks_leave (hrules : ∀ r ∈ σ.rules, r.AsksIndex index) {k : Nat}
    (hv : ∀ n l, Asks fun f => visit (σ.consulting index f) k n l) (node : NodeId)
    (lineage : UInt32) (place : Occupancy) :
    Asks fun f => leave (σ.consulting index f) k node lineage place := by
  cases place with
  | node current =>
    refine (Asks.const _).bind fun _ => (asks_walk (fun n => hv n 0) _ _ _).bind fun _ => ?_
    exact (asks_rounds hv hrules _ _ _).bind fun _ => .const _
  | expanded n => exact .const _
  | removed => exact .const _

lemma asks_visit (hrules : ∀ r ∈ σ.rules, r.AsksIndex index) (k : Nat) (node : NodeId)
    (lineage : UInt32) : Asks fun f => visit (σ.consulting index f) k node lineage := by
  induction k generalizing node lineage with
  | zero => exact .const _
  | succ k ih =>
    refine (Asks.const get).bind fun s => .branch (.const _) ?_
    refine (Asks.const _).bind fun _ => (Asks.const _).bind fun _ => ?_
    refine (asks_rounds ih hrules _ _ _).bind fun place => ?_
    have hleave := asks_leave hrules ih node lineage place
    cases place <;> exact hleave

lemma asks_run (hrules : ∀ r ∈ σ.rules, r.AsksIndex index) :
    Asks fun f => run (σ.consulting index f) := by
  intro w
  have hvisit : Inquires fun f =>
      visitRoot (σ.consulting index f) { tree := w.tree, files := w.files } :=
    asks_visit hrules σ.depth w.tree.root 0 { tree := w.tree, files := w.files }
  refine hvisit.of_factors fun f f' h => ?_
  dsimp only at h
  simp only [run, h]

/-! ### Rules that do not ask -/

/-- The setting with another oracle. -/
def withOracle (σ : PassSetting) (oracle : Oracle) : PassSetting := { σ with oracle }

variable {oracle : Oracle}

lemma offer_withOracle (hr : r.AsksNothing) : offer (withOracle σ oracle) r = offer σ r := by
  funext n s
  rw [offer, offer, show (withOracle σ oracle).oracle = oracle from rfl, hr oracle σ.oracle]
  rfl

lemma round_withOracle (v : NodeId → UInt32 → PassM Nat) (hrules : ∀ r ∈ rules, r.AsksNothing)
    (n : NodeId) (lineage : UInt32) (last : Option String) :
    round (withOracle σ oracle) v rules n lineage last = round σ v rules n lineage last := by
  induction rules generalizing n lineage last with
  | nil => rfl
  | cons r rules ih =>
    obtain ⟨hr, hrules⟩ := List.forall_mem_cons.mp hrules
    simp only [round, ih hrules, offer_withOracle hr]
    rfl

variable (hrules : ∀ r ∈ σ.rules, r.AsksNothing)
include hrules

lemma roundsFrom_withOracle (v : NodeId → UInt32 → PassM Nat) (order : VisitOrder) (k : Nat)
    (n : NodeId) (lineage : UInt32) :
    roundsFrom (withOracle σ oracle) v order k n lineage = roundsFrom σ v order k n lineage := by
  have hfilter : ∀ r ∈ σ.rules.filter (·.order = order), r.AsksNothing :=
    fun r hr => hrules r (List.mem_of_mem_filter hr)
  induction k generalizing n lineage with
  | zero => rfl
  | succ k ih =>
    simp only [roundsFrom, ih, show (withOracle σ oracle).rules = σ.rules from rfl,
      round_withOracle v hfilter]
    rfl

lemma visit_withOracle (k : Nat) : visit (withOracle σ oracle) k = visit σ k := by
  induction k with
  | zero => rfl
  | succ k ih =>
    funext n lineage
    have hrounds : ∀ v order n lineage,
        rounds (withOracle σ oracle) v order n lineage = rounds σ v order n lineage :=
      fun v order n lineage => roundsFrom_withOracle hrules v order _ n lineage
    simp only [visit, ih, hrounds]

/-- A pass with rules that do not ask goes the same way with every oracle. -/
lemma run_withOracle : run (withOracle σ oracle) = run σ := by
  funext w
  rw [run, visitRoot, show (withOracle σ oracle).depth = σ.depth from rfl, visit_withOracle hrules]
  rfl

end Pass

/-! ### Files -/

namespace Pipeline

variable {p : Pipeline} {index : ClassIndex}

lemma asks_onePass (hrules : ∀ r ∈ p.rules, r.AsksIndex index) (pass : Nat) :
    Asks fun f => p.onePass (.consulting index f) pass := by
  -- the types that a decoration records are read from the classes of the index
  have hdecorate : Asks fun f =>
      Action.update fun t => (t.decorate (Oracle.consulting index f)).1 :=
    .const (Action.update fun t => (t.decorate (Oracle.ofIndex index)).1)
  have hrun := Pass.asks_run (σ := {
    rules := p.rules, oracle := .ofIndex index, pass, revisitBound := p.limits.revisitBound,
    depth := p.limits.depth }) hrules
  exact hdecorate.bind fun _ => hrun.bind fun _ => .const _

lemma asks_passesFrom (hrules : ∀ r ∈ p.rules, r.AsksIndex index) (left : Nat)
    (done : List PassStats) : Asks fun f => p.passesFrom (.consulting index f) left done := by
  induction left generalizing done with
  | zero => exact .const _
  | succ left ih => exact (asks_onePass hrules _).bind fun _ => .branch (ih _) (.const _)

lemma inquires_run (hrules : ∀ r ∈ p.rules, r.AsksIndex index) (t : Tree) :
    Inquires fun f => p.run (.consulting index f) t := by
  have hpasses := asks_passesFrom hrules p.limits.maxPasses [] { tree := t }
  refine hpasses.of_factors fun f f' h => ?_
  dsimp only at h
  simp only [run, h]

end Pipeline

/-- The run over one file is a dialogue. -/
lemma Batch.inquires_process {p : Pipeline} {index : ClassIndex}
    (hrules : ∀ r ∈ p.rules, r.AsksIndex index) (cancelled : Bool) (unit : SourceUnit) :
    Inquires fun f => process p (.consulting index f) cancelled unit := by
  cases cancelled with
  | true => exact .const _
  | false =>
    refine (Pipeline.inquires_run hrules unit.tree).of_factors fun f f' h => ?_
    dsimp only at h
    simp only [process, h]

end CodeMigration
