import CodeMigration.Proofs.Pass.Quiet

/-!
# How often the node in one place is replaced

A visit counts the replacements of its node and refuses one that goes beyond the limit, and what an
expansion puts in the place is visited with the count so far. The rounds on the way up begin again
with the count that the visit began with, though, so the limit holds on the way down and on the way
up, but not for both together (`replacements_within_limits`). It does hold for both together where
all rules are of one order.

The replacements are read off the log by following the node in the place (`Pass.successions`). That
a bound holds at every visit of a pass is said by the same pass with every visit checked
(`Pass.checked`).
-/

namespace CodeMigration

/-- What has been logged since an earlier state, oldest entry first. -/
def PassState.since (s' s : PassState) : List Event :=
  (s'.log.take (s'.log.length - s.log.length)).reverse

lemma PassState.since_eq {s s' : PassState} {log : List Event}
    (h : s'.log = log.reverse ++ s.log) : s'.since s = log := by
  rw [since, h]
  simp

namespace Pass

/-- How often the node in a place is replaced according to a log that begins with the given node
there. An expansion or a removal ends the place. -/
def successions : NodeId → List Event → Nat
  | _, [] => 0
  | current, .offered _ _ node outcome :: log =>
    if node = current then
      match outcome with
      | .replaced new => successions new log + 1
      | .expanded _ | .removed => 0
      | _ => successions current log
    else successions current log
  | current, _ :: log => successions current log

/-- How often the node in the place of a visit is replaced: on the way down, and on the way up. -/
structure Turnover where
  down : Nat := 0
  up : Nat := 0

/-- The replacements in the place of a visit that begins in the given state, not counting those of
visits below it. -/
def turnover (σ : PassSetting) (k : Nat) (node : NodeId) (lineage : UInt32) (s : PassState) :
    Turnover :=
  if s.stateOf node ≠ .pending ∨ !s.tree.isLive node then {}
  else
    match rounds σ (visit σ k) .pre node lineage (s.enter node) with
    | .error .. => {}
    | .ok (.node current) s₁ =>
      let down := successions node (s₁.since (s.enter node))
      match walk (visit σ k · 0) current k 0 (s₁.mark current .visiting) with
      | .error .. => { down }
      | .ok _ s₂ =>
        match rounds σ (visit σ k) .post current lineage s₂ with
        | .error .. => { down }
        | .ok _ s₃ => { down, up := successions current (s₃.since s₂) }
    | .ok _ s₁ => { down := successions node (s₁.since (s.enter node)) }

/-- A visit that breaks off when its own turnover or that of a visit below it does not pass a test,
which is also given the replacements that led to the node. -/
def checked (σ : PassSetting) (test : UInt32 → Turnover → Bool) : Nat → NodeId → UInt32 → PassM Nat
  | 0, _, _ => throw (.fault .exhausted)
  | k + 1, node, lineage => fun s =>
    if test lineage (turnover σ k node lineage s) then
      visitWith σ (checked σ test k) k node lineage s
    else .error (.fault .silent) s

variable {σ : PassSetting} {s s' : PassState} {node : NodeId} {lineage : UInt32}
  {v v' : NodeId → UInt32 → PassM Nat}

/-! ### Counts and logs -/

/-- The log of a step that has grown the log. -/
lemma Grows.exists_log {α : Type} {m : PassM α} (hm : Grows m) {a : α} (h : m s = .ok a s') :
    ∃ log : List Event, s'.log = log.reverse ++ s.log := by
  obtain ⟨log, hlog⟩ := hm s a s' h
  exact ⟨log.reverse, by simp [hlog]⟩

/-- What an offer writes, and the node that stands in the place afterwards. -/
lemma offer_log {r : Rule} {o : Outcome} (h : offer σ r node s = .ok o s') :
    ∃ event, s'.log = event :: s.log ∧ ∀ log, successions node (event :: log) =
      match o with
      | .replaced new => successions new log + 1
      | .expanded _ | .removed => 0
      | _ => successions node log := by
  rcases offer_eq_ok_iff.mp h with ⟨_, _, _, _, rfl⟩ | ⟨e, _, _, _, rfl, rfl⟩
  · refine ⟨_, rfl, fun log => ?_⟩
    cases o <;> simp [successions]
  · exact ⟨_, rfl, fun log => rfl⟩

/-- A round that goes on has counted the replacements in the place; one that settles the place has
kept to the limit. -/
lemma round_successions (hlimit : (replacementLimit σ).toNat + 1 < UInt32.size)
    (hv : ∀ n l, Grows (v n l)) {rules : List Rule} {last : Option String} {e : RoundEnd}
    (hle : lineage ≤ replacementLimit σ)
    (h : round σ v rules node lineage last s = .ok e s') :
    ∃ log, s'.log = log.reverse ++ s.log ∧
      match e with
      | .ongoing current lineage' _ => lineage' ≤ replacementLimit σ ∧
        ∀ rest, lineage.toNat + successions node (log ++ rest) =
          lineage'.toNat + successions current rest
      | .settled _ => lineage.toNat + successions node log ≤ (replacementLimit σ).toNat := by
  induction rules generalizing node lineage last s with
  | nil =>
    obtain ⟨rfl, rfl⟩ := EStateM.pure_eq_ok_iff.mp h
    exact ⟨[], rfl, hle, fun rest => rfl⟩
  | cons r rules ih =>
    rcases round_cons_eq_ok_iff.mp h with ⟨_, h⟩ | ⟨_, o, s₁, ho, h⟩
    · exact ih hle h
    · obtain ⟨event, hevent, hcount⟩ := offer_log ho
      -- the rest of the round is read after the entry of this offer
      have hcons : ∀ {s₂ : PassState} {log : List Event}, s₂.log = s₁.log →
          s'.log = log.reverse ++ s₂.log → s'.log = (event :: log).reverse ++ s.log := by
        intro s₂ log hsame hlog
        simp [hlog, hsame, hevent]
      cases o with
      | unchanged =>
        obtain ⟨log, hlog, hend⟩ := ih hle h
        refine ⟨event :: log, hcons rfl hlog, ?_⟩
        simpa only [List.cons_append, hcount] using hend
      | mutated =>
        obtain ⟨log, hlog, hend⟩ := ih hle h
        refine ⟨event :: log, hcons rfl hlog, ?_⟩
        simpa only [List.cons_append, hcount] using hend
      | replaced new =>
        obtain ⟨hle', h⟩ := afterReplaced_eq_ok_iff.mp h
        obtain ⟨log, hlog, hend⟩ := ih hle' h
        have hsucc := toNat_succ_of_le hlimit hle
        refine ⟨event :: log, hcons rfl hlog, ?_⟩
        simp only [List.cons_append, hcount]
        cases e with
        | settled place =>
          dsimp only at hend ⊢
          omega
        | ongoing current lineage' last' =>
          refine ⟨hend.1, fun rest => ?_⟩
          have := hend.2 rest
          omega
      | expanded new =>
        obtain ⟨_, count, hvisit, rfl⟩ := afterExpanded_eq_ok_iff.mp h
        obtain ⟨log, hlog⟩ := (grows_visitAll (fun n => hv n _) new).exists_log hvisit
        refine ⟨event :: log, hcons rfl hlog, ?_⟩
        rw [hcount]
        exact UInt32.le_iff_toNat_le.mp hle
      | removed =>
        obtain ⟨hremoval, rfl⟩ := afterRemoved_eq_ok_iff.mp h
        obtain ⟨log, hlog⟩ := (grows_finishRemoval _ _).exists_log hremoval
        refine ⟨event :: log, hcons rfl hlog, ?_⟩
        rw [hcount]
        exact UInt32.le_iff_toNat_le.mp hle

lemma roundsFrom_successions (hlimit : (replacementLimit σ).toNat + 1 < UInt32.size)
    (hv : ∀ n l, Grows (v n l)) {order : VisitOrder} {k : Nat} {place : Occupancy}
    (hle : lineage ≤ replacementLimit σ)
    (h : roundsFrom σ v order k node lineage s = .ok place s') :
    ∃ log, s'.log = log.reverse ++ s.log ∧
      lineage.toNat + successions node log ≤ (replacementLimit σ).toNat := by
  induction k generalizing node lineage s with
  | zero => cases h
  | succ k ih =>
    obtain ⟨e, s₁, hround, h⟩ := roundsFrom_succ_eq_ok_iff.mp h
    obtain ⟨log, hlog, hend⟩ := round_successions hlimit hv hle hround
    match e, h, hend with
    | .settled _, ⟨_, hs⟩, hend => exact ⟨log, hs ▸ hlog, hend⟩
    | .ongoing current lineage' none, ⟨_, hs⟩, ⟨hle', hcount⟩ =>
      refine ⟨log, hs ▸ hlog, ?_⟩
      have hall := hcount []
      rw [List.append_nil, successions] at hall
      rw [UInt32.le_iff_toNat_le] at hle'
      omega
    | .ongoing current lineage' (some rule), ⟨s₂, hrecount, h⟩, ⟨hle', hcount⟩ =>
      obtain ⟨rs, rfl⟩ := exists_revisits_of_recount hrecount
      obtain ⟨rest, hrest, hbound⟩ := ih hle' h
      refine ⟨log ++ rest, ?_, ?_⟩
      · simp [hrest, hlog]
      · rw [hcount]
        exact hbound

/-! ### Turnovers -/

/-- The number is 0 or counts the replacements in some rounds of an order that have succeeded. -/
def Tallied (σ : PassSetting) (k : Nat) (order : VisitOrder) (lineage : UInt32) (count : Nat) :
    Prop :=
  count = 0 ∨ ∃ n s place s', rounds σ (visit σ k) order n lineage s = .ok place s' ∧
    count = successions n (s'.since s)

/-- The rounds of one order keep to the limit. -/
lemma Tallied.le (hlimit : (replacementLimit σ).toNat + 1 < UInt32.size) {k count : Nat}
    {order : VisitOrder} (h : Tallied σ k order lineage count)
    (hle : lineage ≤ replacementLimit σ) :
    lineage.toNat + count ≤ (replacementLimit σ).toNat := by
  rcases h with rfl | ⟨n, s, place, s', hrounds, rfl⟩
  · exact UInt32.le_iff_toNat_le.mp hle
  · obtain ⟨log, hlog, hbound⟩ := roundsFrom_successions hlimit (grows_visit k) hle hrounds
    rwa [PassState.since_eq hlog]

/-- Where an order has no rules nothing is replaced. -/
lemma Tallied.eq_zero {k count : Nat} {order : VisitOrder} (h : Tallied σ k order lineage count)
    (hrules : ∀ r ∈ σ.rules, r.order ≠ order) : count = 0 := by
  rcases h with rfl | ⟨n, s, place, s', hrounds, rfl⟩
  · rfl
  · rw [rounds_of_no_rules (depth_pos_of_rounds hrounds) hrules] at hrounds
    cases hrounds
    have hlog : s.log = ([] : List Event).reverse ++ s.log := rfl
    rw [PassState.since_eq hlog, successions]

/-- The turnover of a visit that succeeds comes from its rounds. -/
lemma tallied_turnover {k count : Nat} (h : visit σ (k + 1) node lineage s = .ok count s') :
    Tallied σ k .pre lineage (turnover σ k node lineage s).down ∧
      Tallied σ k .post lineage (turnover σ k node lineage s).up := by
  rw [visit_succ] at h
  rcases visitWith_eq_ok_iff.mp h with ⟨hseen, _⟩ | ⟨hnew, place, s₁, hpre, h⟩
  · rw [turnover, if_pos (by simpa using hseen)]
    exact ⟨Or.inl rfl, Or.inl rfl⟩
  · have hdown : Tallied σ k .pre lineage (successions node (s₁.since (s.enter node))) :=
      Or.inr ⟨node, s.enter node, place, s₁, hpre, rfl⟩
    rw [turnover, if_neg (by simpa using hnew), hpre]
    match place, h with
    | .expanded _, _ => exact ⟨hdown, Or.inl rfl⟩
    | .removed, _ => exact ⟨hdown, Or.inl rfl⟩
    | .node current, h =>
      obtain ⟨s₂, place, s₃, hwalk, hpost, _⟩ := leaveWith_node_eq_ok_iff.mp h
      simp only [hwalk, hpost]
      exact ⟨hdown, Or.inr ⟨current, s₂, place, s₃, hpost, rfl⟩⟩

/-! ### Checked visits -/

/-- Where `m` succeeds `m'` does the same. -/
def Backs {α : Type} (m m' : PassM α) : Prop := ∀ s a s', m s = .ok a s' → m' s = .ok a s'

lemma Backs.refl {α : Type} (m : PassM α) : Backs m m := fun _ _ _ h => h

lemma Backs.bind {α β : Type} {m m' : PassM α} {f f' : α → PassM β} (hm : Backs m m')
    (hf : ∀ a, Backs (f a) (f' a)) : Backs (m >>= f) (m' >>= f') := by
  intro s b s'' h
  obtain ⟨a, s', ha, hb⟩ := EStateM.bind_eq_ok_iff.mp h
  exact EStateM.bind_eq_ok_iff.mpr ⟨a, s', hm s a s' ha, hf a s' b s'' hb⟩

lemma backs_visitAll {u u' : NodeId → PassM Nat} (hu : ∀ n, Backs (u n) (u' n))
    (ns : List NodeId) : Backs (visitAll u ns) (visitAll u' ns) := by
  induction ns with
  | nil => exact Backs.refl _
  | cons n ns ih => exact (hu n).bind fun _ => ih.bind fun _ => Backs.refl _

section backing

variable (hv : ∀ n l, l ≤ replacementLimit σ → Backs (v n l) (v' n l))
include hv

lemma backs_round (rules : List Rule) (node : NodeId) (lineage : UInt32) (last : Option String) :
    Backs (round σ v rules node lineage last) (round σ v' rules node lineage last) := by
  induction rules generalizing node lineage last with
  | nil => exact Backs.refl _
  | cons r rules ih =>
    intro s e s' h
    rw [round_cons_eq_ok_iff] at h ⊢
    refine h.imp (And.imp_right (ih _ _ _ s e s')) (And.imp_right ?_)
    rintro ⟨o, s₁, ho, h⟩
    refine ⟨o, s₁, ho, ?_⟩
    cases o with
    | unchanged => exact ih _ _ _ s₁ e s' h
    | mutated => exact ih _ _ _ s₁ e s' h
    | replaced new =>
      rw [afterReplaced_eq_ok_iff] at h ⊢
      exact h.imp_right (ih _ _ _ _ e s')
    | expanded new =>
      rw [afterExpanded_eq_ok_iff] at h ⊢
      obtain ⟨hle, count, hvisit, rfl⟩ := h
      exact ⟨hle, count, backs_visitAll (fun n => hv n _ hle) new _ count s' hvisit, rfl⟩
    | removed => exact h

lemma backs_roundsFrom (order : VisitOrder) (k : Nat) (node : NodeId) (lineage : UInt32) :
    Backs (roundsFrom σ v order k node lineage) (roundsFrom σ v' order k node lineage) := by
  induction k generalizing node lineage with
  | zero => exact Backs.refl _
  | succ k ih =>
    intro s place s' h
    rw [roundsFrom_succ_eq_ok_iff] at h ⊢
    obtain ⟨e, s₁, hround, h⟩ := h
    refine ⟨e, s₁, backs_round hv _ _ _ _ s e s₁ hround, ?_⟩
    match e, h with
    | .settled _, h => exact h
    | .ongoing _ _ none, h => exact h
    | .ongoing current lineage' (some rule), ⟨s₂, hcount, h⟩ =>
      exact ⟨s₂, hcount, ih current lineage' s₂ place s' h⟩

omit hv in
lemma backs_walk {u u' : NodeId → PassM Nat} (hu : ∀ n, Backs (u n) (u' n)) (node : NodeId)
    (k i : Nat) : Backs (walk u node k i) (walk u' node k i) := by
  induction k generalizing i with
  | zero => exact Backs.refl _
  | succ k ih =>
    intro s a s' h
    rw [walk_succ_eq_ok_iff] at h ⊢
    refine h.imp_right ?_
    rintro ⟨c, hc, hlink, count, s₁, hvisit, h⟩
    exact ⟨c, hc, hlink, count, s₁, hu c s count s₁ hvisit, ih _ s₁ a s' h⟩

lemma backs_visitWith (k : Nat) (node : NodeId) (lineage : UInt32) :
    Backs (visitWith σ v k node lineage) (visitWith σ v' k node lineage) := by
  intro s count s' h
  rw [visitWith_eq_ok_iff] at h ⊢
  refine h.imp_right (And.imp_right ?_)
  rintro ⟨place, s₁, hpre, h⟩
  refine ⟨place, s₁, backs_roundsFrom hv _ _ _ _ _ place s₁ hpre, ?_⟩
  match place, h with
  | .expanded _, h => exact h
  | .removed, h => exact h
  | .node current, h =>
    rw [leaveWith_node_eq_ok_iff] at h ⊢
    obtain ⟨s₂, place, s₃, hwalk, hpost, hend⟩ := h
    refine ⟨s₂, place, s₃, ?_, backs_roundsFrom hv _ _ _ _ s₂ place s₃ hpost, hend⟩
    exact backs_walk (fun n => hv n 0 UInt32.zero_le) current k 0 _ () s₂ hwalk

end backing

/-- A test that every visit passes does not change the visits that succeed. -/
lemma checked_backs {test : UInt32 → Turnover → Bool}
    (htest : ∀ {k node lineage s count s'}, lineage ≤ replacementLimit σ →
      visit σ (k + 1) node lineage s = .ok count s' →
      test lineage (turnover σ k node lineage s) = true)
    (k : Nat) (node : NodeId) (lineage : UInt32) (hle : lineage ≤ replacementLimit σ) :
    Backs (visit σ k node lineage) (checked σ test k node lineage) := by
  induction k generalizing node lineage with
  | zero => exact Backs.refl _
  | succ k ih =>
    intro s count s' h
    show (if test lineage (turnover σ k node lineage s) then
      visitWith σ (checked σ test k) k node lineage s else _) = _
    rw [if_pos (htest hle h)]
    exact backs_visitWith ih k node lineage s count s' h

/-- At most so many replacements on each of the two ways. -/
def eachWithin (limit lineage : UInt32) (τ : Turnover) : Bool :=
  lineage.toNat + τ.down ≤ limit.toNat && lineage.toNat + τ.up ≤ limit.toNat

/-- At most so many replacements on both ways together. -/
def bothWithin (limit lineage : UInt32) (τ : Turnover) : Bool :=
  lineage.toNat + (τ.down + τ.up) ≤ limit.toNat

end Pass

/-- In a pass that succeeds, with a limit that a count can exceed, the node in one place is replaced
no more often than the limit says on the way down, counting what led to it, and no more often on the
way up. With rules of one order only the limit holds for both ways together. -/
theorem replacements_within_limits {σ : PassSetting} {w w' : Workspace} {stats : PassStats}
    (hlimit : (Pass.replacementLimit σ).toNat + 1 < UInt32.size)
    (hrun : Pass.run σ w = .ok stats w') :
    ∃ count s, Pass.visitRoot σ { tree := w.tree, files := w.files } = .ok count s ∧
      w' = s.toWorkspace ∧
      Pass.checked σ (Pass.eachWithin (Pass.replacementLimit σ)) σ.depth w.tree.root 0
        { tree := w.tree, files := w.files } = .ok count s ∧
      ∀ order, (∀ r ∈ σ.rules, r.order = order) →
        Pass.checked σ (Pass.bothWithin (Pass.replacementLimit σ)) σ.depth w.tree.root 0
          { tree := w.tree, files := w.files } = .ok count s := by
  obtain ⟨count, s, hvisit, _, rfl, _⟩ := Pass.run_eq_ok hrun
  refine ⟨count, s, hvisit, rfl, ?_, fun order hrules => ?_⟩
  · refine Pass.checked_backs (fun hle h => ?_) _ _ 0 UInt32.zero_le _ count s hvisit
    obtain ⟨hdown, hup⟩ := Pass.tallied_turnover h
    simpa [Pass.eachWithin] using ⟨hdown.le hlimit hle, hup.le hlimit hle⟩
  · refine Pass.checked_backs (fun hle h => ?_) _ _ 0 UInt32.zero_le _ count s hvisit
    obtain ⟨hdown, hup⟩ := Pass.tallied_turnover h
    rw [Pass.bothWithin, decide_eq_true_iff]
    cases order with
    | pre =>
      rw [hup.eq_zero fun r hr => by simp [hrules r hr], Nat.add_zero]
      exact hdown.le hlimit hle
    | post =>
      rw [hdown.eq_zero fun r hr => by simp [hrules r hr], Nat.zero_add]
      exact hup.le hlimit hle

/-- A rule that puts the first child of a node in its place. -/
def unwrappingRule (id : String) (order : VisitOrder) (kind : Kind) : Rule where
  id := id
  kinds := [kind]
  order := order
  apply _ _ n := do
    match (← Action.tree).child? n 0 with
    | none => return .unchanged
    | some c =>
      Action.edit (Edit.detach n c)
      Action.edit (Edit.replace n c)
      return .replaced c

/-- Expressions are unwrapped on the way down, returns on the way up, and no node is offered
again. -/
def unwrapping : PassSetting where
  rules := [unwrappingRule "down" .pre .expression, unwrappingRule "up" .post .returnStatement]
  oracle := .unknown
  pass := 1
  revisitBound := 0
  depth := 5

/-- A number in a return in two expressions. -/
def Tree.wrappedNumber : Tree :=
  Command.runAll (Tree.new .expression) [.add .expression, .pushChild 0 1, .add .returnStatement,
    .pushChild 1 2, .add (.int 1), .pushChild 2 3]

lemma run_unwrapping : ∃ stats w, Pass.run unwrapping ⟨Tree.wrappedNumber, []⟩ = .ok stats w ∧
    stats.mutations = 3 ∧ w.tree.root = 3 := by
  obtain ⟨stats, w, hok, hrun⟩ := EStateM.exists_eq_ok
    (x := Pass.run unwrapping ⟨Tree.wrappedNumber, []⟩)
    (P := fun stats w => stats.mutations == 3 && w.tree.root == 3) (by decide +kernel)
  exact ⟨stats, w, hok, by simpa using hrun⟩

theorem replacements_within_limits_unwrapping :
    Pass.replacementLimit unwrapping = 2 ∧ ∃ count s,
      Pass.checked unwrapping (Pass.eachWithin 2) 5 0 0 { tree := Tree.wrappedNumber } =
        .ok count s ∧ s.tree.root = 3 := by
  obtain ⟨stats, w, hok, _, hroot⟩ := run_unwrapping
  obtain ⟨count, s, _, rfl, hchecked, _⟩ := replacements_within_limits (by decide) hok
  exact ⟨rfl, count, s, hchecked, hroot⟩

/-- The pass succeeds and the node at the root is replaced three times, though the limit is two. -/
theorem replaced_beyond_limit :
    (∃ stats w, Pass.run unwrapping ⟨Tree.wrappedNumber, []⟩ = .ok stats w ∧ stats.mutations = 3) ∧
      Pass.replacementLimit unwrapping = 2 ∧
      (Pass.turnover unwrapping 4 0 0 { tree := Tree.wrappedNumber }).down = 2 ∧
      (Pass.turnover unwrapping 4 0 0 { tree := Tree.wrappedNumber }).up = 1 := by
  obtain ⟨stats, w, hok, hmutations, _⟩ := run_unwrapping
  exact ⟨⟨stats, w, hok, hmutations⟩, rfl, by decide +kernel, by decide +kernel⟩

end CodeMigration
