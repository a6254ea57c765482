import CodeMigration.Rule.Basic

/-!
# A pass over a tree

A pass walks the tree from the root and offers every node to the rules that accept its kind: on the
way down to those of order `pre`, on the way up to those of order `post`. After a round of offers
that changed the node it is offered again, until a round leaves it alone; a node that keeps changing
beyond the revisit bound ends the pass with an error. What a rule puts in the place of a node is
visited in its place.

Every offer runs under a checkpoint. When the rule fails with an error that is not fatal, the tree
and the requested files are as before the offer. What happened is written into a log, from which the
counters of the pass are taken.
-/

namespace CodeMigration

/-- How far the visit of a node has come. -/
inductive VisitState where
  | pending
  | visiting
  | visited
deriving DecidableEq, Repr

/-- What happened in a pass. -/
inductive Event where
  /-- The visit of a node began. -/
  | entered (node : NodeId)
  /-- A rule was offered a node. -/
  | offered (rule : String) (order : VisitOrder) (node : NodeId) (outcome : Outcome)
  /-- A rule was offered a node and its work was undone. -/
  | abandoned (rule : String) (order : VisitOrder) (node : NodeId) (error : Error)
deriving DecidableEq

/-- The counters of a pass. -/
structure PassStats where
  visited : Nat
  mutations : Nat
  recovered : Nat
deriving DecidableEq, Repr

/-- Whether the pass changed anything. -/
def PassStats.changed (s : PassStats) : Bool := decide (0 < s.mutations)

namespace Event

/-- The visit of a node began. -/
def isEntry : Event → Bool
  | .entered _ => true
  | _ => false

/-- An offer led to a change. -/
def isMutation : Event → Bool
  | .offered _ _ _ outcome => outcome.isChange
  | _ => false

/-- An offer was undone. -/
def isRecovery : Event → Bool
  | .abandoned .. => true
  | _ => false

end Event

/-- The counters of a log. -/
def PassStats.ofLog (log : List Event) : PassStats where
  visited := log.countP Event.isEntry
  mutations := log.countP Event.isMutation
  recovered := log.countP Event.isRecovery

/-- What does not change during a pass. `depth` limits how deep visits may nest, how many children
of a node may be visited and how many rounds of offers one place may see, so that a pass always
ends. -/
structure PassSetting where
  rules : List Rule
  oracle : Oracle
  pass : Nat
  revisitBound : UInt32
  depth : Nat

/-- What changes during a pass. The newest entries of the lists come first. -/
structure PassState extends Workspace where
  states : List (NodeId × VisitState) := []
  revisits : List ((NodeId × VisitOrder) × UInt32) := []
  log : List Event := []

/-- A step of a pass. -/
abbrev PassM := EStateM Failure PassState

/-- What stands in the place of a node after its rounds: one node, a number of nodes that have been
visited already, or nothing. -/
inductive Occupancy where
  | node (id : NodeId)
  | expanded (count : Nat)
  | removed

/-- How many nodes stand in the place. -/
def Occupancy.count : Occupancy → Nat
  | .node _ => 1
  | .expanded count => count
  | .removed => 0

namespace PassState

/-- How far the visit of a node has come. -/
def stateOf (s : PassState) (id : NodeId) : VisitState := (s.states.lookup id).getD .pending

/-- How often a node has been offered again. -/
def revisitsOf (s : PassState) (id : NodeId) (order : VisitOrder) : UInt32 :=
  (s.revisits.lookup (id, order)).getD 0

end PassState

namespace Pass

/-- Ends the pass with an error. -/
def refuse {α : Type} (e : Error) : PassM α := throw (.error e)

/-- Ends the pass because an invariant is violated. -/
def violate {α : Type} (v : Violation) : PassM α := refuse (.invariantViolation v)

/-- Sets how far the visit of a node has come. -/
def setState (id : NodeId) (state : VisitState) : PassM Unit :=
  modify fun s => { s with states := (id, state) :: s.states }

/-- Writes into the log. -/
def note (e : Event) : PassM Unit := modify fun s => { s with log := e :: s.log }

/-- How often the node in one place may be replaced. Like all counts of 32 bits it wraps around. -/
def replacementLimit (σ : PassSetting) : UInt32 :=
  max 1 (UInt32.ofNat σ.rules.length) * (σ.revisitBound + 1)

/-! ### Offers -/

/-- What an application really did, checked against the tree. A rule that says it changed nothing
while the revision moved has changed the node; a replacement has to be attached. -/
def judge (rule : String) (node : NodeId) (before : Nat) (t : Tree) :
    Outcome → Except Error Outcome
  | .unchanged => .ok (if t.revision = before then .unchanged else .mutated)
  | .replaced new =>
    if t.isAttached new then .ok (.replaced new)
    else .error (.invariantViolation (.strayReplacement rule new node))
  | .expanded new =>
    match new.find? (!t.isAttached ·) with
    | some stray => .error (.invariantViolation (.strayExpansion rule node stray))
    | none => .ok (.expanded new)
  | outcome => .ok outcome

/-- Offers a node to a rule. -/
def offer (σ : PassSetting) (rule : Rule) (node : NodeId) : PassM Outcome := fun s =>
  match rule.apply σ.oracle σ.pass node ⟨s.tree.checkpoint, s.files⟩ with
  | .ok outcome w =>
    let t := w.tree.commit
    match judge rule.id node s.tree.revision t outcome with
    | .ok outcome =>
      .ok outcome { s with
        tree := t, files := w.files, log := .offered rule.id rule.order node outcome :: s.log }
    | .error e => .error (.error e) { s with tree := t, files := w.files }
  | .error (.error e) w =>
    if e.isFatal then .error (.error e) { s with tree := w.tree.commit, files := w.files }
    else
      .ok .unchanged { s with
        tree := w.tree.rollback, files := w.files.take s.files.length,
        log := .abandoned rule.id rule.order node e :: s.log }
  | .error (.fault f) w => .error (.fault f) { s with tree := w.tree, files := w.files }

/-- Takes a node out of the tree that a rule has declared removed. -/
def finishRemoval (rule : String) (node : NodeId) : PassM Unit := do
  let t := (← get).tree
  if !t.isLive node then return ()
  else if node = t.root then violate (.rootRemoved rule node)
  else
    match Edit.remove node t with
    | .ok _ t' => modify fun s => { s with tree := t' }
    | .error e t' =>
      modify fun s => { s with tree := t' }
      refuse e

/-! ### Rounds -/

/-- How a round ended: with a node, the number of replacements that led to it and the last rule that
changed something, or with the place settled. -/
inductive RoundEnd where
  | ongoing (current : NodeId) (lineage : UInt32) (lastChange : Option String)
  | settled (place : Occupancy)

/-- Refuses one replacement too many. -/
def checkLineage (σ : PassSetting) (node : NodeId) (rule : String) (lineage : UInt32) :
    PassM Unit :=
  if replacementLimit σ < lineage then refuse (.loopDetected node rule σ.revisitBound)
  else return ()

/-- Visits a row of nodes and adds up the places they take. -/
def visitAll (visit : NodeId → PassM Nat) : List NodeId → PassM Nat
  | [] => return 0
  | n :: ns => do
    let count ← visit n
    return count + (← visitAll visit ns)

/-- Offers the node in one place to the remaining rules of a round. -/
def round (σ : PassSetting) (visit : NodeId → UInt32 → PassM Nat) :
    List Rule → NodeId → UInt32 → Option String → PassM RoundEnd
  | [], current, lineage, last => return .ongoing current lineage last
  | rule :: rules, current, lineage, last => do
    if !((← get).tree.kind? current).any rule.kinds.contains then
      round σ visit rules current lineage last
    else
      match ← offer σ rule current with
      | .unchanged => round σ visit rules current lineage last
      | .mutated => round σ visit rules current lineage (some rule.id)
      | .replaced new =>
        checkLineage σ current rule.id (lineage + 1)
        setState current .visited
        setState new .visiting
        round σ visit rules new (lineage + 1) (some rule.id)
      | .expanded new =>
        checkLineage σ current rule.id (lineage + 1)
        setState current .visited
        return .settled (.expanded (← visitAll (visit · (lineage + 1)) new))
      | .removed =>
        finishRemoval rule.id current
        return .settled .removed

/-- Counts that a node is offered again, and refuses one time too many. -/
def countRevisit (σ : PassSetting) (order : VisitOrder) (node : NodeId) (rule : String) :
    PassM Unit := do
  let count := (← get).revisitsOf node order + 1
  modify fun s => { s with revisits := ((node, order), count) :: s.revisits }
  if σ.revisitBound < count then refuse (.loopDetected node rule σ.revisitBound)
  else return ()

/-- Rounds of offers, for at most a number of rounds, until one leaves the node alone. -/
def roundsFrom (σ : PassSetting) (visit : NodeId → UInt32 → PassM Nat) (order : VisitOrder) :
    Nat → NodeId → UInt32 → PassM Occupancy
  | 0, _, _ => throw (.fault .exhausted)
  | n + 1, node, lineage => do
    match ← round σ visit (σ.rules.filter (·.order = order)) node lineage none with
    | .settled place => return place
    | .ongoing current _ none => return .node current
    | .ongoing current lineage (some rule) =>
      if current = node then countRevisit σ order current rule
      roundsFrom σ visit order n current lineage

/-- Offers the node in one place to the rules of an order until a round leaves it alone. -/
def rounds (σ : PassSetting) (visit : NodeId → UInt32 → PassM Nat) (order : VisitOrder)
    (node : NodeId) (lineage : UInt32) : PassM Occupancy :=
  roundsFrom σ visit order σ.depth node lineage

/-! ### Visits -/

/-- Visits the children of a node from a position on; a visit returns how many places to move. -/
def walk (visit : NodeId → PassM Nat) (current : NodeId) : Nat → Nat → PassM Unit
  | 0, _ => throw (.fault .exhausted)
  | n + 1, index => do
    let t := (← get).tree
    match t.child? current index with
    | none => return ()
    | some child =>
      if t.parent? child = some current then
        let count ← visit child
        walk visit current n (index + count)
      else violate (.wrongParent child current (t.parent? child))

/-- Visits a node and everything below it. `lineage` counts the replacements that led to the node.
Returns how many nodes now stand in its place. -/
def visit (σ : PassSetting) : Nat → NodeId → UInt32 → PassM Nat
  | 0, _, _ => throw (.fault .exhausted)
  | n + 1, node, lineage => do
    let s ← get
    if s.stateOf node ≠ .pending ∨ !s.tree.isLive node then return 1
    else
      setState node .visiting
      note (.entered node)
      match ← rounds σ (visit σ n) .pre node lineage with
      | .node current =>
        setState current .visiting
        walk (visit σ n · 0) current n 0
        let place ← rounds σ (visit σ n) .post current lineage
        setState node .visited
        setState current .visited
        return place.count
      | place =>
        setState node .visited
        return place.count

/-- Walks the whole tree. -/
def visitRoot (σ : PassSetting) : PassM Nat := do
  visit σ σ.depth (← get).tree.root 0

/-- Runs a pass on a workspace and returns its counters. -/
def run (σ : PassSetting) : Action PassStats := fun w =>
  match visitRoot σ { tree := w.tree, files := w.files } with
  | .ok _ s => .ok (.ofLog s.log) s.toWorkspace
  | .error e s => .error e s.toWorkspace

end Pass

end CodeMigration
