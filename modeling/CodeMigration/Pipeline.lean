import CodeMigration.Decoration
import CodeMigration.Pass
import CodeMigration.Path
import CodeMigration.Rule.Order

/-!
# Pipelines

A pipeline runs its rules over a tree in passes, with a decoration before each, until a pass changes
nothing or the number of passes is used up.
-/

namespace CodeMigration

/-- The limits of a run. The depth of visits is the number of nodes that can be numbered with 32
bits. -/
structure Limits where
  maxPasses : Nat := 2
  revisitBound : UInt32 := 1
  depth : Nat := UInt32.size
deriving DecidableEq

/-- Whether the last pass of a run changed nothing, or the passes were used up. -/
inductive RunOutcome where
  | converged
  | boundExceeded
deriving DecidableEq, Repr

/-- The report of a run. -/
structure RunReport where
  outcome : RunOutcome
  stats : List PassStats
  files : List AddedFile

namespace RunReport

/-- Number of passes. -/
def passes (r : RunReport) : Nat := r.stats.length

/-- Number of changes in all passes. -/
def mutations (r : RunReport) : Nat := r.stats.foldr (·.mutations + ·) 0

/-- Whether anything was changed or asked for. -/
def changed (r : RunReport) : Bool := decide (0 < r.mutations) || !r.files.isEmpty

end RunReport

/-- Rules in the order in which they are offered a node. -/
structure Pipeline where
  limits : Limits
  rules : List Rule := []

namespace Pipeline

/-- Registers a rule behind the present ones and puts the rules in order. -/
def addRule (p : Pipeline) (r : Rule) : Except Error Pipeline := do
  if p.rules.any (·.id == r.id) then .error (.invariantViolation (.registeredTwice r.id))
  else return { p with rules := ← Rule.arrange (p.rules ++ [r]) }

/-- A pipeline of rules in the order of their declaration. -/
def withRules (limits : Limits) (rules : List Rule) : Except Error Pipeline :=
  rules.foldlM addRule { limits }

/-- Takes a rule out; says whether there was one. -/
def removeRule (p : Pipeline) (id : String) : Pipeline × Bool :=
  ({ p with rules := p.rules.filter (·.id != id) }, p.rules.any (·.id == id))

/-- The identifiers of the rules in order. -/
def ruleIds (p : Pipeline) : List String := p.rules.map (·.id)

/-- Keeps the first request for each path. -/
def distinctFiles : List AddedFile → List AddedFile → List AddedFile
  | done, [] => done.reverse
  | done, f :: rest =>
    if done.any (Path.same ·.path f.path) then distinctFiles done rest
    else distinctFiles (f :: done) rest

/-- One pass: decoration, walk, and a check of the tree. -/
def onePass (p : Pipeline) (oracle : Oracle) (pass : Nat) : Action PassStats := do
  Action.update fun t => (t.decorate oracle).1
  let stats ← Pass.run {
    rules := p.rules, oracle, pass, revisitBound := p.limits.revisitBound,
    depth := p.limits.depth }
  match (← Action.tree).validate with
  | .ok _ => return stats
  | .error e => Action.refuse e

/-- At most `left` further passes after the given ones, newest first. -/
def passesFrom (p : Pipeline) (oracle : Oracle) : Nat → List PassStats →
    Action (RunOutcome × List PassStats)
  | 0, done => return (.boundExceeded, done.reverse)
  | left + 1, done => do
    let stats ← p.onePass oracle (done.length + 1)
    if stats.changed then p.passesFrom oracle left (stats :: done)
    else return (.converged, (stats :: done).reverse)

/-- Runs passes over a tree. The tree afterwards is returned in every case. -/
def run (p : Pipeline) (oracle : Oracle) (t : Tree) : Tree × Except Failure RunReport :=
  match p.passesFrom oracle p.limits.maxPasses [] { tree := t } with
  | .ok (outcome, stats) w => (w.tree, .ok ⟨outcome, stats, distinctFiles [] w.files⟩)
  | .error e w => (w.tree, .error e)

end Pipeline

end CodeMigration
