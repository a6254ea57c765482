import CodeMigration.Script.Step

/-!
# Scripted rules

A rule given as data: when it applies, the steps it takes, and what it says it did. The node it is
offered is bound to `self`.
-/

namespace CodeMigration

/-- What a scripted rule says at its end. -/
inductive Ending where
  | unchanged
  | mutated
  | removed
  | replaced (new : Ref)
  | expanded (new : List Ref)
  | fail (error : NodeId → Error)
  | raise (fault : Fault)

/-- A rule given as data. -/
structure ScriptedRule where
  id : String
  kinds : List Kind
  order : VisitOrder := .pre
  after : List String := []
  guard : Pattern := .any
  maxPass : Option Nat := none
  steps : List Step := []
  ending : Ending := .mutated

namespace ScriptedRule

/-- The outcome that an ending stands for. -/
def outcome (node : NodeId) : Ending → ScriptM Outcome
  | .unchanged => return .unchanged
  | .mutated => return .mutated
  | .removed => return .removed
  | .replaced new => return .replaced (← Session.resolve new)
  | .expanded new => return .expanded (← new.mapM Session.resolve)
  | .fail error => throw (.failure (.error (error node)))
  | .raise fault => throw (.failure (.fault fault))

/-- Takes the steps of the rule. Scripts know no types. -/
def perform (r : ScriptedRule) (node : NodeId) : ScriptM Outcome := do
  r.steps.forM fun s => do let _ ← s.run .unknown
  outcome node r.ending

/-- A script as an action. A bad reference is an invalid edit of the offered node. -/
def toAction (node : NodeId) (script : ScriptM Outcome) : Action Outcome := fun w =>
  match script { toWorkspace := w, bindings := [("self", node)] } with
  | .ok outcome s => .ok outcome s.toWorkspace
  | .error .badReference s =>
    .error (.error (.invalidMutation node (.other "bad reference"))) s.toWorkspace
  | .error (.failure f) s => .error f s.toWorkspace

/-- Applies the rule where its guard holds and the pass is not too late. -/
def apply (r : ScriptedRule) (oracle : Oracle) (pass : Nat) (node : NodeId) : Action Outcome := do
  if r.maxPass.any (· < pass) then return .unchanged
  else
    match r.guard.eval oracle (← Action.tree) node with
    | .error fault => Action.abort fault
    | .ok false => return .unchanged
    | .ok true => toAction node (r.perform node)

/-- The rule that the data describe. -/
def toRule (r : ScriptedRule) : Rule where
  id := r.id
  kinds := r.kinds
  order := r.order
  after := r.after
  apply := r.apply

end ScriptedRule

end CodeMigration
