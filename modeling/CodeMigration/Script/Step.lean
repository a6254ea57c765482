import CodeMigration.Decoration
import CodeMigration.Rule.Basic
import CodeMigration.Script.Query
import CodeMigration.Script.Reference

/-!
# Scripts

A script is a row of steps on a workspace: edits, questions, decorations and requests for files.
A step can bind the node it returns to a name for the steps behind it.
-/

namespace CodeMigration

/-- A step of a script. -/
inductive Step where
  | bind (name : String) (step : Step)
  | command (command : Command Ref)
  | query (query : Query Ref)
  | decorate
  | addFile (file : AddedFile)

/-- A workspace with names for nodes, the newest first. -/
structure Session extends Workspace where
  bindings : List (String × NodeId) := []

/-- A computation on a session. -/
abbrev ScriptM := EStateM Stop Session

/-- The answer that stands for the reply to an edit. -/
def Answer.ofReply : Reply → Answer
  | .done => .done
  | .node id => .node (some id)
  | .nodes ids => .nodes ids
  | .attribute value => .attribute value

/-- The node that an answer consists of. -/
def Answer.node? : Answer → Option NodeId
  | .node id => id
  | _ => none

namespace Session

/-- Lifts a result. -/
def ofExcept {α : Type} : Except Stop α → ScriptM α
  | .ok a => return a
  | .error stop => throw stop

/-- The node that a reference names. -/
def resolve (r : Ref) : ScriptM NodeId := do
  let s ← get
  ofExcept (r.resolve s.tree s.bindings)

/-- Runs an edit on the tree. -/
def runCommand (c : Command NodeId) : ScriptM Answer := do
  let (t, result) := c.run (← get).tree
  modify fun s => { s with tree := t }
  match result with
  | .ok reply => return .ofReply reply
  | .error f => throw (.failure f)

/-- Answers a question about the tree. -/
def runQuery (oracle : Oracle) (q : Query NodeId) : ScriptM Answer := do
  match q.answer oracle (← get).tree with
  | .ok answer => return answer
  | .error f => throw (.failure f)

end Session

namespace Step

/-- Runs a step. -/
def run (oracle : Oracle) : Step → ScriptM Answer
  | .bind name step => do
    let answer ← step.run oracle
    match answer.node? with
    | some id => modify fun s => { s with bindings := (name, id) :: s.bindings }
    | none => pure ()
    return answer
  | .command c => do Session.runCommand (← c.resolve Session.resolve)
  | .query q => do Session.runQuery oracle (← q.resolve Session.resolve)
  | .decorate => do
    let (t, stats) := (← get).tree.decorate oracle
    modify fun s => { s with tree := t }
    return .decorated stats.placed stats.typed
  | .addFile file => do
    modify fun s => { s with files := s.files ++ [file] }
    return .done

end Step

end CodeMigration
