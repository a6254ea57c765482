import CodeMigration.Oracle
import CodeMigration.Tree.Command

/-!
# Rules

A rule looks at a node of a kind it accepts, edits the tree around it if it finds something to do,
and says what it did. A rule keeps nothing to itself: what it learns about a node it records as an
attribute, so one rule serves any number of trees.
-/

namespace CodeMigration

/-- When a rule is offered a node: before its children are visited, or after. -/
inductive VisitOrder where
  | pre
  | post
deriving DecidableEq, Repr

/-- What an application did to the node it was offered. -/
inductive Outcome where
  | unchanged
  /-- The node itself was changed. -/
  | mutated
  /-- Another node stands in its place. -/
  | replaced (new : NodeId)
  /-- A row of nodes stands in its place. -/
  | expanded (new : List NodeId)
  /-- The node is gone, or is to go. -/
  | removed
deriving DecidableEq

/-- Anything but `unchanged`. -/
def Outcome.isChange (o : Outcome) : Bool := o != .unchanged

/-- A file to be written beside the migrated tree. -/
structure AddedFile where
  path : String
  content : String
deriving DecidableEq

/-- What a rule works on: the tree, and the files asked for so far in the order of the requests. -/
structure Workspace where
  tree : Tree
  files : List AddedFile := []

/-- A computation on a workspace that can fail; what it did before it failed stays done. -/
abbrev Action := EStateM Failure Workspace

namespace Action

/-- The tree as it is. -/
def tree : Action Tree := return (← get).tree

/-- Changes the tree. -/
def update (f : Tree → Tree) : Action Unit := modify fun w => { w with tree := f w.tree }

/-- Fails with an error. -/
def refuse {α : Type} (e : Error) : Action α := throw (.error e)

/-- Fails with a fault. -/
def abort {α : Type} (f : Fault) : Action α := throw (.fault f)

/-- Runs an edit of the tree. -/
def edit {α : Type} (m : Edit α) : Action α := fun w =>
  match m w.tree with
  | .ok a t => .ok a { w with tree := t }
  | .error e t => .error (.error e) { w with tree := t }

/-- Faults when the node was never allocated. -/
def require (id : NodeId) : Action Unit := do
  let t ← tree
  if t.contains id then return () else abort (.outsideArena t.size id)

/-- Allocates a node. -/
def add (c : Construct) : Action NodeId := edit (Edit.add c)

/-- Allocates a node with children. -/
def addWithChildren (c : Construct) (children : List NodeId) : Action NodeId :=
  edit (Edit.addWithChildren c children)

/-- Allocates a keyed item of an array, with a new literal key. -/
def addItem (key : String) (value : NodeId) : Action NodeId := do
  let k ← add (.string key)
  addWithChildren (.arrayItem true) [k, value]

/-- Sets a flag. -/
def mark (id : NodeId) (key : AttributeKey) : Action Unit :=
  update (·.setAttribute id key (.flag true))

/-- Asks for a file. -/
def addFile (file : AddedFile) : Action Unit :=
  modify fun w => { w with files := w.files ++ [file] }

end Action

/-- A rule. `after` names rules that are to be offered a node earlier than this one. -/
structure Rule where
  id : String
  description : String := ""
  kinds : List Kind
  order : VisitOrder := .pre
  after : List String := []
  apply : (oracle : Oracle) → (pass : Nat) → NodeId → Action Outcome

end CodeMigration
