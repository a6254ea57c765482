/-!
# Failures

Two things can go wrong while a tree is edited or walked. An `Error` is a refusal that the code in
charge has to deal with: most abort the work on a tree, while an invalid edit only abandons the
rule that asked for it. A `Fault` is a mistake of the caller, such as asking about a node that was
never allocated.
-/

namespace CodeMigration

/-- Nodes are numbered in the order of their allocation. -/
abbrev NodeId := Nat

/-- A node in messages. -/
def NodeId.text (id : NodeId) : String := "#" ++ toString id

/-- Why an edit was refused. -/
inductive Refusal where
  | notLive
  | rootAsChild
  | alreadyChild (parent : NodeId)
  | attachCycle (parent : NodeId)
  | notChild (parent : NodeId)
  | badPosition (position count : Nat)
  | rootRemoval
  | notFree
  | replaceCycle (old : NodeId)
  | notAttached
  | notExpandable
  | listedTwice
  | other (reason : String)
deriving DecidableEq

/-- The wording of a refusal. -/
def Refusal.message : Refusal → String
  | .notLive => "node does not exist or was discarded"
  | .rootAsChild => "the root cannot become a child"
  | .alreadyChild parent => "node is already a child of " ++ parent.text
  | .attachCycle parent => "attaching below " ++ parent.text ++ " would create a cycle"
  | .notChild parent => "node is not a direct child of " ++ parent.text
  | .badPosition position count =>
    "insert position " ++ toString position ++ " out of bounds (" ++ toString count ++ " children)"
  | .rootRemoval => "the root cannot be removed"
  | .notFree => "replacement is not a free node"
  | .replaceCycle old => "replacing " ++ old.text ++ " would create a cycle"
  | .notAttached => "node is not attached"
  | .notExpandable => "only a child can be expanded"
  | .listedTwice => "node listed twice in replacement"
  | .other reason => reason

/-- What is wrong with a tree, or with what a rule said about it. -/
inductive Violation where
  | rootHasParent (root : NodeId)
  | discardedReachable (node : NodeId)
  | repeated (node : NodeId)
  | wrongParent (child parent : NodeId) (actual : Option NodeId)
  | missingChild (child parent : NodeId)
  | registeredTwice (rule : String)
  | rootRemoved (rule : String) (root : NodeId)
  | strayReplacement (rule : String) (replacement node : NodeId)
  | strayExpansion (rule : String) (node stray : NodeId)
  | other (reason : String)
deriving DecidableEq

/-- A parent link in messages. -/
def Violation.linkText : Option NodeId → String
  | none => "None"
  | some id => "Some(NodeId(" ++ toString id ++ "))"

/-- The wording of a violation. -/
def Violation.message : Violation → String
  | .rootHasParent root => "root " ++ root.text ++ " has a parent"
  | .discardedReachable node => "discarded node " ++ node.text ++ " is still reachable"
  | .repeated node => "node " ++ node.text ++ " appears more than once"
  | .wrongParent child parent actual =>
    child.text ++ " is listed under " ++ parent.text ++ " but its parent is " ++ linkText actual
  | .missingChild child parent =>
    child.text ++ " claims parent " ++ parent.text ++ " but is missing from its children"
  | .registeredTwice rule => "rule '" ++ rule ++ "' registered twice"
  | .rootRemoved rule root =>
    "rule '" ++ rule ++ "' reported the removal of root " ++ root.text
  | .strayReplacement rule replacement node =>
    "rule '" ++ rule ++ "' reported replacement " ++ replacement.text ++ " for " ++ node.text ++
      " but it is not attached"
  | .strayExpansion rule node stray =>
    "rule '" ++ rule ++ "' expanded " ++ node.text ++ " into " ++ stray.text ++
      " but it is not attached"
  | .other reason => reason

/-- What is wrong with a tree document. -/
inductive DocumentProblem where
  | malformed
  | tooDeep (limit : Nat)
  | other (reason : String)
deriving DecidableEq

/-- The wording for text that is not JSON of the expected form. -/
def malformedText : String := "malformed JSON"

/-- The wording of a document problem. -/
def DocumentProblem.message : DocumentProblem → String
  | .malformed => malformedText
  | .tooDeep limit => "tree is nested deeper than " ++ toString limit ++ " levels"
  | .other reason => reason

/-- A refusal of the engine. -/
inductive Error where
  | invalidMutation (node : NodeId) (reason : Refusal)
  | loopDetected (node : NodeId) (rule : String) (bound : UInt32)
  | invariantViolation (violation : Violation)
  | unknownRule (id : String)
  | ruleCycle (id : String)
  | document (problem : DocumentProblem)
deriving DecidableEq

namespace Error

/-- The wording of an error. -/
def message : Error → String
  | .invalidMutation node reason =>
    "invalid mutation on node " ++ node.text ++ ": " ++ reason.message
  | .loopDetected node rule bound =>
    "rule '" ++ rule ++ "' keeps rewriting node " ++ node.text ++ " (re-visit bound " ++
      toString bound ++ " exceeded)"
  | .invariantViolation violation => "tree invariant violated: " ++ violation.message
  | .unknownRule id => "unknown rule '" ++ id ++ "'"
  | .ruleCycle id => "rule dependency cycle involving '" ++ id ++ "'"
  | .document problem => "malformed tree document: " ++ problem.message

/-- Every error but an invalid edit aborts the work on a tree. -/
def isFatal : Error → Bool
  | .invalidMutation .. => false
  | _ => true

end Error

/-- A mistake of the caller that no result can stand for. -/
inductive Fault where
  | outsideArena (size index : Nat)
  | raised (message : String)
  | silent
  | exhausted
deriving DecidableEq

/-- The wording of a fault. -/
def Fault.message : Fault → String
  | .outsideArena size index =>
    "index out of bounds: the len is " ++ toString size ++ " but the index is " ++ toString index
  | .raised message => message
  | .silent => "unknown panic"
  | .exhausted => "the pass never ends"

/-- Either kind of failure. -/
inductive Failure where
  | error (error : Error)
  | fault (fault : Fault)
deriving DecidableEq

end CodeMigration
