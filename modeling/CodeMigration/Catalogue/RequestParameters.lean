import CodeMigration.Rule.Basic

/-!
# Request parameters

`$request->getParameter('id')` becomes `$request->attributes->get('id')`.
-/

namespace CodeMigration

namespace Catalogue.RequestParameters

/-- The request class. -/
def request : String := "Nette\\Application\\Request"

/-- Whether a node reads a parameter of a request. -/
def readsParameter (oracle : Oracle) (t : Tree) (node : NodeId) : Bool :=
  t.construct? node == some (.methodCall "getParameter") &&
    (t.child? node 0).any (oracle.isInstance t · request)

/-- Puts the attributes of the receiver in the place of the receiver. -/
def readAttribute (node receiver : NodeId) : Action Outcome := do
  Action.edit (Edit.detach node receiver)
  let attributes ← Action.addWithChildren (.propertyFetch "attributes") [receiver]
  Action.edit (Edit.insertChild node 0 attributes)
  Action.update (·.setConstruct node (.methodCall "get"))
  return .mutated

/-- Migrates a read of a request parameter. -/
def apply (oracle : Oracle) (_pass : Nat) (node : NodeId) : Action Outcome := do
  Action.require node
  let t ← Action.tree
  if readsParameter oracle t node then
    match t.child? node 0 with
    | some receiver => readAttribute node receiver
    | none => return .unchanged
  else return .unchanged

/-- The rule for request parameters. -/
def rule : Rule where
  id := "request_get_parameter_to_attributes_get"
  description := "Read Nette request parameters from Symfony request attributes"
  kinds := [.methodCall]
  apply := apply

end Catalogue.RequestParameters

end CodeMigration
