import CodeMigration.Rule.Basic

/-!
# Test cases

A class that extends the tester's test case extends PHPUnit's instead. In a file that declares a
test case the statements that set the tester up are dropped: `require` and its relatives, calls of
`Tester\Environment`, and `(new SomeTest)->run()`.
-/

namespace CodeMigration

namespace Catalogue.TestCases

/-- The parent class to migrate. -/
def testerCase : String := "Tester\\TestCase"

/-- The class whose calls set the tester up. -/
def testerEnvironment : String := "Tester\\Environment"

/-- The parent class to migrate to. -/
def phpUnitCase : String := "PHPUnit\\Framework\\TestCase"

/-- The functions that load other files. -/
def loaders : List String := ["require", "require_once", "include", "include_once"]

/-- Whether a class is a test case, migrated or not. -/
def isTestCase (oracle : Oracle) (t : Tree) (id : NodeId) : Bool :=
  match t.construct? id with
  | some (.classDecl _ (some parent) _) =>
    t.attributes.flag id .processed || ClassName.same parent testerCase ||
      oracle.isSubtype (ClassName.normalize parent) testerCase
  | _ => false

/-- The full names of the test cases of the file. -/
def testCases (oracle : Oracle) (t : Tree) : List String :=
  (t.nodes.filter (isTestCase oracle t)).filterMap t.qualifiedClass?

/-- Whether a statement stands right below a file or a namespace. -/
def isTopLevel (t : Tree) (id : NodeId) : Bool :=
  (t.parent? id).any fun p => t.hasKind p .file || t.hasKind p .namespaceDecl

/-- Whether an expression sets the tester up. -/
def isBootstrap (t : Tree) (cases : List String) (expression : NodeId) : Bool :=
  match t.construct? expression with
  | some (.functionCall name) => loaders.contains name
  | some (.staticCall className _) => ClassName.same className testerEnvironment
  | some (.methodCall name) =>
    name == "run" &&
      match (t.child? expression 0).bind t.construct? with
      | some (.instantiation className) => cases.contains (ClassName.normalize className)
      | _ => false
  | _ => false

/-- Migrates a class declaration. -/
def applyToClass (t : Tree) (node : NodeId) : Action Outcome :=
  match t.construct? node with
  | some (.classDecl name (some parent) interfaces) =>
    if ClassName.same parent testerCase then do
      Action.update (·.setConstruct node (.classDecl name (some phpUnitCase) interfaces))
      Action.mark node .processed
      return .mutated
    else return .unchanged
  | _ => return .unchanged

/-- Whether a statement is dropped. -/
def isDropped (oracle : Oracle) (t : Tree) (node : NodeId) : Bool :=
  isTopLevel t node &&
    let cases := testCases oracle t
    !cases.isEmpty && (t.child? node 0).any (isBootstrap t cases)

/-- Migrates a class declaration or drops a statement. -/
def apply (oracle : Oracle) (_pass : Nat) (node : NodeId) : Action Outcome := do
  Action.require node
  let t ← Action.tree
  if t.hasKind node .classDecl then applyToClass t node
  else if isDropped oracle t node then return .removed
  else return .unchanged

/-- The rule for test cases. -/
def rule : Rule where
  id := "nette_tester_class_to_phpunit_class"
  description := "Turn Nette Tester test cases into PHPUnit test cases"
  kinds := [.classDecl, .expression]
  apply := apply

end Catalogue.TestCases

end CodeMigration
