import CodeMigration.Rule.Basic

/-!
# Assertions

Static calls of the tester's assertions become calls of PHPUnit's. Most are renamed; `contains`
depends on the type of the second argument, and `type` on its first argument, which is dropped when
it names a built-in type.
-/

namespace CodeMigration

namespace Catalogue.Assertions

/-- The class with the assertions to migrate. -/
def tester : String := "Tester\\Assert"

/-- The class with the assertions to migrate to. -/
def phpUnit : String := "PHPUnit\\Framework\\Assert"

/-- Assertions that keep their arguments. -/
def renames : List (String × String) :=
  [("same", "assertSame"), ("notSame", "assertNotSame"), ("equal", "assertEquals"),
    ("notEqual", "assertNotEquals"), ("true", "assertTrue"), ("false", "assertFalse"),
    ("null", "assertNull"), ("notNull", "assertNotNull"), ("count", "assertCount"),
    ("nan", "assertNan"), ("match", "assertStringMatchesFormat"),
    ("matchFile", "assertStringMatchesFormatFile")]

/-- Assertions for the built-in types. -/
def builtinTypes : List (String × String) :=
  [("string", "assertIsString"), ("int", "assertIsInt"), ("integer", "assertIsInt"),
    ("float", "assertIsFloat"), ("bool", "assertIsBool"), ("boolean", "assertIsBool"),
    ("array", "assertIsArray"), ("list", "assertIsArray"), ("callable", "assertIsCallable"),
    ("iterable", "assertIsIterable"), ("object", "assertIsObject"), ("scalar", "assertIsScalar"),
    ("resource", "assertIsResource"), ("null", "assertNull")]

/-- The new name of an assertion that keeps its arguments. -/
def renamed? (method : String) : Option String := renames.lookup method

/-- What an assertion becomes. -/
structure Target where
  method : String
  dropFirst : Bool := false
deriving DecidableEq

/-- The target of `contains` or its negation, by the type of the second argument. -/
def containsTarget? (oracle : Oracle) (t : Tree) (arguments : List NodeId) (negated : Bool) :
    Option Target :=
  match (arguments[1]?).bind (oracle.typeOf t) with
  | some type =>
    if type.isScalar "string" then
      some ⟨if negated then "assertStringNotContainsString" else "assertStringContainsString",
        false⟩
    else if type.isScalar "array" || type.isScalar "iterable" || type.isObject then
      some ⟨if negated then "assertNotContains" else "assertContains", false⟩
    else none
  | none => none

/-- The target of `type`, by the first argument. -/
def typeTarget? (t : Tree) (arguments : List NodeId) : Option Target :=
  match (arguments[0]?).bind t.construct? with
  | some (.string value) =>
    match builtinTypes.lookup (value.map Char.toLower) with
    | some method => some ⟨method, true⟩
    | none => some ⟨"assertInstanceOf", false⟩
  | some (.classConstant _ constant) =>
    if constant = "class" then some ⟨"assertInstanceOf", false⟩ else none
  | _ => none

/-- The target of an assertion. -/
def target? (oracle : Oracle) (t : Tree) (node : NodeId) (method : String) : Option Target :=
  let arguments := t.arguments node
  if method = "contains" then containsTarget? oracle t arguments false
  else if method = "notContains" then containsTarget? oracle t arguments true
  else if method = "type" then typeTarget? t arguments
  else (renamed? method).map fun name => ⟨name, false⟩

/-- Whether a class has the assertions to migrate. -/
def isTester (oracle : Oracle) (className : String) : Bool :=
  ClassName.same className tester || oracle.isSubtype (ClassName.normalize className) tester

/-- Drops the first argument of a call. -/
def dropFirst (node : NodeId) : Action Unit := do
  match (← Action.tree).child? node 0 with
  | some first => Action.edit (Edit.removeChild node first)
  | none => return ()

/-- Puts the target in the place of an assertion. -/
def retarget (node : NodeId) (target : Target) : Action Outcome := do
  if target.dropFirst then dropFirst node
  Action.update (·.setConstruct node (.staticCall phpUnit target.method))
  return .mutated

/-- Migrates an assertion. -/
def apply (oracle : Oracle) (_pass : Nat) (node : NodeId) : Action Outcome := do
  Action.require node
  let t ← Action.tree
  match t.construct? node with
  | some (.staticCall className method) =>
    if isTester oracle className then
      match target? oracle t node method with
      | some target => retarget node target
      | none => return .unchanged
    else return .unchanged
  | _ => return .unchanged

/-- The rule for assertions. -/
def rule : Rule where
  id := "nette_assert_to_phpunit_assert"
  description := "Migrate Nette Tester assertions to PHPUnit"
  kinds := [.staticCall]
  apply := apply

end Catalogue.Assertions

end CodeMigration
