import CodeMigration.Oracle

/-!
# Patterns

Tests of single nodes that can be combined. A test that has to look at a node faults when the node
was never allocated; `and` and `or` look at their second part only when the first leaves the answer
open.
-/

namespace CodeMigration

/-- A test of a node. -/
inductive Pattern where
  | any
  | kind (kind : Kind)
  | named (name : String)
  | construct (construct : Construct)
  | callNamed (names : List String)
  | staticCallOn (className : String)
  | instantiationOf (className : String)
  | instanceOf (className : String)
  | receiverInstanceOf (className : String)
  | enclosingInstanceOf (className : String)
  | argument (index : Nat) (inner : Pattern)
  | childCount (count : Nat)
  | hasAttribute (key : AttributeKey)
  | flagged (key : AttributeKey)
  | raise (fault : Fault)
  | and (first second : Pattern)
  | or (first second : Pattern)
  | not (inner : Pattern)

namespace Tree

/-- The node is in the arena. -/
def checkContains (t : Tree) (id : NodeId) : Except Fault Unit :=
  if t.contains id then .ok () else .error (.outsideArena t.size id)

/-- Whether the construct of an allocated node passes a test. -/
def checkConstruct (t : Tree) (id : NodeId) (test : Construct → Bool) : Except Fault Bool := do
  t.checkContains id
  return (t.construct? id).any test

end Tree

namespace Pattern

/-- Whether a node passes a test. -/
def eval (oracle : Oracle) (t : Tree) : Pattern → NodeId → Except Fault Bool
  | .any, _ => .ok true
  | .kind k, id => t.checkConstruct id (·.kind == k)
  | .named name, id => t.checkConstruct id (·.name? == some name)
  | .construct c, id => t.checkConstruct id (· == c)
  | .callNamed names, id => t.checkConstruct id fun
    | .methodCall name => names.contains name
    | _ => false
  | .staticCallOn className, id => t.checkConstruct id fun
    | .staticCall target _ => ClassName.same target className
    | _ => false
  | .instantiationOf className, id => t.checkConstruct id fun
    | .instantiation target => ClassName.same target className
    | _ => false
  | .instanceOf className, id => .ok (oracle.isInstance t id className)
  | .receiverInstanceOf className, id => do
    t.checkContains id
    return t.hasKind id .methodCall && (t.child? id 0).any (oracle.isInstance t · className)
  | .enclosingInstanceOf className, id => do
    t.checkContains id
    return (t.enclosingClass? id).any (oracle.isInstance t · className)
  | .argument index inner, id => do
    t.checkContains id
    match (t.arguments id)[index]? with
    | some a => inner.eval oracle t a
    | none => return false
  | .childCount count, id => do
    t.checkContains id
    return (t.children id).length == count
  | .hasAttribute key, id => .ok (t.attributes.has id key)
  | .flagged key, id => .ok (t.attributes.flag id key)
  | .raise fault, _ => .error fault
  | .and first second, id => do
    if ← first.eval oracle t id then second.eval oracle t id else return false
  | .or first second, id => do
    if ← first.eval oracle t id then return true else second.eval oracle t id
  | .not inner, id => do return !(← inner.eval oracle t id)

end Pattern

end CodeMigration
