import CodeMigration.Oracle

/-!
# Decoration

Before a pass every attached node is given its scope and the class around it, and the types of the
expressions that have none recorded. All types are worked out on the tree as it was found, before
anything is recorded.
-/

namespace CodeMigration

/-- What a decoration recorded: nodes with a place, and nodes with a new type. -/
structure DecorationStats where
  placed : Nat
  typed : Nat
deriving DecidableEq, Repr

/-- An attached node with its scope and the class around it. -/
structure Placement where
  node : NodeId
  scope : Scope
  enclosing : Option NodeId

namespace Decoration

/-- Whether the types of nodes of a kind are recorded. -/
def recordsType (kind : Kind) : Bool :=
  kind == .variableRef || kind == .instantiation || kind == .methodCall || kind == .staticCall ||
    kind == .assignment || kind == .classDecl

/-- The scope inside a construct. -/
def innerScope (s : Scope) : Construct → Scope
  | .namespaceDecl name => s.nest .namespaceDecl name
  | .classDecl name _ _ => s.nest .classDecl name
  | .method name | .function name => s.nest .function name
  | _ => s

/-- The placements of a node and what is below it, down to a number of levels. -/
def place (t : Tree) : Nat → Scope → Option NodeId → NodeId → List Placement
  | 0, _, _, _ => []
  | n + 1, s, enclosing, id =>
    let inner := ((t.construct? id).map (innerScope s)).getD s
    let innerClass := if t.hasKind id .classDecl then some id else enclosing
    ⟨id, s, enclosing⟩ :: (t.children id).flatMap (place t n inner innerClass)

/-- The placements of all attached nodes, parents before children. -/
def placements (t : Tree) : List Placement := place t t.size .file none t.root

/-- The type to record for a node. -/
def newType? (oracle : Oracle) (t : Tree) (id : NodeId) : Option TypeDescriptor :=
  if (t.kind? id).any recordsType && !t.attributes.has id .resolvedType then oracle.typeOf t id
  else none

/-- The types to record. -/
def newTypes (oracle : Oracle) (t : Tree) (ids : List NodeId) : List (NodeId × TypeDescriptor) :=
  ids.filterMap fun id => (newType? oracle t id).map (id, ·)

/-- Records a placement. -/
def record (a : Attributes) (p : Placement) : Attributes :=
  let a := a.set p.node .scope (.scope p.scope)
  match p.enclosing with
  | some c => a.set p.node .enclosingClass (.node c)
  | none => a.erase p.node .enclosingClass

/-- Records a type. -/
def recordType (a : Attributes) (entry : NodeId × TypeDescriptor) : Attributes :=
  a.set entry.1 .resolvedType (.type entry.2)

end Decoration

/-- Records scopes, enclosing classes and missing types. -/
def Tree.decorate (oracle : Oracle) (t : Tree) : Tree × DecorationStats :=
  let placed := Decoration.placements t
  let typed := Decoration.newTypes oracle t (placed.map (·.node))
  (t.mapAttributes fun a => typed.foldl Decoration.recordType (placed.foldl Decoration.record a),
    ⟨placed.length, typed.length⟩)

end CodeMigration
