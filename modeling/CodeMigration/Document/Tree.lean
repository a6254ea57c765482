import CodeMigration.Document.Basic
import CodeMigration.Tree.Edit
import CodeMigration.Tree.Validate

/-!
# Documents and trees

`Tree.ofDocument` allocates the nodes of a document, parents before children, and refuses one that
is nested too deeply. `Tree.toDocument` is the way back: the attached part of the tree, with the
positions and the formatting data of its nodes.
-/

namespace CodeMigration

namespace Tree

/-- How many levels below the root a document may have. -/
def maxLevels : Nat := 512

/-- Records the position and the formatting data of a node. -/
def setExtras (t : Tree) (id : NodeId) (span : Option Span) (layout : Option Json) : Tree :=
  let t := match span with
    | some s => t.setAttribute id .span (.span s)
    | none => t
  match layout with
  | some l => t.setAttribute id .layout (.data l)
  | none => t

mutual

/-- Allocates a node of a document below `parent`, on the given level. -/
def plant (parent : NodeId) (level : Nat) : DocNode → Tree → Except Error Tree
  | .node c children span layout, t =>
    if maxLevels < level then .error (.document (.tooDeep maxLevels))
    else do
      let (t', id) := t.add c
      let t'' ← (Edit.pushChild parent id).result (t'.setExtras id span layout)
      plantAll id (level + 1) children t''

/-- Allocates a row of nodes. -/
def plantAll (parent : NodeId) (level : Nat) : List DocNode → Tree → Except Error Tree
  | [], t => .ok t
  | n :: ns, t => do plantAll parent level ns (← plant parent level n t)

end

/-- The tree of a document. -/
def ofDocument (d : Document) : Except Error Tree :=
  let t := (Tree.new d.root.construct).withOrigin d.path d.source
  plantAll t.root 1 d.root.children (t.setExtras t.root d.root.span d.root.layout)

/-- A node and what is below it down to a number of levels, as nested data. -/
def outlineTo (t : Tree) : Nat → NodeId → DocNode
  | 0, _ => .plain .null []
  | n + 1, id =>
    .node ((t.construct? id).getD .null) ((t.children id).map (t.outlineTo n))
      ((t.attribute? id .span).bind AttributeValue.asSpan?)
      ((t.attribute? id .layout).bind AttributeValue.asData?)

/-- A node and everything below it, as nested data. -/
def outline (t : Tree) (id : NodeId) : DocNode := t.outlineTo t.size id

/-- The document of the attached part of a tree. -/
def toDocument (t : Tree) : Except Error Document := do
  t.validate
  return { path := t.origin.path, source := t.origin.source, root := t.outline t.root }

end Tree

end CodeMigration
