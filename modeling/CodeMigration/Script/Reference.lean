import CodeMigration.Tree.Basic

/-!
# References to nodes

A script names the nodes it works on by number, by the name they were bound to, or by their place
in the tree.
-/

namespace CodeMigration

/-- A way to name a node. -/
inductive Ref where
  | number (node : NodeId)
  | root
  | bound (name : String)
  | parent (inner : Ref)
  | child (inner : Ref) (index : Nat)

/-- Why a script stops: it names a node that does not exist, or something in it fails. -/
inductive Stop where
  | badReference
  | failure (failure : Failure)

namespace Ref

/-- A node that has to be in the arena. -/
def inside (t : Tree) (id : NodeId) : Except Stop NodeId :=
  if t.contains id then .ok id else .error (.failure (.fault (.outsideArena t.size id)))

/-- A node that has to be there. -/
def found : Option NodeId → Except Stop NodeId
  | some id => .ok id
  | none => .error .badReference

/-- The node that a reference names. A number is taken as it is. -/
def resolve (t : Tree) (bindings : List (String × NodeId)) : Ref → Except Stop NodeId
  | .number node => .ok node
  | .root => .ok t.root
  | .bound name => found (bindings.lookup name)
  | .parent inner => do found (t.parent? (← inside t (← inner.resolve t bindings)))
  | .child inner index => do found (t.child? (← inside t (← inner.resolve t bindings)) index)

end Ref

end CodeMigration
