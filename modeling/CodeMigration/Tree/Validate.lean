import CodeMigration.Tree.Basic

/-!
# Checking a tree

`Tree.validate` walks down from the root and checks that every node it meets is live, is met once,
and links back to the node that lists it. It works on any arena, whatever its links say.
-/

namespace CodeMigration

namespace Tree

/-- A violated invariant. -/
def violation {α : Type} (v : Violation) : Except Error α := .error (.invariantViolation v)

/-- Every child links back to the node that lists it. -/
def checkLinks (t : Tree) (id : NodeId) : List NodeId → Except Error Unit
  | [] => .ok ()
  | child :: rest =>
    if t.parent? child = some id then t.checkLinks id rest
    else violation (.wrongParent child id (t.parent? child))

/-- Checks the nodes of the stack and everything below them; the last child of a node is looked at
first. -/
def checkStack (t : Tree) : Nat → List NodeId → List NodeId → Except Error Unit
  | 0, _, _ => .ok ()
  | _ + 1, _, [] => .ok ()
  | n + 1, seen, id :: stack =>
    if !t.isLive id then violation (.discardedReachable id)
    else if seen.contains id then violation (.repeated id)
    else do
      t.checkLinks id (t.children id)
      t.checkStack n (id :: seen) ((t.children id).reverse ++ stack)

/-- Two more than the number of child entries in the arena: the walk takes up the root and each
entry at most once before it finds the stack empty. -/
def walkBound (t : Tree) : Nat := (t.slots.toList.flatMap (·.children)).length + 2

/-- Checks the nodes that can be reached from the root. -/
def validate (t : Tree) : Except Error Unit :=
  if (t.parent? t.root).isSome then violation (.rootHasParent t.root)
  else t.checkStack t.walkBound [] [t.root]

end Tree

end CodeMigration
