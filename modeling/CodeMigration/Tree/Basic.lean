import CodeMigration.Attributes
import CodeMigration.Construct

/-!
# Syntax trees

A tree is an arena of slots that refer to each other by number: children in order, and a link back
to the parent. A slot is never reused, so a number always means the same node; a node that has been
removed stays in the arena as a discarded one. A live node that hangs below no other is free, and
one of the nodes is the root.

While a checkpoint is open a journal keeps what is needed to undo the edits since then; the
attributes have one of their own.
-/

namespace CodeMigration

/-- A node: its construct, its links, and whether it is still in use. -/
structure Slot where
  construct : Construct
  children : List NodeId := []
  parent : Option NodeId := none
  live : Bool := true

/-- What undoes the edits of slots since a checkpoint: the size of the arena, the root and the
revision, and the slots that were changed as they were before the first change. -/
structure Journal where
  size : Nat
  root : NodeId
  revision : Nat
  saved : NodeMap Slot := ∅

/-- The file a tree was read from, and its text. -/
structure Origin where
  path : Option String := none
  source : Option String := none
deriving DecidableEq

/-- A syntax tree. Structural edits and changes of a construct count up the revision. -/
structure Tree where
  slots : Array Slot
  root : NodeId
  revision : Nat := 0
  attributes : Attributes := {}
  origin : Origin := {}
  journal : Option Journal := none

namespace Tree

/-- A tree of a single node. -/
def new (root : Construct) : Tree :=
  { slots := #[{ construct := root }], root := 0 }

/-- The tree with another origin. -/
def withOrigin (t : Tree) (path source : Option String) : Tree :=
  { t with origin := ⟨path, source⟩ }

/-- Number of nodes ever allocated. -/
def size (t : Tree) : Nat := t.slots.size

/-! ### Single nodes -/

/-- Whether the number has been allocated. -/
def contains (t : Tree) (id : NodeId) : Bool := decide (id < t.size)

/-- The slot of a node. -/
def slot? (t : Tree) (id : NodeId) : Option Slot := t.slots[id]?

/-- Whether the node has been allocated and not been discarded. -/
def isLive (t : Tree) (id : NodeId) : Bool := (t.slot? id).any (·.live)

/-- The construct of a node. -/
def construct? (t : Tree) (id : NodeId) : Option Construct := (t.slot? id).map (·.construct)

/-- The kind of a node. -/
def kind? (t : Tree) (id : NodeId) : Option Kind := (t.construct? id).map (·.kind)

/-- Whether a node is of the given kind. -/
def hasKind (t : Tree) (id : NodeId) (kind : Kind) : Bool := t.kind? id == some kind

/-- The name of a node. -/
def name? (t : Tree) (id : NodeId) : Option String := (t.construct? id).bind (·.name?)

/-- The children of a node, in order. -/
def children (t : Tree) (id : NodeId) : List NodeId := ((t.slot? id).map (·.children)).getD []

/-- The child at a position. -/
def child? (t : Tree) (id : NodeId) (index : Nat) : Option NodeId := (t.children id)[index]?

/-- The parent of a node. -/
def parent? (t : Tree) (id : NodeId) : Option NodeId := (t.slot? id).bind (·.parent)

/-- The position of a node among the children of its parent. -/
def indexInParent? (t : Tree) (id : NodeId) : Option Nat :=
  (t.parent? id).bind fun p => (t.children p).idxOf? id

/-! ### Ways up and down -/

/-- Follows parent links, at most `steps` of them. -/
def climb (t : Tree) : Nat → Option NodeId → List NodeId
  | 0, _ => []
  | _ + 1, none => []
  | n + 1, some id => id :: t.climb n (t.parent? id)

/-- The nodes above a node, nearest first. -/
def ancestors (t : Tree) (id : NodeId) : List NodeId := t.climb t.size (t.parent? id)

/-- Whether `id` is `ancestor` or lies below it. -/
def isAncestorOrSelf (t : Tree) (ancestor id : NodeId) : Bool :=
  id == ancestor || (t.ancestors id).contains ancestor

/-- Whether a live node is the root or lies below it. -/
def isAttached (t : Tree) (id : NodeId) : Bool := t.isLive id && t.isAncestorOrSelf t.root id

/-- The nearest node of a kind above a node. -/
def enclosing? (t : Tree) (id : NodeId) (kind : Kind) : Option NodeId :=
  (t.ancestors id).find? (t.hasKind · kind)

/-- A node and the nodes below it, parents before children, down to a number of levels. -/
def preorder (t : Tree) : Nat → NodeId → List NodeId
  | 0, _ => []
  | n + 1, id => id :: (t.children id).flatMap (t.preorder n)

/-- A node and all nodes below it, parents before children. -/
def descendants (t : Tree) (id : NodeId) : List NodeId := t.preorder t.size id

/-- All nodes of the tree, parents before children. -/
def nodes (t : Tree) : List NodeId := t.descendants t.root

/-! ### Classes -/

/-- The full name of a class declaration: its name below the nearest namespace, if that has a
name. -/
def qualifiedClass? (t : Tree) (id : NodeId) : Option String :=
  match t.construct? id with
  | some (.classDecl name _ _) =>
    match (t.enclosing? id .namespaceDecl).bind t.name? with
    | some ns =>
      if ns = "" then some (ClassName.normalize name)
      else some (ClassName.normalize ns ++ "\\" ++ name)
    | none => some (ClassName.normalize name)
  | _ => none

/-! ### Attributes -/

/-- The value of an attribute. -/
def attribute? (t : Tree) (id : NodeId) (key : AttributeKey) : Option AttributeValue :=
  t.attributes.get? id key

/-- The tree with changed attributes. -/
def mapAttributes (t : Tree) (f : Attributes → Attributes) : Tree :=
  { t with attributes := f t.attributes }

/-- Sets an attribute. -/
def setAttribute (t : Tree) (id : NodeId) (key : AttributeKey) (value : AttributeValue) : Tree :=
  t.mapAttributes (·.set id key value)

/-- The class declaration around a node: the recorded one while it still lies above the node, else
the nearest one above. -/
def enclosingClass? (t : Tree) (id : NodeId) : Option NodeId :=
  let recorded := ((t.attribute? id .enclosingClass).bind AttributeValue.asNode?).filter fun c =>
    t.isLive c && t.isAncestorOrSelf c id && c != id
  recorded.or (t.enclosing? id .classDecl)

/-- The arguments of a call; other nodes have none. -/
def arguments (t : Tree) (id : NodeId) : List NodeId :=
  match t.kind? id with
  | some .methodCall => (t.children id).drop 1
  | some .staticCall | some .functionCall | some .instantiation => t.children id
  | _ => []

end Tree

end CodeMigration
