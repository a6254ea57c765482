import CodeMigration.Failure
import CodeMigration.Scope
import CodeMigration.TypeDescriptor
import CodeMigration.Json.Basic
import Std.Data.ExtTreeMap

/-!
# Node attributes

Facts about nodes that are kept beside the tree: types, scopes, positions, marks of rules. Each node
with attributes has a bag of them, with at most one entry for each key and never empty.

While a journal is open, the bag of a node is entered into it before the first change, so that
`rollback` can put it back.
-/

namespace CodeMigration

/-- The keys of attributes. -/
inductive AttributeKey where
  /-- The type of the node. -/
  | resolvedType
  /-- The class declaration around the node. -/
  | enclosingClass
  /-- The lexical scope of the node. -/
  | scope
  /-- Set on methods known to carry a route annotation. -/
  | hasRoute
  /-- The node this one was made from. -/
  | derivedFrom
  /-- Set by a rule on what it has already dealt with. -/
  | processed
  /-- Where the node stands in the source text. -/
  | span
  /-- Formatting data that is only passed through. -/
  | layout
deriving DecidableEq, Repr

/-- A byte range of the source text and the line it begins on. -/
structure Span where
  start : UInt64
  stop : UInt64
  line : UInt32
deriving DecidableEq

/-- The value of an attribute. -/
inductive AttributeValue where
  | flag (value : Bool)
  | node (target : NodeId)
  | type (value : TypeDescriptor)
  | scope (value : Scope)
  | span (value : Span)
  | text (value : String)
  | data (value : Json)

namespace AttributeValue

/-- The value of a flag. -/
def asFlag? : AttributeValue → Option Bool
  | .flag b => some b
  | _ => none

/-- The node a value points at. -/
def asNode? : AttributeValue → Option NodeId
  | .node n => some n
  | _ => none

/-- The type a value holds. -/
def asType? : AttributeValue → Option TypeDescriptor
  | .type t => some t
  | _ => none

/-- The scope a value holds. -/
def asScope? : AttributeValue → Option Scope
  | .scope s => some s
  | _ => none

/-- The span a value holds. -/
def asSpan? : AttributeValue → Option Span
  | .span s => some s
  | _ => none

/-- The formatting data a value holds. -/
def asData? : AttributeValue → Option Json
  | .data j => some j
  | _ => none

/-- Whether the value points at one of the given nodes. -/
def pointsInto (gone : List NodeId) (v : AttributeValue) : Bool :=
  v.asNode?.any gone.contains

end AttributeValue

/-- One attribute of a node. -/
structure AttributeEntry where
  key : AttributeKey
  value : AttributeValue

/-- The attributes of one node. -/
abbrev Bag := List AttributeEntry

namespace Bag

/-- The value of a key. -/
def get? (b : Bag) (key : AttributeKey) : Option AttributeValue :=
  (b.find? (·.key == key)).map (·.value)

/-- Sets the value of a key, in its place if it has one. -/
def set (key : AttributeKey) (value : AttributeValue) : Bag → Bag
  | [] => [⟨key, value⟩]
  | e :: rest => if e.key = key then ⟨key, value⟩ :: rest else e :: set key value rest

/-- Takes the entry at a position out; the last one takes its place. -/
def swapRemove (b : Bag) (i : Nat) : Bag :=
  match b.getLast? with
  | some last => (List.set b i last).dropLast
  | none => []

/-- Removes the first entry of a key. -/
def erase (b : Bag) (key : AttributeKey) : Bag :=
  match b.findIdx? (·.key == key) with
  | some i => b.swapRemove i
  | none => b

/-- Removes all entries of a key. -/
def clearKey (b : Bag) (key : AttributeKey) : Bag := b.filter (·.key != key)

/-- Whether a value points at one of the given nodes. -/
def pointsInto (gone : List NodeId) (b : Bag) : Bool := b.any (·.value.pointsInto gone)

/-- Removes every value that points at one of the given nodes. -/
def forget (gone : List NodeId) (b : Bag) : Bag := b.filter (!·.value.pointsInto gone)

/-- The bag unless it is empty. -/
def nonempty? (b : Bag) : Option Bag := if b.isEmpty then none else some b

end Bag

/-- Data of some nodes. -/
abbrev NodeMap (α : Type) := Std.ExtTreeMap NodeId α

/-- The attributes of all nodes of a tree, and the bags as they were before the first change since
the journal was opened. -/
structure Attributes where
  bags : NodeMap Bag := ∅
  journal : Option (NodeMap (Option Bag)) := none

namespace Attributes

/-! ### Reading -/

/-- The attributes of one node. -/
def ofNode (a : Attributes) (node : NodeId) : Bag := a.bags[node]?.getD []

/-- The value of a pair. -/
def get? (a : Attributes) (node : NodeId) (key : AttributeKey) : Option AttributeValue :=
  a.bags[node]?.bind (·.get? key)

/-- Whether a pair has a value. -/
def has (a : Attributes) (node : NodeId) (key : AttributeKey) : Bool := (a.get? node key).isSome

/-- A flag; anything else counts as not set. -/
def flag (a : Attributes) (node : NodeId) (key : AttributeKey) : Bool :=
  ((a.get? node key).bind AttributeValue.asFlag?).getD false

/-- The nodes with at least one attribute. -/
def nodes (a : Attributes) : List NodeId := a.bags.keys

/-- Number of nodes with at least one attribute. -/
def size (a : Attributes) : Nat := a.bags.size

/-- Whether no node has an attribute. -/
def isEmpty (a : Attributes) : Bool := a.bags.isEmpty

/-! ### The journal -/

/-- Enters the bag of a node into an open journal, unless it is there already. -/
def save (a : Attributes) (node : NodeId) : Attributes :=
  { a with journal := a.journal.map fun j =>
      if j.contains node then j else j.insert node a.bags[node]? }

/-- Enters the bags that pass a test into an open journal, unless they are there already. -/
def saveWhere (a : Attributes) (test : NodeId → Bag → Bool) : Attributes :=
  { a with journal := a.journal.map fun j => (a.bags.filter test).map (fun _ b => some b) ∪ j }

/-- Opens a journal. -/
def checkpoint (a : Attributes) : Attributes := { a with journal := some ∅ }

/-- Keeps all changes since the journal was opened. -/
def commit (a : Attributes) : Attributes := { a with journal := none }

/-- Puts the bags of the journal back; without one nothing happens. -/
def rollback (a : Attributes) : Attributes :=
  match a.journal with
  | some j =>
    { bags := (a.bags.filter fun n _ => !j.contains n) ∪ j.filterMap fun _ b => b }
  | none => a

/-! ### Changing -/

/-- Sets the value of a pair. -/
def set (a : Attributes) (node : NodeId) (key : AttributeKey) (value : AttributeValue) :
    Attributes :=
  { a.save node with bags := a.bags.insert node ((a.ofNode node).set key value) }

/-- Removes the value of a pair. -/
def erase (a : Attributes) (node : NodeId) (key : AttributeKey) : Attributes :=
  if a.has node key then
    { a.save node with
      bags := a.bags.alter node fun b => b.bind fun b => (b.erase key).nonempty? }
  else a

/-- Removes a key from all nodes. -/
def clearKey (a : Attributes) (key : AttributeKey) : Attributes :=
  { a.saveWhere fun _ b => (b.get? key).isSome with
    bags := a.bags.filterMap fun _ b => (b.clearKey key).nonempty? }

/-- Removes the attributes of some nodes and every value that points at one of them. -/
def forget (a : Attributes) (gone : List NodeId) : Attributes :=
  { a.saveWhere fun n b => gone.contains n || b.pointsInto gone with
    bags := a.bags.filterMap fun n b =>
      if gone.contains n then none else (b.forget gone).nonempty? }

end Attributes

end CodeMigration
