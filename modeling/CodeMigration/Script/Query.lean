import CodeMigration.Document.Json
import CodeMigration.Document.Tree
import CodeMigration.Listing
import CodeMigration.Pattern

/-!
# Questions about trees as data

A `Query` asks something about a tree without changing it. A question about a node that was never
allocated is a fault, unless the answer does not depend on its slot.
-/

namespace CodeMigration

/-- A question about a tree. -/
inductive Query (ρ : Type) where
  | validate
  | describe (node : ρ)
  | isLive (node : ρ)
  | isAttached (node : ρ)
  | enclosing (node : ρ) (kind : Kind)
  | isAncestorOrSelf (ancestor node : ρ)
  | child (node : ρ) (index : Nat)
  | attribute (node : ρ) (key : AttributeKey)
  | hasAttribute (node : ρ) (key : AttributeKey)
  | flag (node : ρ) (key : AttributeKey)
  | attributeCount
  | type (node : ρ)
  | types
  | isInstance (node : ρ) (className : String)
  | isSubtype (name candidate : String)
  | scope (node : ρ)
  | test (node : ρ) (pattern : Pattern)
  | testAll (pattern : Pattern)
  | arguments (node : ρ)
  | enclosingClass (node : ρ)
  | listing
  | expression (node : ρ)
  | document
  | documentText
  | arena

/-- Everything there is to say about a node. -/
structure NodeDescription where
  id : NodeId
  live : Bool
  attached : Bool
  construct : Construct
  parent : Option NodeId
  index : Option Nat
  ancestors : List NodeId
  descendants : List NodeId
  qualifiedClass : Option String
  attributes : List AttributeEntry

/-- The answer to a question, or what an edit returns. -/
inductive Answer where
  | done
  | truth (value : Bool)
  | node (id : Option NodeId)
  | nodes (ids : List NodeId)
  | attribute (value : Option AttributeValue)
  | attributeCount (count : Nat) (isEmpty : Bool)
  | type (value : Option TypeDescriptor)
  | types (values : List (NodeId × Option TypeDescriptor))
  | scope (value : Option Scope)
  | description (value : NodeDescription)
  | text (value : String)
  | document (value : Document)
  | decorated (nodes types : Nat)
  | arena (value : Tree)

namespace Query

/-- Resolves the nodes of a question from left to right. -/
def resolve {ρ σ : Type} {m : Type → Type} [Monad m] (f : ρ → m σ) : Query ρ → m (Query σ)
  | .validate => return .validate
  | .describe node => return .describe (← f node)
  | .isLive node => return .isLive (← f node)
  | .isAttached node => return .isAttached (← f node)
  | .enclosing node kind => return .enclosing (← f node) kind
  | .isAncestorOrSelf ancestor node => return .isAncestorOrSelf (← f ancestor) (← f node)
  | .child node index => return .child (← f node) index
  | .attribute node key => return .attribute (← f node) key
  | .hasAttribute node key => return .hasAttribute (← f node) key
  | .flag node key => return .flag (← f node) key
  | .attributeCount => return .attributeCount
  | .type node => return .type (← f node)
  | .types => return .types
  | .isInstance node className => return .isInstance (← f node) className
  | .isSubtype name candidate => return .isSubtype name candidate
  | .scope node => return .scope (← f node)
  | .test node pattern => return .test (← f node) pattern
  | .testAll pattern => return .testAll pattern
  | .arguments node => return .arguments (← f node)
  | .enclosingClass node => return .enclosingClass (← f node)
  | .listing => return .listing
  | .expression node => return .expression (← f node)
  | .document => return .document
  | .documentText => return .documentText
  | .arena => return .arena

/-- An answer about a node that has to be in the arena. -/
def inside (t : Tree) (id : NodeId) (answer : Answer) : Except Failure Answer :=
  if t.contains id then .ok answer else .error (.fault (.outsideArena t.size id))

/-- An answer that an error may take the place of. -/
def lift {α : Type} (answer : α → Answer) : Except Error α → Except Failure Answer
  | .ok a => .ok (answer a)
  | .error e => .error (.error e)

/-- Everything there is to say about a node with the given construct. -/
def description (t : Tree) (id : NodeId) (c : Construct) : NodeDescription where
  id := id
  live := t.isLive id
  attached := t.isAttached id
  construct := c
  parent := t.parent? id
  index := t.indexInParent? id
  ancestors := t.ancestors id
  descendants := t.descendants id
  qualifiedClass := t.qualifiedClass? id
  attributes := t.attributes.ofNode id

/-- The nodes that pass a test. -/
def passing (oracle : Oracle) (t : Tree) (pattern : Pattern) :
    List NodeId → Except Fault (List NodeId)
  | [] => .ok []
  | id :: rest => do
    let hit ← pattern.eval oracle t id
    let others ← passing oracle t pattern rest
    return if hit then id :: others else others

/-- Answers a question. -/
def answer (oracle : Oracle) (t : Tree) : Query NodeId → Except Failure Answer
  | .validate => lift (fun _ => .done) t.validate
  | .describe node =>
    match t.construct? node with
    | some c => .ok (.description (description t node c))
    | none => .error (.fault (.outsideArena t.size node))
  | .isLive node => .ok (.truth (t.isLive node))
  | .isAttached node => .ok (.truth (t.isAttached node))
  | .enclosing node kind => inside t node (.node (t.enclosing? node kind))
  | .isAncestorOrSelf ancestor node =>
    if ancestor = node then .ok (.truth true)
    else inside t node (.truth (t.isAncestorOrSelf ancestor node))
  | .child node index => inside t node (.node (t.child? node index))
  | .attribute node key => .ok (.attribute (t.attribute? node key))
  | .hasAttribute node key => .ok (.truth (t.attributes.has node key))
  | .flag node key => .ok (.truth (t.attributes.flag node key))
  | .attributeCount => .ok (.attributeCount t.attributes.size t.attributes.isEmpty)
  | .type node => .ok (.type (oracle.typeOf t node))
  | .types => .ok (.types (t.nodes.map fun id => (id, oracle.typeOf t id)))
  | .isInstance node className => .ok (.truth (oracle.isInstance t node className))
  | .isSubtype name candidate => .ok (.truth (oracle.isSubtype name candidate))
  | .scope node =>
    .ok (.scope ((t.attribute? node .scope).bind AttributeValue.asScope?))
  | .test node pattern =>
    match pattern.eval oracle t node with
    | .ok hit => .ok (.truth hit)
    | .error f => .error (.fault f)
  | .testAll pattern =>
    match passing oracle t pattern t.nodes with
    | .ok ids => .ok (.nodes ids)
    | .error f => .error (.fault f)
  | .arguments node => inside t node (.nodes (t.arguments node))
  | .enclosingClass node => inside t node (.node (t.enclosingClass? node))
  | .listing => lift .text t.listing
  | .expression node => inside t node (.text (t.expressionText node))
  | .document => lift .document t.toDocument
  | .documentText => lift (fun d => .text d.text) t.toDocument
  | .arena => .ok (.arena t)

end Query

end CodeMigration
