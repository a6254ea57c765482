import CodeMigration.ClassIndex
import CodeMigration.Tree.Basic

/-!
# Type oracles

An oracle answers what type a node has and how classes are related. Not knowing a type is a regular
answer, and nothing is an instance of anything then.

`Oracle.unknown` knows nothing. `Oracle.ofIndex` knows the classes of an index and works out types
from literals, constructions, assignments in the same body and declared return types; a class that
is missing from the index has the supertypes that the tree declares for it.
-/

namespace CodeMigration

/-- Answers about types. -/
structure Oracle where
  typeOf : Tree → NodeId → Option TypeDescriptor
  isSubtype : (name candidate : String) → Bool
  isInstance : Tree → NodeId → (candidate : String) → Bool

/-- Knows no type and no class. -/
def Oracle.unknown : Oracle where
  typeOf _ _ := none
  isSubtype _ _ := false
  isInstance _ _ _ := false

namespace Tree

/-! ### Classes declared in the tree -/

/-- The direct supertypes in the clauses of a class declaration. -/
def clauses (parent : Option String) (interfaces : List String) : List String :=
  (parent.toList ++ interfaces).map ClassName.normalize

/-- The classes that the attached part of the tree declares, last declaration first, with the
supertypes of their clauses. -/
def declaredClasses (t : Tree) : List (String × List String) :=
  (t.nodes.filterMap fun id =>
    match t.construct? id with
    | some (.classDecl _ parent interfaces) =>
      (t.qualifiedClass? id).map (·, clauses parent interfaces)
    | _ => none).reverse

/-- The supertypes that the tree declares for a class, directly or through others, nearest
first. -/
def declaredSupertypes (t : Tree) (name : String) : List String :=
  let declared := t.declaredClasses
  Search.breadthFirst (fun c => (declared.lookup c).getD [])
    ((declared.flatMap (·.2)).length + 1) (ClassName.normalize name)

/-! ### Assignments in the tree -/

/-- Whether nodes of a kind list statements. -/
def isBody (kind : Kind) : Bool :=
  kind == .method || kind == .function || kind == .file || kind == .namespaceDecl

/-- The nearest body among `above`, and the node below it that the way up from `id` goes
through. -/
def bodyAbove (t : Tree) (id : NodeId) : List NodeId → Option (NodeId × NodeId)
  | [] => none
  | p :: rest => if (t.kind? p).any isBody then some (p, id) else t.bodyAbove p rest

/-- The body around a node, and the statement of the body that contains the node. -/
def statementOf? (t : Tree) (id : NodeId) : Option (NodeId × NodeId) :=
  t.bodyAbove id (t.ancestors id)

/-- The value that a statement assigns to a variable. -/
def assignedValue? (t : Tree) (statement : NodeId) (name : String) : Option NodeId :=
  if t.hasKind statement .expression then
    match t.child? statement 0 with
    | some assignment =>
      if t.hasKind assignment .assignment &&
          (t.child? assignment 0).bind t.construct? == some (.variableRef name)
      then t.child? assignment 1 else none
    | none => none
  else none

/-- The value of the nearest assignment to a variable in an earlier statement of the same body. -/
def lastAssignment? (t : Tree) (id : NodeId) (name : String) : Option NodeId :=
  (t.statementOf? id).bind fun (body, statement) =>
    ((t.children body).takeWhile (· != statement)).reverse.findSome? (t.assignedValue? · name)

/-- The node a variable takes its type from: the class around it for `this`, the assigned value for
the target of an assignment, else the value assigned last. -/
def variableSource? (t : Tree) (id : NodeId) (name : String) : Option NodeId :=
  if name = "this" then t.enclosing? id .classDecl
  else
    match (t.parent? id).filter fun p => t.hasKind p .assignment && t.child? p 0 == some id with
    | some assignment => t.child? assignment 1
    | none => t.lastAssignment? id name

end Tree

/-! ### Types by an index -/

namespace ClassIndex

/-- The type a method returns. A class that the index does not know takes the declarations of the
supertypes that the tree declares for it. -/
def returnTypeIn? (index : ClassIndex) (t : Tree) (name method : String) :
    Option TypeDescriptor :=
  let inherited := if index.contains name then none
    else (t.declaredSupertypes name).findSome? (index.returnType? · method)
  ((index.returnType? name method).or inherited).map TypeDescriptor.parse

/-- How many nodes are followed from one to the next to find a type. -/
def maxHops : Nat := 33

/-- The type of a node, following at most the given number of nodes. A recorded type counts
first. -/
def typeWithin? (index : ClassIndex) (t : Tree) : Nat → NodeId → Option TypeDescriptor
  | 0, _ => none
  | n + 1, id =>
    if !t.isLive id then none
    else
      match (t.attribute? id .resolvedType).bind AttributeValue.asType? with
      | some type => some type
      | none =>
        match t.construct? id with
        | some (.instantiation name) => some (.object name)
        | some (.classDecl ..) => (t.qualifiedClass? id).map TypeDescriptor.object
        | some (.variableRef name) => (t.variableSource? id name).bind (typeWithin? index t n)
        | some .assignment => (t.child? id 1).bind (typeWithin? index t n)
        | some (.methodCall method) =>
          (((t.child? id 0).bind (typeWithin? index t n)).bind (·.className?)).bind
            (index.returnTypeIn? t · method)
        | some (.staticCall name method) => index.returnTypeIn? t name method
        | some (.classConstant _ constant) =>
          if constant = "class" then some (.scalar "string") else none
        | some (.string _) => some (.scalar "string")
        | some (.int _) => some (.scalar "int")
        | some (.bool _) => some (.scalar "bool")
        | some .null => some (.scalar "null")
        | some .array => some (.scalar "array")
        | _ => none

/-- The type of a node. -/
def typeOf? (index : ClassIndex) (t : Tree) (id : NodeId) : Option TypeDescriptor :=
  index.typeWithin? t maxHops id

/-- Whether the type of a node is a class that is the candidate or one of its subtypes. -/
def isInstance (index : ClassIndex) (t : Tree) (id : NodeId) (candidate : String) : Bool :=
  match (index.typeOf? t id).bind (·.className?) with
  | none => false
  | some name =>
    index.isSubtype name candidate ||
      (!index.contains name && (t.declaredSupertypes name).any (index.isSubtype · candidate))

end ClassIndex

/-- Knows the classes of an index. -/
def Oracle.ofIndex (index : ClassIndex) : Oracle where
  typeOf := index.typeOf?
  isSubtype := index.isSubtype
  isInstance := index.isInstance

end CodeMigration
