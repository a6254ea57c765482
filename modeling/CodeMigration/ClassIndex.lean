import CodeMigration.ClassName
import CodeMigration.Search
import CodeMigration.Json.Reader
import CodeMigration.Json.Record

/-!
# Class index

What is known about the classes of a project: parents, interfaces and declared return types of
methods. Names are looked up without leading separators, and the supertypes of a class are found
by a breadth-first walk over parents and then interfaces.
-/

namespace CodeMigration

/-- The declarations of one class or interface. -/
structure ClassEntry where
  parents : List String := []
  interfaces : List String := []
  methods : List (String × String) := []
deriving DecidableEq

namespace ClassEntry

/-- Adds a parent class. -/
def extend (e : ClassEntry) (parent : String) : ClassEntry :=
  { e with parents := e.parents ++ [ClassName.normalize parent] }

/-- Adds an interface. -/
def implement (e : ClassEntry) (interface : String) : ClassEntry :=
  { e with interfaces := e.interfaces ++ [ClassName.normalize interface] }

/-- Declares the return type of a method, in place of an earlier declaration. -/
def declare (e : ClassEntry) (method returnType : String) : ClassEntry :=
  { e with methods := Json.assign method returnType e.methods }

/-- The direct supertypes, parents first. -/
def supertypes (e : ClassEntry) : List String :=
  (e.parents ++ e.interfaces).map ClassName.normalize

/-- Names of the record fields. -/
def fieldNames : List String := ["parents", "interfaces", "methods"]

/-- Reads an entry in which at most the given number of arrays and objects are nested. -/
def ofDraft? : Nat → Json.Draft → Option ClassEntry
  | 0, _ => none
  | n + 1, d => do
    let [parents, interfaces, methods] ← d.record? fieldNames | none
    let names := Json.Draft.whole? n (Json.asList? Json.asString?)
    return {
      parents := ← Json.defaulted? [] names parents
      interfaces := ← Json.defaulted? [] names interfaces
      methods := ← Json.defaulted? [] (Json.Draft.whole? n (Json.asMap? Json.asString?)) methods }

end ClassEntry

/-- The classes known by name. -/
structure ClassIndex where
  classes : List (String × ClassEntry) := []

namespace ClassIndex

/-- Enters a class, in place of an earlier entry of the same name. -/
def insert (index : ClassIndex) (name : String) (entry : ClassEntry) : ClassIndex :=
  ⟨Json.assign (ClassName.normalize name) entry index.classes⟩

/-- The entry of a class. -/
def get? (index : ClassIndex) (name : String) : Option ClassEntry :=
  index.classes.lookup (ClassName.normalize name)

/-- Whether the class has an entry. -/
def contains (index : ClassIndex) (name : String) : Bool := (index.get? name).isSome

/-- Number of classes. -/
def size (index : ClassIndex) : Nat := index.classes.length

/-- The direct supertypes of a class. -/
def step (index : ClassIndex) (name : String) : List String :=
  ((index.get? name).map (·.supertypes)).getD []

/-- One more than the number of supertype mentions in the index. -/
def searchBound (index : ClassIndex) : Nat :=
  (index.classes.flatMap (·.2.supertypes)).length + 1

/-- All supertypes of a class, nearest first. -/
def supertypes (index : ClassIndex) (name : String) : List String :=
  Search.breadthFirst index.step index.searchBound (ClassName.normalize name)

/-- Whether a class is the candidate or has it among its supertypes. -/
def isSubtype (index : ClassIndex) (name candidate : String) : Bool :=
  ClassName.same name candidate ||
    (index.supertypes name).contains (ClassName.normalize candidate)

/-- The return type a class declares for a method itself. -/
def declaredReturn? (index : ClassIndex) (method name : String) : Option String :=
  (index.get? name).bind fun e => e.methods.lookup method

/-- The return type declared by the class or else by the nearest supertype that declares one. -/
def returnType? (index : ClassIndex) (name method : String) : Option String :=
  (ClassName.normalize name :: index.supertypes name).findSome? (index.declaredReturn? method)

/-- Reads an index, an object from class names to entries, in which at most the given number of
arrays and objects are nested. -/
def ofDraft? : Nat → Json.Draft → Option ClassIndex
  | 0, _ => none
  | n + 1, d => do
    let classes ← d.asMap? (ClassEntry.ofDraft? n)
    return classes.foldl (fun index (name, entry) => index.insert name entry) {}

/-- Reads the text of an index. -/
def parse? (text : String) : Option ClassIndex :=
  (Json.Draft.parse? text).bind (ofDraft? Json.maxDepth)

end ClassIndex

end CodeMigration
