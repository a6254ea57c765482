import CodeMigration.ClassName

/-!
# Types of expressions

A nominal type: an object type named by its class, or one of the built-in scalar types, possibly
nullable and with type arguments.
-/

namespace CodeMigration

/-- Whether a type is a class or one of the built-in types. -/
inductive TypeCategory where
  | object
  | scalar
deriving DecidableEq, Repr

/-- A nominal type. -/
inductive TypeDescriptor where
  | mk (name : String) (category : TypeCategory) (nullable : Bool)
      (generics : List TypeDescriptor)

namespace TypeDescriptor

/-- The name of the class or built-in type. -/
def name : TypeDescriptor → String
  | .mk name _ _ _ => name

/-- Class or built-in. -/
def category : TypeDescriptor → TypeCategory
  | .mk _ category _ _ => category

/-- Whether null is a value of the type. -/
def nullable : TypeDescriptor → Bool
  | .mk _ _ nullable _ => nullable

/-- The type arguments. -/
def generics : TypeDescriptor → List TypeDescriptor
  | .mk _ _ _ generics => generics

/-- The type of the instances of a class. -/
def object (className : String) : TypeDescriptor :=
  .mk (ClassName.normalize className) .object false []

/-- A built-in type. -/
def scalar (name : String) : TypeDescriptor :=
  .mk name .scalar false []

/-- The type with null added, or as it is. -/
def withNullable (value : Bool) : TypeDescriptor → TypeDescriptor
  | .mk name category _ generics => .mk name category value generics

/-- The type with the given type arguments. -/
def withGenerics (arguments : List TypeDescriptor) : TypeDescriptor → TypeDescriptor
  | .mk name category nullable _ => .mk name category nullable arguments

/-- The built-in types that a declaration can name. -/
def builtins : List String :=
  ["string", "int", "float", "bool", "array", "null", "void", "mixed", "callable", "iterable"]

/-- The type named by a declaration without nullability mark; built-in names are recognised in
any ASCII case. -/
def ofName (name : String) : TypeDescriptor :=
  let lower := name.map Char.toLower
  if builtins.contains lower then scalar lower else object name

/-- The type of a declaration such as `?Foo\Bar` or `string`. -/
def parse (declared : String) : TypeDescriptor :=
  match declared.toList with
  | '?' :: rest => (ofName (String.ofList rest)).withNullable true
  | _ => ofName declared

/-- Whether the type is a class. -/
def isObject (t : TypeDescriptor) : Bool := t.category == .object

/-- Whether the type is the built-in type of the given name. -/
def isScalar (t : TypeDescriptor) (name : String) : Bool :=
  t.category == .scalar && t.name == name

/-- The class of an object type. -/
def className? (t : TypeDescriptor) : Option String :=
  if t.isObject then some t.name else none

mutual

/-- The type as it is written in a declaration. -/
def text : TypeDescriptor → String
  | .mk name _ nullable generics =>
    (if nullable then "?" else "") ++ name ++
      (match generics with
        | [] => ""
        | g :: gs => "<" ++ ", ".intercalate (text g :: texts gs) ++ ">")

/-- The written type arguments. -/
def texts : List TypeDescriptor → List String
  | [] => []
  | t :: ts => text t :: texts ts

end

end TypeDescriptor

end CodeMigration
