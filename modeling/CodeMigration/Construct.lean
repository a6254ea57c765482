/-!
# Syntactic constructs

What a node of a syntax tree stands for. A construct carries its own names and literals; its
operands are the children of the node. The layout of the children is

* `expression`, `propertyFetch`: one expression;
* `returnStatement`: nothing, or one expression;
* `assignment`: target, value;
* `methodCall`: receiver, then the arguments;
* `instantiation`, `staticCall`, `functionCall`, `docTag`: the arguments;
* `array`: its items, and an `arrayItem` holds key and value when keyed, else the value.
-/

namespace CodeMigration

/-- Which construct a node is, without its names and literals. -/
inductive Kind where
  | file
  | namespaceDecl
  | classDecl
  | method
  | function
  | expression
  | returnStatement
  | assignment
  | variableRef
  | instantiation
  | methodCall
  | staticCall
  | functionCall
  | propertyFetch
  | classConstant
  | array
  | arrayItem
  | string
  | int
  | bool
  | null
  | docTag
  | verbatim
deriving DecidableEq, Repr

/-- The name of a kind in documents and in listings. -/
def Kind.label : Kind → String
  | .file => "File"
  | .namespaceDecl => "Namespace"
  | .classDecl => "Class"
  | .method => "ClassMethod"
  | .function => "Function"
  | .expression => "Expression"
  | .returnStatement => "Return"
  | .assignment => "Assign"
  | .variableRef => "Variable"
  | .instantiation => "New"
  | .methodCall => "MethodCall"
  | .staticCall => "StaticCall"
  | .functionCall => "FuncCall"
  | .propertyFetch => "PropertyFetch"
  | .classConstant => "ClassConstFetch"
  | .array => "Array"
  | .arrayItem => "ArrayItem"
  | .string => "String"
  | .int => "Int"
  | .bool => "Bool"
  | .null => "Null"
  | .docTag => "Annotation"
  | .verbatim => "Opaque"

/-- Every kind. -/
def Kind.all : List Kind :=
  [.file, .namespaceDecl, .classDecl, .method, .function, .expression, .returnStatement,
    .assignment, .variableRef, .instantiation, .methodCall, .staticCall, .functionCall,
    .propertyFetch, .classConstant, .array, .arrayItem, .string, .int, .bool, .null,
    .docTag, .verbatim]

/-- The kind with the given label. -/
def Kind.ofLabel? (label : String) : Option Kind :=
  Kind.all.find? (·.label == label)

theorem Kind.ofLabel?_label (k : Kind) : Kind.ofLabel? k.label = some k := by
  cases k <;> decide

/-- A construct with its own names and literals. A `verbatim` construct is text that is only
passed through. -/
inductive Construct where
  | file
  | namespaceDecl (name : String)
  | classDecl (name : String) (parent : Option String) (interfaces : List String)
  | method (name : String)
  | function (name : String)
  | expression
  | returnStatement
  | assignment
  | variableRef (name : String)
  | instantiation (className : String)
  | methodCall (name : String)
  | staticCall (className name : String)
  | functionCall (name : String)
  | propertyFetch (name : String)
  | classConstant (className constant : String)
  | array
  | arrayItem (keyed : Bool)
  | string (value : String)
  | int (value : Int64)
  | bool (value : Bool)
  | null
  | docTag (name : String)
  | verbatim (label : String)
deriving DecidableEq

/-- The kind of a construct. -/
def Construct.kind : Construct → Kind
  | .file => .file
  | .namespaceDecl _ => .namespaceDecl
  | .classDecl .. => .classDecl
  | .method _ => .method
  | .function _ => .function
  | .expression => .expression
  | .returnStatement => .returnStatement
  | .assignment => .assignment
  | .variableRef _ => .variableRef
  | .instantiation _ => .instantiation
  | .methodCall _ => .methodCall
  | .staticCall .. => .staticCall
  | .functionCall _ => .functionCall
  | .propertyFetch _ => .propertyFetch
  | .classConstant .. => .classConstant
  | .array => .array
  | .arrayItem _ => .arrayItem
  | .string _ => .string
  | .int _ => .int
  | .bool _ => .bool
  | .null => .null
  | .docTag _ => .docTag
  | .verbatim _ => .verbatim

/-- The identifier a construct introduces or refers to; literals and plain statements have none. -/
def Construct.name? : Construct → Option String
  | .namespaceDecl name | .classDecl name .. | .method name | .function name
  | .variableRef name | .methodCall name | .staticCall _ name | .functionCall name
  | .propertyFetch name | .docTag name => some name
  | .instantiation className => some className
  | .classConstant _ constant => some constant
  | _ => none

end CodeMigration
