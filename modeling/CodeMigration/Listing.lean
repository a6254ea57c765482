import CodeMigration.Tree.Validate

/-!
# Code listings

The attached part of a tree as program text. Class names are written from the global namespace. A
missing operand leaves its place empty, and a construct that is no expression is written as a
comment where one is expected.

The text of a node is put together from the constructs and the texts of the nodes right below it,
whatever these are (`expressionOf`, `statementOf`); the walk over the tree is `Tree.writeExpression`
and `Tree.writeStatement`.

Strings are quoted by `quote`; `unquote` reads a quoted string back from the text behind its opening
quote.
-/

namespace CodeMigration

namespace Listing

/-! ### Quoted strings -/

/-- The mark around strings in code. -/
def singleQuote : Char := Char.ofNat 39

/-- The mark around strings in annotations. -/
def doubleQuote : Char := '"'

/-- The characters of a quoted string, without the marks. -/
def escape (mark : Char) : List Char → List Char
  | [] => []
  | c :: rest =>
    if c == mark || c == '\\' then '\\' :: c :: escape mark rest else c :: escape mark rest

/-- A string between marks; a mark or a backslash inside is written behind a backslash. -/
def quote (mark : Char) (s : String) : String :=
  String.ofList (mark :: escape mark s.toList ++ [mark])

/-- Reads up to the first mark that does not follow a backslash, and returns what is behind it. -/
def unquote (mark : Char) : List Char → Option (List Char × List Char)
  | [] => none
  | '\\' :: [] => none
  | '\\' :: c :: rest => (unquote mark rest).map fun (s, r) => (c :: s, r)
  | c :: rest =>
    if c == mark then some ([], rest) else (unquote mark rest).map fun (s, r) => (c :: s, r)

/-! ### Expressions -/

/-- Whether a text stands in code or among the arguments of an annotation. -/
inductive Place where
  | code
  | tagArgument
deriving DecidableEq

/-- A part that may be missing. -/
def part (parts : List String) (i : Nat) : String := parts[i]?.getD ""

/-- Parts between commas. -/
def commas (parts : List String) : String := ", ".intercalate parts

/-- An expression in code, from the texts of its operands. -/
def expressionText (c : Construct) (parts : List String) : String :=
  match c with
  | .assignment => part parts 0 ++ " = " ++ part parts 1
  | .variableRef name => "$" ++ name
  | .instantiation name => "new " ++ ClassName.absolute name ++ "(" ++ commas parts ++ ")"
  | .methodCall name => part parts 0 ++ "->" ++ name ++ "(" ++ commas (parts.drop 1) ++ ")"
  | .staticCall className name =>
    ClassName.absolute className ++ "::" ++ name ++ "(" ++ commas parts ++ ")"
  | .functionCall name => name ++ "(" ++ commas parts ++ ")"
  | .propertyFetch name => part parts 0 ++ "->" ++ name
  | .classConstant className constant => ClassName.absolute className ++ "::" ++ constant
  | .array => "[" ++ commas parts ++ "]"
  | .arrayItem true => part parts 0 ++ " => " ++ part parts 1
  | .arrayItem false => part parts 0
  | .string value => quote singleQuote value
  | .int value => toString value.toInt
  | .bool true => "true"
  | .bool false => "false"
  | .null => "null"
  | .verbatim label => label
  | other => "/* " ++ other.kind.label ++ " */"

/-- An annotation, from the texts of its arguments. -/
def docTagText (name : String) (parts : List String) : String :=
  "@" ++ ClassName.absolute name ++ "(" ++ commas parts ++ ")"

section expression

variable {α : Type} (construct : α → Construct) (write : Place → α → String)

/-- The text of an operand that may be missing. -/
def operand (place : Place) (children : List α) (i : Nat) : String :=
  (children[i]?.map (write place)).getD ""

/-- The key of an item of an annotation; a string is written bare. -/
def keyText (children : List α) : String :=
  match children.head?.map construct with
  | some (.string value) => value
  | _ => operand write .code children 0

/-- A node as an expression, in code or as an argument of an annotation. -/
def expressionOf (place : Place) (c : Construct) (children : List α) : String :=
  match place, c with
  | _, .docTag name => docTagText name (children.map (write .tagArgument))
  | .tagArgument, .string value => quote doubleQuote value
  | .tagArgument, .array => "\x7b" ++ commas (children.map (write .tagArgument)) ++ "\x7d"
  | .tagArgument, .arrayItem true =>
    keyText construct write children ++ "=" ++ operand write .tagArgument children 1
  | .tagArgument, .arrayItem false => operand write .tagArgument children 0
  | _, c => expressionText c (children.map (write .code))

end expression

/-! ### Statements -/

/-- A line on a level of indentation; an empty line has no blanks. -/
def line (level : Nat) (text : String) : String :=
  if text = "" then "\n" else String.ofList (List.replicate (4 * level) ' ') ++ text ++ "\n"

/-- The first line of a class declaration. -/
def classHeader (name : String) (parent : Option String) (interfaces : List String) : String :=
  "class " ++ name ++
    (match parent with
      | some p => " extends " ++ ClassName.absolute p
      | none => "") ++
    if interfaces.isEmpty then ""
    else " implements " ++ commas (interfaces.map ClassName.absolute)

/-- The annotations in front of a function. -/
def docBlock (level : Nat) (tags : List String) : String :=
  if tags.isEmpty then ""
  else
    line level "/**" ++ String.join (tags.map fun tag => line level (" * " ++ tag)) ++
      line level " */"

section statement

variable {α : Type} (construct : α → Construct) (expression : Place → α → String)
  (write : Nat → α → String)

/-- Statements with an empty line before each. -/
def separated (level : Nat) (children : List α) : String :=
  String.join (children.map fun x => line level "" ++ write level x)

/-- Statements between braces. -/
def block (level : Nat) (children : List α) : String :=
  line level "\x7b" ++ String.join (children.map (write (level + 1))) ++ line level "\x7d"

/-- A function, the annotations in front of it. -/
def functionText (level : Nat) (header : String) (children : List α) : String :=
  let isDocTag := fun x => (construct x).kind == .docTag
  docBlock level ((children.filter isDocTag).map (expression .code)) ++ line level header ++
    block write level (children.filter fun x => !isDocTag x)

/-- A node as a statement. -/
def statementOf (level : Nat) (c : Construct) (children : List α) : String :=
  match c with
  | .file => line level "<?php" ++ separated write level children
  | .namespaceDecl name =>
    line level ("namespace " ++ ClassName.normalize name ++ ";") ++ separated write level children
  | .classDecl name parent interfaces =>
    line level (classHeader name parent interfaces) ++ block write level children
  | .method name =>
    functionText construct expression write level ("public function " ++ name ++ "()") children
  | .function name =>
    functionText construct expression write level ("function " ++ name ++ "()") children
  | .expression => line level (operand expression .code children 0 ++ ";")
  | .returnStatement =>
    if children.isEmpty then line level "return;"
    else line level ("return " ++ operand expression .code children 0 ++ ";")
  | .docTag name =>
    line level ("/** " ++ docTagText name (children.map (expression .tagArgument)) ++ " */")
  | .verbatim label => line level label
  | c => line level (expressionOf construct expression .code c children ++ ";")

end statement

end Listing

namespace Tree

/-- The construct that a node is written as. -/
def shown (t : Tree) (id : NodeId) : Construct := (t.construct? id).getD .null

/-- A node as an expression, down to a number of levels. -/
def writeExpression (t : Tree) : Nat → Listing.Place → NodeId → String
  | 0, _, _ => ""
  | n + 1, place, id =>
    Listing.expressionOf t.shown (t.writeExpression n) place (t.shown id) (t.children id)

/-- A node as a statement, down to a number of levels. -/
def writeStatement (t : Tree) : Nat → Nat → NodeId → String
  | 0, _, _ => ""
  | n + 1, level, id =>
    Listing.statementOf t.shown (t.writeExpression n) (t.writeStatement n) level (t.shown id)
      (t.children id)

/-- The attached part of a tree as program text. -/
def listing (t : Tree) : Except Error String := do
  t.validate
  return t.writeStatement t.size 0 t.root

/-- A single node as an expression. -/
def expressionText (t : Tree) (id : NodeId) : String := t.writeExpression t.size .code id

end Tree

end CodeMigration
