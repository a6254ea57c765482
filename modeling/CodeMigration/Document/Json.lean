import CodeMigration.Document.Basic
import CodeMigration.Json.Printer
import CodeMigration.Json.Reader
import CodeMigration.Json.Record

/-!
# Documents in JSON

A construct is a record whose first field, `kind`, says which further fields it has. Optional
fields are left out when they are absent or empty, and read as absent when they are `null`.
What counts of a text may nest `Json.maxDepth` arrays and objects; the unknown fields of nodes,
spans and documents do not count, while those of a construct do.
-/

namespace CodeMigration

/-! ### Constructs -/

namespace Construct

/-- A required text. -/
def textField? (f : Option Json) : Option String := Json.required? Json.asString? f

/-- The fields of the constructs of a kind, in declaration order. -/
def fieldNames : Kind → List String
  | .namespaceDecl | .method | .function | .variableRef | .methodCall | .functionCall
  | .propertyFetch | .docTag => ["name"]
  | .classDecl => ["name", "extends", "implements"]
  | .instantiation => ["class"]
  | .staticCall => ["class", "name"]
  | .classConstant => ["class", "constant"]
  | .arrayItem => ["keyed"]
  | .string | .int | .bool => ["value"]
  | .verbatim => ["label"]
  | .file | .expression | .returnStatement | .assignment | .array | .null => []

/-- The construct of a kind from the values of its fields. -/
def ofFields? : Kind → List (Option Json) → Option Construct
  | .file, [] => some .file
  | .expression, [] => some .expression
  | .returnStatement, [] => some .returnStatement
  | .assignment, [] => some .assignment
  | .array, [] => some .array
  | .null, [] => some .null
  | .namespaceDecl, [name] => (textField? name).map .namespaceDecl
  | .method, [name] => (textField? name).map .method
  | .function, [name] => (textField? name).map .function
  | .variableRef, [name] => (textField? name).map .variableRef
  | .methodCall, [name] => (textField? name).map .methodCall
  | .functionCall, [name] => (textField? name).map .functionCall
  | .propertyFetch, [name] => (textField? name).map .propertyFetch
  | .docTag, [name] => (textField? name).map .docTag
  | .instantiation, [name] => (textField? name).map .instantiation
  | .verbatim, [label] => (textField? label).map .verbatim
  | .string, [value] => (textField? value).map .string
  | .int, [value] => (Json.required? Json.asInt64? value).map .int
  | .bool, [value] => (Json.required? Json.asBool? value).map .bool
  | .arrayItem, [keyed] => (Json.defaulted? false Json.asBool? keyed).map .arrayItem
  | .staticCall, [className, name] => do
    return .staticCall (← textField? className) (← textField? name)
  | .classConstant, [className, constant] => do
    return .classConstant (← textField? className) (← textField? constant)
  | .classDecl, [name, parent, interfaces] => do
    return .classDecl (← textField? name)
      (← Json.defaulted? none (Json.asOptional? Json.asString?) parent)
      (← Json.defaulted? [] (Json.asList? Json.asString?) interfaces)
  | _, _ => none

/-- The construct of a kind from the record of its fields. -/
def ofRecord? (kind : Kind) (j : Json) : Option Construct :=
  (j.record? (fieldNames kind)).bind (ofFields? kind)

/-- Reads a construct. -/
def ofJson? : Json → Option Construct
  | .object fields => do
    let some (.string label) ← Json.single? "kind" fields | none
    ofRecord? (← Kind.ofLabel? label) (.object (fields.filter (·.1 != "kind")))
  | .array (.string label :: rest) => do ofRecord? (← Kind.ofLabel? label) (.array rest)
  | _ => none

/-- The fields of a construct besides its kind. -/
def toFields : Construct → List (String × Json)
  | .namespaceDecl name | .method name | .function name | .variableRef name | .methodCall name
  | .functionCall name | .propertyFetch name | .docTag name => [("name", .string name)]
  | .classDecl name parent interfaces =>
    [("name", .string name)] ++
      (match parent with
        | some p => [("extends", .string p)]
        | none => []) ++
      (if interfaces.isEmpty then [] else [("implements", .array (interfaces.map .string))])
  | .instantiation name => [("class", .string name)]
  | .staticCall className name => [("class", .string className), ("name", .string name)]
  | .classConstant className constant =>
    [("class", .string className), ("constant", .string constant)]
  | .arrayItem keyed => [("keyed", .bool keyed)]
  | .string value => [("value", .string value)]
  | .int value => [("value", .int value.toInt)]
  | .bool value => [("value", .bool value)]
  | .verbatim label => [("label", .string label)]
  | .file | .expression | .returnStatement | .assignment | .array | .null => []

/-- Writes a construct. -/
def toJson (c : Construct) : Json := .object (("kind", .string c.kind.label) :: c.toFields)

end Construct

/-! ### Spans -/

namespace Span

/-- Reads a span in which at most the given number of arrays and objects are nested. -/
def ofDraft? : Nat → Json.Draft → Option Span
  | 0, _ => none
  | n + 1, d => do
    let [start, stop, line] ← d.record? ["start", "end", "line"] | none
    return {
      start := ← Json.required? (Json.Draft.whole? n Json.asUInt64?) start
      stop := ← Json.required? (Json.Draft.whole? n Json.asUInt64?) stop
      line := ← Json.required? (Json.Draft.whole? n Json.asUInt32?) line }

/-- Writes a span. -/
def toJson (s : Span) : Json :=
  .object [("start", .int s.start.toNat), ("end", .int s.stop.toNat), ("line", .int s.line.toNat)]

end Span

/-! ### Nodes and documents -/

namespace DocNode

/-- Reads a node in which at most the given number of arrays and objects are nested. A node takes
two of them, one for itself and one for its construct or its row of children. -/
def ofDraft? : Nat → Json.Draft → Option DocNode
  | n + 2, d => do
    let [c, children, span, layout] ← d.record? ["syntax", "children", "span", "meta"] | none
    return .node
      (← Json.required? (Json.Draft.whole? (n + 1) Construct.ofJson?) c)
      (← Json.defaulted? [] (Json.Draft.asList? (ofDraft? n)) children)
      (← Json.defaulted? none (Json.Draft.asOptional? (Span.ofDraft? (n + 1))) span)
      (← Json.defaulted? none (Json.Draft.whole? (n + 1)
        (Json.asOptional? fun l => some l.canonical)) layout)
  | _, _ => none

mutual

/-- Writes a node. -/
def toJson : DocNode → Json
  | .node c children span layout =>
    .object (
      [("syntax", c.toJson)] ++
      (match children with
        | [] => []
        | n :: ns => [("children", .array (toJson n :: toJsons ns))]) ++
      (match span with
        | some s => [("span", s.toJson)]
        | none => []) ++
      (match layout with
        | some l => [("meta", l)]
        | none => []))

/-- Writes a row of nodes. -/
def toJsons : List DocNode → List Json
  | [] => []
  | n :: ns => toJson n :: toJsons ns

end

end DocNode

namespace Document

/-- Reads a document in which at most the given number of arrays and objects are nested. -/
def ofDraft? : Nat → Json.Draft → Option Document
  | 0, _ => none
  | n + 1, d => do
    let [path, source, root] ← d.record? ["path", "source", "root"] | none
    let text := Json.Draft.whole? n (Json.asOptional? Json.asString?)
    return {
      path := ← Json.defaulted? none text path
      source := ← Json.defaulted? none text source
      root := ← Json.required? (DocNode.ofDraft? n) root }

/-- Writes a document. -/
def toJson (d : Document) : Json :=
  let text := fun (name : String) (value : Option String) =>
    match value with
    | some s => [(name, Json.string s)]
    | none => []
  .object (text "path" d.path ++ text "source" d.source ++ [("root", d.root.toJson)])

/-- Reads the text of a document. -/
def parse (text : String) : Except Error Document :=
  match (Json.Draft.parse? text).bind (ofDraft? Json.maxDepth) with
  | some d => .ok d
  | none => .error (.document .malformed)

/-- The text of a document. -/
def text (d : Document) : String := d.toJson.pretty

end Document

end CodeMigration
