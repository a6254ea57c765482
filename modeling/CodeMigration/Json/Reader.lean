import CodeMigration.Json.Draft
import CodeMigration.Json.Token

/-!
# Reading JSON

The tokens are assembled by a machine with a stack of unfinished arrays and objects. Nothing may
follow the value.
-/

namespace CodeMigration

namespace Json

/-- An unfinished container, its parts newest first. A `member` waits for the value of its key. -/
inductive Frame where
  | array (items : List Draft)
  | object (fields : List (Option String × Draft))
  | member (fields : List (Option String × Draft)) (key : Option String)

/-- What may come next. -/
inductive Expect where
  | value
  | valueOrClose
  | keyOrClose
  | key
  | colon (key : Option String)
  | separator
  | nothing (result : Draft)

/-- A partly read text. -/
structure Assembly where
  stack : List Frame
  expect : Expect

namespace Assembly

/-- Puts a complete part where it belongs. -/
def complete (part : Draft) : List Frame → Option Assembly
  | [] => some ⟨[], .nothing part⟩
  | .array items :: rest => some ⟨.array (part :: items) :: rest, .separator⟩
  | .member fields key :: rest => some ⟨.object ((key, part) :: fields) :: rest, .separator⟩
  | .object _ :: _ => none

/-- Takes a token where a value may begin. -/
def begin (stack : List Frame) : Token → Option Assembly
  | .text s => complete (.scalar (s.map .string)) stack
  | .scalar v => complete (.scalar v) stack
  | .openArray => some ⟨.array [] :: stack, .valueOrClose⟩
  | .openObject => some ⟨.object [] :: stack, .keyOrClose⟩
  | _ => none

/-- Ends the innermost container. -/
def close (token : Token) (stack : List Frame) : Option Assembly :=
  match token, stack with
  | .closeArray, .array items :: rest => complete (.array items.reverse) rest
  | .closeObject, .object fields :: rest => complete (.object fields.reverse) rest
  | _, _ => none

/-- Takes the next token. -/
def step (a : Assembly) (token : Token) : Option Assembly :=
  match a.expect, token with
  | .value, token => begin a.stack token
  | .valueOrClose, .closeArray => close token a.stack
  | .valueOrClose, token => begin a.stack token
  | .keyOrClose, .closeObject => close token a.stack
  | .keyOrClose, .text key => some ⟨a.stack, .colon key⟩
  | .key, .text key => some ⟨a.stack, .colon key⟩
  | .colon key, .colon =>
    match a.stack with
    | .object fields :: rest => some ⟨.member fields key :: rest, .value⟩
    | _ => none
  | .separator, .comma =>
    match a.stack with
    | .array _ :: _ => some ⟨a.stack, .value⟩
    | .object _ :: _ => some ⟨a.stack, .key⟩
    | _ => none
  | .separator, token => close token a.stack
  | _, _ => none

/-- What has been read, once all of it has been. -/
def result? (a : Assembly) : Option Draft :=
  match a.expect with
  | .nothing d => some d
  | _ => none

end Assembly

/-- Reads a text that keeps to the grammar. -/
def Draft.parse? (text : String) : Option Draft := do
  let tokens ← tokens? text.toList
  let done ← tokens.foldlM Assembly.step ⟨[], .value⟩
  done.result?

/-- How many arrays and objects may be nested in a document, an index or a configuration. -/
def maxDepth : Nat := 127

/-- Reads a value in which at most `limit` arrays and objects are nested. -/
def parseWithin (limit : Nat) (text : String) : Option Json :=
  (Draft.parse? text).bind (Draft.whole? limit some)

end Json

end CodeMigration
