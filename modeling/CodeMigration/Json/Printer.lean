import CodeMigration.Json.Basic

/-!
# Writing JSON

Two layouts: `compact` without any blank, and `pretty` with two blanks per level, one item or
field on a line and `[]` or an empty pair of braces for an empty container. Characters beyond
ASCII are written as they are.
-/

namespace CodeMigration

namespace Json

/-- A hexadecimal digit. -/
def hexDigit (n : Nat) : Char :=
  if n < 10 then Char.ofNat ('0'.toNat + n) else Char.ofNat ('a'.toNat + (n - 10))

/-- A character inside a string: quotes, backslashes and control characters are escaped. -/
def escapeChar (c : Char) : List Char :=
  if c == '"' || c == '\\' then ['\\', c]
  else if c == '\x08' then ['\\', 'b']
  else if c == '\x0c' then ['\\', 'f']
  else if c == '\n' then ['\\', 'n']
  else if c == '\r' then ['\\', 'r']
  else if c == '\t' then ['\\', 't']
  else if c.toNat < 0x20 then
    ['\\', 'u', '0', '0', hexDigit (c.toNat / 16), hexDigit (c.toNat % 16)]
  else [c]

/-- A string with its quotes. -/
def quoted (s : String) : String :=
  "\"" ++ String.ofList (s.toList.flatMap escapeChar) ++ "\""

/-- A value that is no container. -/
def scalarText : Json → String
  | .null => "null"
  | .bool true => "true"
  | .bool false => "false"
  | .int n => toString n
  | .float x => x.text
  | .string s => quoted s
  | .array _ => "[]"
  | .object _ => "\x7b\x7d"

mutual

/-- Text without blanks. -/
def compact : Json → String
  | .array items => "[" ++ ",".intercalate (compactItems items) ++ "]"
  | .object fields => "\x7b" ++ ",".intercalate (compactFields fields) ++ "\x7d"
  | scalar => scalarText scalar

/-- The texts of the items. -/
def compactItems : List Json → List String
  | [] => []
  | item :: rest => compact item :: compactItems rest

/-- The texts of the fields. -/
def compactFields : List (String × Json) → List String
  | [] => []
  | (k, v) :: rest => (quoted k ++ ":" ++ compact v) :: compactFields rest

end

/-- A line break and the blanks of a level. -/
def newline (level : Nat) : String := "\n" ++ String.ofList (List.replicate (2 * level) ' ')

mutual

/-- Text in lines, for a value that stands on the given level. -/
def prettyAt (level : Nat) : Json → String
  | .array (item :: items) =>
    "[" ++ newline (level + 1) ++
      ("," ++ newline (level + 1)).intercalate
        (prettyAt (level + 1) item :: prettyItems (level + 1) items) ++
      newline level ++ "]"
  | .object ((k, v) :: fields) =>
    "\x7b" ++ newline (level + 1) ++
      ("," ++ newline (level + 1)).intercalate
        ((quoted k ++ ": " ++ prettyAt (level + 1) v) :: prettyFields (level + 1) fields) ++
      newline level ++ "\x7d"
  | scalar => scalarText scalar

/-- The texts of the items. -/
def prettyItems (level : Nat) : List Json → List String
  | [] => []
  | item :: rest => prettyAt level item :: prettyItems level rest

/-- The texts of the fields. -/
def prettyFields (level : Nat) : List (String × Json) → List String
  | [] => []
  | (k, v) :: rest => (quoted k ++ ": " ++ prettyAt level v) :: prettyFields level rest

end

/-- Text in lines. -/
def pretty (value : Json) : String := prettyAt 0 value

end Json

end CodeMigration
