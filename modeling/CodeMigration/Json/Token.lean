import CodeMigration.Json.Numeral

/-!
# JSON tokens

The text is read by a machine that takes one character at a time, so reading `a ++ b` is reading
`a` and then `b`. Between tokens only blanks, tabs, line feeds and carriage returns may stand. The
machine stops at what breaks the grammar; a number or string without a value is a token all the
same.
-/

namespace CodeMigration

namespace Json

/-- A punctuation mark, or a complete string, number or word with the value it has. -/
inductive Token where
  | openArray
  | closeArray
  | openObject
  | closeObject
  | comma
  | colon
  | text (value : Option String)
  | scalar (value : Option Json)

/-! ### Words -/

/-- The value of a bare word. -/
def word? (cs : List Char) : Option Json :=
  if cs = "null".toList then some .null
  else if cs = "true".toList then some (.bool true)
  else if cs = "false".toList then some (.bool false)
  else none

/-- The token of a bare word. -/
def wordToken? (cs : List Char) : Option Token := (word? cs).map fun v => .scalar (some v)

/-- The token of a number. -/
def numberToken? (cs : List Char) : Option Token :=
  (Numeral.ofChars? cs).map fun n => .scalar n.value?

/-! ### Strings -/

/-- The value of a hexadecimal digit. -/
def hexValue? (c : Char) : Option Nat :=
  if c.isDigit then some (digitValue c)
  else if 'a' ≤ c ∧ c ≤ 'f' then some (c.toNat - 'a'.toNat + 10)
  else if 'A' ≤ c ∧ c ≤ 'F' then some (c.toNat - 'A'.toNat + 10)
  else none

/-- The character a one-letter escape stands for. -/
def escaped? (c : Char) : Option Char :=
  if c == '"' || c == '\\' || c == '/' then some c
  else if c == 'b' then some '\x08'
  else if c == 'f' then some '\x0c'
  else if c == 'n' then some '\n'
  else if c == 'r' then some '\r'
  else if c == 't' then some '\t'
  else none

/-- The inside of a string as far as it has been read, newest character first. A `half` waits for
the second unit of a surrogate pair, and a `broken` one has seen a unit without its partner. -/
inductive Inside where
  | plain (chars : List Char)
  | half (chars : List Char) (high : Nat)
  | broken

namespace Inside

/-- Adds a character. -/
def push (c : Char) : Inside → Inside
  | .plain chars => .plain (c :: chars)
  | .half _ _ => .broken
  | .broken => .broken

/-- Adds a 16-bit unit: a character, or one half of a surrogate pair. -/
def pushUnit (unit : Nat) : Inside → Inside
  | .plain chars =>
    if 0xD800 ≤ unit ∧ unit < 0xDC00 then .half chars unit
    else if 0xDC00 ≤ unit ∧ unit < 0xE000 then .broken
    else .plain (Char.ofNat unit :: chars)
  | .half chars high =>
    if 0xDC00 ≤ unit ∧ unit < 0xE000 then
      .plain (Char.ofNat (0x10000 + (high - 0xD800) * 0x400 + (unit - 0xDC00)) :: chars)
    else .broken
  | .broken => .broken

/-- The text of a string that ends here. -/
def value? : Inside → Option String
  | .plain chars => some (String.ofList chars.reverse)
  | .half _ _ => none
  | .broken => none

end Inside

/-! ### The machine -/

/-- What the characters read so far are part of. Words and numbers are kept newest character
first. -/
inductive Mode where
  | blank
  | word (text : List Char)
  | number (text : List Char)
  | string (inside : Inside)
  | escape (inside : Inside)
  | unit (inside : Inside) (count value : Nat)

/-- The tokens read so far, newest first, and the token under way. -/
structure Scan where
  tokens : List Token
  mode : Mode

/-- A character that may stand in a number. -/
def isNumberChar (c : Char) : Bool :=
  c.isDigit || c == '-' || c == '+' || c == '.' || c == 'e' || c == 'E'

/-- Begins a token, or skips a blank. -/
def Scan.begin (tokens : List Token) (c : Char) : Option Scan :=
  if c == ' ' || c == '\t' || c == '\n' || c == '\r' then some ⟨tokens, .blank⟩
  else if c == '[' then some ⟨.openArray :: tokens, .blank⟩
  else if c == ']' then some ⟨.closeArray :: tokens, .blank⟩
  else if c == '\x7b' then some ⟨.openObject :: tokens, .blank⟩
  else if c == '\x7d' then some ⟨.closeObject :: tokens, .blank⟩
  else if c == ',' then some ⟨.comma :: tokens, .blank⟩
  else if c == ':' then some ⟨.colon :: tokens, .blank⟩
  else if c == '"' then some ⟨tokens, .string (.plain [])⟩
  else if c == '-' || c.isDigit then some ⟨tokens, .number [c]⟩
  else if c.isAlpha then some ⟨tokens, .word [c]⟩
  else none

/-- Takes the next character. -/
def Scan.step (s : Scan) (c : Char) : Option Scan :=
  match s.mode with
  | .blank => Scan.begin s.tokens c
  | .word text =>
    if c.isAlpha then some ⟨s.tokens, .word (c :: text)⟩
    else (wordToken? text.reverse).bind fun t => Scan.begin (t :: s.tokens) c
  | .number text =>
    if isNumberChar c then some ⟨s.tokens, .number (c :: text)⟩
    else (numberToken? text.reverse).bind fun t => Scan.begin (t :: s.tokens) c
  | .string inside =>
    if c == '"' then some ⟨.text inside.value? :: s.tokens, .blank⟩
    else if c == '\\' then some ⟨s.tokens, .escape inside⟩
    else if c.toNat < 0x20 then none
    else some ⟨s.tokens, .string (inside.push c)⟩
  | .escape inside =>
    if c == 'u' then some ⟨s.tokens, .unit inside 0 0⟩
    else (escaped? c).map fun e => ⟨s.tokens, .string (inside.push e)⟩
  | .unit inside count value =>
    (hexValue? c).map fun d =>
      let value := value * 16 + d
      if count < 3 then ⟨s.tokens, .unit inside (count + 1) value⟩
      else ⟨s.tokens, .string (inside.pushUnit value)⟩

/-- The tokens of a text that ends here. -/
def Scan.finish (s : Scan) : Option (List Token) :=
  match s.mode with
  | .blank => some s.tokens.reverse
  | .word text => (wordToken? text.reverse).map fun t => (t :: s.tokens).reverse
  | .number text => (numberToken? text.reverse).map fun t => (t :: s.tokens).reverse
  | _ => none

/-- The tokens of a text. -/
def tokens? (text : List Char) : Option (List Token) :=
  (text.foldlM Scan.step ⟨[], .blank⟩).bind Scan.finish

end Json

end CodeMigration
