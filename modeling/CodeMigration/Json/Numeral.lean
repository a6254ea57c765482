import CodeMigration.Json.Basic

/-!
# JSON numbers

A numeral keeps to the grammar of numbers; `Numeral.value?` is its value, which numerals too large
for a double do not have.
-/

namespace CodeMigration

namespace Json

/-- The value of a decimal digit. -/
def digitValue (c : Char) : Nat := c.toNat - '0'.toNat

/-- The number that a list of decimal digits denotes. -/
def natOfDigits (ds : List Char) : Nat :=
  ds.foldl (fun acc c => acc * 10 + digitValue c) 0

/-- A number as it is written: the digits in front of the point and behind it, and the power of
ten. An integer has neither point nor power. -/
structure Numeral where
  negative : Bool
  whole : List Char
  decimals : List Char := []
  power : Option Int := none

namespace Numeral

/-- At least one digit, and nothing else. -/
def areDigits (cs : List Char) : Bool := !cs.isEmpty && cs.all Char.isDigit

/-- A power without its mark: an optional sign and digits. -/
def power? : List Char → Option Int
  | '-' :: ds => if areDigits ds then some (-(natOfDigits ds : Int)) else none
  | '+' :: ds => if areDigits ds then some (natOfDigits ds) else none
  | ds => if areDigits ds then some (natOfDigits ds) else none

/-- Adds what stands behind the last digit: nothing, or a mark and a power. -/
def withPower? (n : Numeral) : List Char → Option Numeral
  | [] => some n
  | c :: cs => if c == 'e' || c == 'E' then (power? cs).map fun p => { n with power := p } else none

/-- Adds what stands behind the whole part. -/
def withTail? (n : Numeral) : List Char → Option Numeral
  | '.' :: cs =>
    let decimals := cs.takeWhile Char.isDigit
    if decimals.isEmpty then none
    else withPower? { n with decimals } (cs.dropWhile Char.isDigit)
  | cs => n.withPower? cs

/-- A numeral without its sign. A whole part of several digits does not begin with zero. -/
def unsigned? (negative : Bool) (cs : List Char) : Option Numeral :=
  let whole := cs.takeWhile Char.isDigit
  if whole.isEmpty || (whole.head? == some '0' && 1 < whole.length) then none
  else withTail? { negative, whole } (cs.dropWhile Char.isDigit)

/-- Reads a numeral. -/
def ofChars? : List Char → Option Numeral
  | '-' :: cs => unsigned? true cs
  | cs => unsigned? false cs

/-- Whether there is neither point nor power. -/
def isInteger (n : Numeral) : Bool := n.decimals.isEmpty && n.power.isNone

/-- The double nearest to the number. -/
def double? (n : Numeral) : Option Double :=
  Double.ofDecimal? n.negative (n.whole.map digitValue) (n.decimals.map digitValue)
    (n.power.getD 0)

/-- The value of a numeral. An integer outside the 64-bit range is taken as a double, and so is
minus zero. -/
def value? (n : Numeral) : Option Json :=
  let size := natOfDigits n.whole
  if n.isInteger && n.negative && size != 0 && size ≤ 1 <<< 63 then some (.int (-(size : Int)))
  else if n.isInteger && !n.negative && size < UInt64.size then some (.int size)
  else n.double?.map .float

end Numeral

end Json

end CodeMigration
