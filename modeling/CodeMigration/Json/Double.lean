/-!
# Double-precision numbers as exact fractions

A finite double is a sign, a mantissa below `2 ^ 53` and a power of two. Everything here is exact
arithmetic on natural numbers:

* `Magnitude.nearest` rounds a fraction to the nearest double, a tie going to the even mantissa;
* `Double.ofDecimal?` reads a decimal literal in two roundings, first the digits that fit 64 bits,
  then the scaling by a power of ten;
* `Magnitude.digits` finds the fewest decimal digits that lie in the interval of numbers rounding
  to the double, and of those the nearest.
-/

namespace CodeMigration

/-- The number `mantissa * 2 ^ exponent`. -/
structure Magnitude where
  mantissa : Nat
  exponent : Int
deriving DecidableEq

/-- A finite double. -/
structure Double where
  negative : Bool
  magnitude : Magnitude
deriving DecidableEq

namespace Magnitude

/-- Number of mantissa bits. -/
def precision : Nat := 53

/-- Exponent of the smallest positive double. -/
def leastExponent : Int := -1074

/-- Largest exponent of a full mantissa. -/
def greatestExponent : Int := 971

/-- `n * 2 ^ e` for `e` not negative, and `n` otherwise. -/
def shiftUp (n : Nat) (e : Int) : Nat := n <<< e.toNat

/-- The fraction a magnitude stands for, as numerator and denominator. -/
def fraction (m : Magnitude) : Nat × Nat :=
  (shiftUp m.mantissa m.exponent, shiftUp 1 (-m.exponent))

/-- The quotient of two numbers rounded to the nearest integer, a tie going to the even one. -/
def roundQuotient (num den : Nat) : Nat :=
  let q := num / den
  let r := num % den
  if 2 * r < den then q
  else if den < 2 * r then q + 1
  else if q % 2 = 0 then q else q + 1

/-- The nearest double to `num / den`; `none` when it is too large for one. -/
def nearest (num den : Nat) : Option Magnitude :=
  if num = 0 then some ⟨0, leastExponent⟩
  else
    let guess : Int := (num.log2 : Int) - (den.log2 : Int) - 52
    let top := guess + 52
    let exact := if shiftUp num (-top) < shiftUp den top then guess - 1 else guess
    let e := max leastExponent exact
    let q := roundQuotient (shiftUp num (-e)) (shiftUp den e)
    let m : Magnitude := if q = 1 <<< precision then ⟨1 <<< 52, e + 1⟩ else ⟨q, e⟩
    if greatestExponent < m.exponent then none else some m

/-- Scaling by a power of ten that is itself rounded to a double. -/
def scale (m : Magnitude) (power : Int) : Option Magnitude := do
  let ten ← nearest (Nat.pow 10 power.natAbs) 1
  let (a, b) := m.fraction
  let (c, d) := ten.fraction
  if 0 ≤ power then nearest (a * c) (b * d) else nearest (a * d) (b * c)

/-- The fraction `num / den` lies among the numbers that round to `m`. -/
def captures (m : Magnitude) (num den : Nat) : Bool :=
  let lower : Magnitude :=
    if m.mantissa = 1 <<< 52 ∧ leastExponent < m.exponent
    then ⟨4 * m.mantissa - 1, m.exponent - 2⟩ else ⟨2 * m.mantissa - 1, m.exponent - 1⟩
  let upper : Magnitude := ⟨2 * m.mantissa + 1, m.exponent - 1⟩
  let (ln, ld) := lower.fraction
  let (un, ud) := upper.fraction
  if m.mantissa % 2 = 0 then ln * den ≤ num * ld && num * ud ≤ un * den
  else ln * den < num * ld && num * ud < un * den

/-- The exponent of the leading decimal digit of `num / den`, counted up from `-bound`. -/
def leadingPower (num den : Nat) : Nat → Int
  | 0 => -330
  | n + 1 =>
    let power : Int := (n : Int) - 330
    if den * Nat.pow 10 power.toNat ≤ num * Nat.pow 10 (-power).toNat then power
    else leadingPower num den n

/-- Digits and power of ten of the shortest decimal that reads back as `m`, trying `count` more
lengths. -/
def shortest (m : Magnitude) (lead : Int) : Nat → Nat × Int
  | 0 => (m.mantissa, 0)
  | n + 1 =>
    let unit : Int := lead - (16 - (n : Int))
    let (num, den) := m.fraction
    let top := num * Nat.pow 10 (-unit).toNat
    let bottom := den * Nat.pow 10 unit.toNat
    let low := top / bottom
    let hit := fun (d : Nat) => m.captures (d * Nat.pow 10 unit.toNat) (Nat.pow 10 (-unit).toNat)
    let best := roundQuotient top bottom
    if hit best then (best, unit)
    else if hit low then (low, unit)
    else if hit (low + 1) then (low + 1, unit)
    else shortest m lead n

/-- Drops the zeros a digit string ends with. -/
def trim : Nat → Nat → Int → Nat × Int
  | 0, digits, unit => (digits, unit)
  | n + 1, digits, unit =>
    if digits ≠ 0 ∧ digits % 10 = 0 then trim n (digits / 10) (unit + 1) else (digits, unit)

/-- The decimal digits of a nonzero magnitude and the power of ten of the last one. -/
def digits (m : Magnitude) : Nat × Int :=
  let (num, den) := m.fraction
  let (d, unit) := shortest m (leadingPower num den 660) 17
  trim 17 d unit

end Magnitude

namespace Double

/-- The largest 64-bit number, beyond which further digits only count as powers of ten. -/
def wordMax : Nat := UInt64.size - 1

/-- Reads digits into a 64-bit number and returns the digits that no longer fit. -/
def takeDigits : List Nat → Nat → Nat × List Nat
  | [], acc => (acc, [])
  | d :: ds, acc => if wordMax < acc * 10 + d then (acc, d :: ds) else takeDigits ds (acc * 10 + d)

/-- Divides by `10 ^ 308` until the remaining negative power is one of the table. -/
def descend : Nat → Magnitude → Int → Option Magnitude
  | 0, m, _ => some m
  | n + 1, m, power =>
    if m.mantissa = 0 then some m
    else if power.natAbs ≤ 308 then m.scale power
    else if 0 ≤ power then none
    else do descend n (← m.scale (-308)) (power + 308)

/-- The double a decimal literal denotes: digits before and after the point, and the exponent.
A literal that is too large denotes none. -/
def ofDecimal? (negative : Bool) (whole decimals : List Nat) (exponent : Int) :
    Option Double := do
  let (n, left) := takeDigits whole 0
  let (significand, dropped) := takeDigits decimals n
  let power := exponent + left.length - ((decimals.length : Int) - dropped.length)
  let start ← Magnitude.nearest significand 1
  return ⟨negative, ← descend (power.natAbs / 308 + 2) start power⟩

/-- Zeros in front of or behind the digits. -/
def zeros (n : Int) : String := String.ofList (List.replicate n.toNat '0')

/-- A power of ten behind its mark; the sign is always written. -/
def exponentText (power : Int) : String :=
  if 0 ≤ power then "e+" ++ toString power else "e" ++ toString power

/-- The shortest decimal text that reads back as the number. Powers from `10 ^ -5` up to `10 ^ 16`
are written out, all others with an exponent; there is always a point or an exponent. -/
def text (x : Double) : String :=
  let sign := if x.negative then "-" else ""
  if x.magnitude.mantissa = 0 then sign ++ "0.0"
  else
    let (d, unit) := x.magnitude.digits
    let ds := (toString d).toList
    let count : Int := ds.length
    let point := count + unit
    sign ++
      if 0 ≤ unit ∧ point ≤ 16 then String.ofList ds ++ zeros unit ++ ".0"
      else if 0 < point ∧ point ≤ 16 then
        String.ofList (ds.take point.toNat) ++ "." ++ String.ofList (ds.drop point.toNat)
      else if -5 < point ∧ point ≤ 0 then "0." ++ zeros (-point) ++ String.ofList ds
      else if count = 1 then String.ofList ds ++ exponentText (point - 1)
      else
        String.ofList (ds.take 1) ++ "." ++ String.ofList (ds.drop 1) ++ exponentText (point - 1)

end Double

end CodeMigration
