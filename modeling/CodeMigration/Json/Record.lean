import CodeMigration.Json.Draft

/-!
# Records in JSON

A record is written as an object of its fields in any order, or as an array of its fields in
declaration order, of which the last ones may be missing. A known field occurs at most once;
unknown fields of an object are ignored unless the record is closed, so a record is best read from
a draft, where only the known fields are asked for a value.
-/

namespace CodeMigration

namespace Json

/-! ### Single values -/

/-- A string. -/
def asString? : Json → Option String
  | .string s => some s
  | _ => none

/-- A truth value. -/
def asBool? : Json → Option Bool
  | .bool b => some b
  | _ => none

/-- An integer from zero up to, not including, a bound. -/
def asNatBelow? (bound : Nat) : Json → Option Nat
  | .int n => if 0 ≤ n ∧ n < bound then some n.toNat else none
  | _ => none

/-- An unsigned 64-bit integer. -/
def asUInt64? (j : Json) : Option UInt64 := (j.asNatBelow? UInt64.size).map UInt64.ofNat

/-- An unsigned 32-bit integer. -/
def asUInt32? (j : Json) : Option UInt32 := (j.asNatBelow? UInt32.size).map UInt32.ofNat

/-- A signed 64-bit integer. -/
def asInt64? : Json → Option Int64
  | .int n =>
    if Int64.minValue.toInt ≤ n ∧ n ≤ Int64.maxValue.toInt then some (Int64.ofInt n) else none
  | _ => none

/-- A value that `null` stands for the absence of. -/
def asOptional? {α : Type} (read : Json → Option α) : Json → Option (Option α)
  | .null => some none
  | j => (read j).map some

/-- An array whose items are all of one form. -/
def asList? {α : Type} (read : Json → Option α) : Json → Option (List α)
  | .array items => items.mapM read
  | _ => none

/-- Sets the value of a key in a list of pairs, in place or at the end. -/
def assign {α : Type} (key : String) (value : α) : List (String × α) → List (String × α)
  | [] => [(key, value)]
  | (k, v) :: rest => if k = key then (key, value) :: rest else (k, v) :: assign key value rest

/-- Fields as a map; the last one of a repeated key counts, and all have to be of one form. -/
def readMap? {α β : Type} (read : α → Option β) (fields : List (String × α)) :
    Option (List (String × β)) := do
  let parts ← fields.mapM fun (k, part) => (read part).map (k, ·)
  return parts.foldl (fun done (k, part) => assign k part done) []

/-- An object as a map. -/
def asMap? {α : Type} (read : Json → Option α) : Json → Option (List (String × α))
  | .object fields => readMap? read fields
  | _ => none

/-! ### Records -/

/-- The part of a field that occurs at most once. -/
def single? {α : Type} (name : String) (fields : List (String × α)) : Option (Option α) :=
  match fields.filter (·.1 == name) with
  | [] => some none
  | [(_, v)] => some (some v)
  | _ => none

/-- The parts of the named fields of an object, in the order of the names. -/
def named? {α : Type} (names : List String) (fields : List (String × α)) :
    Option (List (Option α)) :=
  names.mapM (single? · fields)

/-- The parts of an array, one for each name; the last ones may be missing. -/
def placed? {α : Type} (names : List String) (items : List α) : Option (List (Option α)) :=
  if items.length ≤ names.length then some (names.mapIdx fun i _ => items[i]?) else none

/-- The values of the named fields, in the order of the names. -/
def record? (names : List String) : Json → Option (List (Option Json))
  | .object fields => named? names fields
  | .array items => placed? names items
  | _ => none

/-- A field that has to be present. -/
def required? {α β : Type} (read : α → Option β) : Option α → Option β
  | some part => read part
  | none => none

/-- A field with a value to fall back on. -/
def defaulted? {α β : Type} (default : β) (read : α → Option β) : Option α → Option β
  | some part => read part
  | none => some default

/-! ### Records in a draft -/

namespace Draft

/-- The fields of an object, whose keys all have a value. -/
def keyed? (fields : List (Option String × Draft)) : Option (List (String × Draft)) :=
  fields.mapM fun (key, part) => key.map (·, part)

/-- The parts of the named fields, in the order of the names. The other fields of an object may
hold anything. -/
def record? (names : List String) : Draft → Option (List (Option Draft))
  | .object fields => (keyed? fields).bind (named? names)
  | .array items => placed? names items
  | .scalar _ => none

/-- The object has no field besides the named ones. -/
def isClosed (names : List String) : Draft → Bool
  | .object fields => fields.all fun (key, _) => key.any names.contains
  | _ => true

/-- A part that `null` stands for the absence of. -/
def asOptional? {α : Type} (read : Draft → Option α) : Draft → Option (Option α)
  | .scalar (some .null) => some none
  | d => (read d).map some

/-- An array whose items are all of one form. -/
def asList? {α : Type} (read : Draft → Option α) : Draft → Option (List α)
  | .array items => items.mapM read
  | _ => none

/-- An object as a map. -/
def asMap? {α : Type} (read : Draft → Option α) : Draft → Option (List (String × α))
  | .object fields => (keyed? fields).bind (readMap? read)
  | _ => none

end Draft

end Json

end CodeMigration
