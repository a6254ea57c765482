import CodeMigration.Json.Double

/-!
# JSON values

A value keeps the fields of an object in the order they were written, repetitions included, so
that a reader of records can tell a repeated field. `Json.canonical` is the form a value has once
objects are taken as maps: of a repeated key the last value counts, and keys are in code point
order.
-/

namespace CodeMigration

/-- A JSON value. Numbers are integers that fit 64 bits, or doubles. -/
inductive Json where
  | null
  | bool (value : Bool)
  | int (value : Int)
  | float (value : Double)
  | string (value : String)
  | array (items : List Json)
  | object (fields : List (String × Json))
deriving Inhabited

namespace Json

/-! ### Equality -/

mutual

/-- Equality of values, field order included. -/
def beq : Json → Json → Bool
  | .null, .null => true
  | .bool a, .bool b => a == b
  | .int a, .int b => a == b
  | .float a, .float b => a == b
  | .string a, .string b => a == b
  | .array as, .array bs => beqItems as bs
  | .object as, .object bs => beqFields as bs
  | _, _ => false

/-- Equality of item lists. -/
def beqItems : List Json → List Json → Bool
  | [], [] => true
  | a :: as, b :: bs => beq a b && beqItems as bs
  | _, _ => false

/-- Equality of field lists. -/
def beqFields : List (String × Json) → List (String × Json) → Bool
  | [], [] => true
  | (k, a) :: as, (l, b) :: bs => k == l && beq a b && beqFields as bs
  | _, _ => false

end

mutual

theorem beq_iff (a b : Json) : beq a b = true ↔ a = b := by
  match a with
  | .null | .bool _ | .int _ | .float _ | .string _ => cases b <;> simp [beq]
  | .array as => cases b <;> simp [beq, beqItems_iff as]
  | .object as => cases b <;> simp [beq, beqFields_iff as]

theorem beqItems_iff (as bs : List Json) : beqItems as bs = true ↔ as = bs := by
  match as with
  | [] => cases bs <;> simp [beqItems]
  | a :: as => cases bs <;> simp [beqItems, beq_iff a, beqItems_iff as]

theorem beqFields_iff (as bs : List (String × Json)) : beqFields as bs = true ↔ as = bs := by
  match as with
  | [] => cases bs <;> simp [beqFields]
  | (k, a) :: as =>
    match bs with
    | [] => simp [beqFields]
    | (l, b) :: bs => simp [beqFields, beq_iff a, beqFields_iff as, and_assoc]

end

instance : DecidableEq Json := fun a b => decidable_of_iff _ (beq_iff a b)

/-! ### Objects as maps -/

/-- Puts a field into a list of fields with increasing keys; a present key is overwritten. -/
def insertField (key : String) (value : Json) : List (String × Json) → List (String × Json)
  | [] => [(key, value)]
  | (k, v) :: rest =>
    if key < k then (key, value) :: (k, v) :: rest
    else if key = k then (key, value) :: rest
    else (k, v) :: insertField key value rest

mutual

/-- The value with every object taken as a map. -/
def canonical : Json → Json
  | .array items => .array (canonicalItems items)
  | .object fields => .object (canonicalFields fields [])
  | other => other

/-- The items of an array, one by one. -/
def canonicalItems : List Json → List Json
  | [] => []
  | item :: rest => canonical item :: canonicalItems rest

/-- The fields of an object, put into a map in order. -/
def canonicalFields : List (String × Json) → List (String × Json) → List (String × Json)
  | [], done => done
  | (k, v) :: rest, done => canonicalFields rest (insertField k (canonical v) done)

end

/-! ### Nesting -/

mutual

/-- How many arrays and objects enclose the innermost part of a value. -/
def depth : Json → Nat
  | .array items => depthItems items + 1
  | .object fields => depthFields fields + 1
  | _ => 0

/-- The greatest depth among the items. -/
def depthItems : List Json → Nat
  | [] => 0
  | item :: rest => max (depth item) (depthItems rest)

/-- The greatest depth among the field values. -/
def depthFields : List (String × Json) → Nat
  | [] => 0
  | (_, v) :: rest => max (depth v) (depthFields rest)

end

end Json

end CodeMigration
