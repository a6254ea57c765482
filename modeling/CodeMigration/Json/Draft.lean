import CodeMigration.Json.Basic

/-!
# Drafts of JSON values

A text can keep to the grammar and still hold scalars without a value: a number too large for a
double, or a string with half of a surrogate pair. A `Draft` is the structure of such a text, its
scalars being read as far as they have a value. Whoever ignores a part of a text does not ask for
values there; whoever uses a part takes its `value?`, which every scalar in it has to have.
-/

namespace CodeMigration

namespace Json

/-- The structure of a text. A scalar without a value is `none`, and so is such a key. -/
inductive Draft where
  | scalar (value : Option Json)
  | array (items : List Draft)
  | object (fields : List (Option String × Draft))
deriving Inhabited

namespace Draft

mutual

/-- A value as a draft. -/
def ofValue : Json → Draft
  | .array items => .array (ofItems items)
  | .object fields => .object (ofFields fields)
  | other => .scalar (some other)

/-- The items of an array, one by one. -/
def ofItems : List Json → List Draft
  | [] => []
  | item :: rest => ofValue item :: ofItems rest

/-- The fields of an object, one by one. -/
def ofFields : List (String × Json) → List (Option String × Draft)
  | [] => []
  | (key, v) :: rest => (some key, ofValue v) :: ofFields rest

end

mutual

/-- The value, if every scalar and every key has one. -/
def value? : Draft → Option Json
  | .scalar v => v
  | .array items => (values? items).map .array
  | .object fields => (fieldValues? fields).map .object

/-- The values of the items. -/
def values? : List Draft → Option (List Json)
  | [] => some []
  | item :: rest => do return (← value? item) :: (← values? rest)

/-- The keys and values of the fields. -/
def fieldValues? : List (Option String × Draft) → Option (List (String × Json))
  | [] => some []
  | (key, v) :: rest => do return (← key, ← value? v) :: (← fieldValues? rest)

end

mutual

@[simp]
theorem value?_ofValue (v : Json) : (ofValue v).value? = some v := by
  match v with
  | .null | .bool _ | .int _ | .float _ | .string _ => simp [ofValue, value?]
  | .array items => simp [ofValue, value?, values?_ofItems items]
  | .object fields => simp [ofValue, value?, fieldValues?_ofFields fields]

@[simp]
theorem values?_ofItems (items : List Json) : values? (ofItems items) = some items := by
  match items with
  | [] => rfl
  | item :: rest => simp [ofItems, values?, value?_ofValue item, values?_ofItems rest]

@[simp]
theorem fieldValues?_ofFields (fields : List (String × Json)) :
    fieldValues? (ofFields fields) = some fields := by
  match fields with
  | [] => rfl
  | (key, v) :: rest =>
    simp [ofFields, fieldValues?, value?_ofValue v, fieldValues?_ofFields rest]

end

/-- What is read from the value, in which at most `limit` arrays and objects may be nested. -/
def whole? {α : Type} (limit : Nat) (read : Json → Option α) (d : Draft) : Option α := do
  let v ← d.value?
  if v.depth ≤ limit then read v else none

end Draft

end Json

end CodeMigration
