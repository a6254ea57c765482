import CodeMigration.Json.Reader
import CodeMigration.Proofs.Json.Scanning

/-!
# Reading what has been written

The tokens of a value are assembled to the draft of the value, in whatever container they stand.
With the scanning of the text this makes reading the inverse of writing.
-/

namespace CodeMigration

namespace Json

namespace Assembly

/-- Takes a row of tokens. -/
def run (a : Assembly) (tokens : List Token) : Option Assembly := tokens.foldlM step a

lemma run_append (a : Assembly) (tokens tokens' : List Token) :
    a.run (tokens ++ tokens') = (a.run tokens).bind (·.run tokens') := by
  rw [run, List.foldlM_append]
  rfl

lemma run_cons (a : Assembly) (token : Token) (tokens : List Token) :
    a.run (token :: tokens) = (a.step token).bind (·.run tokens) := by
  rw [run, List.foldlM_cons]
  rfl

lemma run_singleton (a : Assembly) (token : Token) : a.run [token] = a.step token := by
  rw [run_cons]
  exact Option.bind_fun_some _

/-- A comma between two items. -/
lemma run_comma {done : List Draft} {stack : List Frame} (tokens : List Token) :
    run ⟨.array done :: stack, .separator⟩ (.comma :: tokens) =
      run ⟨.array done :: stack, .value⟩ tokens := rfl

/-- A comma and the key of the next field. -/
lemma run_comma_key {done : List (Option String × Draft)} {stack : List Frame}
    (key : Option String) (tokens : List Token) :
    run ⟨.object done :: stack, .separator⟩ (.comma :: .text key :: .colon :: tokens) =
      run ⟨.member done key :: stack, .value⟩ tokens := rfl

/-- Where a value may begin. -/
def awaitsValue : Expect → Bool
  | .value | .valueOrClose => true
  | _ => false

lemma run_begin {e : Expect} (he : awaitsValue e = true) {stack : List Frame} {token : Token}
    (htoken : token ≠ .closeArray) (tokens : List Token) :
    run ⟨stack, e⟩ (token :: tokens) = (begin stack token).bind (·.run tokens) := by
  rw [run_cons]
  cases e with
  | value => rfl
  | valueOrClose => cases token <;> first | rfl | exact absurd rfl htoken
  | keyOrClose | key | colon | separator | nothing => cases he

mutual

/-- The tokens of a value are put together where a value may begin. -/
lemma run_tokensOf (v : Json) {stack : List Frame} {e : Expect} (he : awaitsValue e = true) :
    run ⟨stack, e⟩ (tokensOf v) = complete (.ofValue v) stack := by
  match v with
  | .null | .bool _ | .int _ | .float _ | .string _ =>
    exact (run_begin he (by simp) []).trans (Option.bind_fun_some _)
  | .array [] =>
    rw [tokensOf, run_begin he (by simp), begin, Option.bind_some, run_singleton]
    rfl
  | .object [] =>
    rw [tokensOf, run_begin he (by simp), begin, Option.bind_some, run_singleton]
    rfl
  | .array (item :: items) =>
    have hitem : run ⟨.array [] :: stack, .valueOrClose⟩ (tokensOf item) =
        some ⟨.array [.ofValue item] :: stack, .separator⟩ := run_tokensOf item rfl
    rw [tokensOf, run_begin he (by simp), begin, Option.bind_some, run_append, hitem,
      Option.bind_some, run_itemTokens]
    rfl
  | .object ((key, v) :: fields) =>
    have hfield : run ⟨.member [] (some key) :: stack, .value⟩ (tokensOf v) =
        some ⟨.object [(some key, .ofValue v)] :: stack, .separator⟩ := run_tokensOf v rfl
    rw [tokensOf, run_begin he (by simp), begin, Option.bind_some]
    show run ⟨.member [] (some key) :: stack, .value⟩ (tokensOf v ++ _) = _
    rw [run_append, hfield, Option.bind_some, run_fieldTokens]
    rfl

/-- The further items are added to those already there. -/
lemma run_itemTokens (items : List Json) (done : List Draft) {stack : List Frame} :
    run ⟨.array done :: stack, .separator⟩ (itemTokens items ++ [.closeArray]) =
      complete (.array (done.reverse ++ Draft.ofItems items)) stack := by
  match items with
  | [] =>
    rw [itemTokens, List.nil_append, run_singleton, Draft.ofItems, List.append_nil]
    rfl
  | item :: items =>
    have hitem : run ⟨.array done :: stack, .value⟩ (tokensOf item) =
        some ⟨.array (.ofValue item :: done) :: stack, .separator⟩ := run_tokensOf item rfl
    rw [itemTokens, List.cons_append, List.append_assoc, run_comma, run_append, hitem,
      Option.bind_some, run_itemTokens items, Draft.ofItems]
    simp

/-- The further fields are added to those already there. -/
lemma run_fieldTokens (fields : List (String × Json)) (done : List (Option String × Draft))
    {stack : List Frame} :
    run ⟨.object done :: stack, .separator⟩ (fieldTokens fields ++ [.closeObject]) =
      complete (.object (done.reverse ++ Draft.ofFields fields)) stack := by
  match fields with
  | [] =>
    rw [fieldTokens, List.nil_append, run_singleton, Draft.ofFields, List.append_nil]
    rfl
  | (key, v) :: fields =>
    have hfield : run ⟨.member done (some key) :: stack, .value⟩ (tokensOf v) =
        some ⟨.object ((some key, .ofValue v) :: done) :: stack, .separator⟩ := run_tokensOf v rfl
    rw [fieldTokens, List.cons_append, List.cons_append, List.cons_append, List.append_assoc,
      run_comma_key, run_append, hfield, Option.bind_some, run_fieldTokens fields, Draft.ofFields]
    simp

end

end Assembly

/-- A value whose numbers are integers of 64 bits is read back from its text. -/
theorem parse?_pretty {v : Json} (h : v.isExact = true) :
    Draft.parse? v.pretty = some (.ofValue v) := by
  have htokens : (tokensOf v).foldlM Assembly.step ⟨[], .value⟩ =
      some ⟨[], .nothing (.ofValue v)⟩ := Assembly.run_tokensOf v rfl
  rw [Draft.parse?, tokens?_pretty h]
  simp only [Option.bind_eq_bind, Option.bind_some, htokens]
  rfl

end Json

end CodeMigration
