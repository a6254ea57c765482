import CodeMigration.Proofs.Listing
import CodeMigration.Proofs.Listing.Parts
import CodeMigration.Proofs.Tree.Frame

/-!
# Strings in a listing

A quoted string is read back from whatever stands behind its opening mark, and the reader stops at
the closing one. So a string that a listing quotes cannot reach beyond its marks: when the value of
a string node changes, nothing else in the text does (`Listing.Shows`). Only the key of an item of
an annotation is written without marks.

The effect of the value is followed up the tree. Of the nodes in a row at most one has the string
below it, and what is put together from the row takes up the text of that node as it is.
-/

namespace CodeMigration

namespace Listing

/-! ### Reading quoted strings -/

/-- The marks that strings are written with. -/
def marks : List Char := [singleQuote, doubleQuote]

lemma ne_backslash_of_mem_marks {mark : Char} (h : mark ∈ marks) : mark ≠ '\\' := by
  rintro rfl
  exact absurd h (by decide)

lemma toList_quote (mark : Char) (s : String) :
    (quote mark s).toList = mark :: (escape mark s.toList ++ [mark]) := by
  rw [quote, String.toList_ofList, List.cons_append]

/-- Characters other than a backslash are read one by one. -/
lemma unquote_cons {mark c : Char} (hc : c ≠ '\\') (rest : List Char) :
    unquote mark (c :: rest) =
      if c == mark then some ([], rest) else (unquote mark rest).map fun (s, r) => (c :: s, r) := by
  rw [unquote] <;> simp [hc]

/-- The reader takes an escaped text up to the mark behind it. -/
lemma unquote_escape {mark : Char} (hmark : mark ≠ '\\') (s rest : List Char) :
    unquote mark (escape mark s ++ mark :: rest) = some (s, rest) := by
  induction s with
  | nil => rw [escape, List.nil_append, unquote_cons hmark, if_pos (beq_self_eq_true mark)]
  | cons c s ih =>
    rw [escape]
    split
    · rw [List.cons_append, List.cons_append, unquote, ih]
      rfl
    · next hplain =>
      rw [Bool.or_eq_true, not_or, beq_iff_eq, beq_iff_eq] at hplain
      rw [List.cons_append, unquote_cons hplain.2, if_neg (by simpa using hplain.1), ih]
      rfl

lemma exists_unquote_quote {mark : Char} (hmark : mark ∈ marks) (s rest : String) :
    ∃ behind, (quote mark s ++ rest).toList = mark :: behind ∧
      unquote mark behind = some (s.toList, rest.toList) := by
  refine ⟨escape mark s.toList ++ mark :: rest.toList, ?_, ?_⟩
  · rw [String.toList_append, toList_quote]
    simp
  · exact unquote_escape (ne_backslash_of_mem_marks hmark) _ _

example :
    quote singleQuote "it's" = "'it\\'s'" ∧ quote doubleQuote "it's" = "\"it's\"" ∧
      quote doubleQuote "a\\" = "\"a\\\\\"" := by
  decide +kernel

/-- No quoted string begins with another one. -/
lemma quote_append_inj {mark mark' : Char} (hmark : mark ∈ marks) (hmark' : mark' ∈ marks)
    {s s' rest rest' : String} (h : quote mark s ++ rest = quote mark' s' ++ rest') :
    mark = mark' ∧ s = s' ∧ rest = rest' := by
  obtain ⟨behind, hbehind, hread⟩ := exists_unquote_quote hmark s rest
  obtain ⟨behind', hbehind', hread'⟩ := exists_unquote_quote hmark' s' rest'
  rw [h, hbehind'] at hbehind
  obtain ⟨rfl, rfl⟩ := List.cons.inj hbehind
  obtain ⟨hs, hrest⟩ := Prod.mk.inj (Option.some.inj (hread.symm.trans hread'))
  exact ⟨rfl, String.toList_inj.mp hs, String.toList_inj.mp hrest⟩

/-! ### The effect of a value -/

/-- How a text depends on the value of a string in it: not at all, or by a literal between fixed
texts, or, where strings may be written bare, by the value itself between fixed texts. -/
def Shows (bare : Prop) (text : String → String) : Prop :=
  (∃ fixed, ∀ v, text v = fixed) ∨
    (∃ mark ∈ marks, ∃ before after, ∀ v, text v = before ++ quote mark v ++ after) ∨
    (bare ∧ ∃ before after, ∀ v, text v = before ++ v ++ after)

section shows

variable {bare : Prop} {f : String → String}

lemma shows_const (text : String) : Shows bare fun _ => text := Or.inl ⟨text, fun _ => rfl⟩

lemma shows_quote {mark : Char} (hmark : mark ∈ marks) : Shows bare (quote mark) :=
  Or.inr (Or.inl ⟨mark, hmark, "", "", fun v => by rw [String.empty_append, String.append_empty]⟩)

lemma shows_bare (hbare : bare) : Shows bare fun v => v :=
  Or.inr (Or.inr ⟨hbare, "", "", fun v => by rw [String.empty_append, String.append_empty]⟩)

lemma Transparent.shows {g : String → String} (hg : Transparent g) (hf : Shows bare f) :
    Shows bare fun v => g (f v) := by
  rcases hf with ⟨text, hf⟩ | ⟨mark, hmark, before, after, hf⟩ | ⟨hbare, before, after, hf⟩
  · exact Or.inl ⟨g text, fun v => by simp only [hf]⟩
  · exact (hg.surround hf).imp_right fun h => Or.inl ⟨mark, hmark, h⟩
  · exact (hg.surround hf).imp_right fun h => Or.inr ⟨hbare, h⟩

variable {α : Type} {front back : List α} {c : α}

/-- In a row of which only the node `c` depends on the value. -/
lemma Linear.shows {F : List String → String} (hF : Linear F) {write : String → α → String}
    (hfixed : ∀ d ∈ front ++ back, ∀ v, write v d = write "" d)
    (hc : Shows bare fun v => write v c) :
    Shows bare fun v => F ((front ++ c :: back).map (write v)) := by
  have hrow : ∀ v, (front ++ c :: back).map (write v) =
      front.map (write "") ++ write v c :: back.map (write "") := by
    intro v
    rw [List.map_append, List.map_cons]
    congr 1
    · exact List.map_congr_left fun d hd => hfixed d (List.mem_append_left _ hd) v
    · congr 1
      exact List.map_congr_left fun d hd => hfixed d (List.mem_append_right _ hd) v
  simp only [hrow]
  exact (hF _ _).shows hc

end shows

/-! ### Expressions -/

/-- Whether the operands of a construct are written as arguments of an annotation. -/
def inTag : Place → Construct → Bool
  | _, .docTag _ => true
  | .tagArgument, .array => true
  | .tagArgument, .arrayItem _ => true
  | _, _ => false

section row

variable {α : Type} {bare : Prop} {construct : String → α → Construct}
  {expression : String → Place → α → String} {write : String → Nat → α → String}
  {front back : List α} {c : α}

lemma operand_eq_part (e : Place → α → String) (place : Place) (row : List α) (i : Nat) :
    operand e place row i = part (row.map (e place)) i := by
  rw [operand, part, List.getElem?_map]

lemma keyText_cons (k : α → Construct) (e : Place → α → String) (x : α) (row : List α) :
    keyText k e (x :: row) =
      match k x with
      | .string value => value
      | _ => e .code x := by
  rw [keyText, List.head?_cons, Option.map_some]
  cases k x <;> rfl

section expression

variable (hexpression : ∀ d ∈ front ++ back, ∀ v p, expression v p d = expression "" p d)
include hexpression

lemma shows_operand {place : Place} (hc : Shows bare fun v => expression v place c) (i : Nat) :
    Shows bare fun v => operand (expression v) place (front ++ c :: back) i := by
  simp only [operand_eq_part]
  exact (linear_part i).shows (fun d hd v => hexpression d hd v place) hc

variable (hconstruct : ∀ d ∈ front ++ back, ∀ v, construct v d = construct "" d)
  (hself : (∀ v, construct v c = .string v) ∨ ∀ v, construct v c = construct "" c)
  (hcode : Shows bare fun v => expression v .code c)
include hconstruct hself hcode

/-- An item of an annotation: a key that is a string is written bare. -/
lemma shows_tagItem (htag : Shows bare fun v => expression v .tagArgument c)
    (hbare : front = [] → (∀ v, construct v c = .string v) → bare) :
    Shows bare fun v => keyText (construct v) (expression v) (front ++ c :: back) ++ "=" ++
      operand (expression v) .tagArgument (front ++ c :: back) 1 := by
  cases front with
  | nil =>
    -- the value of the item stands in the rest of the row
    have hsecond : ∀ v, operand (expression v) .tagArgument (c :: back) 1 =
        operand (expression "") .tagArgument (c :: back) 1 := by
      intro v
      cases back with
      | nil => rfl
      | cons d back => exact hexpression d List.mem_cons_self v .tagArgument
    simp only [List.nil_append, keyText_cons, hsecond, String.append_assoc]
    refine (transparent_append _).shows ?_
    rcases hself with hself | hself
    · simp only [hself]
      exact shows_bare (hbare rfl hself)
    · simp only [hself]
      cases construct "" c with
      | string value => exact shows_const value
      | _ => exact hcode
  | cons d front =>
    have hkey : ∀ v, keyText (construct v) (expression v) (d :: (front ++ c :: back)) =
        keyText (construct "") (expression "") (d :: (front ++ c :: back)) := by
      intro v
      rw [keyText_cons, keyText_cons, hconstruct d List.mem_cons_self v,
        hexpression d List.mem_cons_self v .code]
    simp only [List.cons_append, hkey]
    exact (transparent_prepend _).shows (shows_operand hexpression htag 1)

/-- An expression of which one operand has the string below it. -/
lemma shows_expressionOf {place : Place} {k : Construct}
    (htag : inTag place k = true → Shows bare fun v => expression v .tagArgument c)
    (hbare : place = .tagArgument → k = .arrayItem true → front = [] →
      (∀ v, construct v c = .string v) → bare) :
    Shows bare fun v => expressionOf (construct v) (expression v) place k (front ++ c :: back) := by
  have hinCode := (linear_expressionText k).shows (fun d hd v => hexpression d hd v .code) hcode
  have hinTag : ∀ {F}, Linear F → inTag place k = true →
      Shows bare fun v => F ((front ++ c :: back).map (expression v .tagArgument)) :=
    fun hF h => hF.shows (fun d hd v => hexpression d hd v .tagArgument) (htag h)
  cases place with
  | code =>
    cases k with
    | docTag name => exact hinTag (linear_docTagText name) rfl
    | arrayItem keyed => cases keyed <;> exact hinCode
    | _ => exact hinCode
  | tagArgument =>
    cases k with
    | docTag name => exact hinTag (linear_docTagText name) rfl
    | string value => exact shows_const _
    | array => exact hinTag (linear_commas.between "\x7b" "\x7d") rfl
    | arrayItem keyed =>
      cases keyed with
      | false => exact shows_operand hexpression (htag rfl) 0
      | true =>
        exact shows_tagItem hexpression hconstruct hself hcode (htag rfl) (hbare rfl rfl)
    | _ => exact hinCode

/-! ### Statements -/

variable (hwrite : ∀ d ∈ front ++ back, ∀ v l, write v l d = write "" l d)
  (hstatement : ∀ l, Shows bare fun v => write v l c)
include hwrite hstatement

omit hexpression hconstruct hself hcode in
lemma shows_separated (level : Nat) :
    Shows bare fun v => separated (write v) level (front ++ c :: back) := by
  have hrow := (linear_separated level).shows (fun d hd v => hwrite d hd v level) (hstatement level)
  simp only [List.map_map] at hrow
  exact hrow

omit hexpression hconstruct hself hcode in
lemma shows_block (level : Nat) : Shows bare fun v => block (write v) level (front ++ c :: back) :=
  (linear_block level).shows (fun d hd v => hwrite d hd v (level + 1)) (hstatement (level + 1))

omit hexpression hcode hwrite hstatement in
/-- The kinds of the nodes do not depend on the value. -/
lemma kind_of_mem_row (v : String) {x : α} (hx : x ∈ front ++ c :: back) :
    (construct v x).kind = (construct "" x).kind := by
  by_cases hxc : x = c
  · rcases hself with hself | hself
    · rw [hxc, hself, hself]
      rfl
    · rw [hxc, hself]
  · rw [hconstruct x (by simpa [hxc] using hx)]

/-- The node with the string below it is one of the annotations or one of the statements. -/
lemma shows_functionText (level : Nat) (header : String) :
    Shows bare fun v => functionText (construct v) (expression v) (write v) level header
      (front ++ c :: back) := by
  have hfilter : ∀ (keep : Kind → Bool) v, (front ++ c :: back).filter
      (fun x => keep (construct v x).kind) =
        (front ++ c :: back).filter fun x => keep (construct "" x).kind := fun keep v =>
    List.filter_congr fun x hx => by rw [kind_of_mem_row hconstruct hself v hx]
  have hsub : ∀ (keep : α → Bool), ∀ d ∈ front.filter keep ++ back.filter keep, d ∈ front ++ back :=
    fun keep d hd => List.mem_of_mem_filter (by rwa [List.filter_append])
  simp only [functionText, hfilter (· == .docTag), hfilter (! · == .docTag)]
  rw [List.filter_append, List.filter_append, List.filter_cons, List.filter_cons]
  cases (construct "" c).kind == .docTag with
  | true =>
    have hblock : ∀ v (keep : α → Bool),
        block (write v) level (front.filter keep ++ back.filter keep) =
          block (write "") level (front.filter keep ++ back.filter keep) := fun v keep => by
      simpa using block_map (f := id) (fun d hd l => hwrite d (hsub keep d hd) v l) level
    simp only [Bool.not_true, Bool.false_eq_true, if_true, if_false, hblock]
    refine (transparent_append _).shows ((transparent_append _).shows ?_)
    exact (linear_docBlock level).shows (fun d hd v => hexpression d (hsub _ d hd) v .code) hcode
  | false =>
    have htags : ∀ v (keep : α → Bool),
        (front.filter keep ++ back.filter keep).map (expression v .code) =
          (front.filter keep ++ back.filter keep).map (expression "" .code) := fun v keep =>
      List.map_congr_left fun d hd => hexpression d (hsub keep d hd) v .code
    simp only [Bool.not_false, Bool.false_eq_true, if_true, if_false, htags]
    refine (transparent_prepend _).shows ?_
    exact shows_block (fun d hd v l => hwrite d (hsub _ d hd) v l) hstatement level

lemma shows_statementOf (level : Nat) {k : Construct}
    (htag : inTag .code k = true → Shows bare fun v => expression v .tagArgument c) :
    Shows bare fun v => statementOf (construct v) (expression v) (write v) level k
      (front ++ c :: back) := by
  have hoperand := shows_operand hexpression hcode 0
  have hbelow := ((transparent_append ";").line (fun x h => by simp at h) level).shows
    (shows_expressionOf hexpression hconstruct hself hcode htag fun h => by cases h)
  cases k with
  | file => exact (transparent_prepend _).shows (shows_separated hwrite hstatement level)
  | namespaceDecl name =>
    exact (transparent_prepend _).shows (shows_separated hwrite hstatement level)
  | classDecl name parent interfaces =>
    exact (transparent_prepend _).shows (shows_block hwrite hstatement level)
  | method name =>
    exact shows_functionText hexpression hconstruct hself hcode hwrite hstatement level _
  | function name =>
    exact shows_functionText hexpression hconstruct hself hcode hwrite hstatement level _
  | expression =>
    exact ((transparent_append ";").line (fun x h => by simp at h) level).shows hoperand
  | returnStatement =>
    have hline := ((transparent_between "return " ";").line (fun x h => by simp at h) level).shows
      hoperand
    have hne : (front ++ c :: back).isEmpty = false := by simp
    simp only [statementOf, hne]
    exact hline
  | docTag name =>
    have hargs := (linear_docTagText name).shows (fun d hd v => hexpression d hd v .tagArgument)
      (htag rfl)
    exact ((transparent_between "/** " " */").line (fun x h => by simp at h) level).shows hargs
  | verbatim label => exact shows_const _
  | _ => exact hbelow

end expression

end row

end Listing

end CodeMigration
