import CodeMigration.Json.Printer
import CodeMigration.Json.Token
import Mathlib.Data.List.TakeWhile
import Mathlib.Tactic

/-!
# Tokens of written values

A written value is read as its own tokens. The machine is followed piece by piece: a piece of text
`Passes` when it leaves the machine between tokens, and `Yields` its tokens when it may leave a word
or a number under way, which any character that cannot be part of one brings to its end.
-/

namespace CodeMigration

namespace Json

/-! ### Values without doubles -/

/-- An integer that fits 64 bits, with a sign or without. -/
def fitsWord (n : Int) : Bool := decide (-2 ^ 63 ≤ n ∧ n < 2 ^ 64)

mutual

/-- Every number in the value is an integer that fits 64 bits. -/
def isExact : Json → Bool
  | .float _ => false
  | .int n => fitsWord n
  | .array items => areExact items
  | .object fields => areExactFields fields
  | _ => true

/-- So are all items. -/
def areExact : List Json → Bool
  | [] => true
  | item :: rest => isExact item && areExact rest

/-- So are the values of all fields. -/
def areExactFields : List (String × Json) → Bool
  | [] => true
  | (_, v) :: rest => isExact v && areExactFields rest

end

/-! ### Tokens of a value -/

mutual

/-- The tokens of a value. -/
def tokensOf : Json → List Token
  | .array (item :: items) =>
    .openArray :: (tokensOf item ++ (itemTokens items ++ [.closeArray]))
  | .array [] => [.openArray, .closeArray]
  | .object ((key, v) :: fields) =>
    .openObject :: .text (some key) :: .colon ::
      (tokensOf v ++ (fieldTokens fields ++ [.closeObject]))
  | .object [] => [.openObject, .closeObject]
  | .string s => [.text (some s)]
  | scalar => [.scalar (some scalar)]

/-- The tokens of the further items of an array. -/
def itemTokens : List Json → List Token
  | [] => []
  | item :: items => .comma :: (tokensOf item ++ itemTokens items)

/-- The tokens of the further fields of an object. -/
def fieldTokens : List (String × Json) → List Token
  | [] => []
  | (key, v) :: fields => .comma :: .text (some key) :: .colon :: (tokensOf v ++ fieldTokens fields)

end

/-! ### Pieces of text -/

/-- Reads a piece of text. -/
def Scan.run (s : Scan) (text : List Char) : Option Scan := text.foldlM Scan.step s

/-- A character that is part of neither a word nor a number. -/
def isBreak (c : Char) : Bool := !c.isAlpha && !isNumberChar c

/-- The tokens are complete once a text ends here or a break follows. -/
structure Scan.Rests (s : Scan) (tokens : List Token) : Prop where
  finish : s.finish = some tokens.reverse
  step : ∀ c, isBreak c = true → s.step c = Scan.begin tokens c

/-- The piece is read as the tokens. -/
def Yields (text : List Char) (tokens : List Token) : Prop :=
  ∀ done, ∃ s, Scan.run ⟨done, .blank⟩ text = some s ∧ s.Rests (tokens.reverse ++ done)

/-- The piece is read as the tokens, and the last of them is complete. -/
def Passes (text : List Char) (tokens : List Token) : Prop :=
  ∀ done, Scan.run ⟨done, .blank⟩ text = some ⟨tokens.reverse ++ done, .blank⟩

section pieces

variable {text text' : List Char} {tokens tokens' : List Token}

lemma Scan.run_append (s : Scan) (text text' : List Char) :
    s.run (text ++ text') = (s.run text).bind (·.run text') := by
  rw [run, List.foldlM_append]
  rfl

lemma Scan.run_cons (s : Scan) (c : Char) (text : List Char) :
    s.run (c :: text) = (s.step c).bind (·.run text) := by
  rw [run, List.foldlM_cons]
  rfl

lemma Scan.rests_blank (tokens : List Token) : (⟨tokens, .blank⟩ : Scan).Rests tokens :=
  ⟨rfl, fun _ _ => rfl⟩

lemma Passes.yields (h : Passes text tokens) : Yields text tokens :=
  fun done => ⟨_, h done, Scan.rests_blank _⟩

lemma Passes.append (h : Passes text tokens) (h' : Passes text' tokens') :
    Passes (text ++ text') (tokens ++ tokens') := by
  intro done
  rw [Scan.run_append, h done, Option.bind_some, h', List.reverse_append, List.append_assoc]

lemma Passes.append_yields (h : Passes text tokens) (h' : Yields text' tokens') :
    Yields (text ++ text') (tokens ++ tokens') := by
  intro done
  rw [Scan.run_append, h done, Option.bind_some, List.reverse_append, List.append_assoc]
  exact h' _

/-- A break brings the last token to its end. -/
lemma Yields.append_passes {c : Char} (h : Yields text tokens) (hc : isBreak c = true)
    (h' : Passes (c :: text') tokens') : Passes (text ++ c :: text') (tokens ++ tokens') := by
  intro done
  obtain ⟨s, hrun, hrests⟩ := h done
  have hrest := h' (tokens.reverse ++ done)
  rw [Scan.run_cons] at hrest
  rw [Scan.run_append, hrun, Option.bind_some, Scan.run_cons, hrests.step c hc,
    List.reverse_append, List.append_assoc]
  exact hrest

lemma Yields.tokens?_eq (h : Yields text tokens) : tokens? text = some tokens := by
  obtain ⟨s, hrun, hrests⟩ := h []
  have hrun : text.foldlM Scan.step ⟨[], .blank⟩ = some s := hrun
  rw [Json.tokens?, hrun, Option.bind_some, hrests.finish]
  simp

end pieces

/-! ### Marks and blanks -/

section marks

lemma passes_blanks {text : List Char} (h : ∀ c ∈ text, c = ' ' ∨ c = '\n') : Passes text [] := by
  intro done
  induction text with
  | nil => rfl
  | cons c text ih =>
    have hstep : Scan.step ⟨done, .blank⟩ c = some ⟨done, .blank⟩ := by
      rcases h c List.mem_cons_self with rfl | rfl <;> rfl
    rw [Scan.run_cons, hstep, Option.bind_some]
    exact ih fun d hd => h d (List.mem_cons_of_mem c hd)

lemma passes_newline (level : Nat) : Passes (newline level).toList [] := by
  refine passes_blanks fun c hc => ?_
  simp only [newline, String.toList_append, String.toList_ofList, List.mem_append,
    List.mem_replicate] at hc
  rcases hc with hc | ⟨-, rfl⟩
  · simp at hc
    exact Or.inr hc
  · exact Or.inl rfl

lemma passes_openArray : Passes ['['] [.openArray] := fun _ => rfl

lemma passes_closeArray : Passes [']'] [.closeArray] := fun _ => rfl

lemma passes_openObject : Passes ['\x7b'] [.openObject] := fun _ => rfl

lemma passes_closeObject : Passes ['\x7d'] [.closeObject] := fun _ => rfl

lemma passes_comma : Passes [','] [.comma] := fun _ => rfl

lemma passes_colon : Passes [':', ' '] [.colon] := fun _ => rfl

end marks

/-! ### Strings -/

lemma hexValue?_hexDigit {n : Nat} (hn : n < 16) : hexValue? (hexDigit n) = some n := by
  have hall : ∀ m : Fin 16, hexValue? (hexDigit m) = some m.val := by decide
  exact hall ⟨n, hn⟩

/-- A written character is read as itself. -/
lemma run_escapeChar (tokens : List Token) (chars : List Char) (c : Char) :
    Scan.run ⟨tokens, .string (.plain chars)⟩ (escapeChar c) =
      some ⟨tokens, .string (.plain (c :: chars))⟩ := by
  rw [escapeChar]
  split
  · next h =>
    rw [Bool.or_eq_true, beq_iff_eq, beq_iff_eq] at h
    rcases h with rfl | rfl <;> rfl
  · next h =>
    rw [Bool.or_eq_true, not_or, beq_iff_eq, beq_iff_eq] at h
    split
    · next h => rw [beq_iff_eq.mp h]; rfl
    split
    · next h => rw [beq_iff_eq.mp h]; rfl
    split
    · next h => rw [beq_iff_eq.mp h]; rfl
    split
    · next h => rw [beq_iff_eq.mp h]; rfl
    split
    · next h => rw [beq_iff_eq.mp h]; rfl
    split
    · next hctrl =>
      have hhigh := hexValue?_hexDigit (n := c.toNat / 16) (by omega)
      have hlow := hexValue?_hexDigit (n := c.toNat % 16) (by omega)
      have hzero : hexValue? '0' = some 0 := rfl
      have hunit : (c.toNat / 16) * 16 + c.toNat % 16 = c.toNat := by omega
      have hplain : Inside.pushUnit c.toNat (.plain chars) = .plain (c :: chars) := by
        rw [Inside.pushUnit, if_neg (by omega), if_neg (by omega), Char.ofNat_toNat]
      simp [Scan.run, Scan.step, hhigh, hlow, hzero, hunit, hplain]
    · next hplain => simp [Scan.run, Scan.step, Inside.push, h.1, h.2, hplain]

lemma run_escaped (tokens : List Token) (chars : List Char) (text : List Char) :
    Scan.run ⟨tokens, .string (.plain chars)⟩ (text.flatMap escapeChar) =
      some ⟨tokens, .string (.plain (text.reverse ++ chars))⟩ := by
  induction text generalizing chars with
  | nil => rfl
  | cons c text ih =>
    rw [List.flatMap_cons, Scan.run_append, run_escapeChar, Option.bind_some, ih]
    simp

lemma passes_quoted (s : String) : Passes (quoted s).toList [.text (some s)] := by
  intro done
  have hquoted : (quoted s).toList = '"' :: (s.toList.flatMap escapeChar ++ ['"']) := by
    simp [quoted]
  have hopen : Scan.step ⟨done, .blank⟩ '"' = some ⟨done, .string (.plain [])⟩ := rfl
  rw [hquoted, Scan.run_cons, hopen, Option.bind_some, Scan.run_append, run_escaped,
    Option.bind_some]
  simp [Scan.run, Scan.step, Inside.value?]

/-! ### Words and numbers -/

section words

variable {text : List Char} {v : Json}

lemma rests_word (done : List Token) (h : word? text.reverse = some v) :
    (⟨done, .word text⟩ : Scan).Rests (.scalar (some v) :: done) := by
  refine ⟨by simp [Scan.finish, wordToken?, h], fun c hc => ?_⟩
  rw [isBreak, Bool.and_eq_true, Bool.not_eq_true', Bool.not_eq_true'] at hc
  simp [Scan.step, wordToken?, h, hc.1]

lemma yields_null : Yields "null".toList [.scalar (some .null)] :=
  fun done => ⟨⟨done, .word "llun".toList⟩, rfl, rests_word done rfl⟩

lemma yields_bool (b : Bool) : Yields (scalarText (.bool b)).toList [.scalar (some (.bool b))] := by
  intro done
  cases b with
  | true => exact ⟨⟨done, .word "eurt".toList⟩, rfl, rests_word done rfl⟩
  | false => exact ⟨⟨done, .word "eslaf".toList⟩, rfl, rests_word done rfl⟩

end words

section numbers

variable {text : List Char} {v : Json}

lemma rests_number (done : List Token)
    (h : numberToken? text.reverse = some (.scalar (some v))) :
    (⟨done, .number text⟩ : Scan).Rests (.scalar (some v) :: done) := by
  refine ⟨by simp [Scan.finish, h], fun c hc => ?_⟩
  rw [isBreak, Bool.and_eq_true, Bool.not_eq_true', Bool.not_eq_true'] at hc
  simp [Scan.step, h, hc.2]

lemma run_number (done : List Token) (read : List Char)
    (h : ∀ c ∈ text, isNumberChar c = true) :
    Scan.run ⟨done, .number read⟩ text = some ⟨done, .number (text.reverse ++ read)⟩ := by
  induction text generalizing read with
  | nil => rfl
  | cons c text ih =>
    have hstep : Scan.step ⟨done, .number read⟩ c = some ⟨done, .number (c :: read)⟩ := by
      simp [Scan.step, h c List.mem_cons_self]
    rw [Scan.run_cons, hstep, Option.bind_some, ih _ fun d hd => h d (List.mem_cons_of_mem c hd)]
    simp

lemma begin_number (done : List Token) {c : Char} (hc : c = '-' ∨ c.isDigit = true) :
    Scan.begin done c = some ⟨done, .number [c]⟩ := by
  rcases hc with rfl | hc
  · rfl
  · have hrange : 48 ≤ c.toNat ∧ c.toNat ≤ 57 := by
      simpa [Char.isDigit, UInt32.le_iff_toNat_le] using hc
    obtain ⟨hlow, hhigh⟩ := hrange
    rw [← Char.ofNat_toNat c]
    generalize c.toNat = code at hlow hhigh
    interval_cases code <;> rfl

/-- A text of a numeral is read to its end. -/
lemma yields_number {c : Char} (hc : c = '-' ∨ c.isDigit = true)
    (htext : ∀ d ∈ text, d.isDigit = true)
    (h : numberToken? (c :: text) = some (.scalar (some v))) :
    Yields (c :: text) [.scalar (some v)] := by
  intro done
  have hchars : ∀ d ∈ text, isNumberChar d = true := by
    intro d hd
    simp [isNumberChar, htext d hd]
  have hstep : Scan.step ⟨done, .blank⟩ c = some ⟨done, .number [c]⟩ := begin_number done hc
  refine ⟨⟨done, .number (text.reverse ++ [c])⟩, ?_, rests_number done (by simpa using h)⟩
  rw [Scan.run_cons, hstep, Option.bind_some, run_number done [c] hchars]

lemma natOfDigits_toDigits (n : Nat) : natOfDigits (Nat.toDigits 10 n) = n := by
  have hfold : natOfDigits (Nat.toDigits 10 n) = Nat.ofDigitChars 10 (Nat.toDigits 10 n) 0 := by
    rw [natOfDigits, Nat.ofDigitChars]
    congr 1
    funext acc c
    rw [digitValue, Nat.mul_comm]
  rw [hfold, Nat.ofDigitChars_toDigits (by decide) (by decide)]

/-- A positive number is not written with a zero in front. -/
lemma head?_toDigits {n : Nat} (hn : 0 < n) : (Nat.toDigits 10 n).head? ≠ some '0' := by
  induction n using Nat.strongRecOn with
  | _ n ih =>
    by_cases hlt : n < 10
    · rw [Nat.toDigits_of_lt_base hlt]
      interval_cases n <;> decide
    · have hrest := ih (n / 10) (by omega) (by omega)
      rw [Nat.toDigits_of_base_le (by decide) (by omega), List.head?_append]
      cases hhead : (Nat.toDigits 10 (n / 10)).head? with
      | none => exact absurd (List.head?_eq_none_iff.mp hhead) Nat.toDigits_ne_nil
      | some c =>
        rw [hhead] at hrest
        exact hrest

lemma isDigit_toDigits (n : Nat) : ∀ c ∈ Nat.toDigits 10 n, c.isDigit = true :=
  fun _ hc => Nat.isDigit_of_mem_toDigits (by decide) (by decide) hc

lemma unsigned?_toDigits (negative : Bool) (n : Nat) :
    Numeral.unsigned? negative (Nat.toDigits 10 n) =
      some { negative, whole := Nat.toDigits 10 n } := by
  have hempty : (Nat.toDigits 10 n).isEmpty = false := by simp [Nat.toDigits_ne_nil]
  have hzero :
      ((Nat.toDigits 10 n).head? == some '0' && 1 < (Nat.toDigits 10 n).length) = false := by
    rw [Bool.and_eq_false_iff]
    rcases Nat.eq_zero_or_pos n with rfl | hn
    · exact Or.inr rfl
    · exact Or.inl (beq_eq_false_iff_ne.mpr (head?_toDigits hn))
  rw [Numeral.unsigned?, List.takeWhile_eq_self_iff.mpr (isDigit_toDigits n),
    List.dropWhile_eq_nil_iff.mpr (isDigit_toDigits n)]
  simp only [hempty, hzero]
  rfl

lemma numberToken?_toDigits {m : Nat} (hm : m < UInt64.size) :
    numberToken? (Nat.toDigits 10 m) = some (.scalar (some (.int m))) := by
  have hread : Numeral.ofChars? (Nat.toDigits 10 m) =
      Numeral.unsigned? false (Nat.toDigits 10 m) := by
    rw [Numeral.ofChars?]
    intro ds hds
    have hminus := isDigit_toDigits m '-' (by rw [hds]; exact List.mem_cons_self)
    cases hminus
  rw [numberToken?, hread, unsigned?_toDigits]
  simp [Numeral.value?, Numeral.isInteger, natOfDigits_toDigits, hm]

lemma numberToken?_minus {m : Nat} (hm : m < 9223372036854775808) :
    numberToken? ('-' :: Nat.toDigits 10 (m + 1)) = some (.scalar (some (.int (.negSucc m)))) := by
  rw [numberToken?, Numeral.ofChars?, unsigned?_toDigits]
  simp [Numeral.value?, Numeral.isInteger, natOfDigits_toDigits, hm, Int.negSucc_eq]

/-- An integer that fits is read as itself. -/
lemma yields_int {n : Int} (hn : fitsWord n = true) :
    Yields (toString n).toList [.scalar (some (.int n))] := by
  rw [fitsWord, decide_eq_true_iff] at hn
  cases n with
  | ofNat m =>
    have htext : (toString (Int.ofNat m)).toList = Nat.toDigits 10 m := Nat.toList_repr
    have hm : m < UInt64.size := by
      have hhigh := hn.2
      simp only [Int.ofNat_eq_natCast, UInt64.size] at hhigh ⊢
      omega
    have htoken := numberToken?_toDigits hm
    have hdigits := isDigit_toDigits m
    rw [htext]
    cases hds : Nat.toDigits 10 m with
    | nil => exact absurd hds Nat.toDigits_ne_nil
    | cons c ds =>
      rw [hds] at htoken hdigits
      exact yields_number (Or.inr (hdigits c List.mem_cons_self))
        (fun d hd => hdigits d (List.mem_cons_of_mem c hd)) htoken
  | negSucc m =>
    have htext : (toString (Int.negSucc m)).toList = '-' :: Nat.toDigits 10 (m + 1) := by
      show ("-" ++ Nat.repr (m + 1)).toList = _
      rw [String.toList_append, Nat.toList_repr]
      rfl
    have hm : m < 9223372036854775808 := by
      have hlow := hn.1
      rw [Int.negSucc_eq] at hlow
      omega
    rw [htext]
    exact yields_number (Or.inl rfl) (isDigit_toDigits (m + 1)) (numberToken?_minus hm)

end numbers

/-! ### Written values -/

section values

variable {text : List Char} {tokens : List Token}

/-- What stands between two parts of a container. -/
lemma Yields.separator (h : Yields text tokens) (level : Nat) :
    Passes (text ++ ("," ++ newline level).toList) (tokens ++ [.comma]) := by
  have hsep : ("," ++ newline level).toList = ',' :: (newline level).toList := by simp
  rw [hsep]
  exact h.append_passes rfl (passes_comma.append (passes_newline level))

/-- What stands in front of the first part of a container. -/
lemma Passes.opening (h : Passes text tokens) (level : Nat) :
    Passes (text ++ (newline level).toList) tokens := by
  have happend := h.append (passes_newline level)
  rwa [List.append_nil] at happend

/-- What stands behind the last part of a container. -/
lemma Yields.closing {c : Char} {token : Token} (h : Yields text tokens) (hc : Passes [c] [token])
    (level : Nat) : Passes (text ++ ((newline level).toList ++ [c])) (tokens ++ [token]) := by
  have hline : (newline level).toList ++ [c] =
      '\n' :: (List.replicate (2 * level) ' ' ++ [c]) := by simp [newline]
  have hpasses : Passes ((newline level).toList ++ [c]) [token] :=
    (passes_newline level).append hc
  rw [hline] at hpasses ⊢
  exact h.append_passes rfl hpasses

/-- The further parts of a container, each behind what separates it from the one before. -/
def further (level : Nat) (parts : List String) : List Char :=
  parts.flatMap fun part => ("," ++ newline level).toList ++ part.toList

lemma toList_intercalate_newline (level : Nat) (part : String) (parts : List String) :
    (("," ++ newline level).intercalate (part :: parts)).toList =
      part.toList ++ further level parts := by
  rw [String.toList_intercalate]
  induction parts generalizing part with
  | nil => simp [further]
  | cons next parts ih =>
    rw [List.map_cons, List.map_cons, List.intercalate_cons_cons, ← List.map_cons, ih]
    simp [further]

mutual

/-- A value in lines is read as its tokens. -/
lemma yields_prettyAt (level : Nat) (v : Json) (h : v.isExact = true) :
    Yields (prettyAt level v).toList (tokensOf v) := by
  match v with
  | .null => exact yields_null
  | .bool b => exact yields_bool b
  | .int n => exact yields_int h
  | .float x => cases h
  | .string s => exact (passes_quoted s).yields
  | .array [] =>
    rw [prettyAt, tokensOf, scalarText]
    · simpa using (passes_openArray.append passes_closeArray).yields
    · simp
    · simp
  | .object [] =>
    rw [prettyAt, tokensOf, scalarText]
    · simpa using (passes_openObject.append passes_closeObject).yields
    · simp
    · simp
  | .array (item :: items) =>
    rw [isExact, areExact, Bool.and_eq_true] at h
    have hitem := yields_prettyAt (level + 1) item h.1
    have hitems := yields_prettyItems (level + 1) items h.2 hitem
    have hparts := ((passes_openArray.opening (level + 1)).append_yields hitems).closing
      passes_closeArray level
    rw [prettyAt, tokensOf]
    simp only [String.toList_append, toList_intercalate_newline]
    simpa using hparts.yields
  | .object ((key, v) :: fields) =>
    rw [isExact, areExactFields, Bool.and_eq_true] at h
    have hfield := ((passes_quoted key).append passes_colon).append_yields
      (yields_prettyAt (level + 1) v h.1)
    have hfields := yields_prettyFields (level + 1) fields h.2 hfield
    have hparts := ((passes_openObject.opening (level + 1)).append_yields hfields).closing
      passes_closeObject level
    rw [prettyAt, tokensOf]
    simp only [String.toList_append, toList_intercalate_newline]
    simpa using hparts.yields

/-- So are the further items of an array. -/
lemma yields_prettyItems (level : Nat) (items : List Json) (h : areExact items = true)
    {text : List Char} {tokens : List Token} (htext : Yields text tokens) :
    Yields (text ++ further level (prettyItems level items)) (tokens ++ itemTokens items) := by
  match items with
  | [] => simpa [prettyItems, itemTokens, further] using htext
  | item :: items =>
    rw [areExact, Bool.and_eq_true] at h
    have hitem := (htext.separator level).append_yields (yields_prettyAt level item h.1)
    have hitems := yields_prettyItems level items h.2 hitem
    simpa [prettyItems, itemTokens, further] using hitems

/-- So are the further fields of an object. -/
lemma yields_prettyFields (level : Nat) (fields : List (String × Json))
    (h : areExactFields fields = true) {text : List Char} {tokens : List Token}
    (htext : Yields text tokens) :
    Yields (text ++ further level (prettyFields level fields)) (tokens ++ fieldTokens fields) := by
  match fields with
  | [] => simpa [prettyFields, fieldTokens, further] using htext
  | (key, v) :: fields =>
    rw [areExactFields, Bool.and_eq_true] at h
    have hfield := (htext.separator level).append_yields
      (((passes_quoted key).append passes_colon).append_yields (yields_prettyAt level v h.1))
    have hfields := yields_prettyFields level fields h.2 hfield
    simpa [prettyFields, fieldTokens, further] using hfields

end

theorem tokens?_pretty {v : Json} (h : v.isExact = true) :
    tokens? v.pretty.toList = some (tokensOf v) :=
  (yields_prettyAt 0 v h).tokens?_eq

end values

end Json

end CodeMigration
