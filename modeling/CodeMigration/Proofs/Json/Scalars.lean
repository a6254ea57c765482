import CodeMigration.Json.Reader
import CodeMigration.Json.Record
import CodeMigration.Proofs.Json.Scanning

/-!
# The scalars of a text

Reading a text puts its scalars together and makes up none. Those of a value stand in its draft,
those of a draft in the tokens of the text, and the integers among the tokens have 64 bits. So an
integer that is read from a text can be written and read again (`fitsWord_of_parse?`).
-/

namespace CodeMigration

namespace Json

/-! ### Scalars of values -/

mutual

/-- The scalars in a value, from left to right. -/
def scalars : Json → List Json
  | .array items => itemScalars items
  | .object fields => fieldScalars fields
  | scalar => [scalar]

/-- The scalars in the items of an array. -/
def itemScalars : List Json → List Json
  | [] => []
  | item :: rest => scalars item ++ itemScalars rest

/-- The scalars in the values of fields. -/
def fieldScalars : List (String × Json) → List Json
  | [] => []
  | (_, v) :: rest => scalars v ++ fieldScalars rest

end

lemma fieldScalars_eq (fields : List (String × Json)) :
    fieldScalars fields = fields.flatMap (·.2.scalars) := by
  induction fields with
  | nil => rfl
  | cons field fields ih => rw [fieldScalars, ih, List.flatMap_cons]

mutual

/-- A value without doubles is exact if its integers have 64 bits. -/
lemma isExact_of_scalars (v : Json) (hint : ∀ n, .int n ∈ v.scalars → fitsWord n = true)
    (hfloat : ∀ x, .float x ∉ v.scalars) : v.isExact = true := by
  match v with
  | .null | .bool _ | .string _ => rfl
  | .int n => exact hint n List.mem_cons_self
  | .float x => exact absurd List.mem_cons_self (hfloat x)
  | .array items => exact areExact_of_scalars items hint hfloat
  | .object fields => exact areExactFields_of_scalars fields hint hfloat

lemma areExact_of_scalars (items : List Json)
    (hint : ∀ n, .int n ∈ itemScalars items → fitsWord n = true)
    (hfloat : ∀ x, .float x ∉ itemScalars items) : areExact items = true := by
  match items with
  | [] => rfl
  | item :: rest =>
    simp only [itemScalars, List.mem_append, not_or] at hint hfloat
    rw [areExact, isExact_of_scalars item (fun n h => hint n (.inl h)) fun x => (hfloat x).1,
      areExact_of_scalars rest (fun n h => hint n (.inr h)) fun x => (hfloat x).2]
    rfl

lemma areExactFields_of_scalars (fields : List (String × Json))
    (hint : ∀ n, .int n ∈ fieldScalars fields → fitsWord n = true)
    (hfloat : ∀ x, .float x ∉ fieldScalars fields) : areExactFields fields = true := by
  match fields with
  | [] => rfl
  | (_, v) :: rest =>
    simp only [fieldScalars, List.mem_append, not_or] at hint hfloat
    rw [areExactFields, isExact_of_scalars v (fun n h => hint n (.inl h)) fun x => (hfloat x).1,
      areExactFields_of_scalars rest (fun n h => hint n (.inr h)) fun x => (hfloat x).2]
    rfl

end

/-! ### Scalars of drafts -/

namespace Draft

mutual

/-- The scalars in a draft that have a value. -/
def scalars : Draft → List Json
  | .scalar v => v.toList.flatMap Json.scalars
  | .array items => itemScalars items
  | .object fields => fieldScalars fields

/-- The scalars in the items of an array. -/
def itemScalars : List Draft → List Json
  | [] => []
  | item :: rest => scalars item ++ itemScalars rest

/-- The scalars in the values of fields. -/
def fieldScalars : List (Option String × Draft) → List Json
  | [] => []
  | (_, d) :: rest => scalars d ++ fieldScalars rest

end

lemma itemScalars_eq (items : List Draft) : itemScalars items = items.flatMap scalars := by
  induction items with
  | nil => rfl
  | cons item items ih => rw [itemScalars, ih, List.flatMap_cons]

lemma fieldScalars_eq (fields : List (Option String × Draft)) :
    fieldScalars fields = fields.flatMap (·.2.scalars) := by
  induction fields with
  | nil => rfl
  | cons field fields ih => rw [fieldScalars, ih, List.flatMap_cons]

mutual

/-- A value has the scalars of its draft. -/
lemma scalars_of_value? (d : Draft) {v : Json} (h : d.value? = some v) :
    v.scalars = d.scalars := by
  match d with
  | .scalar w =>
    rw [value?] at h
    rw [scalars, h, Option.toList_some, List.flatMap_singleton]
  | .array items =>
    obtain ⟨vs, hvs, rfl⟩ := Option.map_eq_some_iff.mp h
    exact scalars_of_values? items hvs
  | .object fields =>
    obtain ⟨fs, hfs, rfl⟩ := Option.map_eq_some_iff.mp h
    exact scalars_of_fieldValues? fields hfs

lemma scalars_of_values? (items : List Draft) {vs : List Json} (h : values? items = some vs) :
    Json.itemScalars vs = itemScalars items := by
  match items with
  | [] =>
    cases h
    rfl
  | item :: rest =>
    simp only [values?, Option.bind_eq_bind, Option.bind_eq_some_iff] at h
    obtain ⟨v, hv, vs', hvs', hcons⟩ := h
    cases hcons
    rw [Json.itemScalars, itemScalars, scalars_of_value? item hv, scalars_of_values? rest hvs']

lemma scalars_of_fieldValues? (fields : List (Option String × Draft))
    {fs : List (String × Json)} (h : fieldValues? fields = some fs) :
    Json.fieldScalars fs = fieldScalars fields := by
  match fields with
  | [] =>
    cases h
    rfl
  | (key, d) :: rest =>
    simp only [fieldValues?, Option.bind_eq_bind, Option.bind_eq_some_iff] at h
    obtain ⟨key', -, v, hv, fs', hfs', hcons⟩ := h
    cases hcons
    rw [Json.fieldScalars, fieldScalars, scalars_of_value? d hv, scalars_of_fieldValues? rest hfs']

end

end Draft

/-! ### Parts of records -/

lemma exists_of_mem_mapM {α β : Type} {f : α → Option β} {l : List α} {l' : List β}
    (h : l.mapM f = some l') {b : β} (hb : b ∈ l') : ∃ a ∈ l, f a = some b := by
  induction l generalizing l' with
  | nil =>
    cases h
    cases hb
  | cons a l ih =>
    simp only [List.mapM_cons, Option.bind_eq_bind, Option.bind_eq_some_iff] at h
    obtain ⟨b', hb', rest, hrest, hcons⟩ := h
    cases hcons
    rcases List.mem_cons.mp hb with rfl | hb
    · exact ⟨a, List.mem_cons_self, hb'⟩
    · obtain ⟨a', ha', hfa'⟩ := ih hrest hb
      exact ⟨a', List.mem_cons_of_mem a ha', hfa'⟩

lemma exists_mem_of_named? {α : Type} {names : List String} {fields : List (String × α)}
    {parts : List (Option α)} (h : named? names fields = some parts) {part : α}
    (hpart : some part ∈ parts) : ∃ name, (name, part) ∈ fields := by
  obtain ⟨name, -, hsingle⟩ := exists_of_mem_mapM h hpart
  rw [single?] at hsingle
  split at hsingle
  · cases hsingle
  · next key v hfilter =>
    cases hsingle
    have hmem : (key, part) ∈ fields.filter (·.1 == name) := by
      rw [hfilter]
      exact List.mem_cons_self
    exact ⟨key, List.mem_of_mem_filter hmem⟩
  · cases hsingle

/-- The scalars of a part are scalars of the record. -/
lemma Draft.scalars_of_record? {names : List String} {d : Draft} {parts : List (Option Draft)}
    (h : d.record? names = some parts) {part : Draft} (hpart : some part ∈ parts) :
    part.scalars ⊆ d.scalars := by
  intro s hs
  cases d with
  | scalar v => cases h
  | array items =>
    rw [record?, placed?] at h
    split at h
    · cases h
      obtain ⟨i, hi, hitem⟩ := List.mem_mapIdx.mp hpart
      rw [scalars, itemScalars_eq, List.mem_flatMap]
      exact ⟨part, List.mem_of_getElem? hitem, hs⟩
    · cases h
  | object fields =>
    obtain ⟨keyed, hkeyed, hnamed⟩ := Option.bind_eq_some_iff.mp h
    obtain ⟨name, hmem⟩ := exists_mem_of_named? hnamed hpart
    obtain ⟨⟨key, d⟩, hfield, hkey⟩ := exists_of_mem_mapM hkeyed hmem
    obtain ⟨name', -, hpair⟩ := Option.map_eq_some_iff.mp hkey
    cases hpair
    rw [scalars, fieldScalars_eq, List.mem_flatMap]
    exact ⟨(key, part), hfield, hs⟩

/-! ### Scalars of an unfinished text -/

/-- The scalars of a token. -/
def Token.scalars : Token → List Json
  | .text s => (s.map Json.string).toList
  | .scalar v => v.toList.flatMap Json.scalars
  | _ => []

/-- The scalars in the parts of an unfinished container. -/
def Frame.scalars : Frame → List Json
  | .array items => Draft.itemScalars items
  | .object fields | .member fields _ => Draft.fieldScalars fields

namespace Assembly

/-- The scalars in what has been read. -/
def scalars (a : Assembly) : List Json :=
  a.result?.toList.flatMap Draft.scalars ++ a.stack.flatMap Frame.scalars

variable {a a' : Assembly} {stack : List Frame} {token : Token}

lemma scalars_complete {part : Draft} (h : complete part stack = some a) :
    a.scalars ⊆ part.scalars ++ stack.flatMap Frame.scalars := by
  match stack with
  | [] | .array items :: rest | .member fields key :: rest =>
    cases h
    simp [scalars, result?, Frame.scalars, Draft.itemScalars, Draft.fieldScalars]
  | .object fields :: rest => cases h

lemma scalars_begin (h : begin stack token = some a) :
    a.scalars ⊆ token.scalars ++ stack.flatMap Frame.scalars := by
  cases token with
  | text s =>
    have hpart : (Draft.scalar (s.map Json.string)).scalars = (Token.text s).scalars := by
      cases s <;> rfl
    exact hpart ▸ scalars_complete h
  | scalar v => exact scalars_complete h
  | openArray | openObject =>
    cases h
    simp [scalars, result?, Frame.scalars, Draft.itemScalars, Draft.fieldScalars]
  | closeArray | closeObject | comma | colon => cases h

lemma scalars_close (h : close token stack = some a) :
    a.scalars ⊆ stack.flatMap Frame.scalars := by
  unfold close at h
  split at h
  · next items rest =>
    refine List.Subset.trans (scalars_complete h) ?_
    simp [Frame.scalars, Draft.scalars, Draft.itemScalars_eq, List.subset_def]
  · next fields rest =>
    refine List.Subset.trans (scalars_complete h) ?_
    simp [Frame.scalars, Draft.scalars, Draft.fieldScalars_eq, List.subset_def]
  · cases h

/-- A token adds its own scalars to those already there. -/
lemma scalars_step (h : a.step token = some a') : a'.scalars ⊆ token.scalars ++ a.scalars := by
  obtain ⟨stack, expect⟩ := a
  have hstack : stack.flatMap Frame.scalars ⊆ token.scalars ++ (mk stack expect).scalars :=
    fun s hs => List.mem_append_right _ (List.mem_append_right _ hs)
  have hbegin : begin stack token = some a' →
      a'.scalars ⊆ token.scalars ++ (mk stack expect).scalars := fun h =>
    List.Subset.trans (scalars_begin h)
      (List.append_subset.mpr ⟨List.subset_append_left _ _, hstack⟩)
  have hclose : close token stack = some a' →
      a'.scalars ⊆ token.scalars ++ (mk stack expect).scalars := fun h =>
    List.Subset.trans (scalars_close h) hstack
  -- a key, a colon or a comma changes what is expected, but not the parts
  have hsame : a'.result? = none →
      a'.stack.flatMap Frame.scalars = stack.flatMap Frame.scalars →
      a'.scalars ⊆ token.scalars ++ (mk stack expect).scalars := by
    intro hresult heq
    rw [scalars, hresult, heq]
    exact hstack
  cases expect with
  | value => exact hbegin h
  | valueOrClose =>
    cases token with
    | closeArray => exact hclose h
    | _ => exact hbegin h
  | keyOrClose =>
    cases token with
    | closeObject => exact hclose h
    | text key =>
      cases h
      exact hsame rfl rfl
    | _ => cases h
  | key =>
    cases token with
    | text key =>
      cases h
      exact hsame rfl rfl
    | _ => cases h
  | colon key =>
    match token, stack with
    | .colon, .object fields :: rest =>
      cases h
      exact hsame rfl rfl
  | separator =>
    cases token with
    | comma =>
      match stack with
      | .array _ :: _ | .object _ :: _ =>
        cases h
        exact hsame rfl rfl
    | _ => exact hclose h
  | nothing d => cases h

/-- So does a row of tokens. -/
lemma scalars_foldlM {tokens : List Token} (h : tokens.foldlM step a = some a') :
    a'.scalars ⊆ tokens.flatMap Token.scalars ++ a.scalars := by
  induction tokens generalizing a with
  | nil =>
    cases h
    exact List.Subset.refl _
  | cons token tokens ih =>
    rw [List.foldlM_cons] at h
    obtain ⟨a₁, hstep, hrest⟩ := Option.bind_eq_some_iff.mp h
    intro s hs
    have hs₁ := ih hrest hs
    rw [List.mem_append] at hs₁
    rw [List.flatMap_cons, List.mem_append, List.mem_append]
    rcases hs₁ with hs₁ | hs₁
    · exact .inl (.inr hs₁)
    · rcases List.mem_append.mp (scalars_step hstep hs₁) with hs | hs
      · exact .inl (.inl hs)
      · exact .inr hs

end Assembly

/-! ### Integers of a text -/

/-- The integers in a token have 64 bits. -/
def Token.Sized (token : Token) : Prop := ∀ n, .int n ∈ token.scalars → fitsWord n = true

/-- An integer is taken as such only within the range of 64 bits. -/
lemma Numeral.fitsWord_of_value? {m : Numeral} {n : Int} (h : m.value? = some (.int n)) :
    fitsWord n = true := by
  rw [fitsWord, decide_eq_true_iff]
  simp only [Numeral.value?, Nat.one_shiftLeft] at h
  split at h
  · next hneg =>
    simp only [Bool.and_eq_true, decide_eq_true_eq] at hneg
    cases h
    omega
  · split at h
    · next hpos =>
      simp only [Bool.and_eq_true, decide_eq_true_eq, UInt64.size] at hpos
      cases h
      omega
    · obtain ⟨x, -, hx⟩ := Option.map_eq_some_iff.mp h
      cases hx

lemma Numeral.scalars_of_value? {m : Numeral} {v : Json} (h : m.value? = some v) :
    v.scalars = [v] := by
  rw [Numeral.value?] at h
  split at h
  · cases h
    rfl
  · split at h
    · cases h
      rfl
    · obtain ⟨x, -, rfl⟩ := Option.map_eq_some_iff.mp h
      rfl

lemma sized_of_numberToken? {cs : List Char} {token : Token} (h : numberToken? cs = some token) :
    token.Sized := by
  obtain ⟨m, -, rfl⟩ := Option.map_eq_some_iff.mp h
  intro n hn
  cases hvalue : m.value? with
  | none =>
    rw [Token.scalars, hvalue] at hn
    cases hn
  | some v =>
    rw [Token.scalars, hvalue, Option.toList_some, List.flatMap_singleton,
      Numeral.scalars_of_value? hvalue, List.mem_singleton] at hn
    exact Numeral.fitsWord_of_value? (hn ▸ hvalue)

lemma sized_of_wordToken? {cs : List Char} {token : Token} (h : wordToken? cs = some token) :
    token.Sized := by
  obtain ⟨v, hword, rfl⟩ := Option.map_eq_some_iff.mp h
  intro n hn
  simp only [word?] at hword
  split_ifs at hword <;>
  · cases hword
    simp [Token.scalars, Json.scalars] at hn

namespace Scan

/-- The integers in the complete tokens have 64 bits. -/
def Sized (s : Scan) : Prop := ∀ token ∈ s.tokens, token.Sized

variable {s s' : Scan} {tokens : List Token} {mode : Mode} {c : Char}

lemma Sized.cons {token : Token} (h : Sized ⟨tokens, mode⟩) (htoken : token.Sized) (mode' : Mode) :
    Sized ⟨token :: tokens, mode'⟩ :=
  List.forall_mem_cons.mpr ⟨htoken, h⟩

lemma sized_begin (h : Sized ⟨tokens, mode⟩) : ∀ s ∈ begin tokens c, s.Sized := by
  have hsame : ∀ mode', ∀ s ∈ some (mk tokens mode'), s.Sized := by
    rintro mode' _ ⟨⟩
    exact h
  have hmark : ∀ mark : Token, mark.scalars = [] →
      ∀ s ∈ some (mk (mark :: tokens) .blank), s.Sized := by
    rintro mark hnone _ ⟨⟩
    refine h.cons (fun n hn => ?_) .blank
    rw [hnone] at hn
    cases hn
  unfold begin
  -- in each branch the tokens stay as they are or a mark is added
  repeat
    refine iteInduction (motive := fun o => ∀ s ∈ o, Sized s) (fun _ => ?_) fun _ => ?_
    · first | exact hsame _ | exact hmark _ rfl
  intro s hs
  cases hs

lemma sized_step (h : s.step c = some s') (hs : s.Sized) : s'.Sized := by
  obtain ⟨tokens, mode⟩ := s
  cases mode with
  | blank => exact sized_begin hs s' h
  | word text =>
    simp only [step] at h
    split at h
    · cases h
      exact hs
    · obtain ⟨token, htoken, hbegin⟩ := Option.bind_eq_some_iff.mp h
      exact sized_begin (hs.cons (sized_of_wordToken? htoken) .blank) s' hbegin
  | number text =>
    simp only [step] at h
    split at h
    · cases h
      exact hs
    · obtain ⟨token, htoken, hbegin⟩ := Option.bind_eq_some_iff.mp h
      exact sized_begin (hs.cons (sized_of_numberToken? htoken) .blank) s' hbegin
  | string inside =>
    have htext : (Token.text inside.value?).Sized := by
      intro n hn
      cases hvalue : inside.value? <;> simp [Token.scalars, hvalue] at hn
    simp only [step] at h
    split_ifs at h <;> cases h
    · exact hs.cons htext .blank
    · exact hs
    · exact hs
  | escape inside =>
    simp only [step] at h
    split_ifs at h
    · cases h
      exact hs
    · obtain ⟨e, -, rfl⟩ := Option.map_eq_some_iff.mp h
      exact hs
  | unit inside count value =>
    obtain ⟨d, -, rfl⟩ := Option.map_eq_some_iff.mp h
    dsimp only
    split <;> exact hs

lemma sized_foldlM {text : List Char} (h : text.foldlM step s = some s') (hs : s.Sized) :
    s'.Sized := by
  induction text generalizing s with
  | nil =>
    cases h
    exact hs
  | cons c text ih =>
    rw [List.foldlM_cons] at h
    obtain ⟨s₁, hstep, hrest⟩ := Option.bind_eq_some_iff.mp h
    exact ih hrest (sized_step hstep hs)

lemma sized_finish (h : s.finish = some tokens) (hs : s.Sized) : ∀ token ∈ tokens, token.Sized := by
  obtain ⟨done, mode⟩ := s
  have hlast : ∀ {last : Token}, last.Sized → ∀ token ∈ (last :: done).reverse, token.Sized :=
    fun hlast token htoken => hs.cons hlast mode token (List.mem_reverse.mp htoken)
  cases mode with
  | blank =>
    cases h
    exact fun token htoken => hs token (List.mem_reverse.mp htoken)
  | word text =>
    obtain ⟨last, hword, rfl⟩ := Option.map_eq_some_iff.mp h
    exact hlast (sized_of_wordToken? hword)
  | number text =>
    obtain ⟨last, hnumber, rfl⟩ := Option.map_eq_some_iff.mp h
    exact hlast (sized_of_numberToken? hnumber)
  | string | escape | unit => cases h

end Scan

/-- The integers among the tokens of a text have 64 bits. -/
lemma sized_of_tokens? {text : List Char} {tokens : List Token} (h : tokens? text = some tokens) :
    ∀ token ∈ tokens, token.Sized := by
  obtain ⟨s, hscan, hfinish⟩ := Option.bind_eq_some_iff.mp h
  exact Scan.sized_finish hfinish (Scan.sized_foldlM hscan fun token htoken => nomatch htoken)

/-- The integers in a text that has been read have 64 bits. -/
theorem fitsWord_of_parse? {text : String} {d : Draft} (h : Draft.parse? text = some d) {n : Int}
    (hn : .int n ∈ d.scalars) : fitsWord n = true := by
  simp only [Draft.parse?, Option.bind_eq_bind, Option.bind_eq_some_iff] at h
  obtain ⟨tokens, htokens, done, hdone, hresult⟩ := h
  have hmem : .int n ∈ done.scalars := by
    rw [Assembly.scalars, hresult]
    exact List.mem_append_left _ (by simpa using hn)
  have hread := Assembly.scalars_foldlM hdone hmem
  have hstart : (⟨[], .value⟩ : Assembly).scalars = [] := rfl
  rw [hstart, List.append_nil, List.mem_flatMap] at hread
  obtain ⟨token, htoken, hscalar⟩ := hread
  exact sized_of_tokens? htokens token htoken n hscalar

end Json

end CodeMigration
