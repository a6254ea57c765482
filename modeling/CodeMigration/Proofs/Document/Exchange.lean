import CodeMigration.Document.Json
import CodeMigration.Proofs.Document.Numbering
import CodeMigration.Proofs.Json.Assembling

/-!
# Documents through JSON

What the writer leaves out of a record is what the reader takes for granted, so constructs, spans,
nodes and documents are read back from what is written of them, as far down as they are nested.
Formatting data comes back as it was when its objects are maps, that is, when their keys are in
order.
-/

namespace CodeMigration

namespace Json

/-! ### Objects as maps -/

mutual

/-- The keys of every object in the value are in increasing order, so none occurs twice. -/
def hasSortedKeys : Json → Bool
  | .array items => haveSortedKeys items
  | .object fields =>
    decide ((fields.map (·.1)).Pairwise (· < ·)) && fieldsHaveSortedKeys fields
  | _ => true

/-- So are those in all items. -/
def haveSortedKeys : List Json → Bool
  | [] => true
  | item :: rest => hasSortedKeys item && haveSortedKeys rest

/-- So are those in the values of all fields. -/
def fieldsHaveSortedKeys : List (String × Json) → Bool
  | [] => true
  | (_, v) :: rest => hasSortedKeys v && fieldsHaveSortedKeys rest

end

lemma insertField_last {key : String} {done : List (String × Json)} (v : Json)
    (h : ∀ field ∈ done, field.1 < key) : insertField key v done = done ++ [(key, v)] := by
  induction done with
  | nil => rfl
  | cons field done ih =>
    have hlt : field.1 < key := h field List.mem_cons_self
    have hne : key ≠ field.1 := by
      rintro rfl
      exact String.lt_irrefl _ hlt
    rw [insertField, if_neg (String.lt_asymm hlt), if_neg hne,
      ih fun f hf => h f (List.mem_cons_of_mem field hf), List.cons_append]

mutual

/-- A value whose objects are maps is taken as it is. -/
lemma canonical_eq_self (v : Json) (h : v.hasSortedKeys = true) : v.canonical = v := by
  match v with
  | .null | .bool _ | .int _ | .float _ | .string _ => rfl
  | .array items => rw [canonical, canonicalItems_eq_self items h]
  | .object fields =>
    rw [hasSortedKeys, Bool.and_eq_true, decide_eq_true_iff] at h
    rw [canonical, canonicalFields_eq_append fields [] h.2 (by simpa using h.1), List.nil_append]

lemma canonicalItems_eq_self (items : List Json) (h : haveSortedKeys items = true) :
    canonicalItems items = items := by
  match items with
  | [] => rfl
  | item :: items =>
    rw [haveSortedKeys, Bool.and_eq_true] at h
    rw [canonicalItems, canonical_eq_self item h.1, canonicalItems_eq_self items h.2]

lemma canonicalFields_eq_append (fields done : List (String × Json))
    (h : fieldsHaveSortedKeys fields = true)
    (hsorted : ((done ++ fields).map (·.1)).Pairwise (· < ·)) :
    canonicalFields fields done = done ++ fields := by
  match fields with
  | [] => rw [canonicalFields, List.append_nil]
  | (key, v) :: fields =>
    rw [fieldsHaveSortedKeys, Bool.and_eq_true] at h
    have hlast : ∀ field ∈ done, field.1 < key := by
      intro field hfield
      rw [List.map_append, List.pairwise_append] at hsorted
      exact hsorted.2.2 _ (List.mem_map_of_mem hfield) _ (by simp)
    rw [canonicalFields, canonical_eq_self v h.1, insertField_last v hlast,
      canonicalFields_eq_append fields _ h.2 (by simpa using hsorted)]
    simp

end

/-! ### Parts of a draft -/

namespace Draft

lemma whole?_ofValue {α : Type} {limit : Nat} {v : Json} (read : Json → Option α)
    (h : v.depth ≤ limit) : whole? limit read (ofValue v) = read v := by
  simp [whole?, h]

lemma keyed?_ofFields (fields : List (String × Json)) :
    keyed? (ofFields fields) = some (fields.map fun field => (field.1, ofValue field.2)) := by
  induction fields with
  | nil => rfl
  | cons field fields ih =>
    rw [keyed?] at ih
    simp [keyed?, ofFields, ih]

lemma record?_ofValue (names : List String) (fields : List (String × Json)) :
    record? names (ofValue (.object fields)) =
      named? names (fields.map fun field => (field.1, ofValue field.2)) := by
  rw [ofValue, record?, keyed?_ofFields, Option.bind_some]

end Draft

end Json

/-! ### Constructs and spans -/

namespace Construct

lemma key_ne_kind (c : Construct) : ∀ field ∈ c.toFields, field.1 ≠ "kind" := by
  cases c with
  | classDecl name parent interfaces => cases parent <;> cases interfaces <;> simp [toFields]
  | _ => simp [toFields]

lemma mapM_asString? (names : List String) :
    names.mapM (Json.asString? ∘ Json.string) = some names := by
  induction names with
  | nil => rfl
  | cons name names ih => simp [List.mapM_cons, ih, Json.asString?]

/-- Every construct is read back from its own fields. -/
lemma ofRecord?_toFields (c : Construct) : ofRecord? c.kind (.object c.toFields) = some c := by
  cases c with
  | classDecl name parent interfaces =>
    cases parent <;> cases interfaces <;>
      simp [ofRecord?, fieldNames, kind, toFields, Json.record?, Json.named?, Json.single?,
        ofFields?, textField?, Json.required?, Json.asString?, Json.defaulted?, Json.asOptional?,
        Json.asList?, mapM_asString?]
  | int value =>
    have hvalue : Json.asInt64? (.int value.toInt) = some value := by
      rw [Json.asInt64?, if_pos ⟨Int64.minValue_le_toInt value, Int64.toInt_le value⟩,
        Int64.ofInt_toInt]
    simp [ofRecord?, fieldNames, kind, toFields, Json.record?, Json.named?, Json.single?, ofFields?,
      Json.required?, hvalue]
  | _ =>
    simp [ofRecord?, fieldNames, kind, toFields, Json.record?, Json.named?, Json.single?, ofFields?,
      textField?, Json.required?, Json.asString?, Json.defaulted?, Json.asBool?]

lemma ofJson?_toJson (c : Construct) : ofJson? c.toJson = some c := by
  have hother : c.toFields.filter (·.1 == "kind") = [] := by
    rw [List.filter_eq_nil_iff]
    intro field hfield
    simpa using key_ne_kind c field hfield
  have hrest : c.toFields.filter (·.1 != "kind") = c.toFields := by
    rw [List.filter_eq_self]
    intro field hfield
    simpa using key_ne_kind c field hfield
  simp [toJson, ofJson?, Json.single?, hother, hrest, Kind.ofLabel?_label, ofRecord?_toFields]

end Construct

namespace Span

lemma asUInt64?_toNat (n : UInt64) : Json.asUInt64? (.int n.toNat) = some n := by
  have hlt : (n.toNat : Int) < UInt64.size := by exact_mod_cast n.toNat_lt_size
  rw [Json.asUInt64?, Json.asNatBelow?, if_pos ⟨Int.natCast_nonneg _, hlt⟩, Int.toNat_natCast,
    Option.map_some, UInt64.ofNat_toNat]

lemma asUInt32?_toNat (n : UInt32) : Json.asUInt32? (.int n.toNat) = some n := by
  have hlt : (n.toNat : Int) < UInt32.size := by exact_mod_cast n.toNat_lt_size
  rw [Json.asUInt32?, Json.asNatBelow?, if_pos ⟨Int.natCast_nonneg _, hlt⟩, Int.toNat_natCast,
    Option.map_some, UInt32.ofNat_toNat]

/-- A span from the parts of its record. -/
lemma ofDraft?_of_record {n : Nat} {d : Json.Draft} {start stop line : Option Json.Draft} {s : Span}
    (hrecord : d.record? ["start", "end", "line"] = some [start, stop, line])
    (hstart : Json.required? (Json.Draft.whole? n Json.asUInt64?) start = some s.start)
    (hstop : Json.required? (Json.Draft.whole? n Json.asUInt64?) stop = some s.stop)
    (hline : Json.required? (Json.Draft.whole? n Json.asUInt32?) line = some s.line) :
    ofDraft? (n + 1) d = some s := by
  rw [ofDraft?, hrecord]
  simp only [Option.bind_eq_bind, Option.bind_some, hstart, hstop, hline]
  rfl

lemma record?_toJson (s : Span) :
    (Json.Draft.ofValue s.toJson).record? ["start", "end", "line"] =
      some [some (.ofValue (.int s.start.toNat)), some (.ofValue (.int s.stop.toNat)),
        some (.ofValue (.int s.line.toNat))] := by
  rw [toJson, Json.Draft.record?_ofValue]
  simp [Json.named?, Json.single?]

lemma required?_whole?_int {α : Type} {n : Nat} {read : Json → Option α} {value : Int} {x : α}
    (h : read (.int value) = some x) :
    Json.required? (Json.Draft.whole? n read) (some (.ofValue (.int value))) = some x := by
  rw [Json.required?, Json.Draft.whole?_ofValue read (Nat.zero_le n), h]

lemma ofDraft?_toJson (s : Span) (n : Nat) : ofDraft? (n + 1) (.ofValue s.toJson) = some s :=
  ofDraft?_of_record (record?_toJson s) (required?_whole?_int (asUInt64?_toNat s.start))
    (required?_whole?_int (asUInt64?_toNat s.stop)) (required?_whole?_int (asUInt32?_toNat s.line))

end Span

/-! ### Nodes -/

namespace DocNode

/-- The names of the fields of a node. -/
abbrev names : List String := ["syntax", "children", "span", "meta"]

/-- A node from the parts of its record. -/
lemma ofDraft?_of_record {n : Nat} {d : Json.Draft} {c children span layout : Option Json.Draft}
    {m : DocNode} (hrecord : d.record? names = some [c, children, span, layout])
    (hc : Json.required? (Json.Draft.whole? (n + 1) Construct.ofJson?) c = some m.construct)
    (hchildren : Json.defaulted? [] (Json.Draft.asList? (ofDraft? n)) children = some m.children)
    (hspan : Json.defaulted? none (Json.Draft.asOptional? (Span.ofDraft? (n + 1))) span =
      some m.span)
    (hlayout : Json.defaulted? none (Json.Draft.whole? (n + 1)
      (Json.asOptional? fun l => some l.canonical)) layout = some m.layout) :
    ofDraft? (n + 2) d = some m := by
  rw [ofDraft?, hrecord]
  simp only [Option.bind_eq_bind, Option.bind_some, hc, hchildren, hspan, hlayout]
  cases m
  rfl

/-- Empty parts are left out of the record. -/
lemma record?_toJson (c : Construct) (ns : List DocNode) (s : Option Span) (l : Option Json) :
    (Json.Draft.ofValue (toJson (.node c ns s l))).record? names =
      some [some (.ofValue c.toJson),
        if ns.isEmpty then none else some (.ofValue (.array (toJsons ns))),
        s.map fun s => .ofValue s.toJson, l.map .ofValue] := by
  cases ns <;> cases s <;> cases l <;>
    simp [toJson, toJsons, Json.Draft.record?_ofValue, Json.named?, Json.single?]

/-- A node takes two levels, its children come below them, and its other parts below the first. -/
lemma depth_toJson_le {c : Construct} {ns : List DocNode} {s : Option Span} {l : Option Json}
    {limit : Nat} (h : (toJson (.node c ns s l)).depth ≤ limit) :
    ∃ n, limit = n + 2 ∧ c.toJson.depth ≤ n + 1 ∧ Json.depthItems (toJsons ns) ≤ n ∧
      ∀ v ∈ l, v.depth ≤ n + 1 := by
  have hc : 1 ≤ c.toJson.depth := Nat.le_add_left _ _
  refine ⟨limit - 2, ?_⟩
  cases ns <;> cases s <;> cases l <;>
    simp [toJson, toJsons, Json.depth, Json.depthFields, Json.depthItems] at h ⊢ <;> omega

/-- Formatting data that the text of a document keeps: it is not `null`, its numbers are integers of
64 bits and its objects are maps. -/
def isKept (l : Json) : Bool := l != .null && l.isExact && l.hasSortedKeys

lemma isKept_iff {l : Json} :
    isKept l = true ↔ l ≠ .null ∧ l.isExact = true ∧ l.hasSortedKeys = true := by
  simp [isKept, and_assoc]

lemma asOptional?_canonical {l : Json} (h : isKept l = true) :
    Json.asOptional? (fun l => some l.canonical) l = some (some l) := by
  obtain ⟨hnull, -, hsorted⟩ := isKept_iff.mp h
  have hsome : Json.asOptional? (fun l => some l.canonical) l = some (some l.canonical) := by
    cases l <;> first | rfl | exact absurd rfl hnull
  rw [hsome, Json.canonical_eq_self l hsorted]

mutual

/-- A node is read back from what is written of it. -/
lemma ofDraft?_toJson (m : DocNode) {limit : Nat} (hdepth : m.toJson.depth ≤ limit)
    (hkept : ∀ k ∈ m.preorder, ∀ l ∈ k.layout, isKept l = true) :
    ofDraft? limit (.ofValue m.toJson) = some m := by
  match m with
  | .node c ns s l =>
    obtain ⟨n, rfl, hc, hns, hl⟩ := depth_toJson_le hdepth
    rw [preorder, List.forall_mem_cons] at hkept
    refine ofDraft?_of_record (record?_toJson c ns s l) ?_ ?_ ?_ ?_
    · rw [Json.required?, Json.Draft.whole?_ofValue _ hc, Construct.ofJson?_toJson]
      rfl
    · have hrow := mapM_ofDraft?_toJsons ns hns hkept.2
      cases ns with
      | nil => rfl
      | cons m ns =>
        simpa [Json.defaulted?, Json.Draft.ofValue, Json.Draft.asList?, children] using hrow
    · cases s with
      | none => rfl
      | some s =>
        have hs : Json.Draft.asOptional? (Span.ofDraft? (n + 1)) (.ofValue s.toJson) =
            (Span.ofDraft? (n + 1) (.ofValue s.toJson)).map some := rfl
        rw [Option.map_some, Json.defaulted?, hs, Span.ofDraft?_toJson]
        rfl
    · cases l with
      | none => rfl
      | some l =>
        rw [Option.map_some, Json.defaulted?, Json.Draft.whole?_ofValue _ (hl l rfl),
          asOptional?_canonical (hkept.1 l rfl)]
        rfl

/-- So is a row of nodes. -/
lemma mapM_ofDraft?_toJsons (ns : List DocNode) {limit : Nat}
    (hdepth : Json.depthItems (toJsons ns) ≤ limit)
    (hkept : ∀ k ∈ preorderList ns, ∀ l ∈ k.layout, isKept l = true) :
    (Json.Draft.ofItems (toJsons ns)).mapM (ofDraft? limit) = some ns := by
  match ns with
  | [] => rfl
  | m :: ns =>
    rw [toJsons, Json.depthItems, Nat.max_le] at hdepth
    rw [preorderList, List.forall_mem_append] at hkept
    rw [toJsons, Json.Draft.ofItems, List.mapM_cons, ofDraft?_toJson m hdepth.1 hkept.1,
      mapM_ofDraft?_toJsons ns hdepth.2 hkept.2]
    rfl

end

end DocNode

/-! ### Exact numbers -/

namespace Json

lemma areExact_iff {items : List Json} :
    areExact items = true ↔ ∀ item ∈ items, item.isExact = true := by
  induction items with
  | nil => simp [areExact]
  | cons item items ih => simp [areExact, ih]

lemma areExactFields_iff {fields : List (String × Json)} :
    areExactFields fields = true ↔ ∀ field ∈ fields, field.2.isExact = true := by
  induction fields with
  | nil => simp [areExactFields]
  | cons field fields ih => simp [areExactFields, ih]

lemma fitsWord_natCast {n : Nat} (h : n < 2 ^ 64) : fitsWord n = true := by
  rw [fitsWord, decide_eq_true_iff]
  omega

end Json

lemma Construct.isExact_toJson (c : Construct) : c.toJson.isExact = true := by
  rw [toJson, Json.isExact, Json.areExactFields_iff]
  cases c with
  | int value =>
    have hvalue : Json.fitsWord value.toInt = true := by
      have hmin : -2 ^ 63 ≤ value.toInt := Int64.minValue_le_toInt value
      have hmax : value.toInt ≤ 2 ^ 63 - 1 := Int64.toInt_le value
      rw [Json.fitsWord, decide_eq_true_iff]
      omega
    simp [toFields, Json.isExact, hvalue]
  | classDecl name parent interfaces =>
    cases parent <;> cases interfaces <;> simp [toFields, Json.isExact, Json.areExact_iff]
  | _ => simp [toFields, Json.isExact]

lemma Span.isExact_toJson (s : Span) : s.toJson.isExact = true := by
  have hstart := Json.fitsWord_natCast s.start.toNat_lt
  have hstop := Json.fitsWord_natCast s.stop.toNat_lt
  have hline := Json.fitsWord_natCast (Nat.lt_trans s.line.toNat_lt (by decide : 2 ^ 32 < 2 ^ 64))
  simp [toJson, Json.isExact, Json.areExactFields, hstart, hstop, hline]

namespace DocNode

mutual

lemma isExact_toJson (m : DocNode) (h : ∀ k ∈ m.preorder, ∀ l ∈ k.layout, l.isExact = true) :
    m.toJson.isExact = true := by
  match m with
  | .node c ns s l =>
    rw [preorder, List.forall_mem_cons] at h
    have hc := Construct.isExact_toJson c
    have hs := Span.isExact_toJson
    have hns := areExact_toJsons ns h.2
    have hl := h.1
    cases ns <;> cases s <;> cases l <;>
      simp_all [toJson, toJsons, Json.isExact, Json.areExactFields, layout]

lemma areExact_toJsons (ns : List DocNode)
    (h : ∀ k ∈ preorderList ns, ∀ l ∈ k.layout, l.isExact = true) :
    Json.areExact (toJsons ns) = true := by
  match ns with
  | [] => rfl
  | m :: ns =>
    rw [preorderList, List.forall_mem_append] at h
    rw [toJsons, Json.areExact, isExact_toJson m h.1, areExact_toJsons ns h.2]
    rfl

end

end DocNode

/-! ### Documents -/

namespace Document

/-- The names of the fields of a document. -/
abbrev names : List String := ["path", "source", "root"]

/-- A document from the parts of its record. -/
lemma ofDraft?_of_record {n : Nat} {p : Json.Draft} {path source root : Option Json.Draft}
    {d : Document} (hrecord : p.record? names = some [path, source, root])
    (hpath : Json.defaulted? none (Json.Draft.whole? n (Json.asOptional? Json.asString?)) path =
      some d.path)
    (hsource : Json.defaulted? none (Json.Draft.whole? n (Json.asOptional? Json.asString?)) source =
      some d.source)
    (hroot : Json.required? (DocNode.ofDraft? n) root = some d.root) :
    ofDraft? (n + 1) p = some d := by
  rw [ofDraft?, hrecord]
  simp only [Option.bind_eq_bind, Option.bind_some, hpath, hsource, hroot]
  rfl

lemma record?_toJson (d : Document) :
    (Json.Draft.ofValue d.toJson).record? names =
      some [d.path.map fun s => .ofValue (.string s), d.source.map fun s => .ofValue (.string s),
        some (.ofValue d.root.toJson)] := by
  obtain ⟨path, source, root⟩ := d
  cases path <;> cases source <;>
    simp [toJson, Json.Draft.record?_ofValue, Json.named?, Json.single?]

lemma defaulted?_text (n : Nat) (value : Option String) :
    Json.defaulted? none (Json.Draft.whole? n (Json.asOptional? Json.asString?))
      (value.map fun s => .ofValue (.string s)) = some value := by
  cases value with
  | none => rfl
  | some s =>
    rw [Option.map_some, Json.defaulted?, Json.Draft.whole?_ofValue _ (Nat.zero_le n)]
    rfl

lemma depth_toJson (d : Document) : d.toJson.depth = d.root.toJson.depth + 1 := by
  obtain ⟨path, source, root⟩ := d
  cases path <;> cases source <;> simp [toJson, Json.depth, Json.depthFields]

/-- A document is read back from what is written of it. -/
lemma ofDraft?_toJson (d : Document) {limit : Nat} (hdepth : d.toJson.depth ≤ limit)
    (hkept : ∀ m ∈ d.root.preorder, ∀ l ∈ m.layout, DocNode.isKept l = true) :
    ofDraft? limit (.ofValue d.toJson) = some d := by
  rw [depth_toJson] at hdepth
  obtain ⟨n, rfl⟩ := Nat.exists_eq_add_of_le' (Nat.le_of_add_left_le hdepth)
  refine ofDraft?_of_record (record?_toJson d) (defaulted?_text n _) (defaulted?_text n _) ?_
  exact DocNode.ofDraft?_toJson d.root (Nat.le_of_add_le_add_right hdepth) hkept

lemma isExact_toJson (d : Document)
    (h : ∀ m ∈ d.root.preorder, ∀ l ∈ m.layout, l.isExact = true) : d.toJson.isExact = true := by
  have hroot := DocNode.isExact_toJson d.root h
  obtain ⟨path, source, root⟩ := d
  cases path <;> cases source <;>
    simpa [toJson, Json.isExact, Json.areExactFields] using hroot

/-- The text of a document is read as the document, as long as it does not nest deeper than the
reader goes and its formatting data can be kept. -/
theorem parse_text (d : Document) (hdepth : d.toJson.depth ≤ 127)
    (hkept : ∀ m ∈ d.root.preorder, ∀ l ∈ m.layout, DocNode.isKept l = true) :
    parse d.text = .ok d := by
  have hexact : d.toJson.isExact = true :=
    isExact_toJson d fun m hm l hl => (DocNode.isKept_iff.mp (hkept m hm l hl)).2.1
  have hread : ofDraft? Json.maxDepth (.ofValue d.toJson) = some d :=
    ofDraft?_toJson d hdepth hkept
  rw [parse, text, Json.parse?_pretty hexact, Option.bind_some, hread]

/-- Texts to escape, numbers at their limits, and parts present and absent. -/
def specimen : Document where
  path := some "src/é\\a.php"
  source := some "<?php\n\t\"\x01\x7f😀\" "
  root := .node .file
    [.node (.classDecl "A" (some "B") ["I", "J"]) [.node (.method "m") [] none none] none
      (some (.object [("indent", .int 4), ("tail", .array [.null, .string "\r\n"])])),
      .node (.int Int64.minValue) [] (some ⟨7, UInt64.ofNat (2 ^ 64 - 1), 3⟩) none,
      .node (.arrayItem true) [] none (some (.int (2 ^ 64 - 1)))] none none

theorem parse_text_specimen : parse specimen.text = .ok specimen := by
  refine parse_text specimen ?_ ?_
  · decide
  · decide

end Document

end CodeMigration
