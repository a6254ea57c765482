import CodeMigration.Proofs.Document.Exchange
import CodeMigration.Proofs.Json.Scalars

/-!
# What a document read from a text can be

Formatting data is taken from the text with its objects as maps, so what has been read is of the
kind that the text of a document keeps, doubles apart. Nothing but its nesting can then stand in the
way of the text of such a document being read (`parse_text_eq_ite`).
-/

namespace CodeMigration

namespace Json

/-! ### Objects taken as maps -/

lemma mem_insertField {key : String} {v : Json} {done : List (String × Json)}
    {field : String × Json} (h : field ∈ insertField key v done) :
    field = (key, v) ∨ field ∈ done := by
  induction done with
  | nil => exact .inl (List.mem_singleton.mp h)
  | cons first done ih =>
    rw [insertField] at h
    split_ifs at h
    · exact List.mem_cons.mp h
    · rcases List.mem_cons.mp h with h | h
      · exact .inl h
      · exact .inr (List.mem_cons_of_mem _ h)
    · rcases List.mem_cons.mp h with rfl | h
      · exact .inr List.mem_cons_self
      · exact (ih h).imp_right (List.mem_cons_of_mem _)

lemma pairwise_insertField (key : String) (v : Json) {done : List (String × Json)}
    (h : (done.map (·.1)).Pairwise (· < ·)) :
    ((insertField key v done).map (·.1)).Pairwise (· < ·) := by
  induction done with
  | nil => exact List.pairwise_singleton _ _
  | cons first done ih =>
    obtain ⟨k, w⟩ := first
    rw [List.map_cons, List.pairwise_cons, List.forall_mem_map] at h
    rw [insertField]
    split_ifs with hlt heq
    · rw [List.map_cons, List.pairwise_cons, List.forall_mem_map]
      refine ⟨List.forall_mem_cons.mpr ⟨hlt, fun field hfield => ?_⟩, ?_⟩
      · exact String.lt_trans hlt (h.1 field hfield)
      · rw [List.map_cons, List.pairwise_cons, List.forall_mem_map]
        exact h
    · rw [List.map_cons, List.pairwise_cons, List.forall_mem_map]
      exact heq ▸ h
    · rw [List.map_cons, List.pairwise_cons, List.forall_mem_map]
      refine ⟨fun field hfield => ?_, ih h.2⟩
      rcases mem_insertField hfield with rfl | hfield
      · exact String.not_le.mp fun hle => heq (String.le_antisymm hle (String.not_lt.mp hlt))
      · exact h.1 field hfield

lemma fieldsHaveSortedKeys_iff {fields : List (String × Json)} :
    fieldsHaveSortedKeys fields = true ↔ ∀ field ∈ fields, field.2.hasSortedKeys = true := by
  induction fields with
  | nil => simp [fieldsHaveSortedKeys]
  | cons field fields ih => simp [fieldsHaveSortedKeys, ih]

mutual

/-- Taking objects as maps puts their keys in order. -/
lemma hasSortedKeys_canonical (v : Json) : v.canonical.hasSortedKeys = true := by
  match v with
  | .null | .bool _ | .int _ | .float _ | .string _ => rfl
  | .array items => exact haveSortedKeys_canonicalItems items
  | .object fields =>
    obtain ⟨hkeys, hvalues⟩ := sorted_canonicalFields fields [] List.Pairwise.nil (by simp)
    rw [canonical, hasSortedKeys, Bool.and_eq_true, decide_eq_true_iff, fieldsHaveSortedKeys_iff]
    exact ⟨hkeys, hvalues⟩

lemma haveSortedKeys_canonicalItems (items : List Json) :
    haveSortedKeys (canonicalItems items) = true := by
  match items with
  | [] => rfl
  | item :: rest =>
    rw [canonicalItems, haveSortedKeys, hasSortedKeys_canonical item,
      haveSortedKeys_canonicalItems rest]
    rfl

lemma sorted_canonicalFields (fields done : List (String × Json))
    (hkeys : (done.map (·.1)).Pairwise (· < ·))
    (hvalues : ∀ field ∈ done, field.2.hasSortedKeys = true) :
    ((canonicalFields fields done).map (·.1)).Pairwise (· < ·) ∧
      ∀ field ∈ canonicalFields fields done, field.2.hasSortedKeys = true := by
  match fields with
  | [] => exact ⟨hkeys, hvalues⟩
  | (key, v) :: rest =>
    refine sorted_canonicalFields rest _ (pairwise_insertField key _ hkeys) fun field hfield => ?_
    rcases mem_insertField hfield with rfl | hfield
    · exact hasSortedKeys_canonical v
    · exact hvalues field hfield

end

mutual

/-- Taking objects as maps adds no scalars. -/
lemma scalars_canonical (v : Json) : v.canonical.scalars ⊆ v.scalars := by
  match v with
  | .null | .bool _ | .int _ | .float _ | .string _ => exact List.Subset.refl _
  | .array items => exact scalars_canonicalItems items
  | .object fields =>
    intro s hs
    rw [canonical, scalars, fieldScalars_eq, List.mem_flatMap] at hs
    obtain ⟨field, hfield, hs⟩ := hs
    rcases scalars_canonicalFields fields [] hfield hs with hs | ⟨field', hfield', -⟩
    · exact hs
    · cases hfield'

lemma scalars_canonicalItems (items : List Json) :
    itemScalars (canonicalItems items) ⊆ itemScalars items := by
  match items with
  | [] => exact List.Subset.refl _
  | item :: rest =>
    intro s hs
    rcases List.mem_append.mp hs with hs | hs
    · exact List.mem_append_left _ (scalars_canonical item hs)
    · exact List.mem_append_right _ (scalars_canonicalItems rest hs)

lemma scalars_canonicalFields (fields done : List (String × Json)) {field : String × Json}
    {s : Json} (hfield : field ∈ canonicalFields fields done) (hs : s ∈ field.2.scalars) :
    s ∈ fieldScalars fields ∨ ∃ field ∈ done, s ∈ field.2.scalars := by
  match fields with
  | [] => exact .inr ⟨field, hfield, hs⟩
  | (key, v) :: rest =>
    rcases scalars_canonicalFields rest _ hfield hs with hs | ⟨field', hfield', hs⟩
    · exact .inl (List.mem_append_right _ hs)
    · rcases mem_insertField hfield' with rfl | hfield'
      · exact .inl (List.mem_append_left _ (scalars_canonical v hs))
      · exact .inr ⟨field', hfield', hs⟩

end

lemma canonical_ne_null {v : Json} (h : v ≠ .null) : v.canonical ≠ .null := by
  cases v with
  | null => exact absurd rfl h
  | array items => exact Json.noConfusion
  | object fields => exact Json.noConfusion
  | _ => exact h

end Json

/-! ### Parts of a node that has been read -/

lemma Json.Draft.exists_of_whole? {α : Type} {limit : Nat} {read : Json → Option α}
    {d : Json.Draft} {x : α} (h : d.whole? limit read = some x) :
    ∃ v, d.value? = some v ∧ v.depth ≤ limit ∧ read v = some x := by
  simp only [whole?, Option.bind_eq_bind, Option.bind_eq_some_iff] at h
  obtain ⟨v, hv, h⟩ := h
  split at h
  · next hdepth => exact ⟨v, hv, hdepth, h⟩
  · cases h

lemma Json.Draft.depth_le_of_whole? {α : Type} {limit : Nat} {read : Json → Option α} {v : Json}
    {x : α} (h : (ofValue v).whole? limit read = some x) : v.depth ≤ limit := by
  obtain ⟨w, hw, hdepth, -⟩ := exists_of_whole? h
  rw [value?_ofValue] at hw
  cases hw
  exact hdepth

namespace DocNode

/-- The record of a node that has been read, and what is read from its parts. -/
lemma exists_of_ofDraft? {limit : Nat} {d : Json.Draft} {m : DocNode}
    (h : ofDraft? limit d = some m) :
    ∃ n c children span layout, limit = n + 2 ∧
      d.record? names = some [c, children, span, layout] ∧
      Json.required? (Json.Draft.whole? (n + 1) Construct.ofJson?) c = some m.construct ∧
      Json.defaulted? [] (Json.Draft.asList? (ofDraft? n)) children = some m.children ∧
      Json.defaulted? none (Json.Draft.whole? (n + 1)
        (Json.asOptional? fun l => some l.canonical)) layout = some m.layout := by
  match limit with
  | 0 | 1 => cases h
  | n + 2 =>
    rw [ofDraft?] at h
    simp only [Option.bind_eq_bind, Option.bind_eq_some_iff] at h
    obtain ⟨parts, hrecord, h⟩ := h
    split at h
    · next c children span layout =>
      simp only [Option.bind_eq_some_iff] at h
      obtain ⟨c', hc, ns, hchildren, s, -, l, hlayout, hnode⟩ := h
      cases hnode
      exact ⟨n, c, children, span, layout, rfl, hrecord, hc, hchildren, hlayout⟩
    · cases h

lemma ne_null_of_asOptional? {v l : Json}
    (h : Json.asOptional? (fun l => some l.canonical) v = some (some l)) :
    v ≠ .null ∧ v.canonical = l := by
  cases v with
  | null => cases h
  | _ =>
    cases h
    exact ⟨Json.noConfusion, rfl⟩

/-- Formatting data is read from a value in the text. -/
lemma exists_canonical_of_ofDraft? {limit : Nat} {d : Json.Draft} {m : DocNode}
    (h : ofDraft? limit d = some m) {k : DocNode} (hk : k ∈ m.preorder) {l : Json}
    (hl : l ∈ k.layout) : ∃ v : Json, v ≠ .null ∧ v.scalars ⊆ d.scalars ∧ v.canonical = l := by
  induction limit using Nat.strong_induction_on generalizing d m with
  | _ limit ih =>
    obtain ⟨n, c, children, span, layout, rfl, hrecord, -, hchildren, hlayout⟩ :=
      exists_of_ofDraft? h
    obtain ⟨c', ns, s, l'⟩ := m
    rw [preorder, List.mem_cons, preorderList_eq, List.mem_flatMap] at hk
    rcases hk with rfl | ⟨m, hm, hk⟩
    · obtain rfl : l' = some l := hl
      match layout with
      | some part =>
        obtain ⟨v, hv, -, hread⟩ := Json.Draft.exists_of_whole? hlayout
        obtain ⟨hnull, hcanonical⟩ := ne_null_of_asOptional? hread
        refine ⟨v, hnull, ?_, hcanonical⟩
        rw [Json.Draft.scalars_of_value? part hv]
        exact Json.Draft.scalars_of_record? hrecord (by simp)
    · match children with
      | none =>
        cases hchildren
        cases hm
      | some (.array items) =>
        obtain ⟨item, hitem, hread⟩ := Json.exists_of_mem_mapM hchildren hm
        obtain ⟨v, hnull, hscalars, hv⟩ := ih n (by omega) hread hk
        have hrow : (Json.Draft.array items).scalars ⊆ d.scalars :=
          Json.Draft.scalars_of_record? hrecord (by simp)
        rw [Json.Draft.scalars, Json.Draft.itemScalars_eq] at hrow
        exact ⟨v, hnull, fun x hx => hrow (List.mem_flatMap.mpr ⟨item, hitem, hscalars hx⟩), hv⟩

/-! ### Nesting -/

lemma depth_toJson_le_of_parts {c : Construct} {ns : List DocNode} {s : Option Span}
    {l : Option Json} {n : Nat} (hc : c.toJson.depth ≤ n + 1)
    (hns : Json.depthItems (toJsons ns) ≤ n) (hl : ∀ v ∈ l, v.depth ≤ n + 1) :
    (toJson (.node c ns s l)).depth ≤ n + 2 := by
  cases ns <;> cases s <;> cases l <;>
    simp [toJson, toJsons, Span.toJson, Json.depth, Json.depthFields, Json.depthItems] at * <;>
    omega

mutual

/-- What is written of a node is read only if it does not nest too deeply. -/
lemma depth_toJson_le_of_ofDraft? (m : DocNode) {limit : Nat} {m' : DocNode}
    (h : ofDraft? limit (.ofValue m.toJson) = some m') : m.toJson.depth ≤ limit := by
  match m with
  | .node c ns s l =>
    obtain ⟨n, c', children, span, layout, rfl, hrecord, hc, hchildren, hlayout⟩ :=
      exists_of_ofDraft? h
    rw [record?_toJson] at hrecord
    cases hrecord
    refine depth_toJson_le_of_parts ?_ ?_ fun v hv => ?_
    · exact Json.Draft.depth_le_of_whole? hc
    · cases ns with
      | nil => exact Nat.zero_le n
      | cons m ns => exact depthItems_toJsons_le (m :: ns) hchildren
    · obtain rfl : l = some v := hv
      exact Json.Draft.depth_le_of_whole? hlayout

lemma depthItems_toJsons_le (ns : List DocNode) {limit : Nat} {ns' : List DocNode}
    (h : (Json.Draft.ofItems (toJsons ns)).mapM (ofDraft? limit) = some ns') :
    Json.depthItems (toJsons ns) ≤ limit := by
  match ns with
  | [] => exact Nat.zero_le limit
  | m :: ns =>
    simp only [toJsons, Json.Draft.ofItems, List.mapM_cons, Option.bind_eq_bind,
      Option.bind_eq_some_iff] at h
    obtain ⟨m', hm, ns'', hns, -⟩ := h
    exact Nat.max_le.mpr ⟨depth_toJson_le_of_ofDraft? m hm, depthItems_toJsons_le ns hns⟩

end

end DocNode

/-! ### Documents -/

namespace Document

lemma exists_of_ofDraft? {limit : Nat} {p : Json.Draft} {d : Document}
    (h : ofDraft? limit p = some d) :
    ∃ n path source root, limit = n + 1 ∧ p.record? names = some [path, source, some root] ∧
      DocNode.ofDraft? n root = some d.root := by
  cases limit with
  | zero => cases h
  | succ n =>
    rw [ofDraft?] at h
    simp only [Option.bind_eq_bind, Option.bind_eq_some_iff] at h
    obtain ⟨parts, hrecord, h⟩ := h
    split at h
    · next path source root =>
      simp only [Option.bind_eq_some_iff] at h
      obtain ⟨_, -, _, -, m, hroot, hdoc⟩ := h
      cases hdoc
      cases root with
      | none => cases hroot
      | some root => exact ⟨n, path, source, root, rfl, hrecord, hroot⟩
    · cases h

lemma parse_eq_ok_iff {text : String} {d : Document} :
    parse text = .ok d ↔
      ∃ p, Json.Draft.parse? text = some p ∧ ofDraft? Json.maxDepth p = some d := by
  rw [← Option.bind_eq_some_iff, parse]
  cases (Json.Draft.parse? text).bind (ofDraft? Json.maxDepth) <;> simp

/-- Formatting data that has been read is kept, unless it holds a double. -/
lemma isKept_of_parse {text : String} {d : Document} (h : parse text = .ok d) {m : DocNode}
    (hm : m ∈ d.root.preorder) {l : Json} (hl : l ∈ m.layout)
    (hfloat : ∀ x, .float x ∉ l.scalars) : DocNode.isKept l = true := by
  obtain ⟨p, hparse, hread⟩ := parse_eq_ok_iff.mp h
  obtain ⟨n, path, source, root, -, hrecord, hroot⟩ := exists_of_ofDraft? hread
  obtain ⟨v, hnull, hscalars, rfl⟩ := DocNode.exists_canonical_of_ofDraft? hroot hm hl
  have hsub : v.canonical.scalars ⊆ p.scalars := fun x hx =>
    Json.Draft.scalars_of_record? hrecord (by simp) (hscalars (v.scalars_canonical hx))
  have hexact : v.canonical.isExact = true :=
    Json.isExact_of_scalars _ (fun n hn => Json.fitsWord_of_parse? hparse (hsub hn)) hfloat
  exact DocNode.isKept_iff.mpr
    ⟨Json.canonical_ne_null hnull, hexact, v.hasSortedKeys_canonical⟩

lemma depth_toJson_le_of_ofDraft? {limit : Nat} {d d' : Document}
    (h : ofDraft? limit (.ofValue d.toJson) = some d') : d.toJson.depth ≤ limit := by
  obtain ⟨n, path, source, root, rfl, hrecord, hroot⟩ := exists_of_ofDraft? h
  rw [record?_toJson] at hrecord
  cases hrecord
  rw [depth_toJson]
  exact Nat.succ_le_succ (DocNode.depth_toJson_le_of_ofDraft? d.root hroot)

/-- The text of a document whose formatting data can be kept is read as the document if it nests at
most `Json.maxDepth` arrays and objects, and refused otherwise. -/
theorem parse_text_eq_ite {d : Document}
    (hkept : ∀ m ∈ d.root.preorder, ∀ l ∈ m.layout, DocNode.isKept l = true) :
    parse d.text =
      if d.toJson.depth ≤ Json.maxDepth then .ok d else .error (.document .malformed) := by
  have hexact : d.toJson.isExact = true :=
    isExact_toJson d fun m hm l hl => (DocNode.isKept_iff.mp (hkept m hm l hl)).2.1
  rw [parse, text, Json.parse?_pretty hexact, Option.bind_some]
  split_ifs with hdepth
  · rw [ofDraft?_toJson d hdepth hkept]
  · have hnone : ofDraft? Json.maxDepth (.ofValue d.toJson) = none := by
      rw [Option.eq_none_iff_forall_not_mem]
      exact fun d' hd' => hdepth (depth_toJson_le_of_ofDraft? hd')
    rw [hnone]

end Document

end CodeMigration
