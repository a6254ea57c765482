import CodeMigration.Proofs.Catalogue.Conservation
import CodeMigration.Proofs.Document.Reading

/-!
# Reading what a run has written

The formatting data in a tree that migrations have run over was in the document before, so it is
data that has been read from a text. What a run has written is therefore read back unless it nests
too deeply. It may: migrations add levels to documents that are only just within the limit of the
reader, which lies far below that of trees.
-/

namespace CodeMigration

namespace Tree

variable {t t' : Tree} {d : Document} {l : Json}

lemma layout_outline (h : t.WellLinked) {n : NodeId} :
    l ∈ (t.outline n).layout ↔ t.attribute? n .layout = some (.data l) := by
  rw [outline_eq h n]
  show (t.attribute? n .layout).bind AttributeValue.asData? = some l ↔ _
  rw [Option.bind_eq_some_iff]
  constructor
  · rintro ⟨value, hvalue, hdata⟩
    cases value <;> cases hdata
    exact hvalue
  · exact fun hvalue => ⟨_, hvalue, rfl⟩

lemma map_outline_nodes (h : t.WellLinked) :
    t.nodes.map t.outline = (t.outline t.root).preorder :=
  map_outline_preorder h (Nat.le_add_left _ _)

/-- The formatting data that is left at the end of a run is in the document. -/
lemma Balance.exists_layout {gone : NodeId → Prop} (h : t.Balance gone t')
    (hdoc : ofDocument d = .ok t) {m : DocNode} (hm : m ∈ (t'.outline t'.root).preorder)
    (hl : l ∈ m.layout) : ∃ k ∈ d.root.preorder, l ∈ k.layout := by
  have hlinked := (Reachable.ofDocument hdoc).sound.linked
  obtain ⟨hplain, houtline⟩ := outline_ofDocument hdoc
  rw [← map_outline_nodes h.sound.linked, List.mem_map] at hm
  obtain ⟨n, -, rfl⟩ := hm
  have hafter : t'.attributes.get? n .layout = some (.data l) :=
    (layout_outline h.sound.linked).mp hl
  rw [Attributes.get?_eq_ofNode, Bag.get?, Option.map_eq_some_iff] at hafter
  obtain ⟨e, hfind, hvalue⟩ := hafter
  have hkey : e.key = .layout := by simpa using List.find?_some hfind
  have hbefore : t.attribute? n .layout = some (.data l) := by
    rw [← hvalue, ← hkey]
    exact hplain.distinct.get?_of_mem (h.layouts n e (List.mem_of_find?_eq_some hfind) hkey)
  have hlt : n < t.size := by
    by_contra hge
    rw [hplain.known n .layout (Nat.not_lt.mp hge)] at hbefore
    cases hbefore
  refine ⟨t.outline n, ?_, (layout_outline hlinked).mpr hbefore⟩
  rw [← houtline, ← map_outline_nodes hlinked, nodes_ofDocument hdoc]
  exact List.mem_map_of_mem (List.mem_range.mpr hlt)

end Tree

namespace Catalogue

/-- A run of migrations that succeeds leaves a tree that can be written. If the document was read
from a text and its formatting data holds no doubles, then what is written is read as the same
document when it nests at most `Json.maxDepth` arrays and objects, and is refused when it nests
more. -/
theorem run_text_reads_back_iff_shallow (oracle : Oracle) (routes : List Route) (p : Pipeline)
    (hrules : ∀ r ∈ p.rules, r ∈ all routes) {text : String} {d : Document} {t t' : Tree}
    {report : RunReport} (hparse : Document.parse text = .ok d)
    (hfloat : ∀ m ∈ d.root.preorder, ∀ l ∈ m.layout, ∀ x, .float x ∉ l.scalars)
    (hdoc : Tree.ofDocument d = .ok t) (hrun : p.run oracle t = (t', .ok report)) :
    ∃ d', t'.toDocument = .ok d' ∧
      Document.parse d'.text =
        if d'.toJson.depth ≤ Json.maxDepth then .ok d' else .error (.document .malformed) := by
  obtain ⟨_, _, _, _, hbalance⟩ := balance_of_run hrules hdoc hrun
  refine ⟨⟨t'.origin.path, t'.origin.source, t'.outline t'.root⟩, ?_, ?_⟩
  · rw [Tree.toDocument, hbalance.sound.linked.validate_eq_ok]
    rfl
  · refine Document.parse_text_eq_ite fun m hm l hl => ?_
    obtain ⟨k, hk, hl⟩ := hbalance.exists_layout hdoc hm hl
    exact Document.isKept_of_parse hparse hk hl (hfloat k hk l hl)

/-! ### Documents at the limit -/

/-- The document that a run leaves of a document, if the run succeeds. -/
def rewritten? (p : Pipeline) (oracle : Oracle) (d : Document) : Option Document :=
  (treesOfRun? p oracle d).bind (·.2.toDocument.toOption)

lemma exists_run_of_rewritten? {p : Pipeline} {oracle : Oracle} {d d' : Document}
    (h : rewritten? p oracle d = some d') :
    ∃ t t' report, Tree.ofDocument d = .ok t ∧ p.run oracle t = (t', .ok report) ∧
      t'.toDocument = .ok d' := by
  obtain ⟨⟨t, t'⟩, htrees, hout⟩ := Option.bind_eq_some_iff.mp h
  obtain ⟨report, hdoc, hrun⟩ := exists_run_of_treesOfRun? htrees
  refine ⟨t, t', report, hdoc, hrun, ?_⟩
  cases hwritten : t'.toDocument with
  | error e =>
    rw [hwritten] at hout
    cases hout
  | ok d'' =>
    rw [hwritten] at hout
    cases hout
    rfl

/-- Arrays inside each other. -/
def nestedArrays : Nat → Json
  | 0 => .int 0
  | n + 1 => .array [nestedArrays n]

lemma depth_nestedArrays (n : Nat) : (nestedArrays n).depth = n := by
  induction n with
  | zero => rfl
  | succ n ih => simp [nestedArrays, Json.depth, Json.depthItems, ih]

lemma scalars_nestedArrays (n : Nat) : (nestedArrays n).scalars = [.int 0] := by
  induction n with
  | zero => rfl
  | succ n ih => simp [nestedArrays, Json.scalars, Json.itemScalars, ih]

lemma isKept_nestedArrays (n : Nat) : DocNode.isKept (nestedArrays n) = true := by
  have hsorted : (nestedArrays n).hasSortedKeys = true := by
    induction n with
    | zero => rfl
    | succ n ih => simp [nestedArrays, Json.hasSortedKeys, Json.haveSortedKeys, ih]
  have hnull : nestedArrays n ≠ .null := by cases n <;> simp [nestedArrays]
  have hexact : (nestedArrays n).isExact = true :=
    Json.isExact_of_scalars _ (by simp [scalars_nestedArrays, Json.fitsWord])
      (by simp [scalars_nestedArrays])
  exact DocNode.isKept_iff.mpr ⟨hnull, hexact, hsorted⟩

/-- A parameter is read from a new request with formatting data. -/
def parameterRead (l : Json) : Document where
  root := .plain .file [
    .plain (.methodCall "getParameter") [
      .node (.instantiation RequestParameters.request) [] none (some l),
      .plain (.string "id") []]]

/-- The parameter is read from the attributes of the request. -/
def attributeRead (l : Json) : Document where
  root := .plain .file [
    .plain (.methodCall "get") [
      .plain (.propertyFetch "attributes") [
        .node (.instantiation RequestParameters.request) [] none (some l)],
      .plain (.string "id") []]]

section reads

variable {l : Json} {P : Json → Prop}

lemma layouts_parameterRead (h : P l) :
    ∀ m ∈ (parameterRead l).root.preorder, ∀ l' ∈ m.layout, P l' := by
  simpa [parameterRead, DocNode.plain, DocNode.preorder, DocNode.preorderList, DocNode.layout]
    using h

lemma layouts_attributeRead (h : P l) :
    ∀ m ∈ (attributeRead l).root.preorder, ∀ l' ∈ m.layout, P l' := by
  simpa [attributeRead, DocNode.plain, DocNode.preorder, DocNode.preorderList, DocNode.layout]
    using h

lemma depth_parameterRead : (parameterRead l).toJson.depth = max 1 l.depth + 6 := by
  simp [parameterRead, DocNode.plain, Document.toJson, DocNode.toJson, DocNode.toJsons,
    Construct.toJson, Construct.toFields, Json.depth, Json.depthFields, Json.depthItems]

lemma depth_attributeRead : (attributeRead l).toJson.depth = max 1 l.depth + 8 := by
  simp [attributeRead, DocNode.plain, Document.toJson, DocNode.toJson, DocNode.toJsons,
    Construct.toJson, Construct.toFields, Json.depth, Json.depthFields, Json.depthItems]

end reads

lemma parse_parameterRead {n : Nat} (hn : n ≤ 121) :
    Document.parse (parameterRead (nestedArrays n)).text =
      .ok (parameterRead (nestedArrays n)) := by
  have hdepth : (parameterRead (nestedArrays n)).toJson.depth ≤ Json.maxDepth := by
    rw [depth_parameterRead, depth_nestedArrays, Json.maxDepth]
    omega
  rw [Document.parse_text_eq_ite (layouts_parameterRead (isKept_nestedArrays n)), if_pos hdepth]

lemma parameterRead_no_floats (n : Nat) :
    ∀ m ∈ (parameterRead (nestedArrays n)).root.preorder, ∀ l ∈ m.layout,
      ∀ x, .float x ∉ l.scalars :=
  layouts_parameterRead (by simp [scalars_nestedArrays])

/-- The migration of request parameters alone, within the usual limits. -/
def parametersOnly : Pipeline where
  limits := {}
  rules := [RequestParameters.rule]

lemma mem_all_of_parametersOnly : ∀ r ∈ parametersOnly.rules, r ∈ all [] := by
  simp [parametersOnly, all]

/-- The two levels of the new node take this document to the limit, and it is still read back. -/
theorem run_text_reads_back_iff_shallow_parameter :
    (∀ r ∈ parametersOnly.rules, r ∈ all []) ∧
    Document.parse (parameterRead (nestedArrays 119)).text =
      .ok (parameterRead (nestedArrays 119)) ∧
    (∀ m ∈ (parameterRead (nestedArrays 119)).root.preorder, ∀ l ∈ m.layout,
      ∀ x, .float x ∉ l.scalars) ∧
    ∃ t t' report, Tree.ofDocument (parameterRead (nestedArrays 119)) = .ok t ∧
      parametersOnly.run (.ofIndex {}) t = (t', .ok report) ∧
      t'.toDocument = .ok (attributeRead (nestedArrays 119)) ∧
      Document.parse (attributeRead (nestedArrays 119)).text =
        .ok (attributeRead (nestedArrays 119)) := by
  have hrewritten : rewritten? parametersOnly (.ofIndex {}) (parameterRead (nestedArrays 119)) =
      some (attributeRead (nestedArrays 119)) := by decide +kernel
  have hparse := parse_parameterRead (n := 119) (by decide)
  have hfloat := parameterRead_no_floats 119
  obtain ⟨t, t', report, hdoc, hrun, hout⟩ := exists_run_of_rewritten? hrewritten
  obtain ⟨d', hd', hback⟩ := run_text_reads_back_iff_shallow (.ofIndex {}) [] parametersOnly
    mem_all_of_parametersOnly hparse hfloat hdoc hrun
  rw [hout] at hd'
  cases hd'
  rw [depth_attributeRead, depth_nestedArrays, if_pos (by decide)] at hback
  exact ⟨mem_all_of_parametersOnly, hparse, hfloat, t, t', report, hdoc, hrun, hout, hback⟩

/-- A document that the reader takes is migrated to one that it refuses. -/
theorem run_text_not_read_back :
    (∀ r ∈ parametersOnly.rules, r ∈ all []) ∧
    Document.parse (parameterRead (nestedArrays 121)).text =
      .ok (parameterRead (nestedArrays 121)) ∧
    (∀ m ∈ (parameterRead (nestedArrays 121)).root.preorder, ∀ l ∈ m.layout,
      ∀ x, .float x ∉ l.scalars) ∧
    ∃ t t' report, Tree.ofDocument (parameterRead (nestedArrays 121)) = .ok t ∧
      parametersOnly.run (.ofIndex {}) t = (t', .ok report) ∧
      t'.toDocument = .ok (attributeRead (nestedArrays 121)) ∧
      Document.parse (attributeRead (nestedArrays 121)).text = .error (.document .malformed) := by
  have hrewritten : rewritten? parametersOnly (.ofIndex {}) (parameterRead (nestedArrays 121)) =
      some (attributeRead (nestedArrays 121)) := by decide +kernel
  have hrefused : Document.parse (attributeRead (nestedArrays 121)).text =
      .error (.document .malformed) := by
    rw [Document.parse_text_eq_ite (layouts_attributeRead (isKept_nestedArrays 121)),
      depth_attributeRead, depth_nestedArrays, if_neg (by decide)]
  obtain ⟨t, t', report, hdoc, hrun, hout⟩ := exists_run_of_rewritten? hrewritten
  exact ⟨mem_all_of_parametersOnly, parse_parameterRead (by decide), parameterRead_no_floats 121,
    t, t', report, hdoc, hrun, hout, hrefused⟩

end Catalogue

end CodeMigration
