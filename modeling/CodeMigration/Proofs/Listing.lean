import CodeMigration.Listing
import CodeMigration.Proofs.Document.Numbering

/-!
# Listings and documents

The text of a tree is the text of its document. Both are put together in the same way from the
texts of the nodes right below, which are numbers of an arena here and nodes of a document there;
what matters is that the two rows correspond (`expressionOf_map`, `statementOf_map`).
-/

namespace CodeMigration

namespace Listing

section map

variable {α β : Type} {construct : α → Construct} {construct' : β → Construct}
  {expression : Place → α → String} {expression' : Place → β → String}
  {write : Nat → α → String} {write' : Nat → β → String} {f : α → β} {row : List α}

/-! ### Corresponding rows -/

lemma operand_map (hexpression : ∀ x ∈ row, ∀ p, expression' p (f x) = expression p x)
    (place : Place) (i : Nat) :
    operand expression' place (row.map f) i = operand expression place row i := by
  rw [operand, operand, List.getElem?_map]
  cases hi : row[i]? with
  | none => rfl
  | some x => exact hexpression x (List.mem_of_getElem? hi) place

lemma map_expression (hexpression : ∀ x ∈ row, ∀ p, expression' p (f x) = expression p x)
    (place : Place) : (row.map f).map (expression' place) = row.map (expression place) := by
  rw [List.map_map]
  exact List.map_congr_left fun x hx => hexpression x hx place

lemma keyText_map (hconstruct : ∀ x ∈ row, construct' (f x) = construct x)
    (hexpression : ∀ x ∈ row, ∀ p, expression' p (f x) = expression p x) :
    keyText construct' expression' (row.map f) = keyText construct expression row := by
  have hhead : (row.map f).head?.map construct' = row.head?.map construct := by
    cases row with
    | nil => rfl
    | cons x row => exact congrArg some (hconstruct x List.mem_cons_self)
  rw [keyText, keyText, hhead, operand_map hexpression]

/-- An expression depends on the constructs and the texts right below. -/
lemma expressionOf_map (hconstruct : ∀ x ∈ row, construct' (f x) = construct x)
    (hexpression : ∀ x ∈ row, ∀ p, expression' p (f x) = expression p x) (place : Place)
    (c : Construct) :
    expressionOf construct' expression' place c (row.map f) =
      expressionOf construct expression place c row := by
  simp only [expressionOf, map_expression hexpression, keyText_map hconstruct hexpression,
    operand_map hexpression]

lemma separated_map (hwrite : ∀ x ∈ row, ∀ level, write' level (f x) = write level x)
    (level : Nat) : separated write' level (row.map f) = separated write level row := by
  rw [separated, separated, List.map_map]
  exact congrArg String.join (List.map_congr_left fun x hx => by simp [hwrite x hx])

lemma block_map (hwrite : ∀ x ∈ row, ∀ level, write' level (f x) = write level x)
    (level : Nat) : block write' level (row.map f) = block write level row := by
  rw [block, block, List.map_map]
  have hrow : row.map (write' (level + 1) ∘ f) = row.map (write (level + 1)) :=
    List.map_congr_left fun x hx => hwrite x hx (level + 1)
  rw [hrow]

lemma filter_kind_map (hconstruct : ∀ x ∈ row, construct' (f x) = construct x)
    (keep : Kind → Bool) :
    (row.map f).filter (fun y => keep (construct' y).kind) =
      (row.filter fun x => keep (construct x).kind).map f := by
  rw [List.filter_map]
  congr 1
  exact List.filter_congr fun x hx => by rw [Function.comp, hconstruct x hx]

lemma functionText_map (hconstruct : ∀ x ∈ row, construct' (f x) = construct x)
    (hexpression : ∀ x ∈ row, ∀ p, expression' p (f x) = expression p x)
    (hwrite : ∀ x ∈ row, ∀ level, write' level (f x) = write level x) (level : Nat)
    (header : String) :
    functionText construct' expression' write' level header (row.map f) =
      functionText construct expression write level header row := by
  rw [functionText, functionText, filter_kind_map hconstruct (· == .docTag),
    filter_kind_map hconstruct (! · == .docTag),
    map_expression fun x hx => hexpression x (List.mem_of_mem_filter hx),
    block_map fun x hx => hwrite x (List.mem_of_mem_filter hx)]

/-- A statement depends on the constructs and the texts right below. -/
lemma statementOf_map (hconstruct : ∀ x ∈ row, construct' (f x) = construct x)
    (hexpression : ∀ x ∈ row, ∀ p, expression' p (f x) = expression p x)
    (hwrite : ∀ x ∈ row, ∀ level, write' level (f x) = write level x) (level : Nat)
    (c : Construct) :
    statementOf construct' expression' write' level c (row.map f) =
      statementOf construct expression write level c row := by
  simp only [statementOf, separated_map hwrite, block_map hwrite, operand_map hexpression,
    map_expression hexpression, functionText_map hconstruct hexpression hwrite,
    expressionOf_map hconstruct hexpression, List.isEmpty_map]

end map

section congr

variable {α : Type} {construct construct' : α → Construct}
  {expression expression' : Place → α → String} {write write' : Nat → α → String} {row : List α}

lemma expressionOf_congr (hconstruct : ∀ x ∈ row, construct' x = construct x)
    (hexpression : ∀ x ∈ row, ∀ p, expression' p x = expression p x) (place : Place)
    (c : Construct) :
    expressionOf construct' expression' place c row =
      expressionOf construct expression place c row := by
  simpa using expressionOf_map (f := id) hconstruct hexpression place c

lemma statementOf_congr (hconstruct : ∀ x ∈ row, construct' x = construct x)
    (hexpression : ∀ x ∈ row, ∀ p, expression' p x = expression p x)
    (hwrite : ∀ x ∈ row, ∀ level, write' level x = write level x) (level : Nat) (c : Construct) :
    statementOf construct' expression' write' level c row =
      statementOf construct expression write level c row := by
  simpa using statementOf_map (f := id) hconstruct hexpression hwrite level c

end congr

/-! ### The text of a document -/

lemma sizeOf_child_lt {c : Construct} {children : List DocNode} {span : Option Span}
    {layout : Option Json} (x : {x // x ∈ children}) :
    sizeOf x.1 < sizeOf (DocNode.node c children span layout) := by
  have hlt := List.sizeOf_lt_of_mem x.2
  rw [DocNode.node.sizeOf_spec]
  omega

/-- A node of a document as an expression. -/
def expression (place : Place) : DocNode → String
  | .node c children _ _ =>
    expressionOf (·.1.construct) (fun p (x : {x // x ∈ children}) => expression p x.1) place c
      children.attach
termination_by n => sizeOf n
decreasing_by exact sizeOf_child_lt x

/-- A node of a document as a statement. -/
def statement (level : Nat) : DocNode → String
  | .node c children _ _ =>
    statementOf (·.1.construct) (fun p x => expression p x.1)
      (fun l (x : {x // x ∈ children}) => statement l x.1) level c children.attach
termination_by n => sizeOf n
decreasing_by exact sizeOf_child_lt x

/-- A document as program text. -/
def ofDocument (d : Document) : String := statement 0 d.root

lemma expression_node (place : Place) (c : Construct) (children : List DocNode)
    (span : Option Span) (layout : Option Json) :
    expression place (.node c children span layout) =
      expressionOf DocNode.construct expression place c children := by
  rw [expression, ← expressionOf_map (f := Subtype.val) (fun _ _ => rfl) (fun _ _ _ => rfl),
    List.attach_map_subtype_val]

lemma statement_node (level : Nat) (c : Construct) (children : List DocNode)
    (span : Option Span) (layout : Option Json) :
    statement level (.node c children span layout) =
      statementOf DocNode.construct expression statement level c children := by
  rw [statement, ← statementOf_map (f := Subtype.val) (fun _ _ => rfl) (fun _ _ _ => rfl)
    (fun _ _ _ => rfl), List.attach_map_subtype_val]

end Listing

namespace Tree

variable {t t' : Tree}

/-! ### The text of a tree -/

lemma shown_eq (h : t.WellLinked) (n : NodeId) : (t.outline n).construct = t.shown n := by
  rw [outline_eq h]
  rfl

lemma levels_child (h : t.WellLinked) {k : Nat} {n c : NodeId} (hc : c ∈ t.children n)
    (hk : t.size ≤ (t.ancestors n).length + (k + 1)) : t.size ≤ (t.ancestors c).length + k := by
  rw [h.ancestors_of_link ((h.mem_children_iff n c).mp hc), List.length_cons]
  omega

/-- A node is written as the expression that its outline is. -/
lemma writeExpression_eq (h : t.WellLinked) {k : Nat} (place : Listing.Place) {n : NodeId}
    (hk : t.size ≤ (t.ancestors n).length + k) :
    t.writeExpression k place n = Listing.expression place (t.outline n) := by
  induction k generalizing place n with
  | zero => exact absurd hk (Nat.not_le.mpr (h.length_ancestors_lt n))
  | succ k ih =>
    rw [writeExpression, outline_eq h, Listing.expression_node]
    exact (Listing.expressionOf_map (fun c _ => shown_eq h c)
      (fun c hc p => (ih p (levels_child h hc hk)).symm) place _).symm

/-- A node is written as the statement that its outline is. -/
lemma writeStatement_eq (h : t.WellLinked) {k : Nat} (level : Nat) {n : NodeId}
    (hk : t.size ≤ (t.ancestors n).length + k) :
    t.writeStatement k level n = Listing.statement level (t.outline n) := by
  induction k generalizing level n with
  | zero => exact absurd hk (Nat.not_le.mpr (h.length_ancestors_lt n))
  | succ k ih =>
    rw [writeStatement, outline_eq h, Listing.statement_node]
    refine (Listing.statementOf_map (fun c _ => shown_eq h c) (fun c hc p => ?_)
      (fun c hc l => ?_) level _).symm
    · exact (writeExpression_eq h p (levels_child h hc hk)).symm
    · exact (ih l (levels_child h hc hk)).symm

lemma listing_eq (h : t.WellLinked) :
    t.listing = .ok (Listing.statement 0 (t.outline t.root)) := by
  rw [listing, h.validate_eq_ok, writeStatement_eq h 0 (Nat.le_add_left _ _)]
  rfl

/-- Trees that look alike have the same text. -/
lemma listing_alike (h : t.WellLinked) (h' : t'.WellLinked) (halike : t.Alike t') :
    t'.listing = t.listing := by
  have hshown : t'.shown = t.shown := by
    funext n
    rw [shown, shown, halike.construct?]
  have hexpression : ∀ k, t'.writeExpression k = t.writeExpression k := by
    intro k
    induction k with
    | zero => rfl
    | succ k ih =>
      funext place n
      rw [writeExpression, writeExpression, hshown, halike.children, ih]
  have hstatement : ∀ k, t'.writeStatement k = t.writeStatement k := by
    intro k
    induction k with
    | zero => rfl
    | succ k ih =>
      funext level n
      rw [writeStatement, writeStatement, hshown, halike.children, hexpression, ih]
  rw [listing, listing, h.validate_eq_ok, h'.validate_eq_ok, hstatement, halike.size, halike.root]

/-- The text of a tree is that of its document, and so is the text of the tree that is read from
the document; attributes do not show in it. -/
theorem listing_shows_document {t t' : Tree} {d : Document} (ht : t.Reachable)
    (hdoc : t.toDocument = .ok d) (hload : ofDocument d = .ok t') :
    t.listing = .ok (Listing.ofDocument d) ∧ t'.listing = t.listing ∧
      ∀ f, (t.mapAttributes f).listing = t.listing := by
  have hlinked : t.WellLinked := ht.sound.linked
  have hroot : t.outline t.root = d.root := by
    rw [toDocument, hlinked.validate_eq_ok] at hdoc
    exact congrArg Document.root (Except.ok.inj hdoc)
  have htext : t.listing = .ok (Listing.ofDocument d) := by
    rw [listing_eq hlinked, hroot]
    rfl
  refine ⟨htext, ?_, fun f => ?_⟩
  · rw [htext, listing_eq (Reachable.ofDocument hload).sound.linked, (outline_ofDocument hload).2]
    rfl
  · exact listing_alike hlinked (hlinked.mapAttributes f) ⟨rfl, rfl⟩

/-- A file with a statement that took the place of another, a discarded node and a free one. -/
def revisedFile : Tree :=
  Command.runAll (Tree.new .file) [.add (.functionCall "old"), .pushChild 0 1,
    .add .returnStatement, .replace 1 2, .add (.string "new"), .pushChild 2 3, .add .null,
    .setAttribute 3 .processed (.flag true)]

theorem listing_shows_document_revised :
    ∃ d t', revisedFile.toDocument = .ok d ∧ ofDocument d = .ok t' ∧ t'.size < revisedFile.size ∧
      t'.listing = revisedFile.listing := by
  have hreach : revisedFile.Reachable := (Reachable.new .file).runAll _
  have hdoc : revisedFile.toDocument = .ok ⟨none, none, revisedFile.outline revisedFile.root⟩ := by
    rw [toDocument, hreach.sound.linked.validate_eq_ok]
    rfl
  obtain ⟨t', hload, -, hsize, -⟩ := exists_ofDocument
    (d := ⟨none, none, revisedFile.outline revisedFile.root⟩) (by decide +kernel)
  refine ⟨_, t', hdoc, hload, ?_, (listing_shows_document hreach hdoc hload).2.1⟩
  rw [hsize]
  decide +kernel

example : revisedFile.listing = .ok "<?php\n\nreturn 'new';\n" := by decide +kernel

end Tree

end CodeMigration
