import CodeMigration.Proofs.Tree.Alike

/-!
# How types are found

The type of a node is the recorded one, or the one that the node shows by itself, or it follows from
the type of another node, one hop away. A search with more hops finds at least as much, and finds
the same types (`typeWithin?_mono`).

Recording what has been found on the way (`ClassIndex.Caches`) shortens later searches and changes
no answer: what was found within the limit is found again, and what is found afterwards could have
been found before with more hops.
-/

namespace CodeMigration

namespace Tree

/-- The type recorded for a node. -/
def recordedType? (t : Tree) (n : NodeId) : Option TypeDescriptor :=
  (t.attribute? n .resolvedType).bind AttributeValue.asType?

/-- The node from whose type the type of a node follows. -/
def typeSource? (t : Tree) (n : NodeId) : Option NodeId :=
  match t.construct? n with
  | some (.variableRef name) => t.variableSource? n name
  | some .assignment => t.child? n 1
  | some (.methodCall _) => t.child? n 0
  | _ => none

lemma Alike.typeSource? {t t' : Tree} (h : Alike t t') : t'.typeSource? = t.typeSource? := by
  funext n
  rw [Tree.typeSource?, h.construct?, h.variableSource?, h.child?, Tree.typeSource?]

end Tree

namespace ClassIndex

variable {index : ClassIndex} {t t' : Tree} {n m : NodeId} {k : Nat} {type : TypeDescriptor}

/-- The type that a node shows by itself. -/
def ownType? (index : ClassIndex) (t : Tree) (n : NodeId) : Option TypeDescriptor :=
  match t.construct? n with
  | some (.instantiation name) => some (.object name)
  | some (.classDecl ..) => (t.qualifiedClass? n).map TypeDescriptor.object
  | some (.staticCall name method) => index.returnTypeIn? t name method
  | some (.classConstant _ constant) => if constant = "class" then some (.scalar "string") else none
  | some (.string _) => some (.scalar "string")
  | some (.int _) => some (.scalar "int")
  | some (.bool _) => some (.scalar "bool")
  | some .null => some (.scalar "null")
  | some .array => some (.scalar "array")
  | _ => none

/-- The type of a node that follows from the type of its source: what the method returns for a call,
the same type otherwise. -/
def typeFrom? (index : ClassIndex) (t : Tree) (n : NodeId) (source : TypeDescriptor) :
    Option TypeDescriptor :=
  match t.construct? n with
  | some (.methodCall method) => source.className?.bind (index.returnTypeIn? t · method)
  | _ => some source

lemma ownType?_alike (h : t.Alike t') : index.ownType? t' = index.ownType? t := by
  funext n
  rw [ownType?, h.construct?, h.qualifiedClass?, index.returnTypeIn?_alike h, ownType?]

lemma typeFrom?_alike (h : t.Alike t') : index.typeFrom? t' = index.typeFrom? t := by
  funext n source
  rw [typeFrom?, h.construct?, index.returnTypeIn?_alike h, typeFrom?]

/-! ### Hops -/

/-- One more hop: a node shows its type by itself or has a source, never both. -/
lemma typeWithin?_succ (index : ClassIndex) (t : Tree) (k : Nat) (n : NodeId) :
    index.typeWithin? t (k + 1) n =
      if t.isLive n = true then
        (t.recordedType? n).or ((index.ownType? t n).or
          (((t.typeSource? n).bind (index.typeWithin? t k)).bind (index.typeFrom? t n)))
      else none := by
  change (if !t.isLive n then none else _) = _
  rw [Tree.recordedType?]
  cases t.isLive n with
  | false => rfl
  | true =>
    cases (t.attribute? n .resolvedType).bind AttributeValue.asType? with
    | some type => rfl
    | none =>
      rw [funext fun source => typeFrom?.eq_def index t n source, ownType?, Tree.typeSource?]
      cases t.construct? n with
      | none => rfl
      | some c => cases c <;> simp [Option.bind_assoc]

lemma ownType?_eq_none (hsource : t.typeSource? n = some m) : index.ownType? t n = none := by
  rw [Tree.typeSource?] at hsource
  rw [ownType?]
  split at hsource
  · next hc => rw [hc]
  · next hc => rw [hc]
  · next hc => rw [hc]
  · cases hsource

lemma typeWithin?_succ_eq_some_iff :
    index.typeWithin? t (k + 1) n = some type ↔
      t.isLive n = true ∧ (t.recordedType? n = some type ∨ t.recordedType? n = none ∧
        (index.ownType? t n = some type ∨ ∃ m source, t.typeSource? n = some m ∧
          index.typeWithin? t k m = some source ∧ index.typeFrom? t n source = some type)) := by
  rw [typeWithin?_succ, Option.ite_none_right_eq_some, Option.or_eq_some_iff,
    Option.or_eq_some_iff]
  refine and_congr_right fun _ => or_congr_right (and_congr_right fun _ => or_congr_right ?_)
  simp only [Option.bind_eq_some_iff]
  constructor
  · rintro ⟨_, source, ⟨m, hm, hsource⟩, htype⟩
    exact ⟨m, source, hm, hsource, htype⟩
  · rintro ⟨m, source, hm, hsource, htype⟩
    exact ⟨ownType?_eq_none hm, source, ⟨m, hm, hsource⟩, htype⟩

lemma typeWithin?_mono {k' : Nat} (hk : k ≤ k') (h : index.typeWithin? t k n = some type) :
    index.typeWithin? t k' n = some type := by
  induction k generalizing k' n type with
  | zero => cases h
  | succ k ih =>
    obtain ⟨k', rfl⟩ := Nat.exists_eq_add_of_lt (Nat.lt_of_lt_of_le k.succ_pos hk)
    rw [Nat.zero_add] at hk ⊢
    rw [typeWithin?_succ_eq_some_iff] at h ⊢
    obtain ⟨hlive, h⟩ := h
    refine ⟨hlive, h.imp_right fun ⟨hnone, h⟩ => ⟨hnone, h.imp_right ?_⟩⟩
    rintro ⟨m, source, hm, hsource, htype⟩
    exact ⟨m, source, hm, ih (Nat.le_of_succ_le_succ hk) hsource, htype⟩

/-! ### How many hops it takes -/

/-- The type of a node is found with `k + 1` hops and not with fewer. -/
def TakesHops (index : ClassIndex) (t : Tree) (k : Nat) (n : NodeId) : Prop :=
  index.typeWithin? t k n = none ∧ ∃ type, index.typeWithin? t (k + 1) n = some type

/-- The limit on the hops keeps the type of a node from being found. -/
def CutOff (index : ClassIndex) (t : Tree) (n : NodeId) : Prop :=
  index.typeOf? t n = none ∧ ∃ k type, index.typeWithin? t k n = some type

/-- The source of a node that takes more than one hop takes one hop less. -/
lemma TakesHops.next (h : index.TakesHops t (k + 1) n) :
    t.isLive n = true ∧ t.recordedType? n = none ∧ ∃ m source type, t.typeSource? n = some m ∧
      index.TakesHops t k m ∧ index.typeWithin? t (k + 1) m = some source ∧
      index.typeFrom? t n source = some type := by
  obtain ⟨hnone, type, htype⟩ := h
  have hfew : ∀ type, index.typeWithin? t (k + 1) n ≠ some type := fun _ h =>
    Option.some_ne_none _ (h.symm.trans hnone)
  obtain ⟨hlive, htype | ⟨hrecorded, htype | ⟨m, source, hm, hsource, htype⟩⟩⟩ :=
    typeWithin?_succ_eq_some_iff.mp htype
  · exact absurd (typeWithin?_succ_eq_some_iff.mpr ⟨hlive, Or.inl htype⟩) (hfew type)
  · exact absurd (typeWithin?_succ_eq_some_iff.mpr ⟨hlive, Or.inr ⟨hrecorded, Or.inl htype⟩⟩)
      (hfew type)
  · refine ⟨hlive, hrecorded, m, source, type, hm, ⟨?_, source, hsource⟩, hsource, htype⟩
    rw [Option.eq_none_iff_forall_ne_some]
    intro source' hsource'
    obtain rfl : source' = source :=
      Option.some.inj ((typeWithin?_mono (Nat.le_succ k) hsource').symm.trans hsource)
    exact hfew type (typeWithin?_succ_eq_some_iff.mpr
      ⟨hlive, Or.inr ⟨hrecorded, Or.inr ⟨m, source', hm, hsource', htype⟩⟩⟩)

/-- On the way to the type of a node there are nodes for every smaller number of hops. -/
lemma TakesHops.exists_source {j : Nat} (h : index.TakesHops t (j + k) n) :
    ∃ m, Relation.ReflTransGen (t.typeSource? · = some ·) n m ∧ index.TakesHops t j m := by
  induction k generalizing n with
  | zero => exact ⟨n, .refl, h⟩
  | succ k ih =>
    obtain ⟨_, _, m, _, _, hm, hnext, _⟩ := h.next
    obtain ⟨m', hway, hm'⟩ := ih hnext
    exact ⟨m', .head hm hway, hm'⟩

lemma CutOff.exists_takesHops (h : index.CutOff t n) :
    ∃ k, index.TakesHops t (maxHops + k) n := by
  obtain ⟨hnone, k, type, htype⟩ := h
  have hfound := typeWithin?_mono (Nat.le_add_left k maxHops) htype
  clear htype
  induction k with
  | zero => exact absurd (hnone.symm.trans hfound) (Option.some_ne_none type).symm
  | succ k ih =>
    cases hk : index.typeWithin? t (maxHops + k) n with
    | none => exact ⟨k, hk, type, hfound⟩
    | some type' =>
      obtain rfl : type' = type :=
        Option.some.inj ((typeWithin?_mono (Nat.le_succ _) hk).symm.trans hfound)
      exact ih hk

/-! ### Recording what is found -/

/-- `t'` is `t` with more types recorded, each of them the one that the index finds in `t`. -/
structure Caches (index : ClassIndex) (t t' : Tree) : Prop where
  alike : t.Alike t'
  recorded : ∀ n, t'.recordedType? n = t.recordedType? n ∨
    t.recordedType? n = none ∧ t'.recordedType? n = index.typeOf? t n

namespace Caches

variable (h : index.Caches t t')
include h

/-- What is found within the limit is found again, with no more hops. -/
lemma typeWithin?_eq_some (hk : k ≤ maxHops) (hfound : index.typeWithin? t k n = some type) :
    index.typeWithin? t' k n = some type := by
  induction k generalizing n type with
  | zero => cases hfound
  | succ k ih =>
    have hlimit : index.typeOf? t n = some type := typeWithin?_mono hk hfound
    rw [typeWithin?_succ_eq_some_iff] at hfound ⊢
    rw [h.alike.isLive, h.alike.typeSource?, ownType?_alike h.alike, typeFrom?_alike h.alike]
    obtain ⟨hlive, hfound⟩ := hfound
    refine ⟨hlive, ?_⟩
    rcases h.recorded n with hsame | ⟨_, hnew⟩
    · rw [hsame]
      refine hfound.imp_right fun ⟨hnone, hfound⟩ => ⟨hnone, hfound.imp_right ?_⟩
      rintro ⟨m, source, hm, hsource, htype⟩
      exact ⟨m, source, hm, ih (Nat.le_of_succ_le hk) hsource, htype⟩
    · exact Or.inl (hnew.trans hlimit)

lemma typeOf?_eq_some (hfound : index.typeOf? t n = some type) : index.typeOf? t' n = some type :=
  h.typeWithin?_eq_some (Nat.le_refl _) hfound

/-- What is found afterwards could be found before, with more hops. -/
lemma exists_typeWithin? (hfound : index.typeWithin? t' k n = some type) :
    ∃ k', index.typeWithin? t k' n = some type := by
  induction k generalizing n type with
  | zero => cases hfound
  | succ k ih =>
    rw [typeWithin?_succ_eq_some_iff, h.alike.isLive, h.alike.typeSource?, ownType?_alike h.alike,
      typeFrom?_alike h.alike] at hfound
    obtain ⟨hlive, htype | ⟨hnone, hfound⟩⟩ := hfound
    · rcases h.recorded n with hsame | ⟨_, hnew⟩
      · exact ⟨1, typeWithin?_succ_eq_some_iff.mpr ⟨hlive, Or.inl (hsame.symm.trans htype)⟩⟩
      · exact ⟨maxHops, hnew.symm.trans htype⟩
    · have hnone' : t.recordedType? n = none := by
        rcases h.recorded n with hsame | ⟨hnone', _⟩
        · exact hsame.symm.trans hnone
        · exact hnone'
      obtain htype | ⟨m, source, hm, hsource, htype⟩ := hfound
      · exact ⟨1, typeWithin?_succ_eq_some_iff.mpr ⟨hlive, Or.inr ⟨hnone', Or.inl htype⟩⟩⟩
      · obtain ⟨k', hk'⟩ := ih hsource
        exact ⟨k' + 1, typeWithin?_succ_eq_some_iff.mpr
          ⟨hlive, Or.inr ⟨hnone', Or.inr ⟨m, source, hm, hk', htype⟩⟩⟩⟩

end Caches

end ClassIndex

end CodeMigration
