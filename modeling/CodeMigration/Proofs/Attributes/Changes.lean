import CodeMigration.Proofs.Attributes
import CodeMigration.Tree.Command
import Mathlib.Data.List.Induction

/-!
# The attribute store as a map

Seen through `get?` the store is a partial map from pairs of a node and a key to values. A `Change`
sets a pair, removes one, clears a key, or forgets nodes, and `Change.onValues` says what that does
to the map. Along every row of changes the store keeps to the map, with or without an open journal,
and its bags stay `Compact`: none is empty, and none has two entries for a key. So a value is there
exactly if it has been set and no later change has ended it (`Attributes.store_is_map`).
-/

namespace CodeMigration

/-! ### Bags -/

namespace Bag

variable {b b' : Bag} {key : AttributeKey}

lemma isSome_get?_of_mem {e : AttributeEntry} (he : e ∈ b) : (b.get? e.key).isSome = true := by
  rw [get?, Option.isSome_map, List.find?_isSome]
  exact ⟨e, he, by simp⟩

/-- Of the values that point at one of the given nodes nothing is left, and all others stay. -/
lemma Distinct.get?_forget (h : b.Distinct) (gone : List NodeId) (key : AttributeKey) :
    (b.forget gone).get? key = (b.get? key).filter (!·.pointsInto gone) := by
  have hsub : (b.forget gone).Sublist b := List.filter_sublist
  cases hv : b.get? key with
  | none =>
    rcases h.get?_sublist hsub key with hsame | hnone
    · rw [hsame, hv, Option.filter_none]
    · rw [hnone, Option.filter_none]
  | some value =>
    cases hp : value.pointsInto gone with
    | false => simp [b.get?_forget key hv hp, Option.filter_some, hp]
    | true =>
      rcases h.get?_sublist hsub key with hsame | hnone
      · -- an entry that is left does not point at any of the nodes
        rw [hv, get?, Option.map_eq_some_iff] at hsame
        obtain ⟨e, he, rfl⟩ := hsame
        have hleft := (List.mem_filter.mp (List.mem_of_find?_eq_some he)).2
        simp [hp] at hleft
      · simp [hnone, Option.filter_some, hp]

end Bag

namespace Attributes

/-! ### Changes -/

/-- A partial map from pairs of a node and a key to values. -/
abbrev Values := NodeId → AttributeKey → Option AttributeValue

/-- A change of the store. -/
inductive Change where
  | set (node : NodeId) (key : AttributeKey) (value : AttributeValue)
  | erase (node : NodeId) (key : AttributeKey)
  | clearKey (key : AttributeKey)
  | forget (gone : List NodeId)

namespace Change

/-- The store after a change. -/
def apply (a : Attributes) : Change → Attributes
  | .set node key value => a.set node key value
  | .erase node key => a.erase node key
  | .clearKey key => a.clearKey key
  | .forget gone => a.forget gone

/-- The store after a row of changes. -/
def applyAll (a : Attributes) (changes : List Change) : Attributes := changes.foldl apply a

/-- The command that makes the change in the store of a tree. -/
def command : Change → Command NodeId
  | .set node key value => .setAttribute node key value
  | .erase node key => .removeAttribute node key
  | .clearKey key => .clearKey key
  | .forget gone => .forget gone

/-- What a change does to the map: one pair is set, one is removed, all pairs of a key are, or those
of some nodes and those whose value points at one of these nodes. -/
def onValues (f : Values) : Change → Values
  | .set node key value => fun n k => if n = node ∧ k = key then some value else f n k
  | .erase node key => fun n k => if n = node ∧ k = key then none else f n k
  | .clearKey key => fun n k => if k = key then none else f n k
  | .forget gone => fun n k =>
    if n ∈ gone then none else (f n k).filter (!·.pointsInto gone)

/-- What the command replies: a removal the value that was there, any other change nothing. -/
def reply (f : Values) : Change → Reply
  | .erase node key => .attribute (f node key)
  | _ => .done

/-- A pair does not keep its value along the change. -/
def Ends (n : NodeId) (k : AttributeKey) (v : AttributeValue) : Change → Prop
  | .set node key _ | .erase node key => n = node ∧ k = key
  | .clearKey key => k = key
  | .forget gone => n ∈ gone ∨ v.pointsInto gone = true

/-- After a change a pair has a value that was set just now, or one that it kept. -/
lemma onValues_eq_some_iff {f : Values} {c : Change} {n : NodeId} {k : AttributeKey}
    {v : AttributeValue} :
    c.onValues f n k = some v ↔ c = .set n k v ∨ (f n k = some v ∧ ¬ c.Ends n k v) := by
  cases c with
  | set node key value =>
    by_cases hpair : n = node ∧ k = key
    · obtain ⟨rfl, rfl⟩ := hpair
      simp [onValues, Ends]
    · have hne : Change.set node key value ≠ .set n k v := by
        rintro ⟨⟩
        exact hpair ⟨rfl, rfl⟩
      simp [onValues, Ends, hpair, hne]
  | erase node key =>
    by_cases hpair : n = node ∧ k = key <;> simp [onValues, Ends, hpair]
  | clearKey key =>
    by_cases hkey : k = key <;> simp [onValues, Ends, hkey]
  | forget gone =>
    by_cases hn : n ∈ gone <;> simp [onValues, Ends, hn, Option.filter_eq_some_iff]

end Change

/-! ### Stores -/

variable {a : Attributes}

lemma Compact.apply (h : a.Compact) (c : Change) : (c.apply a).Compact := by
  cases c with
  | set node key value => exact h.set node key value
  | erase node key => exact h.erase node key
  | clearKey key => exact h.clearKey key
  | forget gone => exact h.forget gone

lemma Distinct.get?_forget (h : a.Distinct) (gone : List NodeId) (n : NodeId)
    (key : AttributeKey) : (a.forget gone).get? n key =
      if n ∈ gone then none else (a.get? n key).filter (!·.pointsInto gone) := by
  have hbag := (h n).get?_forget gone key
  rw [get?, bags_forget, get?]
  rw [ofNode] at hbag
  cases hb : a.bags[n]? with
  | none => simp
  | some b =>
    rw [hb, Option.getD_some] at hbag
    by_cases hn : n ∈ gone
    · simp [hn]
    · simp [hn, hbag]

/-- A change of the store is the change of the map. -/
lemma Distinct.get?_apply (h : a.Distinct) (c : Change) : (c.apply a).get? = c.onValues a.get? := by
  funext n k
  cases c with
  | set node key value => exact a.get?_set node key value n k
  | erase node key => exact h.get?_erase node key n k
  | clearKey key => exact a.get?_clearKey key n k
  | forget gone => exact h.get?_forget gone n k

lemma Compact.applyAll (h : a.Compact) (changes : List Change) :
    (Change.applyAll a changes).Compact := by
  induction changes generalizing a with
  | nil => exact h
  | cons c changes ih => exact ih (h.apply c)

/-- A row of changes of the store is the row of changes of the map. -/
lemma Compact.get?_applyAll (h : a.Compact) (changes : List Change) :
    (Change.applyAll a changes).get? = changes.foldl Change.onValues a.get? := by
  induction changes generalizing a with
  | nil => rfl
  | cons c changes ih =>
    rw [Change.applyAll, List.foldl_cons, List.foldl_cons, ← h.distinct.get?_apply c]
    exact ih (h.apply c)

/-- The nodes with attributes are those with a bag, as no bag is empty. -/
lemma Compact.mem_nodes_iff (h : a.Compact) {n : NodeId} :
    n ∈ a.nodes ↔ ∃ key, a.has n key = true := by
  rw [nodes, Std.ExtTreeMap.mem_keys, Std.ExtTreeMap.mem_iff_isSome_getElem?]
  simp only [has, get?]
  cases hb : a.bags[n]? with
  | none => simp
  | some b =>
    obtain ⟨e, he⟩ := List.exists_mem_of_ne_nil b (h n b hb).1
    simpa using ⟨e.key, Bag.isSome_get?_of_mem he⟩

/-! ### Histories -/

/-- A value is there exactly if it was set and has not been ended since. -/
lemma values_eq_some_iff {changes : List Change} {n : NodeId} {k : AttributeKey}
    {v : AttributeValue} :
    changes.foldl Change.onValues (fun _ _ => none) n k = some v ↔
      ∃ before after, changes = before ++ .set n k v :: after ∧ ∀ c ∈ after, ¬ c.Ends n k v := by
  induction changes using List.reverseRecOn with
  | nil => simp
  | append_singleton changes c ih =>
    rw [List.foldl_append, List.foldl_cons, List.foldl_nil, Change.onValues_eq_some_iff, ih]
    constructor
    · rintro (rfl | ⟨⟨before, after, rfl, hafter⟩, hc⟩)
      · exact ⟨changes, [], rfl, by simp⟩
      · refine ⟨before, after ++ [c], by simp, fun d hd => ?_⟩
        rcases List.mem_append.mp hd with hd | hd
        · exact hafter d hd
        · rwa [List.mem_singleton.mp hd]
    · rintro ⟨before, after, heq, hafter⟩
      rcases List.eq_nil_or_concat after with rfl | ⟨after, d, rfl⟩
      · exact Or.inl (List.append_singleton_inj.mp heq).2
      · rw [List.concat_eq_append, ← List.cons_append, ← List.append_assoc] at heq
        obtain ⟨rfl, rfl⟩ := List.append_singleton_inj.mp heq
        rw [List.concat_eq_append, List.forall_mem_append, List.forall_mem_singleton] at hafter
        exact Or.inr ⟨⟨before, after, rfl, hafter.1⟩, hafter.2⟩

/-- After any row of changes to an empty store, whether or not a journal is open: the store is the
map that the changes make of the empty one. A pair has a value exactly if the value was set and no
later change has ended it. As a command every change replies what the map says, a removal the value
that was there. No bag is empty or has two entries for a key, and the size is the number of nodes
with an attribute. -/
theorem store_is_map (journal : Option (NodeMap (Option Bag))) (changes : List Change) :
    let a := Change.applyAll { journal } changes
    a.get? = changes.foldl Change.onValues (fun _ _ => none) ∧
      (∀ n k v, a.get? n k = some v ↔
        ∃ before after, changes = before ++ .set n k v :: after ∧ ∀ c ∈ after, ¬ c.Ends n k v) ∧
      (∀ (t : Tree) (c : Change), t.attributes = a →
        c.command.run t = (t.mapAttributes c.apply, .ok (c.reply a.get?))) ∧
      (∀ (n : NodeId) (b : Bag), a.bags[n]? = some b → b ≠ [] ∧ b.Distinct) ∧
      a.nodes.Nodup ∧ (∀ n, n ∈ a.nodes ↔ ∃ key, a.has n key = true) ∧
      a.size = a.nodes.length := by
  intro a
  have hempty : ({ journal } : Attributes).Compact := by
    intro n b hb
    simp at hb
  have hcompact : a.Compact := hempty.applyAll changes
  have hget : a.get? = changes.foldl Change.onValues (fun _ _ => none) :=
    hempty.get?_applyAll changes
  refine ⟨hget, fun n k v => ?_, ?_, hcompact, Std.ExtTreeMap.nodup_keys,
    fun n => hcompact.mem_nodes_iff, Std.ExtTreeMap.length_keys.symm⟩
  · rw [hget]
    exact values_eq_some_iff
  · intro t c ht
    rw [← ht]
    cases c <;> rfl

end Attributes

end CodeMigration
