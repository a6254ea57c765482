import CodeMigration.Attributes
import Mathlib.Data.List.Perm.Subperm
import Mathlib.Tactic.Common

/-!
# The attribute store

The store as a map from pairs of a node and a key, the bags it keeps, and its journal: whatever
is changed while a journal is open, `rollback` gives the bags back that were there when it was
opened (`Attributes.Recorded`). A change that sweeps over all bags also drops empty ones, so this
rests on there being none, and a removal takes one entry out of a bag, so it rests on there being no
other for the key (`Attributes.Tidy`). In a store with one value for each pair, what is left of it
after removals has the same values, or none (`Attributes.Distinct.get?_trimmed`).
-/

namespace CodeMigration

/-! ### Bags -/

namespace Bag

variable (b : Bag) (key : AttributeKey)

lemma set_ne_nil (value : AttributeValue) : b.set key value ≠ [] := by
  cases b with
  | nil => simp [set]
  | cons e b =>
    rw [set]
    split <;> simp

lemma nonempty?_eq_some_iff {b b' : Bag} : b.nonempty? = some b' ↔ b ≠ [] ∧ b = b' := by
  rw [nonempty?]
  split
  · next hb => simp [List.isEmpty_iff.mp hb]
  · next hb => simp [List.isEmpty_iff] at hb; simp [hb]

lemma nonempty?_of_ne_nil {b : Bag} (hb : b ≠ []) : b.nonempty? = some b :=
  nonempty?_eq_some_iff.mpr ⟨hb, rfl⟩

lemma nonempty?_sublist (b : Bag) : (b.nonempty?.getD []).Sublist b := by
  rw [nonempty?]
  split
  · exact List.nil_sublist _
  · exact List.Sublist.refl _

@[simp] lemma nonempty?_bind_get? : b.nonempty?.bind (·.get? key) = b.get? key := by
  cases b with
  | nil => rfl
  | cons e b => rfl

lemma get?_cons (e : AttributeEntry) :
    get? (e :: b) key = if e.key = key then some e.value else b.get? key := by
  by_cases he : e.key = key
  · simp [get?, he]
  · have hne : (e.key == key) = false := beq_eq_false_iff_ne.mpr he
    simp [get?, he, hne]

lemma get?_set (value : AttributeValue) (key' : AttributeKey) :
    (b.set key value).get? key' = if key' = key then some value else b.get? key' := by
  induction b with
  | nil =>
    rw [set, get?_cons]
    exact if_congr eq_comm rfl rfl
  | cons e b ih =>
    rw [set]
    split
    · next he =>
      rw [get?_cons, get?_cons, he]
      by_cases hk : key' = key
      · simp [hk]
      · simp [hk, Ne.symm hk]
    · next he =>
      rw [get?_cons, get?_cons, ih]
      by_cases hk : key' = key
      · simp [hk, he]
      · simp [hk]

lemma get?_clearKey (key' : AttributeKey) :
    (b.clearKey key).get? key' = if key' = key then none else b.get? key' := by
  induction b with
  | nil => simp [clearKey, get?]
  | cons e b ih =>
    by_cases he : e.key = key
    · have hclear : clearKey (e :: b) key = clearKey b key := by simp [clearKey, he]
      rw [hclear, ih, get?_cons, he]
      by_cases hk : key' = key
      · simp [hk]
      · simp [hk, Ne.symm hk]
    · have hclear : clearKey (e :: b) key = e :: clearKey b key := by simp [clearKey, he]
      rw [hclear, get?_cons, ih, get?_cons]
      by_cases hk : key' = key
      · simp [hk, he]
      · simp [hk]

/-- A bag without the key stays as it is. -/
lemma clearKey_of_get?_eq_none (h : b.get? key = none) : b.clearKey key = b := by
  rw [clearKey, List.filter_eq_self]
  intro e he
  rw [get?, Option.map_eq_none_iff, List.find?_eq_none] at h
  simpa using h e he

/-- The last entry moves, and otherwise the one at the position is taken out. -/
lemma swapRemove_perm {i : Nat} (hi : i < b.length) : (b.swapRemove i).Perm (b.eraseIdx i) := by
  obtain rfl | ⟨front, last, rfl⟩ := List.eq_nil_or_concat b
  · cases hi
  · rw [List.concat_eq_append] at hi ⊢
    have hswap : swapRemove (front ++ [last]) i = ((front ++ [last]).set i last).dropLast := by
      rw [swapRemove, List.getLast?_concat]
    rw [List.length_append, List.length_singleton] at hi
    rw [hswap]
    obtain hlt | rfl : i < front.length ∨ i = front.length := by omega
    · rw [List.set_append_left _ _ hlt, List.dropLast_concat, List.eraseIdx_append_of_lt_length hlt,
        List.eraseIdx_eq_take_drop_succ, List.set_eq_take_append_cons_drop, if_pos hlt,
        List.append_assoc]
      exact List.Perm.append_left _ (List.perm_append_singleton last _).symm
    · rw [List.set_append_right _ _ (Nat.le_refl _), Nat.sub_self, List.set_cons_zero,
        List.dropLast_concat, List.eraseIdx_append_of_length_le (Nat.le_refl _), Nat.sub_self]
      simp

/-- Entries are taken out and moved, and nothing else. -/
lemma erase_subperm : (b.erase key).Subperm b := by
  rw [erase]
  split
  · next i hi =>
    have hlt : i < b.length := (List.findIdx?_eq_some_iff_getElem.mp hi).1
    exact (b.swapRemove_perm hlt).subperm.trans (List.eraseIdx_sublist b i).subperm
  · exact List.Subperm.refl _

/-- A bag without values that point at the given nodes stays as it is. -/
lemma forget_of_not_pointsInto {gone : List NodeId} (h : b.pointsInto gone = false) :
    b.forget gone = b := by
  rw [forget, List.filter_eq_self]
  intro e he
  rw [pointsInto, List.any_eq_false] at h
  simpa using h e he

/-- A value that points at none of the given nodes is still found. -/
lemma get?_forget {gone : List NodeId} {value : AttributeValue} (h : b.get? key = some value)
    (hv : value.pointsInto gone = false) : (b.forget gone).get? key = some value := by
  induction b with
  | nil => simp [get?] at h
  | cons e b ih =>
    rw [get?_cons] at h
    by_cases he : e.key = key
    · rw [if_pos he, Option.some.injEq] at h
      subst h
      have hcons : forget gone (e :: b) = e :: forget gone b := by simp [forget, hv]
      rw [hcons, get?_cons, if_pos he]
    · rw [if_neg he] at h
      by_cases hp : e.value.pointsInto gone = true
      · have hcons : forget gone (e :: b) = forget gone b := by simp [forget, hp]
        rw [hcons]
        exact ih h
      · have hcons : forget gone (e :: b) = e :: forget gone b := by simp [forget, hp]
        rw [hcons, get?_cons, if_neg he]
        exact ih h

/-! ### One value for a key -/

/-- No key has two values. -/
def Distinct (b : Bag) : Prop := b.Pairwise fun e e' => e.key ≠ e'.key

lemma get?_of_forall_ne {b : Bag} {key : AttributeKey} (h : ∀ e ∈ b, e.key ≠ key) :
    b.get? key = none := by
  rw [get?, Option.map_eq_none_iff, List.find?_eq_none]
  exact fun e he => by simpa using h e he

lemma mem_set {b : Bag} {key : AttributeKey} {value : AttributeValue} {e : AttributeEntry}
    (he : e ∈ b.set key value) : e = ⟨key, value⟩ ∨ e ∈ b := by
  induction b with
  | nil => exact Or.inl (List.mem_singleton.mp he)
  | cons e' b ih =>
    rw [Bag.set] at he
    split at he
    · rcases List.mem_cons.mp he with he | he
      · exact Or.inl he
      · exact Or.inr (List.mem_cons_of_mem e' he)
    · rcases List.mem_cons.mp he with he | he
      · exact Or.inr (List.mem_cons.mpr (Or.inl he))
      · exact (ih he).imp_right (List.mem_cons_of_mem e')

lemma Distinct.set {b : Bag} (h : b.Distinct) (key : AttributeKey) (value : AttributeValue) :
    (b.set key value).Distinct := by
  induction b with
  | nil => exact List.pairwise_singleton _ _
  | cons e b ih =>
    obtain ⟨hhead, hb⟩ := List.pairwise_cons.mp h
    rw [Bag.set]
    split
    · next he =>
      obtain rfl := he
      exact List.pairwise_cons.mpr ⟨hhead, hb⟩
    · next he =>
      refine List.pairwise_cons.mpr ⟨fun e' he' => ?_, ih hb⟩
      rcases mem_set he' with rfl | he'
      · exact he
      · exact hhead e' he'

/-- Of a bag without repetitions a part has the same values, or none. -/
lemma Distinct.get?_sublist {b b' : Bag} (h : b.Distinct) (hsub : b'.Sublist b)
    (key : AttributeKey) : b'.get? key = b.get? key ∨ b'.get? key = none := by
  induction hsub with
  | slnil => exact Or.inl rfl
  | @cons b' b e hsub ih =>
    obtain ⟨hhead, hb⟩ := List.pairwise_cons.mp h
    rw [get?_cons]
    split
    · next he =>
      obtain rfl := he
      exact Or.inr (get?_of_forall_ne fun e' he' => (hhead e' (hsub.subset he')).symm)
    · exact ih hb
  | @cons_cons b' b e hsub ih =>
    rw [get?_cons, get?_cons]
    split
    · exact Or.inl rfl
    · exact ih (List.pairwise_cons.mp h).2

/-- An entry is found under its key. -/
lemma Distinct.get?_of_mem {b : Bag} (h : b.Distinct) {e : AttributeEntry} (he : e ∈ b) :
    b.get? e.key = some e.value := by
  have hself : Bag.get? [e] e.key = some e.value := by simp [Bag.get?]
  rcases h.get?_sublist (List.singleton_sublist.mpr he) e.key with hget | hget
  · rw [← hget, hself]
  · rw [hself] at hget
    cases hget

lemma Distinct.perm {b b' : Bag} (h : b.Distinct) (hp : b'.Perm b) : b'.Distinct :=
  (hp.pairwise_iff fun hne => hne.symm).mpr h

/-- The order of a bag without repetitions does not matter. -/
lemma Distinct.get?_perm {b b' : Bag} (h : b.Distinct) (hp : b'.Perm b) (key : AttributeKey) :
    b'.get? key = b.get? key := by
  cases hv : b'.get? key with
  | none =>
    rw [get?, Option.map_eq_none_iff, List.find?_eq_none] at hv
    refine (get?_of_forall_ne fun e he => ?_).symm
    simpa using hv e (hp.mem_iff.mpr he)
  | some value =>
    rw [get?, Option.map_eq_some_iff] at hv
    obtain ⟨e, he, rfl⟩ := hv
    have hmem : e ∈ b := hp.mem_iff.mp (List.mem_of_find?_eq_some he)
    have hkey : e.key = key := by simpa using List.find?_some he
    rw [← h.get?_of_mem hmem, hkey]

lemma Distinct.subperm {b b' : Bag} (h : b.Distinct) (hsub : b'.Subperm b) : b'.Distinct := by
  obtain ⟨row, hperm, hrow⟩ := hsub
  exact Distinct.perm (List.Pairwise.sublist hrow h) hperm.symm

lemma Distinct.get?_subperm {b b' : Bag} (h : b.Distinct) (hsub : b'.Subperm b)
    (key : AttributeKey) : b'.get? key = b.get? key ∨ b'.get? key = none := by
  obtain ⟨row, hperm, hrow⟩ := hsub
  have hsame := Distinct.get?_perm (List.Pairwise.sublist hrow h) hperm.symm key
  rw [hsame]
  exact h.get?_sublist hrow key

/-- Where no key has two entries, the first one is the only one. -/
lemma Distinct.eraseIdx_eq {b : Bag} (h : b.Distinct) {key : AttributeKey} {i : Nat}
    (hi : b.findIdx? (·.key == key) = some i) : b.eraseIdx i = b.clearKey key := by
  induction b generalizing i with
  | nil => cases hi
  | cons e b ih =>
    obtain ⟨hhead, hb⟩ := List.pairwise_cons.mp h
    rw [List.findIdx?_cons] at hi
    split at hi
    · next he =>
      cases hi
      obtain rfl : e.key = key := beq_iff_eq.mp he
      have hnone : get? b e.key = none := get?_of_forall_ne fun e' he' => (hhead e' he').symm
      rw [List.eraseIdx_cons_zero, clearKey, List.filter_cons_of_neg (by simp)]
      exact (clearKey_of_get?_eq_none b e.key hnone).symm
    · next he =>
      obtain ⟨j, hj, rfl⟩ := Option.map_eq_some_iff.mp hi
      rw [List.eraseIdx_cons_succ, ih hb hj, clearKey, clearKey,
        List.filter_cons_of_pos (by simpa using he)]

/-- Removing the first entry of a key removes the key. -/
lemma Distinct.erase_perm {b : Bag} (h : b.Distinct) (key : AttributeKey) :
    (b.erase key).Perm (b.clearKey key) := by
  rw [erase]
  split
  · next i hi =>
    rw [← h.eraseIdx_eq hi]
    exact b.swapRemove_perm (List.findIdx?_eq_some_iff_getElem.mp hi).1
  · next hi =>
    have hnone : b.get? key = none := by
      refine get?_of_forall_ne fun e he => ?_
      simpa using List.findIdx?_eq_none_iff.mp hi e he
    rw [b.clearKey_of_get?_eq_none key hnone]

lemma Distinct.get?_erase {b : Bag} (h : b.Distinct) (key key' : AttributeKey) :
    (b.erase key).get? key' = if key' = key then none else b.get? key' := by
  rw [← get?_clearKey]
  exact Distinct.get?_perm (h.subperm List.filter_sublist.subperm) (h.erase_perm key) key'

/-- Neither empty nor with two entries for a key. -/
def Compact (b : Bag) : Prop := b ≠ [] ∧ b.Distinct

lemma Compact.set {b : Bag} (h : b.Distinct) (key : AttributeKey) (value : AttributeValue) :
    (b.set key value).Compact := ⟨b.set_ne_nil key value, h.set key value⟩

/-- What is left of a bag is dropped when it is empty. -/
lemma Compact.of_nonempty? {b b' left : Bag} (h : b.Distinct) (hsub : left.Subperm b)
    (hb : left.nonempty? = some b') : b'.Compact := by
  obtain ⟨hne, rfl⟩ := nonempty?_eq_some_iff.mp hb
  exact ⟨hne, h.subperm hsub⟩

end Bag

namespace Attributes

variable (a : Attributes)

/-! ### Bags of nodes after changes -/

section bags

variable (node : NodeId) (key : AttributeKey)

lemma bags_set (value : AttributeValue) (n : NodeId) :
    (a.set node key value).bags[n]? =
      if n = node then some ((a.ofNode node).set key value) else a.bags[n]? := by
  simp only [set, Std.ExtTreeMap.getElem?_insert, Std.LawfulEqCmp.compare_eq_iff_eq]
  exact if_congr eq_comm rfl rfl

lemma bags_erase (n : NodeId) :
    (a.erase node key).bags[n]? =
      if n = node ∧ a.has node key = true then a.bags[n]?.bind fun b => (b.erase key).nonempty?
      else a.bags[n]? := by
  rw [erase]
  by_cases hk : a.has node key = true
  · simp only [hk, if_true, and_true, Std.ExtTreeMap.getElem?_alter,
      Std.LawfulEqCmp.compare_eq_iff_eq]
    by_cases hn : n = node
    · simp [hn]
    · simp [hn, Ne.symm hn]
  · simp [hk]

lemma bags_clearKey (n : NodeId) :
    (a.clearKey key).bags[n]? = a.bags[n]?.bind fun b => (b.clearKey key).nonempty? := by
  simp [clearKey]

lemma bags_forget (gone : List NodeId) (n : NodeId) :
    (a.forget gone).bags[n]? = a.bags[n]?.bind fun b =>
      if n ∈ gone then none else (b.forget gone).nonempty? := by
  simp [forget]

end bags

/-! ### Parts of a store -/

section rows

lemma get?_eq_ofNode (n : NodeId) (key : AttributeKey) : a.get? n key = (a.ofNode n).get? key := by
  rw [get?, ofNode]
  cases a.bags[n]? <;> rfl

lemma ofNode_set (node : NodeId) (key : AttributeKey) (value : AttributeValue) (n : NodeId) :
    (a.set node key value).ofNode n =
      if n = node then (a.ofNode node).set key value else a.ofNode n := by
  rw [ofNode, bags_set]
  split <;> rfl

/-- A bag that entries were taken out of, or that is not there any more. -/
lemma bind_subperm {o : Option Bag} {f : Bag → Option Bag}
    (hf : ∀ b, ((f b).getD []).Subperm b) : ((o.bind f).getD []).Subperm (o.getD []) := by
  cases o with
  | none => exact List.Subperm.refl _
  | some b => exact hf b

end rows

/-- Nothing was set. -/
def Trimmed (a a' : Attributes) : Prop := ∀ n, (a'.ofNode n).Subperm (a.ofNode n)

lemma Trimmed.refl : Trimmed a a := fun _ => List.Subperm.refl _

lemma Trimmed.trans {a a' a'' : Attributes} (h : Trimmed a a') (h' : Trimmed a' a'') :
    Trimmed a a'' := fun n => (h' n).trans (h n)

lemma trimmed_erase (node : NodeId) (key : AttributeKey) : Trimmed a (a.erase node key) := by
  intro n
  rw [ofNode, bags_erase, ofNode]
  split
  · exact bind_subperm fun b => (b.erase key).nonempty?_sublist.subperm.trans (b.erase_subperm key)
  · exact List.Subperm.refl _

lemma trimmed_clearKey (key : AttributeKey) : Trimmed a (a.clearKey key) := by
  intro n
  rw [ofNode, bags_clearKey, ofNode]
  exact bind_subperm fun b =>
    ((b.clearKey key).nonempty?_sublist.trans List.filter_sublist).subperm

lemma trimmed_forget (gone : List NodeId) : Trimmed a (a.forget gone) := by
  intro n
  rw [ofNode, bags_forget, ofNode]
  refine bind_subperm fun b => List.Sublist.subperm ?_
  split
  · exact List.nil_sublist _
  · exact (b.forget gone).nonempty?_sublist.trans List.filter_sublist

/-! ### One value for a pair -/

/-- No pair of a node and a key has two values. -/
def Distinct (a : Attributes) : Prop := ∀ n, (a.ofNode n).Distinct

section distinct

variable {a} {a' : Attributes} (h : a.Distinct)
include h

lemma Distinct.trimmed (ht : Trimmed a a') : a'.Distinct := fun n => (h n).subperm (ht n)

lemma Distinct.get?_trimmed (ht : Trimmed a a') (n : NodeId) (key : AttributeKey) :
    a'.get? n key = a.get? n key ∨ a'.get? n key = none := by
  rw [get?_eq_ofNode, get?_eq_ofNode]
  exact (h n).get?_subperm (ht n) key

/-- An entry is found under its key. -/
lemma Distinct.get?_of_mem {n : NodeId} {e : AttributeEntry} (he : e ∈ a.ofNode n) :
    a.get? n e.key = some e.value := by
  rw [get?_eq_ofNode]
  exact (h n).get?_of_mem he

lemma Distinct.flag_trimmed (ht : Trimmed a a') {n : NodeId} {key : AttributeKey}
    (hflag : a'.flag n key = true) : a.flag n key = true := by
  rw [flag] at hflag ⊢
  rcases h.get?_trimmed ht n key with hget | hget
  · rwa [hget] at hflag
  · rw [hget] at hflag
    cases hflag

lemma Distinct.set (node : NodeId) (key : AttributeKey) (value : AttributeValue) :
    (a.set node key value).Distinct := by
  intro n
  rw [ofNode_set]
  split
  · exact (h node).set key value
  · exact h n

end distinct

/-- No bag is empty, and none has two entries for a key. -/
def Compact (a : Attributes) : Prop := ∀ (n : NodeId) (b : Bag), a.bags[n]? = some b → b.Compact

section compact

variable {a} (h : a.Compact)
include h

lemma Compact.distinct : a.Distinct := by
  intro n
  rw [ofNode]
  cases hb : a.bags[n]? with
  | none => exact List.Pairwise.nil
  | some b => exact (h n b hb).2

lemma Compact.set (node : NodeId) (key : AttributeKey) (value : AttributeValue) :
    (a.set node key value).Compact := by
  intro n b hb
  rw [bags_set] at hb
  split at hb
  · cases hb
    exact .set (h.distinct node) key value
  · exact h n b hb

lemma Compact.erase (node : NodeId) (key : AttributeKey) : (a.erase node key).Compact := by
  intro n b hb
  rw [bags_erase] at hb
  split at hb
  · obtain ⟨b', hb', hb⟩ := Option.bind_eq_some_iff.mp hb
    exact .of_nonempty? (h n b' hb').2 (b'.erase_subperm key) hb
  · exact h n b hb

lemma Compact.clearKey (key : AttributeKey) : (a.clearKey key).Compact := by
  intro n b hb
  rw [bags_clearKey] at hb
  obtain ⟨b', hb', hb⟩ := Option.bind_eq_some_iff.mp hb
  exact .of_nonempty? (h n b' hb').2 List.filter_sublist.subperm hb

lemma Compact.forget (gone : List NodeId) : (a.forget gone).Compact := by
  intro n b hb
  rw [bags_forget] at hb
  obtain ⟨b', hb', hb⟩ := Option.bind_eq_some_iff.mp hb
  split at hb
  · cases hb
  · exact .of_nonempty? (h n b' hb').2 List.filter_sublist.subperm hb

end compact

/-! ### Values after changes -/

section values

variable (node : NodeId) (key : AttributeKey)

lemma get?_set (value : AttributeValue) (n : NodeId) (key' : AttributeKey) :
    (a.set node key value).get? n key' =
      if n = node ∧ key' = key then some value else a.get? n key' := by
  rw [get?, bags_set]
  by_cases hn : n = node
  · subst hn
    rw [if_pos rfl, Option.bind_some, Bag.get?_set]
    cases hb : a.bags[n]? with
    | none => simp [get?, ofNode, hb, Bag.get?]
    | some b => simp [get?, ofNode, hb]
  · simp [hn, get?]

variable {a} in
/-- A removal removes one value, as there is no other for its pair. -/
lemma Distinct.get?_erase (h : a.Distinct) (n : NodeId) (key' : AttributeKey) :
    (a.erase node key).get? n key' =
      if n = node ∧ key' = key then none else a.get? n key' := by
  have hbag := (h n).get?_erase key key'
  rw [get?, bags_erase]
  rw [ofNode] at hbag
  by_cases hn : n = node
  · subst hn
    by_cases hk : a.has n key = true
    · cases hb : a.bags[n]? with
      | none => simp [get?, hb]
      | some b =>
        rw [hb, Option.getD_some] at hbag
        simp [hk, get?, hb, hbag]
    · by_cases hk' : key' = key
      · subst hk'
        rw [if_neg fun h => hk h.2, if_pos ⟨rfl, rfl⟩]
        exact Option.not_isSome_iff_eq_none.mp hk
      · simp [hk, hk', get?]
  · simp [hn, get?]

lemma get?_clearKey (n : NodeId) (key' : AttributeKey) :
    (a.clearKey key).get? n key' = if key' = key then none else a.get? n key' := by
  rw [get?, bags_clearKey, get?]
  cases a.bags[n]? with
  | none => simp
  | some b => simp [Bag.get?_clearKey]

/-- A value on a node that stays, and that points at none that goes, is kept. -/
lemma get?_forget {gone : List NodeId} {n : NodeId} {value : AttributeValue} (hn : n ∉ gone)
    (h : a.get? n key = some value) (hv : value.pointsInto gone = false) :
    (a.forget gone).get? n key = some value := by
  rw [get?, Option.bind_eq_some_iff] at h
  obtain ⟨b, hb, hk⟩ := h
  rw [get?, bags_forget, hb, Option.bind_some, if_neg hn, Bag.nonempty?_bind_get?]
  exact b.get?_forget key hk hv

/-- A flag that is set stays set on a node that stays. -/
lemma flag_forget {gone : List NodeId} {n : NodeId} (hn : n ∉ gone) (h : a.flag n key = true) :
    (a.forget gone).flag n key = true := by
  rw [flag] at h
  cases hv : a.get? n key with
  | none => simp [hv] at h
  | some v =>
    cases v with
    | flag b => rw [flag, a.get?_forget key hn hv rfl]; simpa [hv] using h
    | _ => simp [hv, AttributeValue.asFlag?] at h

end values

/-! ### Undoing changes -/

/-- The bags are compact, those of the journal too. -/
structure Tidy (a : Attributes) : Prop where
  bags : a.Compact
  journal : ∀ j, a.journal = some j → ∀ (n : NodeId) (b : Bag), j[n]? = some (some b) → b.Compact

/-- While a journal is open, `a'` is a state from which the same bags are put back as from `a`. -/
def Recorded (a a' : Attributes) : Prop :=
  a.Tidy → a'.Tidy ∧ a'.journal.isSome = a.journal.isSome ∧
    (a.journal.isSome = true → a'.rollback = a.rollback)

lemma Recorded.refl : Recorded a a := fun h => ⟨h, rfl, fun _ => rfl⟩

variable {a} {a' : Attributes}

/-- The bag of a node that `rollback` puts back is the one of the journal, if it has one. -/
lemma bags_rollback {j : NodeMap (Option Bag)} (h : a.journal = some j) (n : NodeId) :
    a.rollback.bags[n]? = j[n]?.getD a.bags[n]? := by
  simp only [rollback, h, Std.ExtTreeMap.getElem?_union, Std.ExtTreeMap.getElem?_filter',
    Std.ExtTreeMap.getElem?_filterMap', Std.ExtTreeMap.contains_eq_isSome_getElem?]
  cases j[n]? with
  | none => cases a.bags[n]? <;> simp
  | some b => cases b <;> simp

lemma journal_rollback (h : a.journal.isSome = true) : a.rollback.journal = none := by
  obtain ⟨j, hj⟩ := Option.isSome_iff_exists.mp h
  simp [rollback, hj]

/-- It is enough that each bag is untouched, or has been entered before it was changed. -/
lemma rollback_eq_of_saved {j j' : NodeMap (Option Bag)} (h : a.journal = some j)
    (h' : a'.journal = some j')
    (hsaved : ∀ n : NodeId, (j'[n]? = j[n]? ∧ a'.bags[n]? = a.bags[n]?) ∨
      j'[n]? = some (j[n]?.getD a.bags[n]?)) : a'.rollback = a.rollback := by
  have hbags : a'.rollback.bags = a.rollback.bags := by
    apply Std.ExtTreeMap.ext_getElem?
    intro n
    rw [bags_rollback h, bags_rollback h']
    rcases hsaved n with ⟨hj, hb⟩ | hj
    · rw [hj, hb]
    · rw [hj, Option.getD_some]
  have hjournal : a'.rollback.journal = a.rollback.journal := by
    rw [journal_rollback (by simp [h']), journal_rollback (by simp [h])]
  cases hr' : a'.rollback
  cases hr : a.rollback
  simp_all

/-- It is enough that each bag is untouched, or has been entered before it was changed, and that the
bags stay compact. -/
lemma recorded_of_saved (hopen : a'.journal.isSome = a.journal.isSome)
    (hcompact : a.Compact → a'.Compact)
    (hsaved : a.Tidy → ∀ j j', a.journal = some j → a'.journal = some j' → ∀ n : NodeId,
      (j'[n]? = j[n]? ∧ a'.bags[n]? = a.bags[n]?) ∨ j'[n]? = some (j[n]?.getD a.bags[n]?)) :
    Recorded a a' := by
  intro htidy
  refine ⟨⟨hcompact htidy.bags, fun j' hj' n b hb => ?_⟩, hopen, fun hj => ?_⟩
  · obtain ⟨j, hj⟩ := Option.isSome_iff_exists.mp (hopen.symm.trans (by rw [hj']; rfl))
    rcases hsaved htidy j j' hj hj' n with ⟨hjn, _⟩ | hjn
    · exact htidy.journal j hj n b (hjn.symm.trans hb)
    · rw [hjn, Option.some.injEq] at hb
      cases hold : j[n]? with
      | none =>
        rw [hold] at hb
        exact htidy.bags n b hb
      | some b' =>
        rw [hold] at hb
        exact htidy.journal j hj n b (hold.trans (congrArg some hb))
  · obtain ⟨j', hj'⟩ := Option.isSome_iff_exists.mp (hopen.trans hj)
    obtain ⟨j, hj⟩ := Option.isSome_iff_exists.mp hj
    exact rollback_eq_of_saved hj hj' (hsaved htidy j j' hj hj')

lemma journal_save {node : NodeId} {j j' : NodeMap (Option Bag)} (h : a.journal = some j)
    (h' : (a.save node).journal = some j') (n : NodeId) :
    j'[n]? = if n = node then some (j[n]?.getD a.bags[n]?) else j[n]? := by
  rw [save, h, Option.map_some, Option.some.injEq] at h'
  rw [← h', Std.ExtTreeMap.contains_eq_isSome_getElem?]
  by_cases hn : n = node
  · subst hn
    cases hj : j[n]? with
    | none => simp
    | some b => simp [hj]
  · rw [if_neg hn]
    split
    · rfl
    · simp [Ne.symm hn, Std.ExtTreeMap.getElem?_insert]

lemma journal_saveWhere {test : NodeId → Bag → Bool} {j j' : NodeMap (Option Bag)}
    (h : a.journal = some j) (h' : (a.saveWhere test).journal = some j') (n : NodeId) :
    j'[n]? = if a.bags[n]?.any (test n) then some (j[n]?.getD a.bags[n]?) else j[n]? := by
  rw [saveWhere, h, Option.map_some, Option.some.injEq] at h'
  simp only [← h', Std.ExtTreeMap.getElem?_union, Std.ExtTreeMap.getElem?_map,
    Std.ExtTreeMap.getElem?_filter']
  cases hj : j[n]? with
  | none =>
    cases hb : a.bags[n]? with
    | none => simp
    | some b => by_cases ht : test n b = true <;> simp [ht]
  | some b => simp

/-- A change of one bag, which has been entered before. -/
lemma recorded_save {node : NodeId} (hjournal : a'.journal = (a.save node).journal)
    (hcompact : a.Compact → a'.Compact)
    (hbags : ∀ n : NodeId, n ≠ node → a'.bags[n]? = a.bags[n]?) : Recorded a a' := by
  refine recorded_of_saved ?_ hcompact fun _ j j' hj hj' n => ?_
  · rw [hjournal, save]
    exact Option.isSome_map
  · rw [journal_save hj (hjournal.symm.trans hj')]
    by_cases hn : n = node
    · exact Or.inr (if_pos hn)
    · exact Or.inl ⟨if_neg hn, hbags n hn⟩

/-- A change of all bags that pass a test, which have been entered before. -/
lemma recorded_saveWhere {test : NodeId → Bag → Bool} {f : NodeId → Bag → Option Bag}
    (hjournal : a'.journal = (a.saveWhere test).journal) (hcompact : a.Compact → a'.Compact)
    (hbags : ∀ n : NodeId, a'.bags[n]? = a.bags[n]?.bind (f n))
    (htest : ∀ n b, b ≠ [] → test n b = false → f n b = some b) : Recorded a a' := by
  refine recorded_of_saved ?_ hcompact fun htidy j j' hj hj' n => ?_
  · rw [hjournal, saveWhere]
    exact Option.isSome_map
  · rw [journal_saveWhere hj (hjournal.symm.trans hj')]
    by_cases ht : a.bags[n]?.any (test n) = true
    · exact Or.inr (if_pos ht)
    · refine Or.inl ⟨if_neg ht, ?_⟩
      rw [hbags]
      cases hb : a.bags[n]? with
      | none => rfl
      | some b =>
        rw [hb, Option.any_some, Bool.not_eq_true] at ht
        exact htest n b (htidy.bags n b hb).1 ht

variable (a)

lemma recorded_set (node : NodeId) (key : AttributeKey) (value : AttributeValue) :
    Recorded a (a.set node key value) :=
  recorded_save rfl (·.set node key value) fun n hn => by rw [bags_set, if_neg hn]

lemma recorded_erase (node : NodeId) (key : AttributeKey) : Recorded a (a.erase node key) := by
  by_cases hk : a.has node key = true
  · refine recorded_save (by rw [erase, if_pos hk]) (·.erase node key) fun n hn => ?_
    rw [bags_erase, if_neg fun h => hn h.1]
  · rw [erase, if_neg hk]
    exact Recorded.refl a

lemma recorded_clearKey (key : AttributeKey) : Recorded a (a.clearKey key) := by
  refine recorded_saveWhere rfl (·.clearKey key) (a.bags_clearKey key) fun n b hne ht => ?_
  rw [Bag.clearKey_of_get?_eq_none b key (Option.not_isSome_iff_eq_none.mp (by simp [ht]))]
  exact Bag.nonempty?_of_ne_nil hne

lemma recorded_forget (gone : List NodeId) : Recorded a (a.forget gone) := by
  refine recorded_saveWhere rfl (·.forget gone) (a.bags_forget gone) fun n b hne ht => ?_
  rw [Bool.or_eq_false_iff, List.contains_eq_mem, decide_eq_false_iff_not] at ht
  rw [if_neg ht.1, Bag.forget_of_not_pointsInto b ht.2]
  exact Bag.nonempty?_of_ne_nil hne

variable {a}

/-- Right after the journal was opened there is nothing to undo. -/
lemma rollback_checkpoint : a.checkpoint.rollback = a.commit := by
  have hbags : a.checkpoint.rollback.bags = a.commit.bags := by
    apply Std.ExtTreeMap.ext_getElem?
    intro n
    rw [bags_rollback (j := ∅) rfl]
    simp [checkpoint, commit]
  have hjournal : a.checkpoint.rollback.journal = none := rfl
  cases hr : a.checkpoint.rollback
  simp_all [commit]

lemma Tidy.checkpoint (h : a.Tidy) : a.checkpoint.Tidy := by
  refine ⟨h.bags, fun j hj n b hb => ?_⟩
  obtain rfl : _ = j := Option.some.inj hj
  simp at hb

lemma Tidy.commit (h : a.Tidy) : a.commit.Tidy :=
  ⟨h.bags, fun j hj => by simp [Attributes.commit] at hj⟩

lemma Tidy.rollback (h : a.Tidy) : a.rollback.Tidy := by
  cases hj : a.journal with
  | none => rwa [Attributes.rollback, hj]
  | some j =>
    have hnone : a.rollback.journal = none := journal_rollback (by simp [hj])
    refine ⟨fun n b hb => ?_, fun j' hj' => by simp [hnone] at hj'⟩
    rw [bags_rollback hj] at hb
    cases hjn : j[n]? with
    | none =>
      rw [hjn] at hb
      exact h.bags n b hb
    | some b' =>
      rw [hjn, Option.getD_some] at hb
      exact h.journal j hj n b (hjn.trans (congrArg some hb))

end Attributes

end CodeMigration
