import CodeMigration.ClassIndex.Memo
import CodeMigration.Proofs.Search
import Mathlib.Data.List.DropRight
import Mathlib.Data.List.Induction

/-!
# Subtypes and remembered answers

A class index is used by entering classes and asking subtype questions in any order. Every
remembered answer is that of a search in the index as it is (`MemoIndex.Faithful`), so a question is
answered by reachability along the parents and interfaces entered last, whatever has been asked
before.
-/

namespace CodeMigration

/-! ### Class names -/

@[simp]
lemma ClassName.normalize_normalize (name : String) :
    ClassName.normalize (ClassName.normalize name) = ClassName.normalize name := by
  simp [ClassName.normalize, List.dropWhile_idempotent]

lemma ClassName.same_iff {a b : String} :
    ClassName.same a b = true ↔ ClassName.normalize a = ClassName.normalize b := by
  rw [ClassName.same, beq_iff_eq]

/-! ### Class indexes -/

lemma Json.lookup_assign {α : Type} (key name : String) (value : α) (l : List (String × α)) :
    (Json.assign key value l).lookup name = if name = key then some value else l.lookup name := by
  induction l with
  | nil =>
    rw [Json.assign, List.lookup_cons]
    by_cases hn : name = key
    · simp [hn]
    · simp [hn, beq_false_of_ne hn]
  | cons field l ih =>
    obtain ⟨k, v⟩ := field
    rw [Json.assign]
    split
    · next hk =>
      subst hk
      rw [List.lookup_cons, List.lookup_cons]
      by_cases hn : name = k
      · simp [hn]
      · simp [hn, beq_false_of_ne hn]
    · next hk =>
      rw [List.lookup_cons, ih, List.lookup_cons]
      by_cases hn : name = k
      · subst hn
        simp [hk]
      · simp [beq_false_of_ne hn]

namespace ClassIndex

variable (index : ClassIndex) (name candidate : String)

lemma get?_insert (entered : String) (entry : ClassEntry) :
    (index.insert entered entry).get? name =
      if ClassName.normalize name = ClassName.normalize entered then some entry
      else index.get? name := by
  rw [get?, insert, Json.lookup_assign, get?]

/-- The direct supertypes of a class are mentioned in the index. -/
lemma step_subset : index.step name ⊆ index.classes.flatMap (·.2.supertypes) := by
  intro c hc
  rw [step, get?] at hc
  cases hlookup : index.classes.lookup (ClassName.normalize name) with
  | none => simp [hlookup] at hc
  | some entry =>
    obtain ⟨l₁, l₂, hclasses, _⟩ := List.lookup_eq_some_iff.mp hlookup
    rw [hclasses]
    simp only [hlookup, Option.map_some, Option.getD_some] at hc
    exact List.mem_flatMap.mpr ⟨_, List.mem_append_right _ List.mem_cons_self, hc⟩

/-- The supertypes of a class are what can be reached from it. -/
lemma mem_supertypes_iff {c : String} :
    c ∈ index.supertypes name ↔
      Relation.TransGen (Search.Step index.step) (ClassName.normalize name) c :=
  Search.mem_breadthFirst_iff index.step_subset (Nat.lt_succ_self _)

lemma isSubtype_iff :
    index.isSubtype name candidate = true ↔
      ClassName.normalize name = ClassName.normalize candidate ∨
        Relation.TransGen (Search.Step index.step) (ClassName.normalize name)
          (ClassName.normalize candidate) := by
  rw [isSubtype, Bool.or_eq_true, ClassName.same_iff, List.contains_iff_mem, mem_supertypes_iff]

@[simp]
lemma supertypes_normalize :
    index.supertypes (ClassName.normalize name) = index.supertypes name := by
  rw [supertypes, supertypes, ClassName.normalize_normalize]

end ClassIndex

/-! ### Remembered answers -/

namespace MemoIndex

variable {m : MemoIndex} {name candidate : String}

/-- Every remembered answer is that of the index. -/
def Faithful (m : MemoIndex) : Prop :=
  ∀ question answer, m.answers.lookup question = some answer →
    answer = (m.index.supertypes question.1).contains question.2

lemma faithful_fresh (index : ClassIndex) : Faithful { index } := by
  intro question answer h
  cases h

lemma Faithful.remember (hm : m.Faithful) (question : String × String) :
    Faithful { m with answers :=
      (question, (m.index.supertypes question.1).contains question.2) :: m.answers } := by
  intro other answer h
  rw [List.lookup_cons] at h
  by_cases heq : other = question
  · simp only [heq, beq_self_eq_true, Option.some.injEq] at h
    rw [heq, ← h]
  · rw [beq_false_of_ne heq] at h
    exact hm other answer h

lemma Faithful.lookup (hm : m.Faithful) (question : String × String) :
    (m.lookup question).1 = (m.index.supertypes question.1).contains question.2 ∧
      (m.lookup question).2.Faithful ∧ (m.lookup question).2.index = m.index := by
  rw [MemoIndex.lookup]
  split
  · next answer hanswer => exact ⟨hm question answer hanswer, hm, rfl⟩
  · exact ⟨rfl, hm.remember question, rfl⟩

/-- A faithful table answers as the index does, and stays faithful. -/
lemma Faithful.isSubtype (hm : m.Faithful) (name candidate : String) :
    (m.isSubtype name candidate).1 = m.index.isSubtype name candidate ∧
      (m.isSubtype name candidate).2.Faithful ∧
      (m.isSubtype name candidate).2.index = m.index := by
  rw [MemoIndex.isSubtype, ClassIndex.isSubtype]
  split
  · next hsame => exact ⟨by rw [hsame, Bool.true_or], hm, rfl⟩
  · next hsame =>
    rw [Bool.not_eq_true] at hsame
    rw [hsame, Bool.false_or, ← m.index.supertypes_normalize name]
    exact hm.lookup _

end MemoIndex

/-! ### Calls of an index -/

/-- What a class index is asked to do: to enter a class, or to answer a subtype question. -/
inductive IndexCall where
  | insert (name : String) (entry : ClassEntry)
  | isSubtype (name candidate : String)

namespace IndexCall

/-- The call enters a class. -/
def isInsert : IndexCall → Bool
  | .insert _ _ => true
  | .isSubtype _ _ => false

/-- The entry that the call makes for a class. -/
def entryOf? (name : String) : IndexCall → Option ClassEntry
  | .insert entered entry =>
    if ClassName.normalize entered = ClassName.normalize name then some entry else none
  | .isSubtype _ _ => none

/-- The entry of a class after a row of calls: the one made last. -/
def latest? (calls : List IndexCall) (name : String) : Option ClassEntry :=
  calls.reverse.findSome? (entryOf? name)

/-- By the entries made in a row of calls, `c` is a class with the parent or the interface `d`. -/
def Declares (calls : List IndexCall) (c d : String) : Prop :=
  ∃ entry, latest? calls c = some entry ∧
    ∃ mention ∈ entry.parents ++ entry.interfaces, ClassName.normalize mention = d

end IndexCall

namespace MemoIndex

/-- The index after a call. -/
def serve (m : MemoIndex) : IndexCall → MemoIndex
  | .insert name entry => m.insert name entry
  | .isSubtype name candidate => (m.isSubtype name candidate).2

/-- An index that was empty, after a row of calls. -/
def after (calls : List IndexCall) : MemoIndex := calls.foldl serve {}

lemma after_append (calls : List IndexCall) (call : IndexCall) :
    after (calls ++ [call]) = (after calls).serve call := by
  rw [after, List.foldl_append]
  rfl

/-- A call keeps the table faithful, and only an entry changes the index. -/
lemma Faithful.serve {m : MemoIndex} (hm : m.Faithful) (call : IndexCall) :
    (m.serve call).Faithful ∧ (m.serve call).index =
      match call with
      | .insert name entry => m.index.insert name entry
      | .isSubtype _ _ => m.index := by
  cases call with
  | insert name entry => exact ⟨faithful_fresh _, rfl⟩
  | isSubtype name candidate => exact (hm.isSubtype name candidate).2

lemma faithful_after (calls : List IndexCall) : (after calls).Faithful := by
  induction calls using List.reverseRecOn with
  | nil => exact faithful_fresh {}
  | append_singleton calls call ih =>
    rw [after_append]
    exact (ih.serve call).1

/-- The index holds the entries made last. -/
lemma get?_after (calls : List IndexCall) (name : String) :
    (after calls).index.get? name = IndexCall.latest? calls name := by
  induction calls using List.reverseRecOn with
  | nil => rfl
  | append_singleton calls call ih =>
    rw [after_append, ((faithful_after calls).serve call).2, IndexCall.latest?,
      List.reverse_append, List.reverse_singleton, List.singleton_append, List.findSome?_cons]
    cases call with
    | insert entered entry =>
      rw [ClassIndex.get?_insert, IndexCall.entryOf?]
      by_cases hname : ClassName.normalize name = ClassName.normalize entered
      · simp [hname]
      · rw [if_neg hname, if_neg (Ne.symm hname), ih]
        rfl
    | isSubtype _ _ => exact ih

lemma step_after (calls : List IndexCall) :
    Search.Step (after calls).index.step = IndexCall.Declares calls := by
  funext c d
  rw [Search.Step, ClassIndex.step, get?_after, IndexCall.Declares, eq_iff_iff]
  cases IndexCall.latest? calls c <;> simp [ClassEntry.supertypes, or_and_right, exists_or]

/-- Questions leave no trace in the index. -/
lemma index_after_filter (calls : List IndexCall) :
    (after (calls.filter (·.isInsert))).index = (after calls).index := by
  induction calls using List.reverseRecOn with
  | nil => rfl
  | append_singleton calls call ih =>
    rw [List.filter_append, after_append, ((faithful_after calls).serve call).2]
    cases call with
    | insert name entry =>
      rw [List.filter_singleton, IndexCall.isInsert, cond_true, after_append,
        ((faithful_after _).serve _).2, ih]
    | isSubtype name candidate =>
      rw [List.filter_singleton, IndexCall.isInsert, cond_false, List.append_nil, ih]

/-- After any row of calls a class is a subtype of another exactly when, apart from leading
separators, they are the same or the other can be reached along parents and interfaces of the
classes entered so far. The answer is the one that would be given if nothing had been asked before,
and the search behind it has come to an end. -/
theorem isSubtype_iff_declared (calls : List IndexCall) (name candidate : String) :
    (((after calls).isSubtype name candidate).1 = true ↔
      ClassName.normalize name = ClassName.normalize candidate ∨
        Relation.TransGen (IndexCall.Declares calls) (ClassName.normalize name)
          (ClassName.normalize candidate)) ∧
    ((after calls).isSubtype name candidate).1 =
      ((after (calls.filter (·.isInsert))).isSubtype name candidate).1 ∧
    ∀ extra, Search.breadthFirst (after calls).index.step
        ((after calls).index.searchBound + extra) (ClassName.normalize name) =
      (after calls).index.supertypes name := by
  have hanswer := ((faithful_after calls).isSubtype name candidate).1
  refine ⟨?_, ?_, fun extra => ?_⟩
  · rw [hanswer, ClassIndex.isSubtype_iff, step_after]
  · rw [hanswer, ((faithful_after _).isSubtype name candidate).1, index_after_filter]
  · exact Search.breadthFirst_add (after calls).index.step_subset (Nat.lt_succ_self _) extra

/-- In a circle of two classes each is a subtype of the other, also when it is asked twice. -/
example : ((after [.insert "A" { parents := ["\\B"] }, .isSubtype "A" "B",
    .insert "\\B" { interfaces := ["A"] }, .isSubtype "B" "A"]).isSubtype "\\B" "A").1 = true := by
  decide +kernel

end MemoIndex

end CodeMigration
