import CodeMigration.Proofs.ClassIndex.Instances
import CodeMigration.Proofs.Search.Routes

/-!
# Inherited return types

The supertypes of a class stand in the order of their distances, and a method has the return type
that the nearest class declares. Among equally near ones the order of the mentions decides: the
mentions of a class are numbered through its parents and then its interfaces
(`ClassIndex.Mentions`), and the declaration that counts is the one at the end of the first route
(`Search.rank`).
-/

namespace CodeMigration

open Relation

namespace ClassIndex

/-- The mention with the given number in the entry of `c`, parents before interfaces, is of `d`. -/
def Mentions (index : ClassIndex) (c : String) (i : Nat) (d : String) : Prop :=
  ∃ entry mention, index.get? c = some entry ∧
    (entry.parents ++ entry.interfaces)[i]? = some mention ∧ ClassName.normalize mention = d

lemma edge_step (index : ClassIndex) : Search.Edge index.step = index.Mentions := by
  funext c i d
  rw [Search.Edge, step, Mentions, eq_iff_iff]
  cases index.get? c with
  | none => simp
  | some entry =>
    rw [Option.map_some, Option.getD_some, ClassEntry.supertypes, List.getElem?_map]
    simp

lemma returnType?_eq_none_iff {index : ClassIndex} {name method : String} :
    index.returnType? name method = none ↔
      index.declaredReturn? method (ClassName.normalize name) = none ∧
        ∀ c ∈ index.supertypes name, index.declaredReturn? method c = none := by
  rw [returnType?, List.findSome?_eq_none_iff, List.forall_mem_cons]

/-- The list of supertypes holds what can be reached along parents and interfaces, each name once,
the nearer ones first and the direct ones as the entry mentions them, parents before interfaces. A
method has no return type when neither the class nor a supertype declares it. Otherwise it has the
declared one at the end of the first route, the empty one included, to a class that declares it:
routes to nearer classes come first, and of equally long ones the one with the earlier mention. -/
theorem returnType?_of_nearest (index : ClassIndex) (name method : String) :
    (∀ c, c ∈ index.supertypes name ↔ TransGen index.Declares (ClassName.normalize name) c) ∧
    (index.supertypes name).Nodup ∧
    ((index.supertypes name).Pairwise fun c d => ∃ m n,
      Search.Distance index.Mentions (ClassName.normalize name) c m ∧
        Search.Distance index.Mentions (ClassName.normalize name) d n ∧ m ≤ n) ∧
    (∀ entry, index.get? name = some entry →
      ((entry.parents ++ entry.interfaces).map ClassName.normalize).eraseDups <+:
        index.supertypes name) ∧
    (index.returnType? name method = none ↔
      ∀ c, ReflTransGen index.Declares (ClassName.normalize name) c →
        index.declaredReturn? method c = none) ∧
    ∀ type, index.returnType? name method = some type ↔
      ∃ route c, Search.Route index.Mentions (ClassName.normalize name) route c ∧
        index.declaredReturn? method c = some type ∧
        ∀ other d, Search.Route index.Mentions (ClassName.normalize name) other d →
          index.declaredReturn? method d ≠ none → Search.rank route ≤ Search.rank other := by
  have hmem : ∀ c, c ∈ index.supertypes name ↔
      TransGen index.Declares (ClassName.normalize name) c := fun c => by
    rw [mem_supertypes_iff, step_eq_declares]
  refine ⟨hmem, ?_, ?_, fun entry hentry => ?_, ?_, fun type => ?_⟩
  · exact (Search.frontier_breadthFirst index.step_subset (Nat.lt_succ_self _)).nodup
  · rw [← edge_step]
    exact Search.pairwise_breadthFirst index.step_subset (Nat.lt_succ_self _)
  · have hstep : index.step (ClassName.normalize name) = entry.supertypes := by
      rw [step, get?, ClassName.normalize_normalize, ← get?, hentry]
      rfl
    have hdirect := Search.eraseDups_prefix_breadthFirst index.step (ClassName.normalize name)
      (Nat.succ_pos _ : 0 < index.searchBound)
    rwa [hstep] at hdirect
  · rw [returnType?_eq_none_iff]
    simp only [hmem, reflTransGen_iff_eq_or_transGen, forall_eq_or_imp]
  · rw [← edge_step]
    exact Search.findSome?_breadthFirst_eq_some_iff index.step_subset (Nat.lt_succ_self _)

/-- In a circle the class comes back as its own supertype, at the distance of the way round; an
interface right above wins over a parent of a parent. -/
example :
    let index : ClassIndex := ⟨[("A", { parents := ["\\B"], interfaces := ["I", "Missing"] }),
      ("B", { parents := ["C", "A"] }), ("C", { methods := [("run", "int")] }),
      ("I", { methods := [("run", "string")] })]⟩
    index.supertypes "\\A" = ["B", "I", "Missing", "C", "A"] ∧
      index.returnType? "A" "run" = some "string" ∧ index.returnType? "B" "run" = some "int" ∧
      index.returnType? "A" "stop" = none := by
  decide +kernel

end ClassIndex

end CodeMigration
