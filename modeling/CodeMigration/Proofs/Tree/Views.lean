import CodeMigration.Proofs.Tree.History

/-!
# The tree from above and from below

Nodes are listed downwards with a stack, a node before its children, and upwards one parent after
the other. `Tree.Unstacks` and `Tree.Climbs` are the two walks without a bound on their steps. In a
reachable tree both come to an end, for attached, free and discarded nodes alike, and what lies
above and what lies below a node are the same relation read in two directions.
-/

namespace CodeMigration

namespace Tree

variable {t : Tree} {stack out : List NodeId} {a n : NodeId}

/-! ### The two walks -/

/-- What a walk down lists that takes a node from the stack and puts its children there instead, the
first one on top. -/
inductive Unstacks (t : Tree) : List NodeId → List NodeId → Prop
  | done : Unstacks t [] []
  | take {stack out : List NodeId} {id : NodeId}
    (hrest : Unstacks t (t.children id ++ stack) out) : Unstacks t (id :: stack) (id :: out)

/-- What a walk up lists that goes on at the parent of each node. -/
inductive Climbs (t : Tree) : Option NodeId → List NodeId → Prop
  | done : Climbs t none []
  | up {out : List NodeId} {id : NodeId} (hrest : Climbs t (t.parent? id) out) :
    Climbs t (some id) (id :: out)

lemma Unstacks.unique {out' : List NodeId} (h : t.Unstacks stack out)
    (h' : t.Unstacks stack out') : out = out' := by
  induction h generalizing out' with
  | done =>
    cases h'
    rfl
  | take _ ih =>
    cases h' with
    | take hrest' => rw [ih hrest']

lemma Climbs.unique {o : Option NodeId} {out' : List NodeId} (h : t.Climbs o out)
    (h' : t.Climbs o out') : out = out' := by
  induction h generalizing out' with
  | done =>
    cases h'
    rfl
  | up _ ih =>
    cases h' with
    | up hrest' => rw [ih hrest']

namespace WellLinked

variable (h : t.WellLinked)
include h

/-! ### Down -/

/-- One level more lists nothing new below a node from which all levels are in reach. -/
lemma preorder_succ {k : Nat} (hk : t.size ≤ (t.ancestors a).length + k) :
    t.preorder (k + 1) a = t.preorder k a := by
  induction k generalizing a with
  | zero => exact absurd (h.length_ancestors_lt a) (Nat.not_lt.mpr hk)
  | succ k ih =>
    rw [preorder, preorder]
    congr 1
    refine List.flatMap_congr fun c hc => ih ?_
    rw [h.ancestors_of_link ((h.mem_children_iff a c).mp hc), List.length_cons]
    omega

/-- A node is listed first, and then the lists of its children one after the other. -/
lemma descendants_eq (a : NodeId) :
    t.descendants a = a :: (t.children a).flatMap t.descendants :=
  (h.preorder_succ (Nat.le_add_left _ _)).symm

lemma unstacks_cons (n : NodeId) {stack out : List NodeId} (hrest : t.Unstacks stack out) :
    t.Unstacks (n :: stack) (t.descendants n ++ out) := by
  induction n using h.induction_up generalizing stack out with
  | hstep n ih =>
    rw [h.descendants_eq n, List.cons_append]
    apply Unstacks.take
    -- the children are taken one after the other, each with all that lies below it
    generalize t.children n = row at ih
    induction row with
    | nil => exact hrest
    | cons c row ihrow =>
      rw [List.flatMap_cons, List.append_assoc]
      apply ih c List.mem_cons_self
      apply ihrow
      intro d hd
      exact ih d (List.mem_cons_of_mem c hd)

lemma unstacks_descendants (a : NodeId) : t.Unstacks [a] (t.descendants a) := by
  simpa using h.unstacks_cons a .done

/-! ### Up -/

lemma climbs_ancestors (n : NodeId) : t.Climbs (t.parent? n) (t.ancestors n) := by
  induction n using h.wellFounded.induction with
  | _ n ih =>
    cases hn : t.parent? n with
    | none =>
      rw [ancestors_of_free hn]
      exact .done
    | some p =>
      rw [h.ancestors_of_link hn]
      exact .up (ih p hn)

/-- The nodes above a node are the others that it lies below. -/
lemma mem_ancestors_iff_below : a ∈ t.ancestors n ↔ a ≠ n ∧ n ∈ t.descendants a := by
  rw [h.mem_ancestors_iff, h.mem_descendants_iff, reaches_iff (a := a) (n := n)]
  constructor
  · rintro ⟨p, hp, hap⟩
    constructor
    · rintro rfl
      exact h.not_reaches_of_link hp hap
    · exact Or.inr ⟨p, hp, hap⟩
  · rintro ⟨hne, heq | habove⟩
    · exact absurd heq hne
    · exact habove

/-- Each node above comes before those above it. -/
lemma pairwise_ancestors (n : NodeId) : (t.ancestors n).Pairwise (· ∈ t.descendants ·) := by
  induction n using h.wellFounded.induction with
  | _ n ih =>
    cases hn : t.parent? n with
    | none => simp [ancestors_of_free hn]
    | some p =>
      rw [h.ancestors_of_link hn, List.pairwise_cons]
      constructor
      · intro b hb
        exact (h.mem_ancestors_iff_below.mp hb).2
      · exact ih p hn

end WellLinked

/-! ### Both -/

/-- In a reachable tree the walk down from `a` ends, with the nodes that child lists lead to, each
once, in order; the walk up from `n` ends, with the nodes above, nearest first; and `n` is listed
below `a` exactly when the walk up from it comes to `a`. -/
theorem Reachable.views_agree (h : t.Reachable) (a n : NodeId) :
    (∀ out, t.Unstacks [a] out ↔ out = t.descendants a) ∧
    t.descendants a = a :: (t.children a).flatMap t.descendants ∧
    (t.descendants a).Nodup ∧
    (n ∈ t.descendants a ↔ t.Descends a n) ∧
    (t.isAncestorOrSelf a n = true ↔ n ∈ t.descendants a) ∧
    (t.isAttached n = true ↔ n ∈ t.descendants t.root) ∧
    (∀ out, t.Climbs (t.parent? n) out ↔ out = t.ancestors n) ∧
    (a ∈ t.ancestors n ↔ a ≠ n ∧ n ∈ t.descendants a) ∧
    (t.ancestors n).Nodup ∧ (t.ancestors n).Pairwise (· ∈ t.descendants ·) := by
  have hw := h.sound.linked
  have hdown : ∀ out, t.Unstacks [a] out ↔ out = t.descendants a := by
    intro out
    constructor
    · intro hout
      exact hout.unique (hw.unstacks_descendants a)
    · rintro rfl
      exact hw.unstacks_descendants a
  have hup : ∀ out, t.Climbs (t.parent? n) out ↔ out = t.ancestors n := by
    intro out
    constructor
    · intro hout
      exact hout.unique (hw.climbs_ancestors n)
    · rintro rfl
      exact hw.climbs_ancestors n
  refine ⟨hdown, hw.descendants_eq a, hw.nodup_preorder _ _, ?_, ?_, ?_, hup,
    hw.mem_ancestors_iff_below, hw.nodup_climb _ _, hw.pairwise_ancestors n⟩
  · simp [hw.mem_descendants_iff, hw.descends_iff]
  · simp [hw.mem_descendants_iff, hw.isAncestorOrSelf_iff]
  · simp [hw.mem_descendants_iff, hw.isAttached_iff]

/-- With the middle of the chain detached, the walks stay within the two parts. -/
theorem views_agree_detached :
    let t := ((Command.detach 0 1).run sampleTree).1
    t.Unstacks [1] [1, 2] ∧ t.Climbs (t.parent? 2) [1] ∧ t.isAncestorOrSelf 1 2 = true ∧
      t.isAttached 2 = false := by
  intro t
  have hr : t.Reachable := reachable_sampleTree.run (.detach 0 1)
  obtain ⟨hdown, _, _, _, habove, hattached, hup, _, _⟩ := hr.views_agree 1 2
  have hlisted : t.descendants 1 = [1, 2] := by decide +kernel
  refine ⟨(hdown _).mpr hlisted.symm, (hup _).mpr (by decide +kernel), habove.mpr ?_, ?_⟩
  · simp [hlisted]
  · rw [← Bool.not_eq_true, hattached]
    decide +kernel

end Tree

end CodeMigration
