import CodeMigration.Search
import Mathlib.Data.List.Nodup
import Mathlib.Data.List.Perm.Subperm
import Mathlib.Logic.Relation

/-!
# What a breadth-first search finds

`Search.Frontier` is the invariant of the search: all that was found can be reached, and whatever
was found and is not in the queue any more has all its successors among the finds. Every point
enters the queue once, so the queue runs empty as soon as the bound exceeds the number of points
that any step leads to, and then the finds are closed under steps.
-/

namespace CodeMigration

namespace Search

variable {α : Type} [BEq α] [LawfulBEq α] {next : α → List α} {start x y : α}
  {known queue found targets : List α}

/-! ### Fresh points -/

lemma mem_fresh_iff {l : List α} : x ∈ fresh known l ↔ x ∈ l ∧ x ∉ known := by
  induction l generalizing known with
  | nil => simp [fresh]
  | cons y l ih =>
    rw [fresh]
    split
    · next hy =>
      rw [List.contains_iff_mem] at hy
      rw [ih, List.mem_cons]
      refine ⟨fun ⟨hx, hnew⟩ => ⟨Or.inr hx, hnew⟩, fun ⟨hx, hnew⟩ => ⟨?_, hnew⟩⟩
      exact hx.resolve_left fun hxy => hnew (hxy ▸ hy)
    · next hy =>
      rw [List.contains_iff_mem] at hy
      rw [List.mem_cons, ih, List.mem_cons, List.mem_cons, not_or]
      constructor
      · rintro (rfl | ⟨hx, _, hnew⟩)
        · exact ⟨Or.inl rfl, hy⟩
        · exact ⟨Or.inr hx, hnew⟩
      · rintro ⟨rfl | hx, hnew⟩
        · exact Or.inl rfl
        · by_cases hxy : x = y
          · exact Or.inl hxy
          · exact Or.inr ⟨hx, hxy, hnew⟩

lemma nodup_fresh (known l : List α) : (fresh known l).Nodup := by
  induction l generalizing known with
  | nil => simp [fresh]
  | cons y l ih =>
    rw [fresh]
    split
    · exact ih known
    · refine List.nodup_cons.mpr ⟨fun hy => ?_, ih _⟩
      exact (mem_fresh_iff.mp hy).2 List.mem_cons_self

omit [LawfulBEq α] in
/-- Fresh points are the new ones, each where it is mentioned first. -/
lemma fresh_eq_eraseDups (known l : List α) :
    fresh known l = (l.filter fun x => !known.contains x).eraseDups := by
  induction l generalizing known with
  | nil => rfl
  | cons x l ih =>
    rw [fresh, List.filter_cons]
    split
    · next hx => rw [ih, hx, Bool.not_true, if_neg Bool.false_ne_true]
    · next hx =>
      rw [Bool.not_eq_true] at hx
      rw [ih, hx, Bool.not_false, if_pos rfl, List.eraseDups_cons, List.filter_filter]
      congr 3
      funext y
      rw [List.contains_cons, Bool.not_or]

/-! ### The search -/

omit [LawfulBEq α] in
/-- What is found stays in front. -/
lemma prefix_expand (n : Nat) (queue found : List α) : found <+: expand next n queue found := by
  induction n generalizing queue found with
  | zero => exact List.prefix_rfl
  | succ n ih =>
    cases queue with
    | nil => exact List.prefix_rfl
    | cons x queue => exact (List.prefix_append _ _).trans (ih _ _)

/-- The successors of the start stand in front, in their order. -/
lemma eraseDups_prefix_breadthFirst (next : α → List α) (start : α) {bound : Nat}
    (hbound : 0 < bound) :
    (next start).eraseDups <+: breadthFirst next bound start := by
  obtain ⟨bound, rfl⟩ := Nat.exists_eq_succ_of_ne_zero (Nat.pos_iff_ne_zero.mp hbound)
  have hfirst : fresh [] (next start) = (next start).eraseDups := by
    rw [fresh_eq_eraseDups]
    simp
  rw [breadthFirst, expand, ← hfirst]
  exact prefix_expand bound _ _

/-- One step of the search. -/
def Step (next : α → List α) (a b : α) : Prop := b ∈ next a

/-- A state of the search from `start`, where every step leads to one of `targets`. -/
structure Frontier (next : α → List α) (start : α) (targets queue found : List α) : Prop where
  nodup : found.Nodup
  reached : ∀ x ∈ found, Relation.TransGen (Step next) start x
  queued : ∀ x ∈ queue, x = start ∨ x ∈ found
  closed : ∀ x, x = start ∨ x ∈ found → x ∈ queue ∨ ∀ y ∈ next x, y ∈ found
  within : found ⊆ targets

omit [BEq α] [LawfulBEq α] in
lemma frontier_start (next : α → List α) (start : α) (targets : List α) :
    Frontier next start targets [start] [] where
  nodup := List.nodup_nil
  reached := by simp
  queued := by simp
  closed x hx := Or.inl (by simpa using hx)
  within := List.nil_subset _

section search

variable (htargets : ∀ x, next x ⊆ targets)
include htargets

/-- The first point of the queue is expanded. -/
lemma Frontier.step (h : Frontier next start targets (x :: queue) found) :
    Frontier next start targets (queue ++ fresh found (next x))
      (found ++ fresh found (next x)) where
  nodup := by
    refine List.nodup_append.mpr ⟨h.nodup, nodup_fresh _ _, ?_⟩
    rintro y hy _ hz rfl
    exact (mem_fresh_iff.mp hz).2 hy
  reached y hy := by
    rcases List.mem_append.mp hy with hy | hy
    · exact h.reached y hy
    · have hstep : Step next x y := (mem_fresh_iff.mp hy).1
      rcases h.queued x List.mem_cons_self with rfl | hx
      · exact .single hstep
      · exact .tail (h.reached x hx) hstep
  queued y hy := by
    rcases List.mem_append.mp hy with hy | hy
    · rcases h.queued y (List.mem_cons_of_mem x hy) with rfl | hy
      · exact Or.inl rfl
      · exact Or.inr (List.mem_append_left _ hy)
    · exact Or.inr (List.mem_append_right _ hy)
  closed y hy := by
    -- the successors of the expanded point are found by now
    have hexpanded : ∀ z ∈ next x, z ∈ found ++ fresh found (next x) := by
      intro z hz
      by_cases hold : z ∈ found
      · exact List.mem_append_left _ hold
      · exact List.mem_append_right _ (mem_fresh_iff.mpr ⟨hz, hold⟩)
    by_cases hnew : y ∈ fresh found (next x)
    · exact Or.inl (List.mem_append_right _ hnew)
    · have hold : y = start ∨ y ∈ found := by
        rw [List.mem_append, or_iff_left hnew] at hy
        exact hy
      rcases h.closed y hold with hy | hy
      · rcases List.mem_cons.mp hy with rfl | hy
        · exact Or.inr hexpanded
        · exact Or.inl (List.mem_append_left _ hy)
      · exact Or.inr fun z hz => List.mem_append_left _ (hy z hz)
  within := by
    refine List.append_subset.mpr ⟨h.within, fun y hy => ?_⟩
    exact htargets x (mem_fresh_iff.mp hy).1

/-- The queue runs empty, and a greater bound changes nothing any more. What every expansion keeps
holds at the end. -/
lemma Frontier.exists_end {motive : List α → List α → Prop}
    (hmotive : ∀ x queue found, motive (x :: queue) found →
      motive (queue ++ fresh found (next x)) (found ++ fresh found (next x)))
    (h : Frontier next start targets queue found) (hm : motive queue found) :
    ∃ result, motive [] result ∧
      ∀ bound, queue.length + targets.length ≤ bound + found.length →
        expand next bound queue found = result := by
  generalize hcost : queue.length + targets.length - found.length = cost
  induction cost generalizing queue found with
  | zero =>
    have hle := (List.subperm_of_subset h.nodup h.within).length_le
    have hempty : queue = [] := List.length_eq_zero_iff.mp (by omega)
    subst hempty
    refine ⟨found, hm, fun bound _ => ?_⟩
    cases bound <;> rfl
  | succ cost ih =>
    cases queue with
    | nil =>
      refine ⟨found, hm, fun bound _ => ?_⟩
      cases bound <;> rfl
    | cons x queue =>
      have hle := (List.subperm_of_subset (h.step htargets).nodup
        (h.step htargets).within).length_le
      obtain ⟨result, hend, hresult⟩ := ih (h.step htargets) (hmotive x queue found hm) (by
        simp only [List.length_append, List.length_cons] at hcost hle ⊢
        omega)
      refine ⟨result, hend, fun bound hbound => ?_⟩
      simp only [List.length_append, List.length_cons] at hbound hle hresult
      cases bound with
      | zero => omega
      | succ bound => exact hresult bound (by omega)

omit [BEq α] [LawfulBEq α] htargets in
/-- Finds that are closed under steps are all that can be reached. -/
lemma Frontier.mem_iff (h : Frontier next start targets [] found) :
    y ∈ found ↔ Relation.TransGen (Step next) start y := by
  refine ⟨h.reached y, fun hy => ?_⟩
  have hclosed : ∀ x, x = start ∨ x ∈ found → ∀ y ∈ next x, y ∈ found := fun x hx =>
    (h.closed x hx).resolve_left List.not_mem_nil
  induction hy with
  | single hstep => exact hclosed start (Or.inl rfl) _ hstep
  | tail _ hstep ih => exact hclosed _ (Or.inr ih) _ hstep

section bound

variable {bound : Nat} (hbound : targets.length < bound)
include hbound

/-- With a sufficient bound, what holds at the start and is kept by every expansion holds when the
queue has run empty. -/
theorem breadthFirst_induction (start : α) {motive : List α → List α → Prop}
    (hm : motive [start] [])
    (hmotive : ∀ x queue found, motive (x :: queue) found →
      motive (queue ++ fresh found (next x)) (found ++ fresh found (next x))) :
    motive [] (breadthFirst next bound start) := by
  obtain ⟨result, hend, hresult⟩ :=
    (frontier_start next start targets).exists_end htargets hmotive hm
  rw [breadthFirst, hresult bound (by simp; omega)]
  exact hend

lemma frontier_breadthFirst :
    Frontier next start targets [] (breadthFirst next bound start) :=
  breadthFirst_induction htargets hbound start (frontier_start next start targets)
    fun _ _ _ h => h.step htargets

/-- With a sufficient bound the search finds each point that can be reached in one or more steps,
and nothing else. -/
theorem mem_breadthFirst_iff :
    y ∈ breadthFirst next bound start ↔ Relation.TransGen (Step next) start y :=
  (frontier_breadthFirst htargets hbound).mem_iff

/-- Beyond a sufficient bound the search has come to its end. -/
theorem breadthFirst_add (extra : Nat) :
    breadthFirst next (bound + extra) start = breadthFirst next bound start := by
  obtain ⟨result, -, hresult⟩ := (frontier_start next start targets).exists_end htargets
    (motive := fun _ _ => True) (fun _ _ _ _ => trivial) trivial
  rw [breadthFirst, breadthFirst, hresult bound (by simp; omega),
    hresult (bound + extra) (by simp; omega)]

end bound

end search

end Search

end CodeMigration
