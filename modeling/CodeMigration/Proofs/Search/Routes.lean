import CodeMigration.Proofs.Search
import Mathlib.Data.List.Lex
import Mathlib.Data.Prod.Lex
import Mathlib.Order.Bounds.Defs

/-!
# The order of a breadth-first search

Successors are numbered by their positions, so a way from the start to a point is a row of numbers
(`Search.Route`). Rows are ranked by their lengths first and then number by number (`Search.rank`).

`Search.Trail` is the invariant: every find comes with a route, later finds have routes of greater
rank, and no route that goes through an expanded point beats the route of its end. Once everything
is expanded, a find has the first of all routes that lead to it. So the finds stand in the order of
their distances, and of the points with some property the first in the list is the one at the end
of the first route to any such point.
-/

namespace CodeMigration

namespace Search

/-! ### Routes -/

section route

variable {α : Type} {R : α → Nat → α → Prop} {start x y : α} {route : List Nat}

/-- The steps with the given numbers lead from the start to a point. -/
inductive Route (R : α → Nat → α → Prop) (start : α) : List Nat → α → Prop
  | here : Route R start [] start
  | step {route : List Nat} {x : α} {i : Nat} {y : α} :
    Route R start route x → R x i y → Route R start (route ++ [i]) y

/-- The fewest steps, at least one, that lead from the start to a point. -/
def Distance (R : α → Nat → α → Prop) (start x : α) (n : Nat) : Prop :=
  IsLeast {k | 0 < k ∧ ∃ route, Route R start route x ∧ route.length = k} n

/-- A step to a successor, numbered by its position. -/
def Edge (next : α → List α) (x : α) (i : Nat) (y : α) : Prop := (next x)[i]? = some y

lemma Route.eq_of_functional (hR : ∀ x i y z, R x i y → R x i z → y = z)
    (hx : Route R start route x) (hy : Route R start route y) : x = y := by
  induction hx generalizing y with
  | here =>
    generalize hnil : ([] : List Nat) = route at hy
    cases hy with
    | here => rfl
    | step _ _ => simp at hnil
  | step _ hx ih =>
    generalize hroute : _ ++ [_] = route' at hy
    cases hy with
    | here => simp at hroute
    | step hy' hy =>
      obtain ⟨rfl, hi⟩ := List.append_inj' hroute rfl
      obtain rfl := List.singleton_inj.mp hi
      obtain rfl := ih hy'
      exact hR _ _ _ _ hx hy

end route

/-! ### Ranks of routes -/

/-- The place of a route among all routes: shorter ones first, and equally long ones in the order of
the first number in which they differ. -/
def rank (route : List Nat) : Nat ×ₗ List Nat := toLex (route.length, route)

section rank

variable {r s : List Nat} {i j : Nat}

lemma rank_injective : Function.Injective rank := by
  intro r s h
  exact congrArg Prod.snd (toLex.injective h)

lemma rank_lt_iff : rank r < rank s ↔ r.length < s.length ∨ r.length = s.length ∧ r < s :=
  Prod.Lex.toLex_lt_toLex

lemma length_le_of_rank_le (h : rank r ≤ rank s) : r.length ≤ s.length := by
  rcases Prod.Lex.toLex_le_toLex.mp h with h | ⟨h, -⟩
  · exact h.le
  · exact h.le

lemma rank_nil_lt (h : r ≠ []) : rank [] < rank r :=
  rank_lt_iff.mpr (Or.inl (List.length_pos_iff.mpr h))

lemma rank_append_lt (h : i < j) : rank (r ++ [i]) < rank (r ++ [j]) := by
  refine rank_lt_iff.mpr (Or.inr ⟨by simp, ?_⟩)
  induction r with
  | nil => exact .rel h
  | cons k r ih => exact .cons ih

/-- Routes of different rank stay in their order when both go on. -/
lemma rank_append_lt_append (h : rank r < rank s) : rank (r ++ [i]) < rank (s ++ [j]) := by
  rcases rank_lt_iff.mp h with hlength | ⟨hlength, hlt⟩
  · exact rank_lt_iff.mpr (Or.inl (by simpa using hlength))
  · refine rank_lt_iff.mpr (Or.inr ⟨by simpa using hlength, ?_⟩)
    clear h
    induction hlt with
    | nil => simp at hlength
    | rel hlt => exact .rel hlt
    | cons _ ih => exact .cons (ih (Nat.succ.inj hlength))

lemma rank_append_le_append (h : rank r ≤ rank s) : rank (r ++ [i]) ≤ rank (s ++ [i]) := by
  rcases h.eq_or_lt with heq | hlt
  · rw [rank_injective heq]
  · exact (rank_append_lt_append hlt).le

end rank

/-! ### Fresh points -/

section search

variable {α : Type} [BEq α] [LawfulBEq α] {next : α → List α} {start x y : α}
  {done pending trail : List (List Nat × α)}

/-- A point that stands at a position was met there or before. -/
lemma idxOf_le {l : List α} {i : Nat} (h : l[i]? = some y) : l.idxOf y ≤ i := by
  have htake : y ∈ l.take (i + 1) := List.mem_of_getElem? (by
    rw [List.getElem?_take_of_lt (Nat.lt_succ_self i), h])
  exact Nat.le_of_lt_succ ((List.mem_take_iff_idxOf_lt (List.mem_of_getElem? h)).mp htake)

/-- Fresh points are taken in the order in which the list mentions them first. -/
lemma pairwise_fresh (known l : List α) :
    (fresh known l).Pairwise fun x y => l.idxOf x < l.idxOf y := by
  induction l generalizing known with
  | nil => exact .nil
  | cons x l ih =>
    have htail : ∀ known', x ∈ known' →
        (fresh known' l).Pairwise fun y z => (x :: l).idxOf y < (x :: l).idxOf z := by
      intro known' hx
      refine (ih known').imp_of_mem fun hy hz hlt => ?_
      have hne : ∀ y ∈ fresh known' l, x ≠ y := by
        rintro y hy rfl
        exact (mem_fresh_iff.mp hy).2 hx
      rw [List.idxOf_cons_ne _ (hne _ hy), List.idxOf_cons_ne _ (hne _ hz)]
      exact Nat.succ_lt_succ hlt
    rw [fresh]
    split
    · next hx => exact htail known (List.contains_iff_mem.mp hx)
    · refine List.pairwise_cons.mpr ⟨fun y hy => ?_, htail _ List.mem_cons_self⟩
      have hne : x ≠ y := fun hxy => (mem_fresh_iff.mp hy).2 (hxy ▸ List.mem_cons_self)
      rw [List.idxOf_cons_self, List.idxOf_cons_ne _ hne]
      exact Nat.succ_pos _

/-! ### Trails -/

/-- The state of a search in which every point comes with a route: the points expanded so far, the
queue, and what was found. -/
structure Trail (next : α → List α) (start : α) (done pending trail : List (List Nat × α)) :
    Prop where
  whole : done ++ pending = ([], start) :: trail
  leads : ∀ p ∈ trail, Route (Edge next) start p.1 p.2
  sorted : (([], start) :: trail).Pairwise fun p q => rank p.1 < rank q.1
  grown : ∀ p ∈ trail, ∃ q ∈ done, ∃ i, p.1 = q.1 ++ [i]
  covered : ∀ p ∈ done, ∀ i y, Edge next p.2 i y →
    ∃ q ∈ trail, q.2 = y ∧ rank q.1 ≤ rank (p.1 ++ [i])

omit [BEq α] [LawfulBEq α] in
lemma trail_start (next : α → List α) (start : α) : Trail next start [] [([], start)] [] where
  whole := rfl
  leads := by simp
  sorted := List.pairwise_singleton _ _
  grown := by simp
  covered := by simp

/-- The fresh successors of a point, with the routes through it. -/
def extensions (next : α → List α) (known : List α) (p : List Nat × α) : List (List Nat × α) :=
  (fresh known (next p.2)).map fun y => (p.1 ++ [(next p.2).idxOf y], y)

omit [LawfulBEq α] in
lemma map_snd_extensions (known : List α) (p : List Nat × α) :
    (extensions next known p).map Prod.snd = fresh known (next p.2) := by
  rw [extensions, List.map_map]
  exact List.map_id _

omit [BEq α] [LawfulBEq α] in
lemma Trail.route (h : Trail next start done pending trail) {p : List Nat × α}
    (hp : p ∈ ([], start) :: trail) : Route (Edge next) start p.1 p.2 := by
  rcases List.mem_cons.mp hp with rfl | hp
  · exact .here
  · exact h.leads p hp

omit [BEq α] [LawfulBEq α] in
/-- Whatever was found so far comes before the successors of the point that is expanded next. -/
lemma Trail.rank_lt_extended {p q : List Nat × α} (h : Trail next start done (p :: pending) trail)
    (hq : q ∈ ([], start) :: trail) (i : Nat) : rank q.1 < rank (p.1 ++ [i]) := by
  rcases List.mem_cons.mp hq with rfl | hq
  · exact rank_nil_lt (by simp)
  · -- it was found through a point that was expanded earlier
    obtain ⟨d, hd, j, hdj⟩ := h.grown q hq
    have hsorted := h.sorted
    rw [← h.whole] at hsorted
    rw [hdj]
    exact rank_append_lt_append ((List.pairwise_append.mp hsorted).2.2 d hd p List.mem_cons_self)

/-- The first point of the queue is expanded. -/
lemma Trail.step {p : List Nat × α} (h : Trail next start done (p :: pending) trail) :
    Trail next start (done ++ [p]) (pending ++ extensions next (trail.map Prod.snd) p)
      (trail ++ extensions next (trail.map Prod.snd) p) where
  whole := by
    have hwhole := congrArg (· ++ extensions next (trail.map Prod.snd) p) h.whole
    simpa using hwhole
  leads q hq := by
    have hp : p ∈ ([], start) :: trail := by simp [← h.whole]
    rcases List.mem_append.mp hq with hq | hq
    · exact h.leads q hq
    · obtain ⟨y, hy, rfl⟩ := List.mem_map.mp hq
      exact (h.route hp).step (List.getElem?_idxOf (mem_fresh_iff.mp hy).1)
  sorted := by
    rw [← List.cons_append]
    refine List.pairwise_append.mpr ⟨h.sorted, ?_, ?_⟩
    · exact List.pairwise_map.mpr ((pairwise_fresh _ _).imp rank_append_lt)
    · intro q hq r hr
      obtain ⟨y, _, rfl⟩ := List.mem_map.mp hr
      exact h.rank_lt_extended hq _
  grown q hq := by
    rcases List.mem_append.mp hq with hq | hq
    · obtain ⟨d, hd, hgrown⟩ := h.grown q hq
      exact ⟨d, List.mem_append_left _ hd, hgrown⟩
    · obtain ⟨y, _, rfl⟩ := List.mem_map.mp hq
      exact ⟨p, List.mem_append_right _ List.mem_cons_self, _, rfl⟩
  covered q hq i y hy := by
    rcases List.mem_append.mp hq with hq | hq
    · obtain ⟨r, hr, hry, hle⟩ := h.covered q hq i y hy
      exact ⟨r, List.mem_append_left _ hr, hry, hle⟩
    · obtain rfl := List.mem_singleton.mp hq
      by_cases hknown : y ∈ trail.map Prod.snd
      · obtain ⟨r, hr, rfl⟩ := List.mem_map.mp hknown
        exact ⟨r, List.mem_append_left _ hr, rfl,
          (h.rank_lt_extended (List.mem_cons_of_mem _ hr) i).le⟩
      · have hfresh := mem_fresh_iff.mpr ⟨List.mem_of_getElem? hy, hknown⟩
        refine ⟨_, List.mem_append_right _ (List.mem_map_of_mem hfresh), rfl, ?_⟩
        rcases (idxOf_le hy).eq_or_lt with heq | hlt
        · rw [heq]
        · exact (rank_append_lt hlt).le

section complete

omit [BEq α] [LawfulBEq α]

/-- When everything is expanded, no route beats the one found to its end. -/
lemma Trail.exists_le (h : Trail next start done [] trail) {route : List Nat}
    (hroute : Route (Edge next) start route y) :
    ∃ q ∈ ([], start) :: trail, q.2 = y ∧ rank q.1 ≤ rank route ∧ (route ≠ [] → q ∈ trail) := by
  induction hroute with
  | here => exact ⟨_, List.mem_cons_self, rfl, le_rfl, fun hne => absurd rfl hne⟩
  | step _ hedge ih =>
    obtain ⟨p, hp, rfl, hle, -⟩ := ih
    rw [← h.whole, List.append_nil] at hp
    obtain ⟨q, hq, hqy, hlast⟩ := h.covered p hp _ _ hedge
    exact ⟨q, List.mem_cons_of_mem _ hq, hqy, hlast.trans (rank_append_le_append hle),
      fun _ => hq⟩

/-- The distance of a find is the length of its route. -/
lemma Trail.distance (h : Trail next start done [] trail) (hnodup : (trail.map Prod.snd).Nodup)
    {p : List Nat × α} (hp : p ∈ trail) : Distance (Edge next) start p.2 p.1.length := by
  refine ⟨⟨?_, p.1, h.leads p hp, rfl⟩, ?_⟩
  · obtain ⟨q, _, i, hgrown⟩ := h.grown p hp
    simp [hgrown]
  · rintro _ ⟨hpos, route, hroute, rfl⟩
    obtain ⟨q, _, hqp, hle, hq⟩ := h.exists_le hroute
    have hqp' : q = p :=
      List.inj_on_of_nodup_map hnodup (hq (List.length_pos_iff.mp hpos)) hp hqp
    exact length_le_of_rank_le (hqp' ▸ hle)

/-- The first point of a trail for which a partial function has a value is the end of the first of
all routes to such points. -/
lemma Trail.findSome?_eq_some (h : Trail next start done [] trail) {β : Type}
    {f : α → Option β} {b : β} (hfound : (start :: trail.map Prod.snd).findSome? f = some b) :
    ∃ route x, Route (Edge next) start route x ∧ f x = some b ∧
      ∀ other y, Route (Edge next) start other y → f y ≠ none → rank route ≤ rank other := by
  rw [← List.map_cons (f := Prod.snd) (a := ([], start)), List.findSome?_map,
    List.findSome?_eq_some_iff] at hfound
  obtain ⟨front, p, back, htrail, hp, hfront⟩ := hfound
  have hmem : p ∈ ([], start) :: trail := by
    rw [htrail]
    exact List.mem_append_right _ List.mem_cons_self
  refine ⟨p.1, p.2, h.route hmem, hp, fun other y hother hy => ?_⟩
  obtain ⟨q, hq, rfl, hle, -⟩ := h.exists_le hother
  have hsorted := h.sorted
  rw [htrail] at hq hsorted
  rcases List.mem_append.mp hq with hq | hq
  · exact absurd (hfront q hq) hy
  · rcases List.mem_cons.mp hq with rfl | hq
    · exact hle
    · have hlt := (List.pairwise_cons.mp (List.pairwise_append.mp hsorted).2.1).1 q hq
      exact hlt.le.trans hle

end complete

/-! ### The order of the finds -/

section breadthFirst

variable {targets : List α} {bound : Nat} (htargets : ∀ x, next x ⊆ targets)
  (hbound : targets.length < bound)
include htargets hbound

lemma exists_trail (start : α) :
    ∃ done trail, Trail next start done [] trail ∧
      trail.map Prod.snd = breadthFirst next bound start := by
  obtain ⟨done, pending, trail, h, hpending, htrail⟩ :=
    breadthFirst_induction htargets hbound start
      (motive := fun queue found => ∃ done pending trail, Trail next start done pending trail ∧
        pending.map Prod.snd = queue ∧ trail.map Prod.snd = found)
      ⟨[], [([], start)], [], trail_start next start, rfl, rfl⟩ (by
        rintro x queue found ⟨done, pending, trail, h, hpending, rfl⟩
        obtain ⟨p, pending, rfl, rfl, rfl⟩ := List.map_eq_cons_iff.mp hpending
        exact ⟨_, _, _, h.step, by rw [List.map_append, map_snd_extensions],
          by rw [List.map_append, map_snd_extensions]⟩)
  obtain rfl := List.map_eq_nil_iff.mp hpending
  exact ⟨done, trail, h, htrail⟩

/-- The finds stand in the order of their distances. -/
theorem pairwise_breadthFirst :
    (breadthFirst next bound start).Pairwise fun x y => ∃ m n,
      Distance (Edge next) start x m ∧ Distance (Edge next) start y n ∧ m ≤ n := by
  obtain ⟨done, trail, h, htrail⟩ := exists_trail htargets hbound start
  have hnodup : (trail.map Prod.snd).Nodup :=
    htrail ▸ (frontier_breadthFirst htargets hbound).nodup
  rw [← htrail]
  refine List.pairwise_map.mpr ((List.pairwise_cons.mp h.sorted).2.imp_of_mem ?_)
  intro p q hp hq hlt
  exact ⟨_, _, h.distance hnodup hp, h.distance hnodup hq, length_le_of_rank_le hlt.le⟩

/-- Of the start and the finds, the first for which a partial function has a value is the end of the
first of all routes to such points. -/
theorem findSome?_breadthFirst_eq_some_iff {β : Type} {f : α → Option β} {b : β} :
    (start :: breadthFirst next bound start).findSome? f = some b ↔
      ∃ route x, Route (Edge next) start route x ∧ f x = some b ∧
        ∀ other y, Route (Edge next) start other y → f y ≠ none → rank route ≤ rank other := by
  obtain ⟨done, trail, h, htrail⟩ := exists_trail htargets hbound start
  rw [← htrail]
  refine ⟨h.findSome?_eq_some, ?_⟩
  rintro ⟨route, x, hroute, hx, hfirst⟩
  have hsome : f x ≠ none := by simp [hx]
  cases hfound : (start :: trail.map Prod.snd).findSome? f with
  | none =>
    obtain ⟨q, hq, rfl, -⟩ := h.exists_le hroute
    exact absurd (List.findSome?_eq_none_iff.mp hfound _ (List.mem_map_of_mem hq)) hsome
  | some c =>
    obtain ⟨route', y, hroute', hy, hfirst'⟩ := h.findSome?_eq_some hfound
    have hrank := le_antisymm (hfirst route' y hroute' (by simp [hy]))
      (hfirst' route x hroute hsome)
    obtain rfl := rank_injective hrank
    obtain rfl := hroute.eq_of_functional (fun _ _ _ _ h h' => Option.some.inj (h.symm.trans h'))
      hroute'
    exact hy.symm.trans hx

end breadthFirst

end search

end Search

end CodeMigration
