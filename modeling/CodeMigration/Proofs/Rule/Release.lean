import CodeMigration.Rule.Order
import Mathlib.Data.List.Nodup
import Mathlib.Tactic

/-!
# The release of rules

The order of rules is a matter of turns: each turn goes to the first rule whose named rules have
all had theirs. The release keeps this order by counting alone. What it carries from turn to turn
is that every count is the number of times a position is named still, and that the positions kept
ready are those whose count is zero and whose turn is to come.
-/

namespace CodeMigration

namespace Rule

/-! ### Turns -/

/-- Whether every registered rule that `r` names has been placed. -/
def isReady (registered placed : List String) (r : Rule) : Bool :=
  r.after.all fun name => !registered.contains name || placed.contains name

/-- The pending rules are placed in this order, at every turn the first one that is ready. -/
inductive Turns (registered : List String) : List String → List Rule → List Rule → Prop where
  | nil (placed : List String) : Turns registered placed [] []
  | turn {placed : List String} {earlier later order : List Rule} {r : Rule}
      (hwait : ∀ q ∈ earlier, q.isReady registered placed = false)
      (hready : r.isReady registered placed = true)
      (hrest : Turns registered (r.id :: placed) (earlier ++ later) order) :
      Turns registered placed (earlier ++ r :: later) (r :: order)

section turns

variable {registered placed : List String} {pending order : List Rule}

lemma isReady_iff {r : Rule} : r.isReady registered placed = true ↔
    ∀ name ∈ r.after, name ∈ registered → name ∈ placed := by
  simp only [isReady, List.all_eq_true, Bool.or_eq_true, Bool.not_eq_true', List.contains_eq_mem,
    decide_eq_false_iff_not, decide_eq_true_eq]
  exact forall₂_congr fun _ _ => imp_iff_not_or.symm

/-- Either no rule is ready, or there is a first one. -/
lemma first_ready (registered placed : List String) (pending : List Rule) :
    (∀ q ∈ pending, q.isReady registered placed = false) ∨
    ∃ earlier r later, pending = earlier ++ r :: later ∧
      (∀ q ∈ earlier, q.isReady registered placed = false) ∧
      r.isReady registered placed = true := by
  cases hfind : pending.find? (·.isReady registered placed) with
  | none =>
    refine Or.inl fun q hq => ?_
    simpa using List.find?_eq_none.mp hfind q hq
  | some r =>
    obtain ⟨hready, earlier, later, hpending, hwait⟩ := List.find?_eq_some_iff_append.mp hfind
    exact Or.inr ⟨earlier, r, later, hpending, fun q hq => by simpa using hwait q hq, hready⟩

lemma Turns.perm (h : Turns registered placed pending order) : order.Perm pending := by
  induction h with
  | nil placed => exact List.Perm.nil
  | turn _ _ _ ih => exact (ih.cons _).trans List.perm_middle.symm

lemma Turns.eq_nil (h : Turns registered placed pending order)
    (hwait : ∀ q ∈ pending, q.isReady registered placed = false) : pending = [] := by
  cases h with
  | nil => rfl
  | turn _ hready _ =>
    rw [hwait _ (by simp)] at hready
    cases hready

/-- A turn takes what is next out of what is not placed. -/
lemma filter_taken {α κ : Type} [DecidableEq κ] (key : α → κ) {row earlier later : List α} {x : α}
    {placed : List κ} (hkeys : (row.map key).Nodup)
    (h : row.filter (key · ∉ placed) = earlier ++ x :: later) :
    row.filter (key · ∉ key x :: placed) = earlier ++ later := by
  have hnodup : ((earlier ++ x :: later).map key).Nodup :=
    h ▸ hkeys.sublist (List.filter_sublist.map _)
  rw [(List.perm_middle.map _).nodup_iff, List.map_cons, List.nodup_cons] at hnodup
  calc row.filter (key · ∉ key x :: placed)
      = (row.filter (key · ∉ placed)).filter (key · ≠ key x) := by
        simp [List.filter_filter]
    _ = (earlier ++ later).filter (key · ≠ key x) := by
        rw [h]
        simp
    _ = earlier ++ later :=
        List.filter_eq_self.mpr fun y hy => by
          simpa using ne_of_mem_of_not_mem (List.mem_map_of_mem hy) hnodup.1

/-- Where the first ready rule stands. -/
lemma span_of_ready {earlier : List Rule} {r : Rule}
    (hwait : ∀ q ∈ earlier, q.isReady registered placed = false)
    (hready : r.isReady registered placed = true) (later : List Rule) :
    (earlier ++ r :: later).span (! isReady registered placed ·) = (earlier, r :: later) := by
  rw [List.span_eq_takeWhile_dropWhile, List.takeWhile_append_of_pos (by simpa using hwait),
    List.dropWhile_append_of_pos (by simpa using hwait),
    List.takeWhile_cons_of_neg (by simp [hready]), List.dropWhile_cons_of_neg (by simp [hready]),
    List.append_nil]

/-- The first turn goes to the first ready rule. -/
lemma turns_append_iff {earlier later : List Rule} {r : Rule}
    (hwait : ∀ q ∈ earlier, q.isReady registered placed = false)
    (hready : r.isReady registered placed = true) :
    Turns registered placed (earlier ++ r :: later) order ↔
      ∃ rest, order = r :: rest ∧ Turns registered (r.id :: placed) (earlier ++ later) rest := by
  constructor
  · generalize hpending : earlier ++ r :: later = pending
    intro h
    cases h with
    | nil => simp at hpending
    | turn hwait' hready' hrest =>
      have hspan := span_of_ready hwait hready later
      rw [hpending, span_of_ready hwait' hready'] at hspan
      cases hspan
      exact ⟨_, rfl, hrest⟩
  · rintro ⟨rest, rfl, hrest⟩
    exact .turn hwait hready hrest

end turns

/-! ### Ascending lists -/

lemma mem_enter {i j : Nat} {row : List Nat} : j ∈ enter i row ↔ j = i ∨ j ∈ row := by
  induction row with
  | nil => simp [enter]
  | cons k row ih =>
    rw [enter]
    split_ifs with hlt heq
    · exact List.mem_cons
    · subst heq
      simp
    · rw [List.mem_cons, ih, List.mem_cons, or_left_comm]

lemma pairwise_enter {i : Nat} {row : List Nat} (h : row.Pairwise (· < ·)) :
    (enter i row).Pairwise (· < ·) := by
  induction row with
  | nil => exact List.pairwise_singleton _ i
  | cons k row ih =>
    rw [List.pairwise_cons] at h
    rw [enter]
    split_ifs with hlt heq
    · refine List.pairwise_cons.mpr ⟨fun j hj => ?_, List.pairwise_cons.mpr h⟩
      rcases List.mem_cons.mp hj with rfl | hj
      · exact hlt
      · exact hlt.trans (h.1 j hj)
    · exact List.pairwise_cons.mpr h
    · refine List.pairwise_cons.mpr ⟨fun j hj => ?_, ih h.2⟩
      rcases mem_enter.mp hj with rfl | hj
      · omega
      · exact h.1 j hj

/-! ### Open edges -/

/-- How often a position waits for one that is not placed. -/
def openEdges (edges : List (Nat × Nat)) (placed : List Nat) (j : Nat) : Nat :=
  edges.countP fun e => e.2 = j ∧ e.1 ∉ placed

section edges

variable {edges : List (Nat × Nat)} {placed : List Nat} {i j : Nat}

lemma openEdges_eq_zero :
    openEdges edges placed j = 0 ↔ ∀ e ∈ edges, e.2 = j → e.1 ∈ placed := by
  simp [openEdges, List.countP_eq_zero]

lemma mem_successors : j ∈ successors edges i ↔ (i, j) ∈ edges := by
  simp [successors]

/-- A turn closes the edges that leave the position. -/
lemma openEdges_cons (edges : List (Nat × Nat)) (hpending : i ∉ placed) (j : Nat) :
    openEdges edges placed j = openEdges edges (i :: placed) j + (successors edges i).count j := by
  induction edges with
  | nil => rfl
  | cons e edges ih =>
    obtain ⟨k, l⟩ := e
    simp only [openEdges, successors] at ih
    simp only [openEdges, successors, List.countP_cons, List.filterMap_cons, ih]
    rcases eq_or_ne k i with rfl | hki <;> rcases eq_or_ne l j with rfl | hlj <;>
      simp [*] <;> omega

end edges

/-! ### The counts -/

namespace Release

/-- The release stands where every position waits as often as `left` says. -/
structure Tracks (count : Nat) (left : Nat → Nat) (placed : List Nat) (s : Release) : Prop where
  waits : s.waits = (List.range count).map left
  ready : ∀ j, j ∈ s.ready ↔ j < count ∧ left j = 0 ∧ j ∉ placed
  ascending : s.ready.Pairwise (· < ·)

section tracks

variable {edges : List (Nat × Nat)} {count : Nat} {left : Nat → Nat} {placed : List Nat}
  {s : Release} {i j : Nat}

lemma getD_map_range (hj : j < count) : ((List.range count).map left).getD j 0 = left j := by
  simp [hj]

lemma tracks_start (edges : List (Nat × Nat)) (count : Nat) :
    Tracks count (openEdges edges []) [] (start edges count) := by
  have hwaits : (start edges count).waits = (List.range count).map (openEdges edges []) := by
    simp [start, openEdges, ← Bool.beq_eq_decide_eq]
  refine ⟨hwaits, fun j => ?_, List.pairwise_lt_range.filter _⟩
  have hready : (start edges count).ready =
      (List.range count).filter fun j => (start edges count).waits.getD j 0 == 0 := rfl
  rw [hready, hwaits, List.mem_filter, List.mem_range]
  refine ⟨fun ⟨hj, hzero⟩ => ⟨hj, ?_, List.not_mem_nil⟩, fun ⟨hj, hzero, _⟩ => ⟨hj, ?_⟩⟩
  · rwa [getD_map_range hj, beq_iff_eq] at hzero
  · rwa [getD_map_range hj, beq_iff_eq]

/-- A position waits one time less. -/
lemma Tracks.meet (h : Tracks count left placed s) (hj : j < count) (hpending : j ∉ placed) :
    Tracks count (Function.update left j (left j - 1)) placed (s.meet j) := by
  have hleft : s.waits.getD j 0 = left j := by rw [h.waits, getD_map_range hj]
  have hready : (s.meet j).ready = if left j - 1 = 0 then enter j s.ready else s.ready := by
    rw [Release.meet, hleft]
  refine ⟨?_, fun k => ?_, ?_⟩
  · rw [Release.meet, hleft, h.waits]
    refine List.ext_getElem (by simp) fun k _ _ => ?_
    simp [List.getElem_set, Function.update_apply, eq_comm]
  · rw [hready]
    rcases eq_or_ne k j with rfl | hne
    · rw [Function.update_self]
      split_ifs with hzero
      · simp [mem_enter, hj, hzero, hpending]
      · have hpos : left k ≠ 0 := by omega
        simp [h.ready, hpos, hzero]
    · rw [Function.update_of_ne hne, ← h.ready]
      split_ifs
      · simp [mem_enter, hne]
      · rfl
  · rw [hready]
    split_ifs
    · exact pairwise_enter h.ascending
    · exact h.ascending

/-- Everything that waits for one position does so no longer. -/
lemma Tracks.meetAll {todo : List Nat} (htodo : ∀ j ∈ todo, j < count ∧ j ∉ placed)
    (h : Tracks count (fun j => left j + todo.count j) placed s) :
    Tracks count left placed (todo.foldl Release.meet s) := by
  induction todo generalizing s with
  | nil => exact h
  | cons j todo ih =>
    rw [List.forall_mem_cons] at htodo
    have hcount : Function.update (fun k => left k + (j :: todo).count k) j
        (left j + (j :: todo).count j - 1) = fun k => left k + todo.count k := by
      funext k
      rcases eq_or_ne k j with rfl | hne
      · rw [Function.update_self, List.count_cons_self, Nat.add_succ_sub_one]
      · rw [Function.update_of_ne hne, List.count_cons_of_ne hne.symm]
    exact ih htodo.2 (hcount ▸ h.meet htodo.1.1 htodo.1.2)

end tracks

/-- The release stands where the placed positions have had their turns. -/
structure Follows (edges : List (Nat × Nat)) (count : Nat) (placed : List Nat) (s : Release) : Prop
    extends Tracks count (openEdges edges placed) placed s where
  inside : ∀ e ∈ edges, e.2 < count
  closed : ∀ j ∈ placed, openEdges edges placed j = 0

section follows

variable {edges : List (Nat × Nat)} {count : Nat} {placed rest : List Nat} {s : Release} {i : Nat}

lemma follows_start (hinside : ∀ e ∈ edges, e.2 < count) :
    Follows edges count [] (start edges count) :=
  ⟨tracks_start edges count, hinside, by simp⟩

lemma Follows.turn (h : Follows edges count placed s) (hready : s.ready = i :: rest) :
    Follows edges count (i :: placed)
      ((successors edges i).foldl meet { s with ready := rest }) := by
  obtain ⟨hi, hzero, hpending⟩ := (h.ready i).mp (hready ▸ List.mem_cons_self)
  have hascending := h.ascending
  rw [hready, List.pairwise_cons] at hascending
  -- What waits for a pending position is neither placed nor that position itself.
  have htodo : ∀ j ∈ successors edges i, j < count ∧ j ∉ i :: placed := by
    intro j hj
    rw [mem_successors] at hj
    refine ⟨h.inside _ hj, fun hin => hpending ?_⟩
    rcases List.mem_cons.mp hin with rfl | hin
    · exact openEdges_eq_zero.mp hzero _ hj rfl
    · exact openEdges_eq_zero.mp (h.closed j hin) _ hj rfl
  have hpop : Tracks count
      (fun j => openEdges edges (i :: placed) j + (successors edges i).count j) (i :: placed)
      { s with ready := rest } := by
    simp only [← openEdges_cons edges hpending]
    refine ⟨h.waits, fun j => ?_, hascending.2⟩
    have hj := h.ready j
    rw [hready, List.mem_cons] at hj
    rw [List.mem_cons, not_or]
    constructor
    · intro hin
      obtain ⟨hlt, hz, hp⟩ := hj.mp (Or.inr hin)
      exact ⟨hlt, hz, (hascending.1 j hin).ne', hp⟩
    · rintro ⟨hlt, hz, hne, hp⟩
      exact (hj.mpr ⟨hlt, hz, hp⟩).resolve_left hne
  refine ⟨hpop.meetAll htodo, h.inside, fun j hj => ?_⟩
  have hbefore : openEdges edges placed j = 0 := by
    rcases List.mem_cons.mp hj with rfl | hj
    · exact hzero
    · exact h.closed j hj
  rw [openEdges_cons edges hpending] at hbefore
  omega

end follows

end Release

/-! ### Positions and rules -/

section positions

variable {rules : List Rule} {placed : List Nat} {i j : Nat}

lemma eq_of_getElem?_id (hids : (rules.map (·.id)).Nodup) {q r : Rule} (hq : rules[i]? = some q)
    (hr : rules[j]? = some r) (hid : q.id = r.id) : i = j := by
  have hi : (rules.map (·.id))[i]? = some q.id := by rw [List.getElem?_map, hq]; rfl
  have hj : (rules.map (·.id))[j]? = some q.id := by rw [List.getElem?_map, hr, hid]; rfl
  exact (List.getElem?_inj (List.getElem?_eq_some_iff.mp hi).1 hids).mp (hi.trans hj.symm)

/-- The position of a name. -/
lemma findIdx?_id (hids : (rules.map (·.id)).Nodup) {name : String} :
    rules.findIdx? (·.id == name) = some i ↔ ∃ q, rules[i]? = some q ∧ q.id = name := by
  rw [List.findIdx?_eq_some_iff_getElem]
  constructor
  · rintro ⟨hi, hid, -⟩
    exact ⟨rules[i], List.getElem?_eq_getElem hi, by simpa using hid⟩
  · rintro ⟨q, hq, rfl⟩
    obtain ⟨hi, rfl⟩ := List.getElem?_eq_some_iff.mp hq
    refine ⟨hi, by simp, fun k hk hid => hk.ne ?_⟩
    exact eq_of_getElem?_id hids (List.getElem?_eq_getElem (by omega)) hq (by simpa using hid)

lemma mem_dependencies (hids : (rules.map (·.id)).Nodup) :
    (i, j) ∈ dependencies rules ↔
      ∃ q r, rules[i]? = some q ∧ rules[j]? = some r ∧ q.id ∈ r.after := by
  simp only [dependencies, List.mem_flatMap, List.mem_filterMap, Option.map_eq_some_iff,
    findIdx?_id hids, Prod.exists, Prod.mk.injEq, List.mk_mem_zipIdx_iff_getElem?]
  constructor
  · rintro ⟨r, _, hr, name, hname, _, ⟨q, hq, rfl⟩, rfl, rfl⟩
    exact ⟨q, r, hq, hr, hname⟩
  · rintro ⟨q, r, hq, hr, hname⟩
    exact ⟨r, j, hr, q.id, hname, i, ⟨q, hq, rfl⟩, rfl, rfl⟩

/-- The names of the rules at some positions. -/
def idsAt (rules : List Rule) (placed : List Nat) : List String :=
  placed.filterMap fun i => rules[i]?.map (·.id)

/-- The rules whose positions have not had their turn. -/
def pending (rules : List Rule) (placed : List Nat) : List Rule :=
  ((List.range rules.length).filter (· ∉ placed)).filterMap (rules[·]?)

lemma mem_idsAt (hids : (rules.map (·.id)).Nodup) {r : Rule} (hr : rules[i]? = some r) :
    r.id ∈ idsAt rules placed ↔ i ∈ placed := by
  simp only [idsAt, List.mem_filterMap, Option.map_eq_some_iff]
  constructor
  · rintro ⟨k, hk, q, hq, hid⟩
    exact eq_of_getElem?_id hids hq hr hid ▸ hk
  · intro hi
    exact ⟨i, hi, r, hr, rfl⟩

/-- A position waits for nothing exactly when its rule is ready. -/
lemma openEdges_dependencies (hids : (rules.map (·.id)).Nodup) {r : Rule}
    (hr : rules[j]? = some r) :
    openEdges (dependencies rules) placed j = 0 ↔
      r.isReady (rules.map (·.id)) (idsAt rules placed) = true := by
  rw [openEdges_eq_zero, isReady_iff]
  constructor
  · intro hclosed name hname hregistered
    obtain ⟨q, hq, rfl⟩ := List.mem_map.mp hregistered
    obtain ⟨i, hi⟩ := List.mem_iff_getElem?.mp hq
    have hedge : (i, j) ∈ dependencies rules := (mem_dependencies hids).mpr ⟨q, r, hi, hr, hname⟩
    exact (mem_idsAt hids hi).mpr (hclosed _ hedge rfl)
  · rintro hready ⟨i, _⟩ hedge rfl
    obtain ⟨q, r', hi, hr', hname⟩ := (mem_dependencies hids).mp hedge
    obtain rfl := Option.some.inj (hr.symm.trans hr')
    exact (mem_idsAt hids hi).mp
      (hready q.id hname (List.mem_map_of_mem (List.mem_of_getElem? hi)))

section turns

variable {s : Release} {rest : List Nat}

/-- A pending rule whose position is not kept ready is not ready. -/
lemma isReady_eq_false (hids : (rules.map (·.id)).Nodup)
    (h : Release.Follows (dependencies rules) rules.length placed s) {q : Rule}
    (hq : rules[j]? = some q) (hpending : j ∉ placed) (hj : j ∉ s.ready) :
    q.isReady (rules.map (·.id)) (idsAt rules placed) = false := by
  rw [Bool.eq_false_iff, ne_eq, ← openEdges_dependencies hids hq]
  exact fun hzero => hj ((h.ready j).mpr ⟨(List.getElem?_eq_some_iff.mp hq).1, hzero, hpending⟩)

/-- The first position that is kept ready splits what is pending. -/
lemma pending_split (hids : (rules.map (·.id)).Nodup)
    (h : Release.Follows (dependencies rules) rules.length placed s)
    (hready : s.ready = i :: rest) :
    ∃ earlier r later, rules[i]? = some r ∧
      pending rules placed = earlier ++ r :: later ∧
      pending rules (i :: placed) = earlier ++ later ∧
      (∀ q ∈ earlier, q.isReady (rules.map (·.id)) (idsAt rules placed) = false) ∧
      r.isReady (rules.map (·.id)) (idsAt rules placed) = true := by
  obtain ⟨hi, hzero, hpending⟩ := (h.ready i).mp (hready ▸ List.mem_cons_self)
  have hr : rules[i]? = some rules[i] := List.getElem?_eq_getElem hi
  have hmem : i ∈ (List.range rules.length).filter (· ∉ placed) := by simp [hi, hpending]
  obtain ⟨before, after, hsplit⟩ := List.append_of_mem hmem
  have hsorted : (before ++ i :: after).Pairwise (· < ·) :=
    hsplit ▸ List.pairwise_lt_range.filter _
  have hless : (List.range rules.length).filter (· ∉ i :: placed) = before ++ after :=
    filter_taken (fun k => k) (by simpa using List.nodup_range) hsplit
  rw [List.pairwise_append] at hsorted
  refine ⟨before.filterMap (rules[·]?), rules[i], after.filterMap (rules[·]?), hr, ?_, ?_, ?_,
    (openEdges_dependencies hids hr).mp hzero⟩
  · rw [pending, hsplit, List.filterMap_append, List.filterMap_cons_some hr]
  · rw [pending, hless, List.filterMap_append]
  · intro q hq
    obtain ⟨k, hk, hkq⟩ := List.mem_filterMap.mp hq
    have hpending' : k ∉ placed := by
      have hin : k ∈ (List.range rules.length).filter (· ∉ placed) :=
        hsplit ▸ List.mem_append_left _ hk
      simpa using (List.mem_filter.mp hin).2
    refine isReady_eq_false hids h hkq hpending' fun hin => ?_
    -- The positions that are kept ready ascend from `i`.
    have hlt : k < i := hsorted.2.2 k hk i List.mem_cons_self
    have hascending := h.ascending
    rw [hready] at hin hascending
    rcases List.mem_cons.mp hin with rfl | hin
    · exact hlt.false
    · exact absurd ((List.pairwise_cons.mp hascending).1 k hin) (by omega)

/-- The turns of the rules are those of the release. -/
lemma turns_iff {n : Nat} (hids : (rules.map (·.id)).Nodup)
    (h : Release.Follows (dependencies rules) rules.length placed s)
    (hn : (pending rules placed).length = n) (order : List Rule) :
    Turns (rules.map (·.id)) (idsAt rules placed) (pending rules placed) order ↔
      (Release.order (dependencies rules) n s).length = n ∧
        (Release.order (dependencies rules) n s).filterMap (rules[·]?) = order := by
  induction n generalizing placed s order with
  | zero =>
    rw [List.length_eq_zero_iff.mp hn]
    constructor
    · intro hturns
      exact ⟨rfl, (List.perm_nil.mp hturns.perm).symm⟩
    · rintro ⟨-, rfl⟩
      exact .nil _
  | succ n ih =>
    rw [Release.order]
    cases hready : s.ready with
    | nil =>
      have hwait : ∀ q ∈ pending rules placed,
          q.isReady (rules.map (·.id)) (idsAt rules placed) = false := by
        intro q hq
        obtain ⟨k, hk, hkq⟩ := List.mem_filterMap.mp hq
        exact isReady_eq_false hids h hkq (by simpa using (List.mem_filter.mp hk).2)
          (by simp [hready])
      constructor
      · intro hturns
        rw [hturns.eq_nil hwait] at hn
        cases hn
      · rintro ⟨hlength, -⟩
        cases hlength
    | cons i rest =>
      obtain ⟨earlier, r, later, hr, hsplit, hsplit', hwait, hfirst⟩ := pending_split hids h hready
      have hplaced : idsAt rules (i :: placed) = r.id :: idsAt rules placed := by
        simp [idsAt, hr]
      have hn' : (pending rules (i :: placed)).length = n := by
        rw [hsplit, List.length_append, List.length_cons] at hn
        rw [hsplit', List.length_append]
        omega
      have hrest := ih (h.turn hready) hn'
      rw [hplaced, hsplit'] at hrest
      simp only [hsplit, turns_append_iff hwait hfirst, hrest, List.length_cons,
        List.filterMap_cons, hr, Nat.add_right_cancel_iff]
      constructor
      · rintro ⟨order, rfl, hlength, rfl⟩
        exact ⟨hlength, rfl⟩
      · rintro ⟨hlength, rfl⟩
        exact ⟨_, rfl, hlength, rfl⟩

end turns

lemma pending_nil (rules : List Rule) : pending rules [] = rules := by
  have hall : (List.range rules.length).filter (· ∉ ([] : List Nat)) = List.range rules.length := by
    simp
  rw [pending, hall]
  induction rules using List.reverseRecOn with
  | nil => rfl
  | append_singleton rules r ih =>
    rw [List.length_append, List.length_singleton, List.range_succ, List.filterMap_append]
    have hold : (List.range rules.length).filterMap ((rules ++ [r])[·]?) =
        (List.range rules.length).filterMap (rules[·]?) :=
      List.filterMap_congr fun i hi => List.getElem?_append_left (List.mem_range.mp hi)
    rw [hold, ih (by simp)]
    simp

lemma arrange_eq_ok_iff (hids : (rules.map (·.id)).Nodup) {order : List Rule} :
    arrange rules = .ok order ↔ Turns (rules.map (·.id)) [] rules order := by
  have hinside : ∀ e ∈ dependencies rules, e.2 < rules.length := by
    rintro ⟨i, j⟩ hedge
    obtain ⟨_, _, -, hr, -⟩ := (mem_dependencies hids).mp hedge
    exact (List.getElem?_eq_some_iff.mp hr).1
  have hturns := turns_iff hids (Release.follows_start hinside)
    (congrArg List.length (pending_nil rules)) order
  rw [pending_nil] at hturns
  refine Iff.trans ?_ hturns.symm
  rw [arrange]
  split_ifs with hlength
  · simp [hlength]
  · simp [hlength]

end positions

end Rule

end CodeMigration
