import CodeMigration.Proofs.Rule.Order

/-!
# The greedy order

Rules can be arranged exactly when none of them waits for itself. For as long as no rule does,
some pending rule names no other pending one, so a turn is always taken; and as each turn goes to
the first rule that is ready, every position of the result is determined by those before it.
-/

namespace CodeMigration

namespace Rule

variable {rules order : List Rule}

/-! ### Cycles -/

lemma WaitsFor.mono {rules' : List Rule} (hsub : ∀ q ∈ rules, q ∈ rules') {q r : Rule}
    (h : WaitsFor rules q r) : WaitsFor rules' q r :=
  Relation.TransGen.mono (p := Names rules')
    (fun _ _ hnames => ⟨hsub _ hnames.1, hsub _ hnames.2.1, hnames.2.2⟩) q r h

/-- Where no rule waits for itself there is one that names none of the rules. -/
lemma exists_free (hacyclic : ∀ r, ¬ WaitsFor rules r r) (hne : rules ≠ []) :
    ∃ r ∈ rules, ∀ q ∈ rules, q.id ∉ r.after := by
  let awaited : {r // r ∈ rules} → {r // r ∈ rules} → Prop := fun q r => WaitsFor rules r q
  have : Finite {r // r ∈ rules} := (List.finite_toSet rules).to_subtype
  have : IsTrans _ awaited := ⟨fun _ _ _ hqr hrs => hrs.trans hqr⟩
  have : Std.Irrefl awaited := ⟨fun r => hacyclic r⟩
  obtain ⟨first, hfirst⟩ := List.exists_mem_of_ne_nil rules hne
  obtain ⟨r, -, hmin⟩ :=
    (Finite.wellFounded_of_trans_of_irrefl awaited).has_min Set.univ ⟨⟨first, hfirst⟩, trivial⟩
  exact ⟨r, r.2, fun q hq hname => hmin ⟨q, hq⟩ trivial (.single ⟨r.2, hq, hname⟩)⟩

/-- Rules none of which waits for itself can stand in order. -/
lemma exists_inOrder (hacyclic : ∀ r, ¬ WaitsFor rules r r) :
    ∃ order, order.Perm rules ∧ InOrder order := by
  induction hn : rules.length generalizing rules with
  | zero =>
    obtain rfl := List.length_eq_zero_iff.mp hn
    exact ⟨[], .nil, trivial⟩
  | succ n ih =>
    obtain ⟨r, hr, hfree⟩ := exists_free hacyclic (List.ne_nil_of_length_eq_add_one hn)
    obtain ⟨earlier, later, rfl⟩ := List.append_of_mem hr
    have hperm : (earlier ++ r :: later).Perm (r :: (earlier ++ later)) := List.perm_middle
    have hsub : ∀ q ∈ earlier ++ later, q ∈ earlier ++ r :: later :=
      fun q hq => hperm.mem_iff.mpr (List.mem_cons_of_mem r hq)
    obtain ⟨order, horder, hin⟩ := ih (fun q hq => hacyclic q (hq.mono hsub))
      (by simpa using hperm.length_eq.symm.trans hn)
    have hall : (r :: order).Perm (earlier ++ r :: later) := (horder.cons r).trans hperm.symm
    exact ⟨r :: order, hall, fun q hq => hfree q (hall.mem_iff.mp hq), hin⟩

/-- Rules can be arranged exactly when none waits for itself. -/
lemma arrange_ok_iff_acyclic (hids : (rules.map (·.id)).Nodup) :
    (∃ order, arrange rules = .ok order) ↔ ∀ r, ¬ WaitsFor rules r r := by
  rw [arrange_ok_iff hids]
  constructor
  · rintro ⟨order, hperm, horder⟩
    exact horder.not_waitsFor_self hperm hids
  · exact exists_inOrder

/-! ### Every position -/

/-- In an order that respects the names, what is named stands at an earlier position. -/
lemma InOrder.lt_of_names (h : InOrder order) {i j : Nat} {q r : Rule} (hq : order[i]? = some q)
    (hr : order[j]? = some r) (hname : r.id ∈ q.after) : j < i := by
  by_contra hle
  obtain ⟨hi, rfl⟩ := List.getElem?_eq_some_iff.mp hq
  have hrest := h.sublist (List.drop_sublist i order)
  rw [List.drop_eq_getElem_cons hi] at hrest
  refine hrest.1 r ?_ hname
  rw [← List.drop_eq_getElem_cons hi, List.mem_iff_getElem?]
  exact ⟨j - i, by rw [List.getElem?_drop, Nat.add_sub_cancel' (by omega), hr]⟩

/-- The first rule that is not placed and is ready. -/
def next? (rules : List Rule) (placed : List String) : Option Rule :=
  rules.find? fun r => r.id ∉ placed ∧ r.isReady (rules.map (·.id)) placed

lemma next?_congr {placed placed' : List String} (h : ∀ name, name ∈ placed ↔ name ∈ placed') :
    next? rules placed = next? rules placed' := by
  simp only [next?, isReady_iff, h]

/-- Each turn goes to the first rule that is not placed and is ready. -/
lemma Turns.getElem?_eq {placed : List String} {pending : List Rule}
    (hids : (rules.map (·.id)).Nodup) (h : Turns (rules.map (·.id)) placed pending order)
    (hpending : rules.filter (·.id ∉ placed) = pending) {i : Nat} (hi : i < order.length) :
    order[i]? = next? rules (placed ++ (order.take i).map (·.id)) := by
  induction h generalizing i with
  | nil => exact absurd hi (Nat.not_lt_zero i)
  | @turn placed earlier later order r hwait hready hrest ih =>
    cases i with
    | zero =>
      have hfind : (earlier ++ r :: later).find? (isReady (rules.map (·.id)) placed) = some r := by
        rw [List.find?_append, List.find?_eq_none.mpr (by simpa using hwait),
          List.find?_cons_of_pos hready, Option.none_or]
      rw [List.take_zero, List.map_nil, List.append_nil, List.getElem?_cons_zero, ← hfind,
        ← hpending, List.find?_filter]
      simp only [next?, decide_eq_true_eq]
    | succ i =>
      rw [List.getElem?_cons_succ,
        ih (filter_taken Rule.id hids hpending) (Nat.lt_of_succ_lt_succ hi),
        List.take_succ_cons, List.map_cons]
      exact next?_congr fun name => List.perm_middle.symm.mem_iff

/-- Rules with distinct names are arranged exactly when none waits for itself, directly or through
others. They then come behind those they name, and at each position stands the first rule that is
not placed before and whose registered names are. -/
theorem arranged_greedily {rules : List Rule} (hids : (rules.map (·.id)).Nodup) :
    ((∃ order, arrange rules = .ok order) ↔ ∀ r, ¬ WaitsFor rules r r) ∧
      ∀ order, arrange rules = .ok order → order.Perm rules ∧
        (∀ (i j : Nat) (q r : Rule), order[i]? = some q → order[j]? = some r →
          r.id ∈ q.after → j < i) ∧
        ∀ i < order.length, order[i]? = next? rules ((order.take i).map (·.id)) := by
  refine ⟨arrange_ok_iff_acyclic hids, fun order h => ?_⟩
  obtain ⟨hperm, horder⟩ := inOrder_of_arrange hids h
  refine ⟨hperm, fun i j q r hq hr hname => horder.lt_of_names hq hr hname, fun i hi => ?_⟩
  exact ((arrange_eq_ok_iff hids).mp h).getElem?_eq hids (by simp) hi

/-- A rule that does nothing. -/
def idle (id : String) (after : List String) : Rule :=
  { id, kinds := [], after, apply := fun _ _ _ => return .unchanged }

/-- A rule that names another twice and one that is not registered. -/
def repeating : List Rule := [idle "a" ["c", "c", "ghost"], idle "b" [], idle "c" []]

theorem arranged_greedily_repeating :
    (∀ r, ¬ WaitsFor repeating r r) ∧
      ∃ order, arrange repeating = .ok order ∧ order.map (·.id) = ["b", "c", "a"] ∧
        ∀ i < order.length, order[i]? = next? repeating ((order.take i).map (·.id)) := by
  have hrun : (arrange repeating).map (List.map (·.id)) = .ok ["b", "c", "a"] := by rfl
  obtain ⟨hiff, hspec⟩ := arranged_greedily (by decide : (repeating.map (·.id)).Nodup)
  refine ⟨hiff.mp ⟨_, rfl⟩, ?_⟩
  obtain ⟨order, horder⟩ : ∃ order, arrange repeating = .ok order := ⟨_, rfl⟩
  rw [horder] at hrun
  exact ⟨order, horder, Except.ok.inj hrun, (hspec order horder).2.2⟩

-- A rule that names itself waits for itself.
example : arrange [idle "b" [], idle "a" ["a"]] = .error (.ruleCycle "a") := by rfl

end Rule

end CodeMigration
