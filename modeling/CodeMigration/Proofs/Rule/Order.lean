import CodeMigration.Pipeline
import CodeMigration.Proofs.Rule.Release
import Mathlib.Data.List.Perm.Subperm
import Mathlib.Logic.Relation
import Mathlib.Tactic

/-!
# The order of rules

Rules can be arranged exactly when they can stand in an order in which each comes behind those it
names. Registering one rule more moves those that wait for it, directly or through others, behind it
and leaves the order of all others alone. So rules that are registered one by one are accepted
exactly when they can be arranged at once; but a rule that has been moved stays where it is when the
rules in front of it are moved in their turn, and the two orders can differ.
-/

namespace CodeMigration

namespace Rule

/-! ### Orders that respect the names -/

/-- Each rule comes behind those of the rules that it names. -/
def InOrder : List Rule → Prop
  | [] => True
  | r :: rest => (∀ q ∈ r :: rest, q.id ∉ r.after) ∧ InOrder rest

lemma InOrder.sublist {rules order : List Rule} (h : InOrder order) (hsub : rules.Sublist order) :
    InOrder rules := by
  induction hsub with
  | slnil => exact h
  | cons _ _ ih => exact ih h.2
  | cons_cons r hsub ih => exact ⟨fun q hq => h.1 q ((hsub.cons_cons r).subset hq), ih h.2⟩

/-- Rules that name no others are in order. -/
lemma inOrder_of_free {rules : List Rule} (hfree : ∀ r ∈ rules, r.after = []) : InOrder rules := by
  induction rules with
  | nil => trivial
  | cons r rules ih =>
    rw [List.forall_mem_cons] at hfree
    exact ⟨by simp [hfree.1], ih hfree.2⟩

section order

variable {registered placed : List String} {pending order rules : List Rule}

/-- What is placed in turns respects the names. -/
lemma Turns.inOrder (h : Turns registered placed pending order)
    (hids : (pending.map (·.id)).Nodup) (hregistered : ∀ r ∈ pending, r.id ∈ registered)
    (hplaced : ∀ r ∈ pending, r.id ∉ placed) : InOrder order := by
  induction h with
  | nil placed => trivial
  | @turn placed earlier later order r hwait hready hrest ih =>
    have hperm : (earlier ++ r :: later).Perm (r :: (earlier ++ later)) := List.perm_middle
    rw [(hperm.map _).nodup_iff, List.map_cons, List.nodup_cons] at hids
    have hmem : ∀ q ∈ r :: order, q ∈ earlier ++ r :: later := fun q hq =>
      hperm.mem_iff.mpr (((hrest.perm.cons r).mem_iff).mp hq)
    refine ⟨fun q hq hname => hplaced q (hmem q hq) ?_, ih hids.2 ?_ ?_⟩
    · exact isReady_iff.mp hready q.id hname (hregistered q (hmem q hq))
    · exact fun q hq => hregistered q (hperm.mem_iff.mpr (List.mem_cons_of_mem r hq))
    · intro q hq hin
      rcases List.mem_cons.mp hin with heq | hin
      · exact hids.1 (List.mem_map.mpr ⟨q, hq, heq⟩)
      · exact hplaced q (hperm.mem_iff.mpr (List.mem_cons_of_mem r hq)) hin

/-- After a turn each registered name is still that of a placed or of a pending rule. -/
lemma known_turn {r : Rule} {others : List Rule} (hperm : pending.Perm (r :: others))
    (hknown : ∀ name ∈ registered, name ∈ placed ∨ ∃ q ∈ pending, q.id = name) :
    ∀ name ∈ registered, name ∈ r.id :: placed ∨ ∃ q ∈ others, q.id = name := by
  intro name hregistered
  rcases hknown name hregistered with hin | ⟨q, hq, rfl⟩
  · exact Or.inl (List.mem_cons_of_mem _ hin)
  · rcases List.mem_cons.mp (hperm.mem_iff.mp hq) with rfl | hq
    · exact Or.inl List.mem_cons_self
    · exact Or.inr ⟨q, hq, rfl⟩

/-- A rule that names no pending rule is ready. -/
lemma isReady_of_known {r : Rule}
    (hknown : ∀ name ∈ registered, name ∈ placed ∨ ∃ q ∈ pending, q.id = name)
    (hfree : ∀ q ∈ pending, q.id ∉ r.after) : r.isReady registered placed = true := by
  refine isReady_iff.mpr fun name hname hregistered => ?_
  rcases hknown name hregistered with hin | ⟨q, hq, rfl⟩
  · exact hin
  · exact absurd hname (hfree q hq)

/-- Rules that are in order already are placed as they are. -/
lemma InOrder.turns (h : InOrder pending)
    (hknown : ∀ name ∈ registered, name ∈ placed ∨ ∃ q ∈ pending, q.id = name) :
    Turns registered placed pending pending := by
  induction pending generalizing placed with
  | nil => exact .nil placed
  | cons r rest ih =>
    have hnone : ∀ q ∈ ([] : List Rule), q.isReady registered placed = false := by simp
    exact .turn hnone (isReady_of_known hknown h.1) (ih h.2 (known_turn (.refl _) hknown))

lemma arrange_of_inOrder (hids : (rules.map (·.id)).Nodup) (h : InOrder rules) :
    arrange rules = .ok rules :=
  (arrange_eq_ok_iff hids).mpr (h.turns fun _ hname => Or.inr (List.mem_map.mp hname))

/-- As long as the pending rules can stand in order, one of them is ready. -/
lemma exists_turns (registered placed : List String) (h : InOrder order)
    (hperm : order.Perm pending)
    (hknown : ∀ name ∈ registered, name ∈ placed ∨ ∃ q ∈ pending, q.id = name) :
    ∃ order', Turns registered placed pending order' := by
  induction hn : pending.length generalizing placed pending order with
  | zero =>
    obtain rfl := List.length_eq_zero_iff.mp hn
    exact ⟨[], .nil placed⟩
  | succ n ih =>
    rcases first_ready registered placed pending with
      hwait | ⟨earlier, r, later, rfl, hwait, hready⟩
    · -- The first rule of the order names none that is pending.
      cases order with
      | nil =>
        obtain rfl := hperm.nil_eq
        cases hn
      | cons r order =>
        have hready : r.isReady registered placed = true :=
          isReady_of_known hknown fun q hq => h.1 q (hperm.mem_iff.mpr hq)
        rw [hwait r (hperm.mem_iff.mp List.mem_cons_self)] at hready
        cases hready
    · have hsub : (earlier ++ later).Subperm order :=
        ((List.sublist_cons_self r later).append_left earlier).subperm.trans hperm.symm.subperm
      obtain ⟨order₁, hperm₁, hsub₁⟩ := hsub
      rw [List.length_append, List.length_cons] at hn
      obtain ⟨order₂, hturns⟩ := ih (r.id :: placed) (h.sublist hsub₁) hperm₁
        (known_turn List.perm_middle hknown) (by rw [List.length_append]; omega)
      exact ⟨r :: order₂, .turn hwait hready hturns⟩

/-- What comes out of an arrangement are the same rules, in order. -/
lemma inOrder_of_arrange (hids : (rules.map (·.id)).Nodup) (h : arrange rules = .ok order) :
    order.Perm rules ∧ InOrder order := by
  have hturns := (arrange_eq_ok_iff hids).mp h
  exact ⟨hturns.perm, hturns.inOrder hids (fun r hr => List.mem_map_of_mem hr) (by simp)⟩

/-- Rules can be arranged exactly when they can stand in order. -/
lemma arrange_ok_iff (hids : (rules.map (·.id)).Nodup) :
    (∃ order, arrange rules = .ok order) ↔ ∃ order, order.Perm rules ∧ InOrder order := by
  constructor
  · rintro ⟨order, h⟩
    exact ⟨order, inOrder_of_arrange hids h⟩
  · rintro ⟨order, hperm, h⟩
    obtain ⟨order', hturns⟩ := exists_turns (rules.map (·.id)) [] h hperm
      fun _ hname => Or.inr (List.mem_map.mp hname)
    exact ⟨order', (arrange_eq_ok_iff hids).mpr hturns⟩

end order

/-! ### One rule more -/

/-- `q` names `r`, both being among the rules. -/
def Names (rules : List Rule) (q r : Rule) : Prop := q ∈ rules ∧ r ∈ rules ∧ r.id ∈ q.after

/-- `q` waits for `r`, directly or through others. -/
def WaitsFor (rules : List Rule) : Rule → Rule → Prop := Relation.TransGen (Names rules)

open Classical in
/-- An order with one rule more: the rules that wait for it come behind it, all others before. -/
noncomputable def settle (order : List Rule) (r : Rule) : List Rule :=
  order.filter (fun q => ¬ WaitsFor (order ++ [r]) q r) ++
    r :: order.filter (fun q => WaitsFor (order ++ [r]) q r)

section settle

variable {rules order : List Rule}

lemma WaitsFor.congr {rules' : List Rule} (h : ∀ q, q ∈ rules ↔ q ∈ rules') {q r : Rule} :
    WaitsFor rules q r ↔ WaitsFor rules' q r := by
  have hnames : Names rules = Names rules' := by
    funext a b
    rw [Names, Names, h a, h b]
  rw [WaitsFor, hnames, WaitsFor]

lemma InOrder.idxOf_lt (h : InOrder rules) (hids : (rules.map (·.id)).Nodup) {q r : Rule}
    (hnames : Names rules q r) :
    (rules.map (·.id)).idxOf r.id < (rules.map (·.id)).idxOf q.id := by
  induction rules with
  | nil => exact absurd hnames.1 List.not_mem_nil
  | cons x rules ih =>
    obtain ⟨hq, hr, hname⟩ := hnames
    rw [List.map_cons, List.nodup_cons] at hids
    rcases List.mem_cons.mp hq with rfl | hq
    · exact absurd hname (h.1 r hr)
    · have hxq : x.id ≠ q.id := fun heq => hids.1 (heq ▸ List.mem_map_of_mem hq)
      rw [List.map_cons, List.idxOf_cons_ne _ hxq]
      rcases List.mem_cons.mp hr with rfl | hr
      · rw [List.idxOf_cons_self]
        exact Nat.succ_pos _
      · have hxr : x.id ≠ r.id := fun heq => hids.1 (heq ▸ List.mem_map_of_mem hr)
        rw [List.idxOf_cons_ne _ hxr]
        exact Nat.succ_lt_succ (ih h.2 hids.2 ⟨hq, hr, hname⟩)

/-- Among rules that can stand in order none waits for itself. -/
lemma InOrder.not_waitsFor_self (h : InOrder order) (hperm : order.Perm rules)
    (hids : (rules.map (·.id)).Nodup) (r : Rule) : ¬ WaitsFor rules r r := by
  rw [← WaitsFor.congr fun q => hperm.mem_iff]
  have hids' : (order.map (·.id)).Nodup := (hperm.map _).nodup_iff.mpr hids
  have hlt : ∀ q, WaitsFor order q r →
      (order.map (·.id)).idxOf r.id < (order.map (·.id)).idxOf q.id := by
    intro q hq
    induction hq using Relation.TransGen.head_induction_on with
    | single hnames => exact h.idxOf_lt hids' hnames
    | head hnames _ ih => exact Nat.lt_trans ih (h.idxOf_lt hids' hnames)
  exact fun hr => Nat.lt_irrefl _ (hlt r hr)

/-- While the rule has not been placed, those that wait for it have to wait. -/
lemma WaitsFor.not_isReady {placed : List String} {q r : Rule} (h : WaitsFor rules q r)
    (hplaced : ∀ x ∈ rules, x = r ∨ WaitsFor rules x r → x.id ∉ placed) :
    q.isReady (rules.map (·.id)) placed = false := by
  obtain ⟨x, ⟨hq, hx, hname⟩, hxr⟩ : ∃ x, Names rules q x ∧ (x = r ∨ WaitsFor rules x r) := by
    cases h using Relation.TransGen.head_induction_on with
    | single hnames => exact ⟨r, hnames, Or.inl rfl⟩
    | head hnames hrest => exact ⟨_, hnames, Or.inr hrest⟩
  rw [Bool.eq_false_iff, Ne, isReady_iff]
  exact fun hready => hplaced x hx hxr (hready x.id hname (List.mem_map_of_mem hx))

open Classical in
/-- The turns when one rule stands behind rules that are in order: those not waiting for it first,
then the rule itself, then those that have been passed over. -/
lemma turns_settle {r : Rule} (hids : (rules.map (·.id)).Nodup) (hr : r ∈ rules)
    (hcycle : ¬ WaitsFor rules r r) (waiting : List Rule) {rest : List Rule} (placed : List String)
    (hmem : ∀ q ∈ waiting ++ rest, q ∈ rules) (hne : ∀ q ∈ rest, q ≠ r)
    (horder : InOrder (waiting ++ rest)) (hwaiting : ∀ q ∈ waiting, WaitsFor rules q r)
    (hplaced : ∀ q ∈ rules, q = r ∨ WaitsFor rules q r → q.id ∉ placed)
    (hknown : ∀ name ∈ rules.map (·.id), name ∈ placed ∨
      ∃ q ∈ waiting ++ (rest ++ [r]), q.id = name) :
    Turns (rules.map (·.id)) placed (waiting ++ (rest ++ [r]))
      (rest.filter (fun q => ¬ WaitsFor rules q r) ++
        r :: (waiting ++ rest.filter (fun q => WaitsFor rules q r))) := by
  induction rest generalizing waiting placed with
  | nil =>
    have hready : r.isReady (rules.map (·.id)) placed = true := by
      refine isReady_of_known hknown fun q hq hname => hcycle ?_
      rcases List.mem_append.mp hq with hq | hq
      · exact (hwaiting q hq).head ⟨hr, hmem q (List.mem_append_left _ hq), hname⟩
      · obtain rfl := List.mem_singleton.mp hq
        exact .single ⟨hr, hr, hname⟩
    have hrest := horder.turns (known_turn List.perm_middle hknown)
    simpa using Turns.turn (fun q hq => (hwaiting q hq).not_isReady hplaced) hready hrest
  | cons q rest ih =>
    have hq : q ∈ rules := hmem q (by simp)
    rw [List.forall_mem_cons] at hne
    by_cases hqr : WaitsFor rules q r
    · -- It is passed over.
      have hwaiting' : ∀ x ∈ waiting ++ [q], WaitsFor rules x r := by
        intro x hx
        rcases List.mem_append.mp hx with hx | hx
        · exact hwaiting x hx
        · rwa [List.mem_singleton.mp hx]
      have hturns := ih (waiting ++ [q]) placed (by simpa using hmem) hne.2 (by simpa using horder)
        hwaiting' hplaced (by simpa using hknown)
      simpa [hqr] using hturns
    · -- It is taken, since whatever it names and is pending stands before it.
      have hready : q.isReady (rules.map (·.id)) placed = true := by
        refine isReady_of_known hknown fun x hx hname => ?_
        rcases List.mem_append.mp hx with hx | hx
        · exact hqr ((hwaiting x hx).head ⟨hq, hmem x (List.mem_append_left _ hx), hname⟩)
        · rcases List.mem_append.mp hx with hx | hx
          · exact (horder.sublist (List.sublist_append_right _ _)).1 x hx hname
          · obtain rfl := List.mem_singleton.mp hx
            exact hqr (.single ⟨hq, hr, hname⟩)
      have hplaced' : ∀ x ∈ rules, x = r ∨ WaitsFor rules x r → x.id ∉ q.id :: placed := by
        intro x hx hxr hin
        rcases List.mem_cons.mp hin with heq | hin
        · obtain rfl := List.inj_on_of_nodup_map hids hx hq heq
          exact hxr.elim hne.1 hqr
        · exact hplaced x hx hxr hin
      have hless : (waiting ++ rest).Sublist (waiting ++ q :: rest) :=
        (List.sublist_cons_self q rest).append_left waiting
      have hrest := ih waiting (q.id :: placed) (fun x hx => hmem x (hless.subset hx)) hne.2
        (horder.sublist hless) hwaiting hplaced' (known_turn List.perm_middle hknown)
      simpa [hqr] using Turns.turn (fun q hq => (hwaiting q hq).not_isReady hplaced) hready hrest

lemma id_ne_of_nodup {q r : Rule} (hids : ((rules ++ [r]).map (·.id)).Nodup) (hq : q ∈ rules) :
    q.id ≠ r.id := by
  rw [List.map_append, List.nodup_append] at hids
  exact hids.2.2 q.id (List.mem_map_of_mem hq) r.id (by simp)

/-- Rules in order with one rule more, arranged. -/
lemma arrange_append {r : Rule} (hids : ((rules ++ [r]).map (·.id)).Nodup) (h : InOrder rules)
    (hok : arrange (rules ++ [r]) = .ok order) : order = settle rules r := by
  have hne : ∀ q ∈ rules, q ≠ r := by
    rintro q hq rfl
    exact id_ne_of_nodup hids hq rfl
  obtain ⟨hperm, horder⟩ := inOrder_of_arrange hids hok
  have hturns := turns_settle hids (by simp : r ∈ rules ++ [r])
    (horder.not_waitsFor_self hperm hids r) [] [] (fun q hq => List.mem_append_left _ hq) hne h
    (by simp) (by simp) fun name hname => Or.inr (List.mem_map.mp hname)
  have hsettle : arrange (rules ++ [r]) = .ok (settle rules r) :=
    (arrange_eq_ok_iff hids).mpr hturns
  rw [hok] at hsettle
  exact Except.ok.inj hsettle

end settle

end Rule

namespace Pipeline

/-! ### Registration -/

variable {p p' : Pipeline} {limits : Limits} {rules : List Rule} {r : Rule}

lemma addRule_eq (hids : ((p.rules ++ [r]).map (·.id)).Nodup) :
    p.addRule r = (Rule.arrange (p.rules ++ [r])).map fun order => { p with rules := order } := by
  have hne : ∀ q ∈ p.rules, q.id ≠ r.id := fun q hq => Rule.id_ne_of_nodup hids hq
  have htwice : ¬ p.rules.any (·.id == r.id) = true := by simpa using hne
  rw [addRule, if_neg htwice]
  rfl

lemma withRules_append (limits : Limits) (rules : List Rule) (r : Rule) :
    withRules limits (rules ++ [r]) = (withRules limits rules).bind (·.addRule r) := by
  have hone : ∀ p : Pipeline, [r].foldlM addRule p = p.addRule r := by
    intro p
    rw [List.foldlM_cons]
    exact bind_pure _
  rw [withRules, List.foldlM_append]
  simp only [hone]
  rfl

/-- What registration one by one leads to. -/
lemma withRules_spec (hids : (rules.map (·.id)).Nodup) (h : withRules limits rules = .ok p) :
    p.limits = limits ∧ p.rules = rules.foldl Rule.settle [] ∧ p.rules.Perm rules ∧
      Rule.InOrder p.rules := by
  induction rules using List.reverseRecOn generalizing p with
  | nil =>
    cases h
    exact ⟨rfl, rfl, List.Perm.nil, trivial⟩
  | append_singleton rules r ih =>
    rw [withRules_append] at h
    cases hfirst : withRules limits rules with
    | error e =>
      rw [hfirst] at h
      cases h
    | ok p₀ =>
      obtain ⟨hlimits, hsettle, hperm, horder⟩ :=
        ih (hids.sublist ((List.sublist_append_left rules [r]).map _)) hfirst
      have hids₀ : ((p₀.rules ++ [r]).map (·.id)).Nodup :=
        ((hperm.append_right [r]).map _).nodup_iff.mpr hids
      rw [hfirst] at h
      change p₀.addRule r = .ok p at h
      rw [addRule_eq hids₀] at h
      cases harrange : Rule.arrange (p₀.rules ++ [r]) with
      | error e =>
        rw [harrange] at h
        cases h
      | ok order =>
        rw [harrange] at h
        cases h
        obtain ⟨hperm', horder'⟩ := Rule.inOrder_of_arrange hids₀ harrange
        refine ⟨hlimits, ?_, hperm'.trans (hperm.append_right [r]), horder'⟩
        rw [List.foldl_append, ← hsettle]
        exact Rule.arrange_append hids₀ horder harrange

/-- Rules are accepted one by one when they can stand in order. -/
lemma exists_withRules (limits : Limits) {order : List Rule} (hids : (rules.map (·.id)).Nodup)
    (hperm : order.Perm rules) (horder : Rule.InOrder order) :
    ∃ p, withRules limits rules = .ok p := by
  induction rules using List.reverseRecOn generalizing order with
  | nil => exact ⟨_, rfl⟩
  | append_singleton rules r ih =>
    have hids₀ := hids.sublist ((List.sublist_append_left rules [r]).map (·.id))
    obtain ⟨order₀, hperm₀, hsub⟩ :=
      (List.sublist_append_left rules [r]).subperm.trans hperm.symm.subperm
    obtain ⟨p, hp⟩ := ih hids₀ hperm₀ (horder.sublist hsub)
    obtain ⟨-, -, hrules, -⟩ := withRules_spec hids₀ hp
    have hall : order.Perm (p.rules ++ [r]) := hperm.trans (hrules.symm.append_right [r])
    have hids' : ((p.rules ++ [r]).map (·.id)).Nodup :=
      ((hrules.append_right [r]).map _).nodup_iff.mpr hids
    obtain ⟨order', harrange⟩ := (Rule.arrange_ok_iff hids').mpr ⟨order, hall, horder⟩
    refine ⟨{ p with rules := order' }, ?_⟩
    rw [withRules_append, hp]
    change p.addRule r = _
    rw [addRule_eq hids', harrange]
    rfl

/-- Rules in order are taken as they are. -/
lemma withRules_of_inOrder (hids : (rules.map (·.id)).Nodup) (horder : Rule.InOrder rules) :
    withRules limits rules = .ok { limits, rules } := by
  induction rules using List.reverseRecOn with
  | nil => rfl
  | append_singleton rules r ih =>
    have hsub := List.sublist_append_left rules [r]
    rw [withRules_append, ih (hids.sublist (hsub.map _)) (horder.sublist hsub)]
    change addRule { limits, rules } r = _
    rw [addRule_eq hids, Rule.arrange_of_inOrder hids horder]
    rfl

/-- Rules with distinct identifiers that name no others are taken as they are. -/
lemma withRules_of_free (hfree : ∀ r ∈ rules, r.after = []) (hids : (rules.map (·.id)).Nodup) :
    withRules limits rules = .ok { limits, rules } :=
  withRules_of_inOrder hids (Rule.inOrder_of_free hfree)

lemma withRules_singleton (hfree : r.after = []) :
    withRules limits [r] = .ok { limits, rules := [r] } := by
  refine withRules_of_free (fun r' hr' => ?_) (List.nodup_singleton _)
  rw [List.mem_singleton.mp hr', hfree]

/-- Registration one by one accepts what can be arranged at once, and both keep rules that are in
order already. In general each registration only moves the rules that wait for the new one. -/
theorem registered_one_by_one (limits : Limits) {rules : List Rule}
    (hids : (rules.map (·.id)).Nodup) :
    ((∃ p, withRules limits rules = .ok p) ↔ ∃ order, Rule.arrange rules = .ok order) ∧
      (∀ p, withRules limits rules = .ok p → p.limits = limits ∧
        p.rules = rules.foldl Rule.settle [] ∧ p.rules.Perm rules ∧ Rule.InOrder p.rules) ∧
      (Rule.InOrder rules → withRules limits rules = .ok { limits, rules } ∧
        Rule.arrange rules = .ok rules) := by
  refine ⟨?_, fun p h => withRules_spec hids h, fun h => ⟨withRules_of_inOrder hids h,
    Rule.arrange_of_inOrder hids h⟩⟩
  rw [Rule.arrange_ok_iff hids]
  constructor
  · rintro ⟨p, hp⟩
    exact ⟨p.rules, (withRules_spec hids hp).2.2⟩
  · rintro ⟨order, hperm, horder⟩
    exact exists_withRules limits hids hperm horder

/-- Two rules to be moved twice and once, declared before the rules that they name. -/
def crossing : List Rule :=
  let idle := fun (id : String) (after : List String) =>
    { id, kinds := [], after, apply := fun _ _ _ => return .unchanged : Rule }
  [idle "x" ["z", "w"], idle "y" ["w"], idle "z" [], idle "w" []]

theorem registered_one_by_one_crossing :
    ∃ p, withRules {} crossing = .ok p ∧ p.rules = crossing.foldl Rule.settle [] ∧
      p.ruleIds = ["z", "w", "y", "x"] := by
  have hids : (crossing.map (·.id)).Nodup := by decide
  have hrun : (withRules {} crossing).map ruleIds = .ok ["z", "w", "y", "x"] := by rfl
  obtain ⟨hiff, hspec, -⟩ := registered_one_by_one {} hids
  obtain ⟨p, hp⟩ := hiff.mpr ⟨_, rfl⟩
  refine ⟨p, hp, (hspec p hp).2.1, ?_⟩
  rw [hp] at hrun
  exact Except.ok.inj hrun

/-- Arranged at once, the rules that are moved keep their declaration order; registered one by one
they do not. -/
theorem registered_one_by_one_ne_arrange :
    ¬ ∀ rules : List Rule, (rules.map (·.id)).Nodup →
      (withRules {} rules).map (·.rules) = Rule.arrange rules := by
  intro h
  have hcrossing := congrArg (Except.map (List.map (·.id))) (h crossing (by decide))
  have hdecide : (((withRules {} crossing).map (·.rules)).map (List.map (·.id))) =
      .ok ["z", "w", "y", "x"] := by rfl
  have harrange : (Rule.arrange crossing).map (List.map (·.id)) = .ok ["z", "w", "x", "y"] := by rfl
  rw [hdecide, harrange] at hcrossing
  exact absurd hcrossing (by decide)

end Pipeline

end CodeMigration
