import CodeMigration.Proofs.Rule.Greedy

/-!
# The rule that is reported with a cycle

Rules that wait for each other never have a turn, and neither do those that wait for one of them;
all others have theirs (`Rule.mem_order_iff`). So the rule that is reported is the first one that
waits for a cycle, and it need not lie on one. When the rules are registered one by one, the cycle
runs through the rule that comes last, and the rule that is reported is that one or the first that
names it.
-/

namespace CodeMigration

namespace Rule

variable {rules : List Rule} {q r x : Rule}

/-! ### Rules that never have a turn -/

/-- `q` lies on a cycle or waits for a rule that does. -/
def Blocked (rules : List Rule) (q : Rule) : Prop :=
  ∃ r, WaitsFor rules r r ∧ Relation.ReflTransGen (Names rules) q r

lemma WaitsFor.mem (h : WaitsFor rules q r) : q ∈ rules ∧ r ∈ rules := by
  obtain ⟨_, hfirst, _⟩ := Relation.TransGen.head'_iff.mp h
  obtain ⟨_, _, hlast⟩ := Relation.TransGen.tail'_iff.mp h
  exact ⟨hfirst.1, hlast.2.1⟩

/-- A blocked rule names a blocked one. -/
lemma Blocked.exists_names (h : Blocked rules q) : ∃ x, Names rules q x ∧ Blocked rules x := by
  obtain ⟨r, hcycle, hreach⟩ := h
  rcases Relation.ReflTransGen.cases_head hreach with rfl | ⟨x, hnames, hreach⟩
  · obtain ⟨x, hnames, hback⟩ := Relation.TransGen.head'_iff.mp hcycle
    exact ⟨x, hnames, q, hcycle, hback⟩
  · exact ⟨x, hnames, r, hcycle, hreach⟩

/-- Where each of some rules names one of them, all of them are blocked. -/
lemma blocked_of_closed {l : List Rule} (hsub : ∀ q ∈ l, q ∈ rules)
    (hclosed : ∀ q ∈ l, ∃ x ∈ l, x.id ∈ q.after) (hq : q ∈ l) : Blocked rules q := by
  classical
  by_contra hfree
  -- Among the rules that `q` leads to there is no cycle, so one of them names none of them.
  let ahead := l.filter fun x => Relation.ReflTransGen (Names rules) q x
  have hahead : ∀ {x}, x ∈ ahead ↔ x ∈ l ∧ Relation.ReflTransGen (Names rules) q x := by
    simp [ahead]
  have hacyclic : ∀ x, ¬ WaitsFor ahead x x := by
    intro x hx
    have hlead := (hahead.mp hx.mem.1).2
    exact hfree ⟨x, hx.mono fun y hy => hsub y (hahead.mp hy).1, hlead⟩
  have hne : ahead ≠ [] := List.ne_nil_of_mem (hahead.mpr ⟨hq, .refl⟩)
  obtain ⟨x, hx, hlast⟩ := exists_free hacyclic hne
  obtain ⟨hin, hlead⟩ := hahead.mp hx
  obtain ⟨y, hy, hname⟩ := hclosed x hin
  exact hlast y (hahead.mpr ⟨hy, hlead.tail ⟨hsub x hin, hsub y hy, hname⟩⟩) hname

section release

variable {placed : List Nat} {s : Release} {i n : Nat}

lemma mem_pending : q ∈ pending rules placed ↔ ∃ i, rules[i]? = some q ∧ i ∉ placed := by
  simp only [pending, List.mem_filterMap, List.mem_filter, List.mem_range, decide_eq_true_eq]
  constructor
  · rintro ⟨i, ⟨_, hi⟩, hq⟩
    exact ⟨i, hq, hi⟩
  · rintro ⟨i, hq, hi⟩
    exact ⟨i, ⟨(List.getElem?_eq_some_iff.mp hq).1, hi⟩, hq⟩

/-- A rule that is not ready names a rule that has not had its turn. -/
lemma exists_pending_of_not_ready
    (h : q.isReady (rules.map (·.id)) (idsAt rules placed) = false) :
    ∃ x ∈ pending rules placed, x.id ∈ q.after := by
  rw [Bool.eq_false_iff, Ne, isReady_iff] at h
  push Not at h
  obtain ⟨name, hname, hregistered, hplaced⟩ := h
  obtain ⟨x, hx, rfl⟩ := List.mem_map.mp hregistered
  obtain ⟨i, hi⟩ := List.mem_iff_getElem?.mp hx
  refine ⟨x, mem_pending.mpr ⟨i, hi, fun hin => hplaced ?_⟩, hname⟩
  exact List.mem_filterMap.mpr ⟨i, hin, by rw [hi]; rfl⟩

/-- The turns that are left go to the rules that are not blocked. -/
lemma mem_order_iff (hids : (rules.map (·.id)).Nodup)
    (h : Release.Follows (dependencies rules) rules.length placed s)
    (hplaced : ∀ j ∈ placed, ∀ q, rules[j]? = some q → ¬ Blocked rules q)
    (hn : (pending rules placed).length = n) (hq : rules[i]? = some q) :
    i ∈ placed ∨ i ∈ Release.order (dependencies rules) n s ↔ ¬ Blocked rules q := by
  induction n generalizing placed s with
  | zero =>
    have hin : i ∈ placed := by
      by_contra hout
      have hmem : q ∈ pending rules placed := mem_pending.mpr ⟨i, hq, hout⟩
      rw [List.length_eq_zero_iff.mp hn] at hmem
      cases hmem
    simp only [hin, true_or, true_iff]
    exact hplaced i hin q hq
  | succ n ih =>
    rw [Release.order]
    cases hready : s.ready with
    | nil =>
      rw [List.mem_nil_iff, or_false]
      refine ⟨fun hin => hplaced i hin q hq, fun hfree => ?_⟩
      by_contra hout
      refine hfree (blocked_of_closed (l := pending rules placed) ?_ ?_
        (mem_pending.mpr ⟨i, hq, hout⟩))
      · intro x hx
        obtain ⟨j, hj, _⟩ := mem_pending.mp hx
        exact List.mem_of_getElem? hj
      · intro x hx
        obtain ⟨j, hj, hjout⟩ := mem_pending.mp hx
        exact exists_pending_of_not_ready (isReady_eq_false hids h hj hjout (by simp [hready]))
    | cons k rest =>
      obtain ⟨earlier, r, later, hr, hsplit, hsplit', _, hfirst⟩ := pending_split hids h hready
      have hn' : (pending rules (k :: placed)).length = n := by
        rw [hsplit, List.length_append, List.length_cons] at hn
        rw [hsplit', List.length_append]
        omega
      have hplaced' : ∀ j ∈ k :: placed, ∀ q, rules[j]? = some q → ¬ Blocked rules q := by
        intro j hj q hq hblocked
        rcases List.mem_cons.mp hj with rfl | hj
        · -- Whatever the rule names has had its turn, and is not blocked.
          obtain rfl := Option.some.inj (hr.symm.trans hq)
          obtain ⟨x, ⟨_, hx, hname⟩, hxblocked⟩ := hblocked.exists_names
          have hin := isReady_iff.mp hfirst x.id hname (List.mem_map_of_mem hx)
          obtain ⟨m, hm⟩ := List.mem_iff_getElem?.mp hx
          exact hplaced m ((mem_idsAt hids hm).mp hin) x hm hxblocked
        · exact hplaced j hj q hq hblocked
      rw [← ih (h.turn hready) hplaced' hn', List.mem_cons, List.mem_cons]
      tauto

/-- The first blocked rule is the one that is reported. -/
lemma arrange_of_blocked (hids : (rules.map (·.id)).Nodup) {earlier later : List Rule}
    (hrules : rules = earlier ++ q :: later) (hearlier : ∀ x ∈ earlier, ¬ Blocked rules x)
    (hq : Blocked rules q) : arrange rules = .error (.ruleCycle q.id) := by
  have hinside : ∀ e ∈ dependencies rules, e.2 < rules.length := by
    rintro ⟨i, j⟩ hedge
    obtain ⟨_, _, _, hr, _⟩ := (mem_dependencies hids).mp hedge
    exact (List.getElem?_eq_some_iff.mp hr).1
  have hmem : ∀ {i x}, rules[i]? = some x →
      (i ∈ Release.order (dependencies rules) rules.length
        (.start (dependencies rules) rules.length) ↔ ¬ Blocked rules x) := by
    intro i x hx
    rw [← mem_order_iff hids (Release.follows_start hinside) (by simp)
      (congrArg List.length (pending_nil rules)) hx]
    simp
  have hfail : ∀ order, arrange rules ≠ .ok order := by
    intro order hok
    obtain ⟨r, hcycle, _⟩ := hq
    exact (arrange_ok_iff_acyclic hids).mp ⟨order, hok⟩ r hcycle
  rw [arrange] at hfail ⊢
  split
  · next hlength =>
    simp only [hlength, if_true] at hfail
    exact absurd rfl (hfail _)
  · have hfind : (rules.zipIdx.find? fun x => !(Release.order (dependencies rules)
        rules.length (.start (dependencies rules) rules.length)).contains x.2) =
        some (q, earlier.length) := by
      have hat : rules[earlier.length]? = some q := by simp [hrules]
      have hout := (hmem hat).not.mpr (not_not.mpr hq)
      rw [List.find?_eq_some_iff_append]
      refine ⟨by simpa using hout, earlier.zipIdx, later.zipIdx (earlier.length + 1), ?_, ?_⟩
      · rw [hrules, List.zipIdx_append, List.zipIdx_cons, Nat.zero_add]
      · rintro ⟨x, i⟩ hx
        have hi : earlier[i]? = some x := List.mk_mem_zipIdx_iff_getElem?.mp hx
        have hi' : rules[i]? = some x := by
          rw [hrules, List.getElem?_append_left (List.getElem?_eq_some_iff.mp hi).1, hi]
        simpa using (hmem hi').mpr (hearlier x (List.mem_of_getElem? hi))
    exact congrArg (fun stuck : Option (Rule × Nat) =>
      (.error (.ruleCycle ((stuck.map (·.1.id)).getD "")) : Except Error (List Rule))) hfind

/-- Rules that cannot be arranged are refused with the first one that is blocked. -/
lemma arrange_eq_error_iff (hids : (rules.map (·.id)).Nodup) {e : Error} :
    arrange rules = .error e ↔ ∃ earlier q later, rules = earlier ++ q :: later ∧
      (∀ x ∈ earlier, ¬ Blocked rules x) ∧ Blocked rules q ∧ e = .ruleCycle q.id := by
  classical
  constructor
  · intro h
    obtain ⟨r, hcycle⟩ : ∃ r, WaitsFor rules r r := by
      by_contra hnone
      obtain ⟨order, hok⟩ := (arrange_ok_iff_acyclic hids).mpr (not_exists.mp hnone)
      rw [h] at hok
      cases hok
    obtain ⟨q, hfind⟩ : ∃ q, rules.find? (fun q => Blocked rules q) = some q := by
      rw [← Option.isSome_iff_exists, List.find?_isSome]
      exact ⟨r, hcycle.mem.1, by simpa using ⟨r, hcycle, .refl⟩⟩
    obtain ⟨hq, earlier, later, hrules, hearlier⟩ := List.find?_eq_some_iff_append.mp hfind
    have hq : Blocked rules q := by simpa using hq
    have hearlier : ∀ x ∈ earlier, ¬ Blocked rules x := by simpa using hearlier
    rw [arrange_of_blocked hids hrules hearlier hq] at h
    exact ⟨earlier, q, later, hrules, hearlier, hq, (Except.error.inj h).symm⟩
  · rintro ⟨earlier, q, later, hrules, hearlier, hq, rfl⟩
    exact arrange_of_blocked hids hrules hearlier hq

end release

/-! ### One rule more -/

lemma reaches_iff_eq_or_waitsFor :
    Relation.ReflTransGen (Names rules) q r ↔ q = r ∨ WaitsFor rules q r := by
  rw [Relation.reflTransGen_iff_eq_or_transGen, eq_comm, WaitsFor]

/-- With one rule more, what waits does so without that rule or through it. -/
lemma WaitsFor.of_append (h : WaitsFor (rules ++ [r]) q x) :
    WaitsFor rules q x ∨ (Relation.ReflTransGen (Names (rules ++ [r])) q r ∧
      Relation.ReflTransGen (Names (rules ++ [r])) r x) := by
  have hstep : ∀ {a b}, Names (rules ++ [r]) a b → a = r ∨ b = r ∨ Names rules a b := by
    rintro a b ⟨ha, hb, hname⟩
    rcases List.mem_append.mp ha with ha | ha
    · rcases List.mem_append.mp hb with hb | hb
      · exact Or.inr (Or.inr ⟨ha, hb, hname⟩)
      · exact Or.inr (Or.inl (List.mem_singleton.mp hb))
    · exact Or.inl (List.mem_singleton.mp ha)
  induction h with
  | single hnames =>
    rcases hstep hnames with rfl | rfl | hin
    · exact Or.inr ⟨.refl, .single hnames⟩
    · exact Or.inr ⟨.single hnames, .refl⟩
    · exact Or.inl (.single hin)
  | tail hwait hnames ih =>
    rcases ih with hin | ⟨hto, hfrom⟩
    · rcases hstep hnames with rfl | rfl | hlast
      · exact Or.inr ⟨hwait.to_reflTransGen, .single hnames⟩
      · exact Or.inr ⟨hwait.to_reflTransGen.tail hnames, .refl⟩
      · exact Or.inl (hin.tail hlast)
    · exact Or.inr ⟨hto, hfrom.tail hnames⟩

/-- With one rule behind rules that are in order, what is blocked is that rule or waits for it. -/
lemma blocked_append_iff (hids : (rules.map (·.id)).Nodup) (h : InOrder rules) :
    Blocked (rules ++ [r]) q ↔
      WaitsFor (rules ++ [r]) r r ∧ (q = r ∨ WaitsFor (rules ++ [r]) q r) := by
  rw [← reaches_iff_eq_or_waitsFor]
  constructor
  · rintro ⟨c, hcycle, hreach⟩
    rcases hcycle.of_append with hin | ⟨hto, hfrom⟩
    · exact absurd hin (h.not_waitsFor_self (.refl rules) hids c)
    · exact ⟨(hcycle.trans_left hto).trans_right hfrom, hreach.trans hto⟩
  · rintro ⟨hcycle, hreach⟩
    exact ⟨r, hcycle, hreach⟩

/-- A rule that waits for the new one lies on a cycle only together with it. -/
lemma waitsFor_self_append_iff (hids : (rules.map (·.id)).Nodup) (h : InOrder rules)
    (hwait : WaitsFor (rules ++ [r]) q r) :
    WaitsFor (rules ++ [r]) q q ↔ q = r ∨ WaitsFor (rules ++ [r]) r q := by
  constructor
  · intro hself
    rcases hself.of_append with hin | ⟨_, hfrom⟩
    · exact absurd hin (h.not_waitsFor_self (.refl rules) hids q)
    · exact (reaches_iff_eq_or_waitsFor.mp hfrom).imp_left Eq.symm
  · rintro (rfl | hback)
    · exact hwait
    · exact hwait.trans hback

/-- The first blocked rule is the new one or names it, for what else it names stands before it. -/
lemma names_of_first_blocked (h : InOrder rules) {earlier later : List Rule}
    (hsplit : rules ++ [r] = earlier ++ q :: later)
    (hearlier : ∀ x ∈ earlier, ¬ Blocked (rules ++ [r]) x) (hq : Blocked (rules ++ [r]) q) :
    q = r ∨ r.id ∈ q.after := by
  have hat : (rules ++ [r])[earlier.length]? = some q := by simp [hsplit]
  rcases Nat.lt_or_ge earlier.length rules.length with hlt | hge
  · obtain ⟨x, ⟨_, hx, hname⟩, hblocked⟩ := hq.exists_names
    rcases List.mem_append.mp hx with hx | hx
    · obtain ⟨j, hj⟩ := List.mem_iff_getElem?.mp hx
      rw [List.getElem?_append_left hlt] at hat
      have hbefore : j < earlier.length := h.lt_of_names hat hj hname
      have hin : earlier[j]? = some x := by
        rw [← List.getElem?_append_left hbefore, ← hsplit,
          List.getElem?_append_left (hbefore.trans hlt), hj]
      exact absurd hblocked (hearlier x (List.mem_of_getElem? hin))
    · exact Or.inr (List.mem_singleton.mp hx ▸ hname)
  · rw [List.getElem?_append_right hge] at hat
    exact Or.inl (List.mem_singleton.mp (List.mem_of_getElem? hat))

end Rule

namespace Pipeline

/-- Registration one by one fails at the first rule that cannot be added. -/
lemma withRules_eq_error {limits : Limits} {rules : List Rule} {e : Error}
    (h : withRules limits rules = .error e) :
    ∃ registered r rest p, rules = registered ++ r :: rest ∧
      withRules limits registered = .ok p ∧ p.addRule r = .error e := by
  induction rules using List.reverseRecOn with
  | nil => cases h
  | append_singleton rules r ih =>
    rw [withRules_append] at h
    cases hfirst : withRules limits rules with
    | ok p =>
      rw [hfirst] at h
      exact ⟨rules, r, [], p, rfl, hfirst, h⟩
    | error e' =>
      rw [hfirst] at h
      cases h
      obtain ⟨registered, q, rest, p, rfl, hp, hadd⟩ := ih hfirst
      exact ⟨registered, q, rest ++ [r], p, by simp, hp, hadd⟩

/-- A rule cannot be added where it cannot be arranged behind the others. -/
lemma arrange_of_addRule_eq_error {p : Pipeline} {r : Rule} {e : Error}
    (hids : ((p.rules ++ [r]).map (·.id)).Nodup) (h : p.addRule r = .error e) :
    Rule.arrange (p.rules ++ [r]) = .error e := by
  rw [addRule_eq hids] at h
  cases hok : Rule.arrange (p.rules ++ [r]) with
  | ok order =>
    rw [hok] at h
    cases h
  | error e' =>
    rw [hok] at h
    cases h
    rfl

/-- When registration one by one reports a cycle, there is one: it runs through the rule `r` that
could not be added. The rule `q` that is reported is the first in the order so far that is `r` or
waits for it. It names `r`, but it lies on a cycle only if `r` waits for it in its turn. -/
theorem reported_rule_waits_for_cycle {limits : Limits} {rules : List Rule} {id : String}
    (hids : (rules.map (·.id)).Nodup) (h : withRules limits rules = .error (.ruleCycle id)) :
    ∃ registered r rest p earlier q later,
      rules = registered ++ r :: rest ∧ withRules limits registered = .ok p ∧
      Rule.WaitsFor (registered ++ [r]) r r ∧
      p.rules ++ [r] = earlier ++ q :: later ∧ q.id = id ∧ (q = r ∨ r.id ∈ q.after) ∧
      (∀ x ∈ earlier, x ≠ r ∧ ¬ Rule.WaitsFor (registered ++ [r]) x r) ∧
      (Rule.WaitsFor (registered ++ [r]) q q ↔ q = r ∨ Rule.WaitsFor (registered ++ [r]) r q) := by
  obtain ⟨registered, r, rest, p, rfl, hp, hadd⟩ := withRules_eq_error h
  have hsub : (registered ++ [r]).Sublist (registered ++ r :: rest) := by
    simp
  have hids₁ : ((registered ++ [r]).map (·.id)).Nodup := hids.sublist (hsub.map _)
  have hids₀ : (registered.map (·.id)).Nodup :=
    hids₁.sublist ((List.sublist_append_left registered [r]).map _)
  obtain ⟨-, -, hperm, horder⟩ := withRules_spec hids₀ hp
  have hperm₁ : (p.rules ++ [r]).Perm (registered ++ [r]) := hperm.append_right [r]
  have hids' : ((p.rules ++ [r]).map (·.id)).Nodup := (hperm₁.map _).nodup_iff.mpr hids₁
  have hids₀' : (p.rules.map (·.id)).Nodup := (hperm.map _).nodup_iff.mpr hids₀
  have hwaits : ∀ a b, Rule.WaitsFor (p.rules ++ [r]) a b ↔
      Rule.WaitsFor (registered ++ [r]) a b := fun _ _ =>
    Rule.WaitsFor.congr fun _ => hperm₁.mem_iff
  obtain ⟨earlier, q, later, hsplit, hearlier, hq, hid⟩ :=
    (Rule.arrange_eq_error_iff hids').mp (arrange_of_addRule_eq_error hids' hadd)
  have hnames := Rule.names_of_first_blocked horder hsplit hearlier hq
  simp only [Rule.blocked_append_iff hids₀' horder, hwaits] at hearlier hq
  refine ⟨registered, r, rest, p, earlier, q, later, rfl, hp, hq.1, hsplit,
    (Error.ruleCycle.inj hid).symm, hnames, fun x hx => ?_, ?_⟩
  · exact not_or.mp fun hxr => hearlier x hx ⟨hq.1, hxr⟩
  · rcases hq.2 with rfl | hwait
    · simp [hq.1]
    · rw [← hwaits q q, ← hwaits r q]
      exact Rule.waitsFor_self_append_iff hids₀' horder ((hwaits q r).mpr hwait)

/-- A rule that waits for two others, which wait for each other. -/
def bystander : List Rule := [.idle "a" ["c"], .idle "b" ["c"], .idle "c" ["b"]]

theorem reported_rule_waits_for_cycle_bystander :
    (bystander.map (·.id)).Nodup ∧ withRules {} bystander = .error (.ruleCycle "a") ∧
      ∃ registered r rest q, bystander = registered ++ r :: rest ∧
        Rule.WaitsFor (registered ++ [r]) r r ∧ q.id = "a" ∧ (q = r ∨ r.id ∈ q.after) := by
  have hids : (bystander.map (·.id)).Nodup := by decide
  have hrun : withRules {} bystander = .error (.ruleCycle "a") := by rfl
  obtain ⟨registered, r, rest, p, earlier, q, later, hrules, _, hcycle, _, hid, hnames, -⟩ :=
    reported_rule_waits_for_cycle hids hrun
  exact ⟨hids, hrun, registered, r, rest, q, hrules, hcycle, hid, hnames⟩

/-- The rule that is reported need not wait for itself. -/
theorem reported_rule_not_on_cycle :
    ¬ ∀ (limits : Limits) (rules : List Rule) (id : String), (rules.map (·.id)).Nodup →
      withRules limits rules = .error (.ruleCycle id) →
      ∃ q ∈ rules, q.id = id ∧ Rule.WaitsFor rules q q := by
  intro h
  obtain ⟨q, _, hid, hself⟩ := h {} bystander "a" (by decide) rfl
  obtain ⟨x, _, hx, _, hname⟩ := Relation.TransGen.tail'_iff.mp hself
  rw [hid] at hname
  exact absurd hname ((by decide : ∀ x ∈ bystander, "a" ∉ x.after) x hx)

end Pipeline

end CodeMigration
