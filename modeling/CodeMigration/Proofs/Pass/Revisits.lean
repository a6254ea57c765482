import CodeMigration.Proofs.Pass.Rounds
import CodeMigration.Proofs.Pass.Story

/-!
# Offering a node again

Between two offers of the same round of rules at a node that stays, it is counted that the node is
offered again. In a pass that succeeds no node was offered again beyond the bound
(`Pass.Counted`), and a pass whose only rule is never content with a node (`Rule.Restless`) is
stopped at the first node it accepts: up to there nothing is changed, so the walk finds it
(`Pass.Seeks`). When the bound is the greatest number of 32 bits no count exceeds it, and such a
pass goes on for ever.
-/

namespace CodeMigration

/-- The rule changes whatever it is offered, and accepts it again afterwards. -/
def Rule.Restless (r : Rule) : Prop :=
  ∀ oracle pass node (w : Workspace), Pass.accepts w.tree r node = true →
    ∃ w', r.apply oracle pass node w = .ok .mutated w' ∧ Pass.accepts w'.tree r node = true

namespace Pass

variable {σ : PassSetting} {v : NodeId → UInt32 → PassM Nat} {order : VisitOrder} {s s' : PassState}
  {n node : NodeId} {lineage : UInt32} {r : Rule} {t : Tree}

/-! ### Counts -/

/-- There is an entry for every time a node was offered again, and there are not too many. -/
def Counted (σ : PassSetting) (s : PassState) : Prop :=
  ∀ n order, s.revisits.countP (·.1 = (n, order)) = (s.revisitsOf n order).toNat ∧
    s.revisitsOf n order ≤ σ.revisitBound

lemma counted_start (σ : PassSetting) (w : Workspace) : Counted σ (start w) := by
  intro n order
  simp [start, PassState.revisitsOf]

lemma Counted.countRevisit (hbound : σ.revisitBound.toNat + 1 < UInt32.size) {rule : String}
    (h : Counted σ s) (hcount : countRevisit σ order node rule s = .ok () s') : Counted σ s' := by
  obtain ⟨hle, rfl⟩ := countRevisit_eq_ok_iff.mp hcount
  intro n order'
  by_cases hkey : (node, order) = (n, order')
  · cases hkey
    obtain ⟨hentries, hold⟩ := h node order
    have hsucc := toNat_succ_of_le hbound hold
    simp only [PassState.revisitsOf, List.lookup_cons_self, Option.getD_some]
      at hentries hle hsucc ⊢
    rw [List.countP_cons_of_pos (by simp), hentries, hsucc]
    exact ⟨rfl, hle⟩
  · have hkey' : ((n, order') == (node, order)) = false := beq_false_of_ne (Ne.symm hkey)
    have hother := h n order'
    simp only [PassState.revisitsOf] at hother ⊢
    rw [List.countP_cons_of_neg (by simpa using hkey), List.lookup_cons, hkey']
    exact hother

lemma counted_carries (hbound : σ.revisitBound.toNat + 1 < UInt32.size) :
    Carries σ fun s s' => Counted σ s → Counted σ s' where
  refl _ h := h
  trans h h' hs := h' (h hs)
  mark _ _ _ h := h
  enter _ _ h := h
  ofTree _ _ h := h
  offer ho h := by
    have hrevisits := revisits_of_offer ho
    simpa only [Counted, PassState.revisitsOf, hrevisits] using h
  recount hcount h := by
    rw [recount] at hcount
    split at hcount
    · exact h.countRevisit hbound hcount
    · cases hcount
      exact h

/-! ### Restless rules -/

lemma offer_restless (hr : r.Restless) (hacc : accepts s.tree r node = true) :
    ∃ s₁, offer σ r node s = .ok .mutated s₁ ∧ accepts s₁.tree r node = true := by
  obtain ⟨w, happ, hacc'⟩ := hr σ.oracle σ.pass node ⟨s.tree.checkpoint, s.files⟩ hacc
  exact ⟨_, offer_eq_ok_iff.mpr (Or.inl ⟨.mutated, w, happ, rfl, rfl⟩), hacc'⟩

lemma countRevisit_of_lt (rule : String) (hlt : σ.revisitBound < s.revisitsOf node order + 1) :
    ∃ s', countRevisit σ order node rule s =
      .error (.error (.loopDetected node rule σ.revisitBound)) s' := by
  refine ⟨{ s with revisits := ((node, order), s.revisitsOf node order + 1) :: s.revisits }, ?_⟩
  show (if σ.revisitBound < s.revisitsOf node order + 1 then _ else _ : PassM Unit) _ = _
  rw [if_pos hlt]
  rfl

/-- After a round of a restless rule the same node is to be offered again. -/
lemma roundsFrom_succ_restless (v : NodeId → UInt32 → PassM Nat) (lineage : UInt32) (k : Nat)
    (hrules : σ.rules = [r]) (hr : r.Restless) (hacc : accepts s.tree r node = true) :
    ∃ s₁, accepts s₁.tree r node = true ∧
      s₁.revisitsOf node r.order = s.revisitsOf node r.order ∧
      roundsFrom σ v r.order (k + 1) node lineage s =
        (countRevisit σ r.order node r.id >>=
          fun _ => roundsFrom σ v r.order k node lineage) s₁ := by
  obtain ⟨s₁, ho, hacc₁⟩ := offer_restless (σ := σ) hr hacc
  have hfilter : σ.rules.filter (·.order = r.order) = [r] := by simp [hrules]
  have hround : round σ v [r] node lineage none s = .ok (.ongoing node lineage (some r.id)) s₁ :=
    round_cons_eq_ok_iff.mpr (Or.inr ⟨hacc, .mutated, s₁, ho, rfl⟩)
  refine ⟨s₁, hacc₁, ?_, ?_⟩
  · rw [PassState.revisitsOf, revisits_of_offer ho, PassState.revisitsOf]
  · rw [roundsFrom_succ, hfilter, EStateM.bind_of_ok hround, afterRound, recount, if_pos rfl]

/-- The rounds of a restless rule go on until the node was offered again too often. -/
lemma roundsFrom_restless (hbound : σ.revisitBound.toNat + 1 < UInt32.size)
    (v : NodeId → UInt32 → PassM Nat) (lineage : UInt32) (hrules : σ.rules = [r]) (hr : r.Restless)
    (hacc : accepts s.tree r node = true) {k : Nat}
    (hk : offersLeft σ (s.revisitsOf node r.order) ≤ k) :
    ∃ s', roundsFrom σ v r.order (k + 1) node lineage s =
      .error (.error (.loopDetected node r.id σ.revisitBound)) s' := by
  induction k generalizing s with
  | zero =>
    obtain ⟨s₁, _, hsame, heq⟩ := roundsFrom_succ_restless v lineage 0 hrules hr hacc
    have hlt : σ.revisitBound < s₁.revisitsOf node r.order + 1 := by
      rw [offersLeft, ← hsame] at hk
      rw [UInt32.lt_iff_toNat_lt]
      omega
    obtain ⟨s', hrefused⟩ := countRevisit_of_lt r.id hlt
    exact ⟨s', heq.trans (EStateM.bind_of_error hrefused)⟩
  | succ k ih =>
    obtain ⟨s₁, hacc₁, hsame, heq⟩ := roundsFrom_succ_restless v lineage (k + 1) hrules hr hacc
    rw [heq]
    by_cases hlt : σ.revisitBound < s₁.revisitsOf node r.order + 1
    · obtain ⟨s', hrefused⟩ := countRevisit_of_lt r.id hlt
      exact ⟨s', EStateM.bind_of_error hrefused⟩
    · have hle := UInt32.not_lt.mp hlt
      have hcount : countRevisit σ r.order node r.id s₁ = .ok () _ :=
        countRevisit_eq_ok_iff.mpr ⟨hle, rfl⟩
      rw [EStateM.bind_of_ok hcount]
      refine ih hacc₁ ?_
      have hless := offersLeft_lt hbound hle
      rw [hsame] at hless
      simp only [PassState.revisitsOf, List.lookup_cons_self, Option.getD_some] at hless hk hsame ⊢
      rw [hsame]
      omega

/-- A restless rule is the only one of the pass, the bound can be exceeded, and there may be as many
rounds as it takes. -/
structure Alone (σ : PassSetting) (r : Rule) : Prop where
  rules : σ.rules = [r]
  restless : r.Restless
  bound : σ.revisitBound.toNat + 1 < UInt32.size
  depth : σ.revisitBound.toNat + 1 < σ.depth

lemma Alone.rounds_eq (h : Alone σ r) (v : NodeId → UInt32 → PassM Nat) (lineage : UInt32)
    (hacc : accepts s.tree r node = true) :
    ∃ s', rounds σ v r.order node lineage s =
      .error (.error (.loopDetected node r.id σ.revisitBound)) s' := by
  obtain ⟨k, hk⟩ := Nat.exists_eq_succ_of_ne_zero (Nat.ne_zero_of_lt h.depth)
  have hleft : offersLeft σ (s.revisitsOf node r.order) ≤ σ.revisitBound.toNat + 1 := Nat.sub_le _ _
  have hdepth := h.depth
  rw [rounds, hk]
  exact roundsFrom_restless h.bound v lineage h.rules h.restless hacc (by omega)

/-- No count exceeds the greatest number of 32 bits, so the rounds of a restless rule go on. -/
lemma roundsFrom_endless (hbound : UInt32.size ≤ σ.revisitBound.toNat + 1)
    (v : NodeId → UInt32 → PassM Nat) (lineage : UInt32) (hrules : σ.rules = [r]) (hr : r.Restless)
    (hacc : accepts s.tree r node = true) (k : Nat) :
    ∃ s', roundsFrom σ v r.order k node lineage s = .error (.fault .exhausted) s' := by
  induction k generalizing s with
  | zero => exact ⟨s, rfl⟩
  | succ k ih =>
    obtain ⟨s₁, hacc₁, _, heq⟩ := roundsFrom_succ_restless v lineage k hrules hr hacc
    have hle : s₁.revisitsOf node r.order + 1 ≤ σ.revisitBound := by
      have hlt := (s₁.revisitsOf node r.order + 1).toNat_lt_size
      rw [UInt32.le_iff_toNat_le]
      omega
    have hcount : countRevisit σ r.order node r.id s₁ = .ok () _ :=
      countRevisit_eq_ok_iff.mpr ⟨hle, rfl⟩
    rw [heq, EStateM.bind_of_ok hcount]
    exact ih hacc₁

/-- A pass with such a rule alone does not get beyond the root that the rule accepts. -/
lemma run_endless (hbound : UInt32.size ≤ σ.revisitBound.toNat + 1) (hrules : σ.rules = [r])
    (hr : r.Restless) (horder : r.order = .pre) {w : Workspace}
    (hlive : w.tree.isLive w.tree.root = true) (hacc : accepts w.tree r w.tree.root = true) :
    ∃ w', run σ w = .error (.fault .exhausted) w' := by
  suffices hvisit : ∀ k, ∃ s', visit σ k w.tree.root 0 (start w) = .error (.fault .exhausted) s' by
    obtain ⟨s', hroot⟩ := hvisit σ.depth
    have hroot' : visitRoot σ { tree := w.tree, files := w.files } = .error _ s' := hroot
    exact ⟨s'.toWorkspace, by rw [run, hroot']⟩
  intro k
  cases k with
  | zero => exact ⟨start w, rfl⟩
  | succ k =>
    obtain ⟨s', hrounds⟩ := roundsFrom_endless hbound (visit σ k) 0 hrules hr
      (s := (start w).enter w.tree.root) hacc σ.depth
    rw [horder] at hrounds
    refine ⟨s', ?_⟩
    rw [visit_succ, visitWith_of_pending rfl hlive]
    exact EStateM.bind_of_error hrounds

/-! ### The way to the first accepted node -/

/-- A step that takes up the given nodes of the tree, if need be, ends at one that the rule accepts;
if there is none, it returns. -/
inductive Seeks (σ : PassSetting) (r : Rule) (t : Tree) (nodes : Set NodeId) {α : Type}
    (Q : α → PassState → Prop) : EStateM.Result Failure PassState α → Prop
  | stopped {n : NodeId} {s : PassState} (hn : n ∈ nodes) (hacc : accepts t r n = true) :
    Seeks σ r t nodes Q (.error (.error (.loopDetected n r.id σ.revisitBound)) s)
  | passed {a : α} {s : PassState} (hnone : ∀ n ∈ nodes, accepts t r n = false) (h : Q a s) :
    Seeks σ r t nodes Q (.ok a s)

namespace Seeks

variable {α β : Type} {nodes nodes' : Set NodeId} {Q : α → PassState → Prop}
  {R : β → PassState → Prop} {m : PassM α}

lemma bind {f : α → PassM β} (hm : Seeks σ r t nodes Q (m s))
    (hf : ∀ a s', Q a s' → Seeks σ r t nodes' R (f a s')) :
    Seeks σ r t (nodes ∪ nodes') R ((m >>= f) s) := by
  cases hx : m s with
  | error e s' =>
    rw [EStateM.bind_of_error hx]
    rw [hx] at hm
    cases hm with
    | stopped hn hacc => exact .stopped (Or.inl hn) hacc
  | ok a s' =>
    rw [EStateM.bind_of_ok hx]
    rw [hx] at hm
    cases hm with
    | passed hnone h =>
      generalize hy : f a s' = y
      cases hy ▸ hf a s' h with
      | stopped hn hacc => exact .stopped (Or.inr hn) hacc
      | passed hnone' h' => exact .passed (fun n hn => hn.elim (hnone n) (hnone' n)) h'

lemma mono {x : EStateM.Result Failure PassState α} {R : α → PassState → Prop}
    (hx : Seeks σ r t nodes Q x) (hQ : ∀ a s', Q a s' → R a s') : Seeks σ r t nodes R x := by
  cases hx with
  | stopped hn hacc => exact .stopped hn hacc
  | passed hnone h => exact .passed hnone (hQ _ _ h)

/-- Steps at the end that take up no more nodes. -/
lemma finish {f : α → PassM β} (hm : Seeks σ r t nodes Q (m s))
    (hf : ∀ a s', Q a s' → ∃ b s'', f a s' = .ok b s'' ∧ R b s'') :
    Seeks σ r t nodes R ((m >>= f) s) := by
  rw [← Set.union_empty nodes]
  apply hm.bind
  intro a s' h
  obtain ⟨b, s'', hok, h⟩ := hf a s' h
  rw [hok]
  exact .passed (by simp) h

end Seeks

lemma rounds_seeks (h : Alone σ r) (order : VisitOrder) (ht : s.tree = t) :
    Seeks σ r t {m | r.order = order ∧ m = node} (fun place s' => place = .node node ∧ s' = s)
      (rounds σ v order node lineage s) := by
  by_cases hacc : r.order = order ∧ accepts t r node = true
  · obtain ⟨rfl, hacc⟩ := hacc
    obtain ⟨s', hstop⟩ := h.rounds_eq v lineage (ht ▸ hacc)
    rw [hstop]
    exact .stopped ⟨rfl, rfl⟩ hacc
  · have hnone : r.order = order → accepts t r node = false := fun horder => by
      simpa [horder] using hacc
    rw [rounds_of_unaccepted (Nat.zero_lt_of_lt h.depth) (by simpa [h.rules, ht] using hnone)]
    refine .passed ?_ ⟨rfl, rfl⟩
    rintro m ⟨horder, rfl⟩
    exact hnone horder

/-- The tree is `t`, and of its nodes only those below `n` have been marked. -/
structure Passed (t : Tree) (n : NodeId) (s s' : PassState) : Prop where
  tree : s'.tree = t
  outside : ∀ m, ¬ t.Reaches n m → s'.stateOf m = s.stateOf m

lemma Passed.refl (n : NodeId) (s : PassState) : Passed s.tree n s s := ⟨rfl, fun _ _ => rfl⟩

lemma Passed.mark (h : Passed t n s s') (state : VisitState) :
    Passed t n s (s'.mark n state) := by
  constructor
  · exact h.tree
  · intro m hm
    rw [PassState.stateOf_mark, if_neg, h.outside m hm]
    rintro rfl
    exact hm (Tree.Reaches.refl m)

lemma Passed.enter (ht : s.tree = t) (n : NodeId) : Passed t n s (s.enter n) := by
  have hmark : Passed t n s (s.mark n .visiting) := (ht ▸ Passed.refl n s).mark .visiting
  exact ⟨hmark.tree, hmark.outside⟩

lemma Passed.trans {s'' : PassState} (h : Passed t n s s') (h' : Passed t n s' s'') :
    Passed t n s s'' :=
  ⟨h'.tree, fun m hm => (h'.outside m hm).trans (h.outside m hm)⟩

/-- What is passed below a child is passed below its parent. -/
lemma Passed.up {p c : NodeId} (h : Passed t c s s') (hp : t.Link p c) : Passed t p s s' :=
  ⟨h.tree, fun m hm => h.outside m fun hcm => hm (hp.reaches.trans hcm)⟩

/-- The tree is `t`, and none of its nodes below `n` has been marked. -/
structure Untrodden (t : Tree) (n : NodeId) (s : PassState) : Prop where
  tree : s.tree = t
  pending : ∀ m, t.Reaches n m → s.stateOf m = .pending

/-- What is passed below a child leaves its siblings alone. -/
lemma Untrodden.beside {p c d : NodeId} (h : Untrodden t d s) (hw : t.WellLinked)
    (hc : t.Link p c) (hd : t.Link p d) (hne : c ≠ d) (hpassed : Passed t c s s') :
    Untrodden t d s' := by
  constructor
  · exact hpassed.tree
  · intro m hm
    have houtside : ¬ t.Reaches c m := fun hcm => hne (hw.eq_of_siblings hc hd hcm hm)
    rw [hpassed.outside m houtside, h.pending m hm]

/-- Where a visit has begun at `n` only, nothing below its children has been marked. -/
lemma Untrodden.child {c : NodeId} (h : Untrodden t n s) (hw : t.WellLinked) (hc : t.Link n c)
    (htree : s'.tree = t) (hsame : ∀ m, m ≠ n → s'.stateOf m = s.stateOf m) :
    Untrodden t c s' := by
  constructor
  · exact htree
  · intro m hm
    rw [hsame m, h.pending m (hc.reaches.trans hm)]
    rintro rfl
    exact hw.not_reaches_of_link hc hm

/-- A visit looks for a node at or below `n`, and if there is none it moves on by one place. -/
def VisitSeeks (σ : PassSetting) (r : Rule) (t : Tree) (n : NodeId) (m : PassM Nat) : Prop :=
  ∀ s, Untrodden t n s →
    Seeks σ r t {m | t.Reaches n m} (fun count s' => count = 1 ∧ Passed t n s s') (m s)

lemma walk_seeks (hw : t.WellLinked) {u : NodeId → PassM Nat} {row : List NodeId} {i j : Nat}
    (hrow : (t.children n).drop i = row) (hj : row.length < j)
    (hu : ∀ c ∈ t.children n, VisitSeeks σ r t c (u c))
    (ht : s.tree = t) (h : ∀ c ∈ row, Untrodden t c s) :
    Seeks σ r t (below t row) (fun _ s' => Passed t n s s') (walk u n j i s) := by
  induction row generalizing i j s with
  | nil =>
    obtain ⟨j, rfl⟩ := Nat.exists_eq_succ_of_ne_zero (Nat.ne_zero_of_lt hj)
    have hend : s.tree.child? n i = none := by
      rw [ht, Tree.child?, List.getElem?_eq_none (List.drop_eq_nil_iff.mp hrow)]
    rw [walk_succ, hend]
    exact .passed (by simp [below_nil]) (ht ▸ .refl n s)
  | cons c row ih =>
    obtain ⟨j, rfl⟩ := Nat.exists_eq_succ_of_ne_zero (Nat.ne_zero_of_lt hj)
    have hi : t.child? n i = some c := by
      rw [Tree.child?, ← List.head?_drop, hrow, List.head?_cons]
    have hrest : (t.children n).drop (i + 1) = row := by
      rw [← List.tail_drop, hrow, List.tail_cons]
    have hlink := hw.link_of_child? hi
    have hnodup : (c :: row).Nodup := hrow ▸ (hw.nodup_children n).sublist (List.drop_sublist i _)
    have hchild : s.tree.child? n i = some c := ht ▸ hi
    have hparent : s.tree.parent? c = some n := ht ▸ hlink
    rw [walk_succ, hchild]
    dsimp only
    rw [if_pos hparent]
    have hrow' : ∀ count s₁, count = 1 ∧ Passed t c s s₁ →
        Seeks σ r t (below t row) (fun _ s' => Passed t n s s') (walk u n j (i + count) s₁) := by
      rintro _ s₁ ⟨rfl, hpassed⟩
      refine (ih hrest (Nat.lt_of_succ_lt_succ hj) hpassed.tree fun d hd => ?_).mono
        fun _ _ hs' => (hpassed.up hlink).trans hs'
      have hd' : d ∈ t.children n := List.mem_of_mem_drop (hrow ▸ List.mem_cons_of_mem c hd)
      refine (h d (List.mem_cons_of_mem c hd)).beside hw hlink
        ((hw.mem_children_iff n d).mp hd') ?_ hpassed
      rintro rfl
      exact (List.nodup_cons.mp hnodup).1 hd
    rw [below_cons]
    exact (hu c (List.mem_of_getElem? hi) s (h c List.mem_cons_self)).bind hrow'

/-- What a visit does after the rounds on the way down. -/
lemma leaveWith_seeks (halone : Alone σ r) (hw : t.WellLinked) {k : Nat}
    (hk : (t.children n).length < k) (hv : ∀ c ∈ t.children n, VisitSeeks σ r t c (v c 0))
    (ht : s.tree = t) (h : ∀ c ∈ t.children n, Untrodden t c (s.mark n .visiting)) :
    Seeks σ r t (below t (t.children n) ∪ {m | r.order = .post ∧ m = n})
      (fun count s' => count = 1 ∧ Passed t n s s') (leaveWith σ v k n lineage (.node n) s) := by
  have hmark : Passed t n s (s.mark n .visiting) := (ht ▸ Passed.refl n s).mark .visiting
  have hwalk := walk_seeks (i := 0) hw List.drop_zero hk hv hmark.tree h
  refine hwalk.bind fun _ s₁ hs₁ => (rounds_seeks halone .post hs₁.tree).finish ?_
  rintro place s₂ ⟨rfl, rfl⟩
  exact ⟨1, _, rfl, rfl, ((hmark.trans hs₁).mark .visited).mark .visited⟩

/-- A visit that is allowed enough for what lies below its node. -/
lemma visit_seeks (lineage : UInt32) (halone : Alone σ r) (hw : t.WellLinked)
    {k : Nat} (hk : t.size < k + (t.ancestors n).length) (hlive : t.isLive n = true) :
    VisitSeeks σ r t n (visit σ k n lineage) := by
  induction k generalizing n lineage with
  | zero =>
    have hlt := hw.length_ancestors_lt n
    omega
  | succ k ih =>
    intro s h
    have hlength := hw.length_children_add_ancestors_lt (t.lt_size_of_isLive hlive)
    have hchild : ∀ c ∈ t.children n, VisitSeeks σ r t c (visit σ k c 0) := by
      intro c hc
      have hlink := (hw.mem_children_iff n c).mp hc
      refine ih 0 ?_ ((hw.isLive_eq n c hlink).symm.trans hlive)
      rw [hw.ancestors_of_link hlink, List.length_cons]
      omega
    have htree : (s.enter n).tree = t := h.tree
    have hbegun : ∀ c ∈ t.children n, Untrodden t c ((s.enter n).mark n .visiting) := by
      intro c hc
      refine h.child hw ((hw.mem_children_iff n c).mp hc) htree fun m hm => ?_
      rw [PassState.stateOf_mark, if_neg hm, PassState.stateOf_enter, if_neg hm]
    have hleave : ∀ place s₁, place = Occupancy.node n ∧ s₁ = s.enter n →
        Seeks σ r t (below t (t.children n) ∪ {m | r.order = .post ∧ m = n})
          (fun count s' => count = 1 ∧ Passed t n (s.enter n) s')
          (leaveWith σ (visit σ k) k n lineage place s₁) := by
      rintro _ _ ⟨rfl, rfl⟩
      exact leaveWith_seeks halone hw (by omega) hchild htree hbegun
    have hnodes : {m | t.Reaches n m} = {m | r.order = .pre ∧ m = n} ∪
        (below t (t.children n) ∪ {m | r.order = .post ∧ m = n}) := by
      ext m
      show t.Reaches n m ↔ _
      rw [reaches_iff_below hw]
      cases r.order <;> simp
    rw [visit_succ, visitWith_of_pending (h.pending n (Tree.Reaches.refl n)) (h.tree ▸ hlive),
      hnodes]
    refine ((rounds_seeks halone .pre htree).bind hleave).mono ?_
    rintro count s' ⟨hcount, hpassed⟩
    exact ⟨hcount, (Passed.enter h.tree n).trans hpassed⟩

/-- A pass with a restless rule as its only one is stopped if there is a node for it. -/
lemma Alone.run (halone : Alone σ r) {w : Workspace}
    (hw : w.tree.WellLinked) (hdepth : w.tree.size < σ.depth)
    (hn : ∃ n, w.tree.isAttached n = true ∧ accepts w.tree r n = true) :
    ∃ n w', w.tree.isAttached n = true ∧ accepts w.tree r n = true ∧
      Pass.run σ w = .error (.error (.loopDetected n r.id σ.revisitBound)) w' := by
  obtain ⟨n, hattached, hacc⟩ := hn
  have hdepth' : w.tree.size < σ.depth + (w.tree.ancestors w.tree.root).length := by omega
  have hseeks := visit_seeks 0 halone hw hdepth' hw.root_live (start w) ⟨rfl, fun _ _ => rfl⟩
  cases hvisit : visit σ σ.depth w.tree.root 0 (start w) with
  | ok count s =>
    rw [hvisit] at hseeks
    cases hseeks with
    | passed hnone h =>
      rw [hnone n (hw.isAttached_iff.mp hattached)] at hacc
      cases hacc
  | error e s =>
    rw [hvisit] at hseeks
    cases hseeks with
    | @stopped m _ hm hacc =>
      have hroot : visitRoot σ { tree := w.tree, files := w.files } = .error _ s := hvisit
      exact ⟨m, s.toWorkspace, hw.isAttached_iff.mpr hm, hacc, by rw [Pass.run, hroot]⟩

end Pass

/-- A rule that marks nodes, and says that it has changed them. -/
def markingRule (again : Bool) : Rule where
  id := "marking"
  kinds := [.null]
  apply _ _ node := do
    if !again && ((← Action.tree).attribute? node .processed).isSome then return .unchanged
    else
      Action.mark node .processed
      return .mutated

lemma markingRule_restless : (markingRule true).Restless := by
  intro oracle pass node w hacc
  exact ⟨{ w with tree := w.tree.setAttribute node .processed (.flag true) }, rfl, hacc⟩

end CodeMigration
