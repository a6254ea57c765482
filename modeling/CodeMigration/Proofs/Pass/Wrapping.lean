import CodeMigration.Proofs.Pass.Displaced
import CodeMigration.Proofs.Pass.Invisible
import CodeMigration.Proofs.Rule.Commands
import CodeMigration.Proofs.Rule.Grafts

/-!
# Wrapped code

A displaced node counts as visited, so the pass goes on without looking below it when it comes by.
What lies below is therefore offered to no rule at all, while everything else that is attached in
the end has been offered to every rule that accepts it.
-/

namespace CodeMigration

namespace Pass

variable {σ : PassSetting} {s s' s₁ : PassState} {n : NodeId}

/-! ### Rounds -/

/-- The tour as a course of the pass. -/
def touring (σ : PassSetting) : Course where
  Good := Steady
  Step := Progress
  Before := Untouched
  After := Toured σ
  Keeps m s s' := displaced m s'.log = displaced m s.log ∧ s'.tree.kind? m = s.tree.kind? m
  linked hs := hs.linked
  good h := h.steady
  occupied h := h.occupied
  refl n hs := Progress.refl hs n
  trans hs hn h h' := h.trans hs hn h'
  of_child hs hlink h := h.of_child hs hlink
  apart hs h hz hnz hzn := h.apart hs hz hnz hzn
  keeps h hout := ⟨h.displaced _ hout, h.kinds _ hout⟩
  keeps_refl _ _ := ⟨rfl, rfl⟩
  keeps_trans h h' := ⟨h'.1.trans h.1, h'.2.trans h.2⟩

/-- A visit puts a row in the place of its node and tours it. -/
def Tours (σ : PassSetting) (u : NodeId → PassM Nat) : Prop := (touring σ).Follows u u

/-- What the rounds of the node `n` lead to. -/
def Seated (σ : PassSetting) (s : PassState) (n : NodeId) (s' : PassState) : Occupancy → Prop
  | .node current => Progress s n [current] s' ∧ Begun s' current ∧ Offered σ s' current
  | place => ∃ row, row.length = place.count ∧ Progress s n row s' ∧ ∀ x ∈ row, Toured σ s' x

/-- What a single round of the node `n` leads to. When it has changed nothing, the node has been
offered to the rules of the round. -/
def Closed (σ : PassSetting) (rules : List Rule) (s : PassState) (n : NodeId)
    (last : Option String) (s' : PassState) : RoundEnd → Prop
  | .ongoing current _ last' => Progress s n [current] s' ∧ Begun s' current ∧
    (last' = none → last = none ∧ current = n ∧ s'.tree.kind? n = s.tree.kind? n ∧
      ∀ r ∈ rules, accepts s.tree r n = true →
        ∃ e ∈ s'.log, e.offerOf? n = some (r.id, r.order))
  | .settled place => Seated σ s n s' place

lemma Seated.after {x : NodeId} {place : Occupancy} (hs : Steady s)
    (hn : s.tree.Reaches s.tree.root n) (h : Progress s n [x] s₁) (h' : Seated σ s₁ x s' place) :
    Seated σ s n s' place := by
  cases place with
  | node current => exact ⟨h.trans_single hs hn h'.1, h'.2⟩
  | expanded count =>
    obtain ⟨row, hlen, hprogress, htour⟩ := h'
    exact ⟨row, hlen, h.trans_single hs hn hprogress, htour⟩
  | removed =>
    obtain ⟨row, hlen, hprogress, htour⟩ := h'
    exact ⟨row, hlen, h.trans_single hs hn hprogress, htour⟩

/-- A round goes on after a change. -/
lemma Closed.after {rules : List Rule} {x : NodeId} {rule : String} {last : Option String}
    {e : RoundEnd} (hs : Steady s) (hn : s.tree.Reaches s.tree.root n) (h : Progress s n [x] s₁)
    (h' : Closed σ rules s₁ x (some rule) s' e) (rules' : List Rule) :
    Closed σ rules' s n last s' e := by
  cases e with
  | ongoing current lineage last' =>
    obtain ⟨hprogress, hbegun, hquiet⟩ := h'
    exact ⟨h.trans_single hs hn hprogress, hbegun, fun hlast => by cases (hquiet hlast).1⟩
  | settled place => exact Seated.after hs hn h h'

section rounds

variable (hrules : ∀ r ∈ σ.rules, r.InPlace σ.oracle) {v : NodeId → UInt32 → PassM Nat}
  (hv : ∀ l, Tours σ (v · l))
include hrules hv

lemma round_closed {rules : List Rule} (hsub : ∀ r ∈ rules, r ∈ σ.rules) {lineage : UInt32}
    {last : Option String} {e : RoundEnd} (hs : Steady s) (hn : Begun s n)
    (hok : round σ v rules n lineage last s = .ok e s') : Closed σ rules s n last s' e := by
  induction rules generalizing s n lineage last with
  | nil =>
    obtain ⟨rfl, rfl⟩ := EStateM.pure_eq_ok_iff.mp hok
    exact ⟨Progress.refl hs n, hn, fun hlast => ⟨hlast, rfl, rfl, by simp⟩⟩
  | cons r rules ih =>
    rw [List.forall_mem_cons] at hsub
    rcases round_cons_eq_ok_iff.mp hok with ⟨hacc, hok⟩ | ⟨hacc, o, s₁, hoffer, hok⟩
    · have hend := ih hsub.2 hs hn hok
      cases e with
      | ongoing current lineage' last' =>
        obtain ⟨hprogress, hbegun, hquiet⟩ := hend
        refine ⟨hprogress, hbegun, fun hlast => ?_⟩
        obtain ⟨hlast, hcurrent, hkind, hoffered⟩ := hquiet hlast
        refine ⟨hlast, hcurrent, hkind, List.forall_mem_cons.mpr ⟨fun h => ?_, hoffered⟩⟩
        rw [hacc] at h
        cases h
      | settled place => exact hend
    · have hhandled := offer_handled (hrules r hsub.1) hs.reachable hn.attached hacc hoffer
      cases o with
      | unchanged =>
        obtain ⟨hprogress, hn₁⟩ := progress_of_stay hs hn hhandled hhandled.seats hhandled.displaced
        have hend := ih hsub.2 hprogress.steady hn₁ hok
        cases e with
        | ongoing current lineage' last' =>
          obtain ⟨hprogress', hbegun, hquiet⟩ := hend
          refine ⟨hprogress.trans_single hs hn.attached hprogress', hbegun, fun hlast => ?_⟩
          obtain ⟨hlast, hcurrent, hkind, hoffered⟩ := hquiet hlast
          have hkept : s₁.tree.kind? n = s.tree.kind? n :=
            (hhandled.kept rfl).kind? (hs.size n hn.begun)
          refine ⟨hlast, hcurrent, hkind.trans hkept, ?_⟩
          refine List.forall_mem_cons.mpr ⟨fun _ => ?_, fun q hq hqacc => hoffered q hq ?_⟩
          · obtain ⟨e, hlog, _, he⟩ := hhandled.log
            exact ⟨e, hprogress'.log (hlog ▸ List.mem_cons_self), he⟩
          · rwa [accepts, hkept]
        | settled place => exact Seated.after hs hn.attached hprogress hend
      | mutated =>
        obtain ⟨hprogress, hn₁⟩ := progress_of_stay hs hn hhandled hhandled.seats hhandled.displaced
        exact (ih hsub.2 hprogress.steady hn₁ hok).after hs hn.attached hprogress _
      | replaced new =>
        obtain ⟨_, hok⟩ := afterReplaced_eq_ok_iff.mp hok
        obtain ⟨hprogress, hnew⟩ := progress_of_replaced hs hn hhandled
        exact (ih hsub.2 hprogress.steady hnew hok).after hs hn.attached hprogress _
      | expanded new =>
        obtain ⟨_, count, hvisit, rfl⟩ := afterExpanded_eq_ok_iff.mp hok
        obtain ⟨hprogress, hfresh⟩ := progress_of_expanded hs hn hhandled
        have hstart : (touring σ).Step s n ([] ++ new) (s₁.mark n .visited) := hprogress
        exact (Course.visitAll_follows (hv (lineage + 1)) hs hn.attached hstart (by simp) hfresh
          hvisit).2
      | removed =>
        obtain ⟨hremoval, rfl⟩ := afterRemoved_eq_ok_iff.mp hok
        exact ⟨[], rfl, progress_of_removed hs hn hhandled hremoval, by simp⟩

lemma roundsFrom_seated {k : Nat} {lineage : UInt32} {place : Occupancy} (hs : Steady s)
    (hn : Begun s n) (hok : roundsFrom σ v .pre k n lineage s = .ok place s') :
    Seated σ s n s' place := by
  induction k generalizing s n lineage with
  | zero => cases hok
  | succ k ih =>
    obtain ⟨e, s₁, hround, hok⟩ := roundsFrom_succ_eq_ok_iff.mp hok
    have hend := round_closed hrules hv (fun r hr => List.mem_of_mem_filter hr) hs hn hround
    match e, hend, hok with
    | .settled place, hseated, ⟨hplace, hs'⟩ =>
      subst hplace hs'
      exact hseated
    | .ongoing current _ none, ⟨hprogress, hbegun, hquiet⟩, ⟨hplace, hs'⟩ =>
      subst hplace hs'
      obtain ⟨_, rfl, hkind, hoffered⟩ := hquiet rfl
      refine ⟨hprogress, hbegun, fun r hr hacc => hoffered r ?_ ?_⟩
      · exact List.mem_filter.mpr ⟨hr, by simpa using (hrules r hr).pre⟩
      · rwa [accepts, ← hkind]
    | .ongoing current lineage (some rule), ⟨hprogress, hbegun, _⟩, ⟨s₂, hcount, hrest⟩ =>
      obtain ⟨rs, rfl⟩ := exists_revisits_of_recount hcount
      have hprogress' : Progress s n [current] { s₁ with revisits := rs } :=
        ⟨⟨hprogress.steady.reachable, hprogress.steady.size, hprogress.steady.attached,
          hprogress.steady.visited, hprogress.steady.logged⟩, hprogress.occupied, hprogress.begun,
          hprogress.states, hprogress.displaced, hprogress.kinds, hprogress.log⟩
      have hbegun' : Begun { s₁ with revisits := rs } current :=
        ⟨hbegun.attached, hbegun.begun, hbegun.here, hbegun.fresh⟩
      exact (ih hprogress'.steady hbegun' hrest).after hs hn.attached hprogress'

end rounds

/-! ### Visits -/

/-- A node in its place is toured once its children are. -/
lemma toured_of_children (hs : Steady s) (hhere : displaced n s.log = false)
    (hvisited : s.stateOf n = .visited) (hoffered : Offered σ s n)
    (h : ∀ c ∈ s.tree.children n, Toured σ s c) : Toured σ s n := by
  intro m hm hd
  rcases (reaches_iff_below hs.linked).mp hm with rfl | ⟨c, hc, hcm⟩
  · refine ⟨?_, fun _ => ⟨hvisited, hoffered⟩⟩
    rintro ⟨a, hma, ham, hne, _⟩
    rcases Relation.ReflTransGen.cases_head hma with rfl | ⟨c, hc, hca⟩
    · exact absurd rfl hne
    · exact absurd (hca.trans ham) (hs.linked.not_reaches_of_link hc)
  · have hlink : s.tree.Link n c := (hs.linked.mem_children_iff n c).mp hc
    have hcovered : Covered s n m ↔ Covered s c m := by
      constructor
      · rintro ⟨a, hna, ham, hne, ha⟩
        rcases (reaches_iff_below hs.linked).mp hna with rfl | ⟨c', hc', hca⟩
        · rw [hhere] at ha
          cases ha
        · have hlink' : s.tree.Link n c' := (hs.linked.mem_children_iff n c').mp hc'
          obtain rfl := hs.linked.eq_of_siblings hlink hlink' hcm (hca.trans ham)
          exact ⟨a, hca, ham, hne, ha⟩
      · rintro ⟨a, hca, ham, hne, ha⟩
        exact ⟨a, hlink.reaches.trans hca, ham, hne, ha⟩
    rw [hcovered]
    exact h c hc m hcm hd

section visits

variable (hrules : ∀ r ∈ σ.rules, r.InPlace σ.oracle) {v : NodeId → UInt32 → PassM Nat}
  (hv : ∀ l, Tours σ (v · l))
include hrules hv

/-- After the rounds of a node its children are visited, if it is still one node. -/
lemma leaveWith_tours {k count : Nat} {lineage : UInt32} {place : Occupancy} (hs : Steady s)
    (hn : s.tree.Reaches s.tree.root n) (hbegun : s.stateOf n ≠ .pending)
    (hseated : Seated σ s n s₁ place) (hok : leaveWith σ v k n lineage place s₁ = .ok count s') :
    ∃ row, row.length = count ∧ Progress s n row s' ∧ ∀ x ∈ row, Toured σ s' x := by
  have hmark : ∀ {row s₁}, Progress s n row s₁ → Progress s n row (s₁.mark n .visited) :=
    fun h => h.mark (h.steady.mark (Or.inr (h.begun n hbegun)) VisitState.noConfusion fun _ => rfl)
      VisitState.noConfusion fun hout => hout.ne rfl
  match place, hseated, hok with
  | .expanded _, ⟨row, hlen, hprogress, htour⟩, hok =>
    cases hok
    exact ⟨row, hlen, hmark hprogress, fun x hx => (htour x hx).mark (hprogress.begun n hbegun)⟩
  | .removed, ⟨row, hlen, hprogress, htour⟩, hok =>
    cases hok
    exact ⟨row, hlen, hmark hprogress, fun x hx => (htour x hx).mark (hprogress.begun n hbegun)⟩
  | .node current, ⟨hprogress, hcurrent, hoffered⟩, hok =>
    obtain ⟨s₂, place, s₃, hwalk, hpost, rfl, rfl⟩ := leaveWith_node_eq_ok_iff.mp hok
    obtain ⟨rfl, rfl, _⟩ := rounds_post_eq (fun r hr => (hrules r hr).pre) hpost v
    have hs₁ : Steady (s₁.mark current .visiting) :=
      hprogress.steady.mark (Or.inl hcurrent.attached) VisitState.noConfusion fun hd => by
        rw [hcurrent.here] at hd
        cases hd
    have hfresh : ∀ c ∈ s₁.tree.children current, Untouched (s₁.mark current .visiting) c := by
      intro c hc m hm
      have hlink : s₁.tree.Link current c := (hs₁.linked.mem_children_iff current c).mp hc
      have hne : m ≠ current := by
        rintro rfl
        exact hs₁.linked.not_reaches_of_link hlink hm
      rw [Fresh, PassState.stateOf_mark, if_neg hne]
      exact hcurrent.fresh m (hlink.reaches.trans hm) hne
    have hnone : ∀ c ∈ ([] : List NodeId), Toured σ (s₁.mark current .visiting) c := by simp
    obtain ⟨-, hwalked, htour, hd, hkind⟩ := Course.walk_follows (hv 0) hs₁ hcurrent.attached
      (List.nil_append _).symm hnone hfresh hwalk
    have hinside : ¬ s.tree.Outside n current := fun hout =>
      hprogress.occupied.not_reaches_row hs.linked hprogress.steady.linked hn
        (List.mem_singleton_self current) hout (Tree.Reaches.refl current)
    have hall : Progress s n [current] s₃ :=
      (hprogress.mark hs₁ VisitState.noConfusion hinside).trans_single hs hn hwalked
    have hattached : s₃.tree.Reaches s₃.tree.root current :=
      hall.occupied.attached_row hs.linked hall.steady.linked hn (List.mem_singleton_self current)
    have hbegun' : s₃.stateOf current ≠ .pending := hwalked.begun current <| by
      rw [PassState.stateOf_mark, if_pos rfl]
      exact VisitState.noConfusion
    have hlast : Steady ((s₃.mark n .visited).mark current .visited) :=
      (hmark hall).steady.mark (Or.inl hattached) VisitState.noConfusion fun _ => rfl
    refine ⟨[current], rfl, (hmark hall).mark hlast VisitState.noConfusion hinside,
      List.forall_mem_singleton.mpr ?_⟩
    refine toured_of_children hlast (hd.trans hcurrent.here) ?_ ?_ fun c hc => ?_
    · rw [PassState.stateOf_mark, if_pos rfl]
    · exact Offered.mono hoffered hwalked.log hkind
    · refine ((htour c hc).mark (hall.begun n hbegun)).mark ?_
      rw [PassState.stateOf_mark]
      split
      · exact VisitState.noConfusion
      · exact hbegun'

/-- A visit tours the place of its node when the visits below it do. -/
lemma visitWith_tours (k : Nat) (lineage : UInt32) : Tours σ (visitWith σ v k · lineage) := by
  intro s s' n count hs hn hfresh hok
  have hlive : s.tree.isLive n = true := hs.linked.isLive_of_attached hn
  rcases visitWith_eq_ok_iff.mp hok with ⟨hseen, rfl, rfl⟩ | ⟨hnew, place, s₁, hpre, hleave⟩
  · -- the node is displaced and passed over with everything below it
    have hd : displaced n s'.log = true := by
      refine (hfresh n (Tree.Reaches.refl n)).resolve_left ?_
      refine hseen.resolve_right ?_
      simp [hlive]
    refine ⟨hok, [n], rfl, Progress.refl hs n, List.forall_mem_singleton.mpr fun m hm hhere => ?_⟩
    have hne : n ≠ m := by
      rintro rfl
      rw [hd] at hhere
      cases hhere
    have hcovered : Covered s' n m := ⟨n, Tree.Reaches.refl n, hm, hne, hd⟩
    refine ⟨fun _ => ?_, fun hopen => absurd hcovered hopen⟩
    refine (hfresh m hm).resolve_right ?_
    simp [hhere]
  · have hhere : displaced n s.log = false := by
      by_contra hd
      rw [Bool.not_eq_false] at hd
      rw [hs.visited n hd] at hnew
      cases hnew.1
    have hs₀ : Steady (s.enter n) := hs.enter hn hhere
    have hbegun : (s.enter n).stateOf n ≠ .pending := by
      rw [PassState.stateOf_enter, if_pos rfl]
      exact VisitState.noConfusion
    have hstart : Begun (s.enter n) n := by
      refine ⟨hn, hbegun, hhere, fun m hm hne => ?_⟩
      rw [Fresh, PassState.stateOf_enter, if_neg hne]
      exact hfresh m hm
    have hseated := roundsFrom_seated hrules hv hs₀ hstart hpre
    obtain ⟨row, hlen, hprogress, htour⟩ := leaveWith_tours hrules hv hs₀ hn hbegun hseated hleave
    -- entering the node shows only at the node
    refine ⟨hok, row, hlen, ⟨hprogress.steady, hprogress.occupied, fun m hm => hprogress.begun m ?_,
      fun m hm => ?_, hprogress.displaced, hprogress.kinds,
      fun _ he => hprogress.log (List.mem_cons_of_mem _ he)⟩, htour⟩
    · rw [PassState.stateOf_enter]
      split
      · exact VisitState.noConfusion
      · exact hm
    · rw [hprogress.states m hm, PassState.stateOf_enter, if_neg hm.ne]

end visits

lemma visit_tours (hrules : ∀ r ∈ σ.rules, r.InPlace σ.oracle) (k : Nat) (lineage : UInt32) :
    Tours σ (visit σ k · lineage) := by
  induction k generalizing lineage with
  | zero =>
    intro s s' n count _ _ _ hok
    cases hok
  | succ k ih => exact visitWith_tours hrules ih k lineage

end Pass

/-- In a pass that succeeds, with rules that work in place, an attached node that has not been
displaced is offered to every rule that accepts it, unless a displaced node stands above it: then it
is offered to none and not even entered. -/
theorem offered_unless_covered {σ : PassSetting} (hrules : ∀ r ∈ σ.rules, r.InPlace σ.oracle)
    {w w' : Workspace} {stats : PassStats} (hw : w.tree.Reachable)
    (hrun : Pass.run σ w = .ok stats w') :
    ∃ count s, Pass.visitRoot σ { tree := w.tree, files := w.files } = .ok count s ∧
      w' = s.toWorkspace ∧
      ∀ m, s.tree.Reaches s.tree.root m → Pass.displaced m s.log = false →
        (Pass.Covered s s.tree.root m → s.stateOf m = .pending ∧ ∀ e ∈ s.log, e.node ≠ m) ∧
        (¬ Pass.Covered s s.tree.root m → s.stateOf m = .visited ∧ Pass.Offered σ s m) := by
  obtain ⟨count, s, hvisit, rfl, rfl, _⟩ := Pass.run_eq_ok hrun
  have hs : Pass.Steady { tree := w.tree, files := w.files } :=
    ⟨hw, fun _ h => absurd rfl h, fun _ h => absurd rfl h, fun _ h => absurd h Bool.false_ne_true,
      fun _ h => absurd h List.not_mem_nil⟩
  obtain ⟨_, row, _, hprogress, htour⟩ := Pass.visit_tours hrules σ.depth 0 hs
    (Tree.Reaches.refl _) (fun _ _ => Or.inl rfl) hvisit
  refine ⟨count, s, hvisit, rfl, fun m hm hhere => ?_⟩
  have hroot : row = [s.tree.root] := hprogress.occupied.of_root rfl
  obtain ⟨hclosed, hopen⟩ := htour s.tree.root (hroot ▸ List.mem_singleton_self _) m hm hhere
  refine ⟨fun hc => ⟨hclosed hc, fun e he hem => ?_⟩, hopen⟩
  exact hprogress.steady.logged e he (hem ▸ hclosed hc)

/-! ### A wrapping rule -/

namespace Tree

variable {t t₁ t₂ t₃ : Tree} {p n : NodeId} {c : Construct}

/-- A row with one node in the place of another. -/
lemma insertIdx_splice {l : List NodeId} (hl : l.Nodup) (hn : n ∈ l) (w : NodeId) :
    (splice l n []).insertIdx (l.idxOf n) w = put n [w] l := by
  obtain ⟨l₁, l₂, rfl, hnot, _, hput⟩ := put_split hl hn
  have hidx : (l₁ ++ n :: l₂).idxOf n = l₁.length := by
    rw [List.idxOf_append_of_notMem hnot, List.idxOf_cons_self, Nat.add_zero]
  have hinsert : ∀ l : List NodeId, (l ++ l₂).insertIdx l.length w = l ++ w :: l₂ := by
    intro l
    induction l with
    | nil => rfl
    | cons x l ih => simp [ih]
  rw [splice_eq_put hl hn, hput, hput, hidx, List.append_nil, hinsert, List.append_assoc,
    List.singleton_append]

lemma relinked {t' : Tree} {row new out : List NodeId} (hp : p < t.size)
    (h : t' = (t.relink p row new out).touch) :
    t'.root = t.root ∧ (∀ q, t'.children q = if q = p then row else t.children q) ∧
      ∀ q, t'.kind? q = t.kind? q := by
  subst h
  exact ⟨by simp, fun q => children_relink _ _ _ _ _ hp q, fun q => by simp [kind?]⟩

/-- A new node takes the place of another one, which then goes below it. -/
lemma occupied_wrap (ht : t.WellLinked) (hlink : t.Link p n)
    (hdetach : (t.add c).1.detach p n = .ok t₁)
    (hinsert : t₁.insertChild p ((t.children p).idxOf n) t.size = .ok t₂)
    (hpush : t₂.pushChild t.size n = .ok t₃) :
    t.Occupied n [t.size] t₃ ∧ ∀ m, t.Outside n m → t₃.kind? m = t.kind? m := by
  have ht₀ : (t.add c).1.WellLinked := ht.add c
  have ht₁ : t₁.WellLinked := ht₀.detach hdetach
  have ht₂ : t₂.WellLinked := ht₁.insertChild hinsert
  obtain ⟨-, hlink₀, h₁⟩ := (detach_eq_ok_iff ht₀).mp hdetach
  obtain ⟨hattach₁, -, h₂⟩ := (insertChild_eq_ok_iff ht₁).mp hinsert
  obtain ⟨hattach₂, h₃⟩ := (pushChild_eq_ok_iff ht₂).mp hpush
  obtain ⟨hroot₁, hchildren₁, hkind₁⟩ := relinked (ht₀.link_lt hlink₀).1 h₁
  obtain ⟨hroot₂, hchildren₂, hkind₂⟩ := relinked (t₁.lt_size_of_isLive hattach₁.parent_live) h₂
  obtain ⟨hroot₃, hchildren₃, hkind₃⟩ := relinked (t₂.lt_size_of_isLive hattach₂.parent_live) h₃
  have hold : ∀ m, t.Reaches t.root m → m ≠ t.size := fun m hm =>
    Nat.ne_of_lt (ht.lt_size_of_reaches hm)
  refine ⟨⟨fun h => absurd h (ht.ne_root_of_link hlink), fun _ => ?_, fun q hq _ => ?_⟩,
    fun m hm => ?_⟩
  · rw [hroot₃, hroot₂, hroot₁]
    rfl
  · rw [hchildren₃, if_neg (hold q hq), hchildren₂, hchildren₁, if_pos rfl, hchildren₁,
      children_add, children_add]
    split
    · next hqp =>
      rw [hqp, insertIdx_splice (ht.nodup_children p) ((ht.mem_children_iff p n).mpr hlink)]
    · next hqp =>
      rw [put_of_not_mem]
      intro hin
      exact hqp (((ht.mem_children_iff q n).mp hin).unique hlink)
  · rw [hkind₃, hkind₂, hkind₁, kind?, construct?, slot?_add, if_neg (hold m hm.attached), kind?,
      construct?]

end Tree

/-- A rule that makes every array the argument of a call. -/
def wrappingRule : Rule where
  id := "wrapping"
  kinds := [.array]
  apply _ _ n := do
    let t ← Action.tree
    match t.parent? n with
    | none => return .unchanged
    | some p =>
      let call ← Action.add (.functionCall "f")
      Action.edit (Edit.detach p n)
      Action.edit (Edit.insertChild p ((t.children p).idxOf n) call)
      Action.edit (Edit.pushChild call n)
      return .replaced call

lemma wrappingRule_inPlace (oracle : Oracle) : wrappingRule.InPlace oracle where
  pre := rfl
  commands := by
    refine Rule.EditsOnly.actsByCommands fun _ _ n => Action.EditsFrom.tree_bind_all fun t => ?_
    cases t.parent? n with
    | none => exact Action.EditsFrom.pure _
    | some p =>
      refine (Action.EditsFrom.add _).bind fun call => ?_
      refine (Action.EditsFrom.command (.detach p n) rfl fun _ => rfl).bind fun _ => ?_
      refine (Action.EditsFrom.command (.insertChild p ((t.children p).idxOf n) call) rfl
        fun _ => rfl).bind fun _ => ?_
      exact (Action.EditsFrom.command (.pushChild call n) rfl fun _ => rfl).bind fun _ =>
        Action.EditsFrom.pure _
  success {pass n t files o w} ht _ _ happ := by
    have hensures : (wrappingRule.apply oracle pass n).Ensures ⟨t.checkpoint, files⟩ fun o t' =>
        o.Seats t n t' ∧ ∀ m, t.Outside n m → t'.kind? m = t.kind? m := by
      refine Action.Ensures.tree_bind ?_
      cases hp : t.checkpoint.parent? n with
      | none => exact Action.Ensures.pure ⟨.of_same rfl fun _ _ _ => rfl, fun _ _ => rfl⟩
      | some p =>
        have hadd : (Action.add (.functionCall "f")).Ensures ⟨t.checkpoint, files⟩ fun call t' =>
            call = t.size ∧ t' = (t.checkpoint.add (.functionCall "f")).1 := by
          intro call w' hok
          cases hok
          exact ⟨rfl, rfl⟩
        refine hadd.bind fun call w₀ ⟨hcall, h₀⟩ => ?_
        have hedit : ∀ (m : Edit Unit) (w : Workspace),
            (Action.edit m).Ensures w fun _ t' => m.result w.tree = .ok t' :=
          fun m w => Action.Ensures.edit fun _ h => h
        refine (hedit _ w₀).bind fun _ w₁ h₁ => (hedit _ w₁).bind fun _ w₂ h₂ => ?_
        refine (hedit _ w₂).bind fun _ w₃ h₃ => Action.Ensures.pure ?_
        rw [hcall] at h₂ h₃ ⊢
        rw [h₀] at h₁
        obtain ⟨hocc, hkinds⟩ := Tree.occupied_wrap ht.sound.checkpoint.linked hp h₁ h₂ h₃
        exact ⟨⟨hocc.of_root, hocc.root, hocc.children⟩, fun m hm => hkinds m ⟨hm.attached, hm.out⟩⟩
    exact hensures o w happ

lemma namingRule_inPlace (oracle : Oracle) : namingRule.InPlace oracle where
  pre := rfl
  commands := namingRule_actsByCommands
  success {pass n t files o w} ht _ _ happ := by
    have hensures : (namingRule.apply oracle pass n).Ensures ⟨t.checkpoint, files⟩ fun o t' =>
        o.Seats t n t' ∧ ∀ m, t.Outside n m → t'.kind? m = t.kind? m := by
      have hroot : (t.checkpoint.setConstruct n (.string "null")).root = t.checkpoint.root := by
        simp
      refine Action.Ensures.require_bind (Action.Ensures.update_bind (Action.Ensures.pure ?_))
      refine ⟨.of_same hroot fun q _ _ => Tree.children_setConstruct n _ q, fun m hm => ?_⟩
      rw [Tree.kind?, Tree.construct?_setConstruct, if_neg hm.ne]
      rfl
    exact hensures o w happ

/-- An array around a null, and another null beside it. -/
def Tree.sampleNest : Tree :=
  Command.runAll (Tree.new .file) [.add .array, .pushChild 0 1, .add .null, .pushChild 1 2,
    .add .null, .pushChild 0 3]

/-- Whether a walk comes to an end that passes a test. -/
def Pass.endsIn (test : Nat → PassState → Bool) : EStateM.Result Failure PassState Nat → Bool
  | .ok count s => test count s
  | .error _ _ => false

lemma Pass.exists_of_endsIn {test : Nat → PassState → Bool}
    {result : EStateM.Result Failure PassState Nat} (h : endsIn test result = true) :
    ∃ count s, result = .ok count s ∧ test count s = true := by
  cases result with
  | ok count s => exact ⟨count, s, rfl, h⟩
  | error e s => cases h

/-- How the pass over the sample ends: the call `4` stands in the place of the array `1`, which has
gone below it with the null `2`, and the log has no offer of that null. -/
lemma visitRoot_sampleNest :
    ∃ s : PassState,
      Pass.visitRoot ⟨[wrappingRule, namingRule], .unknown, 1, 3, 9⟩ { tree := Tree.sampleNest } =
        .ok 1 s ∧
      (s.tree.root = 0 ∧ s.tree.parent? 0 = none ∧ s.tree.parent? 4 = some 0 ∧
        s.tree.parent? 1 = some 4 ∧ s.tree.parent? 2 = some 1 ∧ s.tree.parent? 3 = some 0) ∧
      [0, 1, 2, 3].map (Pass.displaced · s.log) = [false, true, false, false] ∧
      Event.offered "wrapping" .pre 1 (.replaced 4) ∈ s.log ∧
      (∀ e ∈ s.log, e.offerOf? 2 = none) ∧ Pass.accepts s.tree namingRule 2 = true := by
  have hvisit : Pass.endsIn (fun count s => decide (count = 1 ∧
      (s.tree.root = 0 ∧ s.tree.parent? 0 = none ∧ s.tree.parent? 4 = some 0 ∧
        s.tree.parent? 1 = some 4 ∧ s.tree.parent? 2 = some 1 ∧ s.tree.parent? 3 = some 0) ∧
      [0, 1, 2, 3].map (Pass.displaced · s.log) = [false, true, false, false] ∧
      Event.offered "wrapping" .pre 1 (.replaced 4) ∈ s.log ∧
      (∀ e ∈ s.log, e.offerOf? 2 = none) ∧ Pass.accepts s.tree namingRule 2 = true))
      (Pass.visitRoot ⟨[wrappingRule, namingRule], .unknown, 1, 3, 9⟩
        { tree := Tree.sampleNest }) = true := by decide +kernel
  obtain ⟨count, s, hok, htest⟩ := Pass.exists_of_endsIn hvisit
  obtain ⟨rfl, hend⟩ := of_decide_eq_true htest
  exact ⟨s, hok, hend⟩

/-- The pass wraps the array and names the null beside it; the one inside is never looked at. -/
theorem offered_unless_covered_sample :
    ∃ s : PassState,
      Pass.visitRoot ⟨[wrappingRule, namingRule], .unknown, 1, 3, 9⟩ { tree := Tree.sampleNest } =
        .ok 1 s ∧
      s.tree.parent? 4 = some 0 ∧ s.tree.parent? 1 = some 4 ∧ s.tree.parent? 2 = some 1 ∧
      s.stateOf 2 = .pending ∧ (∀ e ∈ s.log, e.node ≠ 2) ∧ s.stateOf 3 = .visited := by
  obtain ⟨s, hok, ⟨hroot, h0, h4, h1, h2, h3⟩, hdisplaced, -⟩ := visitRoot_sampleNest
  simp only [List.map_cons, List.map_nil, List.cons.injEq, and_true] at hdisplaced
  obtain ⟨hd0, hd1, hd2, hd3⟩ := hdisplaced
  have hrun : Pass.run ⟨[wrappingRule, namingRule], .unknown, 1, 3, 9⟩ ⟨Tree.sampleNest, []⟩ =
      .ok (.ofLog s.log) s.toWorkspace := by
    rw [Pass.run, hok]
  have hrules : ∀ r ∈ [wrappingRule, namingRule], r.InPlace .unknown :=
    List.forall_mem_cons.mpr ⟨wrappingRule_inPlace .unknown,
      List.forall_mem_singleton.mpr (namingRule_inPlace .unknown)⟩
  obtain ⟨count, s', hok', -, hspec⟩ := offered_unless_covered hrules
    ((Tree.Reachable.new .file).runAll _) hrun
  obtain rfl : s = s' := by
    rw [hok] at hok'
    cases hok'
    rfl
  have hreach1 : s.tree.Reaches s.tree.root 1 :=
    hroot ▸ (Tree.Link.reaches h4).trans (Tree.Link.reaches h1)
  have hreach2 : s.tree.Reaches 1 2 := Tree.Link.reaches h2
  have hreach3 : s.tree.Reaches s.tree.root 3 := hroot ▸ Tree.Link.reaches h3
  have hopen : ¬ Pass.Covered s s.tree.root 3 := by
    rintro ⟨a, _, ha, hne, hd⟩
    rcases Tree.reaches_iff.mp ha with rfl | ⟨p, hp, hap⟩
    · exact hne rfl
    · have hp0 : p = 0 := hp.unique h3
      rw [hp0] at hap
      rw [hap.eq_of_free h0, hd0] at hd
      cases hd
  obtain ⟨hpending, hlog⟩ := (hspec 2 (hreach1.trans hreach2) hd2).1
    ⟨1, hreach1, hreach2, by decide, hd1⟩
  exact ⟨s, hok, h4, h1, h2, hpending, hlog, ((hspec 3 hreach3 hd3).2 hopen).1⟩

/-- A wrapped node keeps what lies below it from being offered to a rule that accepts it. -/
theorem wrapped_not_offered :
    ¬ ∀ (σ : PassSetting) (w : Workspace) (count : Nat) (s : PassState),
      (∀ r ∈ σ.rules, r.order = .pre ∧ r.ActsByCommands) → w.tree.Reachable →
      Pass.visitRoot σ { tree := w.tree, files := w.files } = .ok count s →
      ∀ rule n new, Event.offered rule .pre n (.replaced new) ∈ s.log →
        s.tree.Reaches new n → n ≠ new → ∀ m, s.tree.Reaches n m → m ≠ n →
          s.tree.Reaches s.tree.root m → Pass.Offered σ s m := by
  intro h
  obtain ⟨s, hok, ⟨hroot, -, h4, h1, h2, -⟩, -, hlog, hnone, hacc⟩ := visitRoot_sampleNest
  have hreach1 : s.tree.Reaches 4 1 := Tree.Link.reaches h1
  have hreach2 : s.tree.Reaches 1 2 := Tree.Link.reaches h2
  have hattached : s.tree.Reaches s.tree.root 2 :=
    hroot ▸ (Tree.Link.reaches h4).trans (hreach1.trans hreach2)
  have hrules : ∀ r ∈ [wrappingRule, namingRule], r.order = .pre ∧ r.ActsByCommands :=
    List.forall_mem_cons.mpr ⟨⟨rfl, (wrappingRule_inPlace .unknown).commands⟩,
      List.forall_mem_singleton.mpr ⟨rfl, namingRule_actsByCommands⟩⟩
  obtain ⟨e, he, hoffer⟩ := h _ ⟨Tree.sampleNest, []⟩ 1 s hrules
    ((Tree.Reachable.new .file).runAll _) hok "wrapping" 1 4 hlog hreach1 (by decide) 2 hreach2
    (by decide) hattached namingRule (by simp) hacc
  rw [hnone e he] at hoffer
  cases hoffer

end CodeMigration
