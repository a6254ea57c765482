import CodeMigration.Proofs.Pass.Slotwise

/-!
# Displaced nodes

A rule may put other nodes in the place of the node it was offered and keep that node among or below
them. The node is then displaced, and from that moment on it counts as visited.

A part of the visit of `n` is followed by `Progress`: which row stands in the place of `n`, and what
is kept outside. Before the visit everything below `n` is `Fresh`, and whatever a rule does in the
place of `n`, the new row has nothing but fresh nodes below it.
-/

namespace CodeMigration

/-! ### Displaced nodes -/

/-- The node an event is about. -/
def Event.node : Event → NodeId
  | .entered n => n
  | .offered _ _ n _ => n
  | .abandoned _ _ n _ => n

/-- Whether `m` is displaced after an offer of `n`, from whether it was before. -/
def Outcome.displaces (n m : NodeId) (before : Bool) : Outcome → Bool
  | .replaced new => new != m && (n == m || before)
  | .expanded _ => n == m || before
  | _ => before

namespace Outcome

variable {n m new : NodeId} {before : Bool}

/-- An offer displaces no other node. -/
lemma displaces_of_ne (o : Outcome) (hmn : m ≠ n) (hnew : o ≠ .replaced m) :
    o.displaces n m before = before := by
  cases o with
  | replaced new =>
    have hne : new ≠ m := fun h => hnew (h ▸ rfl)
    rw [displaces, bne_iff_ne.mpr hne, beq_false_of_ne hmn.symm, Bool.true_and, Bool.false_or]
  | expanded new => rw [displaces, beq_false_of_ne hmn.symm, Bool.false_or]
  | unchanged | mutated | removed => rfl

@[simp] lemma displaces_new : (replaced new).displaces n new before = false := by
  simp [displaces]

lemma displaces_replaced (h : new ≠ n) : (replaced new).displaces n n before = true := by
  simp [displaces, h]

@[simp] lemma displaces_expanded {row : List NodeId} :
    (expanded row).displaces n n before = true := by
  simp [displaces]

end Outcome

/-- What an application at `n` has to leave behind, by the outcome it reports. A node that has been
replaced may live on, anywhere below those in its place. -/
def Outcome.Seats (t : Tree) (n : NodeId) (t' : Tree) : Outcome → Prop
  | .unchanged => t.Occupied n [n] t'
  | .mutated => t.Occupied n [n] t'
  | .replaced new => t.Occupied n [new] t'
  | .expanded new => t.Occupied n new t'
  | .removed => t.Occupied n [] t' ∨ t.Occupied n [n] t'

/-- A commit does not move anything. -/
lemma Outcome.Seats.commit {t t' : Tree} {n : NodeId} {o : Outcome} (h : o.Seats t n t') :
    o.Seats t n t'.commit := by
  have hocc : ∀ {row}, t.Occupied n row t' → t.Occupied n row t'.commit :=
    fun h => ⟨h.of_root, h.root, h.children⟩
  cases o with
  | unchanged => exact hocc h
  | mutated => exact hocc h
  | replaced new => exact hocc h
  | expanded new => exact hocc h
  | removed => exact h.imp hocc hocc

/-- Every application works on the tree by plain commands, changes nothing outside the subtree of
the node but what stands in its place, and reports that as it is. -/
structure Rule.InPlace (oracle : Oracle) (r : Rule) : Prop where
  pre : r.order = .pre
  commands : r.ActsByCommands
  success : ∀ {pass n} {t : Tree} {files o w}, t.Reachable → t.Reaches t.root n →
    Pass.accepts t r n = true → r.apply oracle pass n ⟨t.checkpoint, files⟩ = .ok o w →
    o.Seats t n w.tree ∧ ∀ m, t.Outside n m → w.tree.kind? m = t.kind? m

namespace Pass

variable {σ : PassSetting} {s s' s₁ s₂ : PassState} {n m : NodeId} {row : List NodeId}

/-- Whether something else was put in the place of the node, which has not been put into a place
since. -/
def displaced (m : NodeId) : List Event → Bool
  | [] => false
  | .offered _ _ n o :: log => o.displaces n m (displaced m log)
  | _ :: log => displaced m log

/-! ### Offers -/

/-- What an offer of `n` leads to. -/
structure Handled (s : PassState) (n : NodeId) (r : Rule) (o : Outcome) (s₁ : PassState) :
    Prop where
  states : s₁.states = s.states
  reachable : s₁.tree.Reachable
  grown : s.tree.Grown s₁.tree
  seats : o.Seats s.tree n s₁.tree
  kinds : ∀ m, s.tree.Outside n m → s₁.tree.kind? m = s.tree.kind? m
  kept : o = .unchanged → s.tree.Kept s₁.tree
  log : ∃ e, s₁.log = e :: s.log ∧ e.node = n ∧ e.offerOf? n = some (r.id, r.order)
  displaced : ∀ m, displaced m s₁.log = o.displaces n m (displaced m s.log)

/-- An outcome is taken over, unless the rule has changed something and not said so. -/
lemma judge_eq_ok {rule : String} {before : Nat} {t : Tree} {o₀ o : Outcome}
    (h : judge rule n before t o₀ = .ok o) : o = o₀ ∨ o₀ = .unchanged ∧ o = .mutated := by
  cases o₀ with
  | unchanged =>
    obtain rfl := Except.ok.inj h
    split
    · exact Or.inl rfl
    · exact Or.inr ⟨rfl, rfl⟩
  | mutated => exact Or.inl (Except.ok.inj h).symm
  | replaced new =>
    rw [judge] at h
    split at h
    · exact Or.inl (Except.ok.inj h).symm
    · cases h
  | expanded new =>
    rw [judge] at h
    split at h
    · cases h
    · exact Or.inl (Except.ok.inj h).symm
  | removed => exact Or.inl (Except.ok.inj h).symm

lemma offer_handled {r : Rule} (hr : r.InPlace σ.oracle) (hs : s.tree.Reachable)
    (hn : s.tree.Reaches s.tree.root n) (hacc : accepts s.tree r n = true) {o : Outcome}
    (hok : offer σ r n s = .ok o s₁) : Handled s n r o s₁ := by
  have hedited := hr.commands σ.oracle σ.pass n ⟨s.tree.checkpoint, s.files⟩
  rcases offer_eq_ok_iff.mp hok with ⟨o₀, w, happ, hjudge, rfl⟩ | ⟨e, w, happ, _, rfl, rfl⟩
  · rw [Action.after, happ] at hedited
    obtain ⟨hseats, hkinds⟩ := hr.success hs hn hacc happ
    obtain ⟨cmds, hplain, hcmds⟩ := hedited
    have hcmds : w.tree = Command.runAll s.tree.checkpoint cmds := hcmds
    refine ⟨rfl, ?_, ?_, ?_, hkinds, fun ho => ?_, ⟨_, rfl, rfl, if_pos rfl⟩, fun _ => rfl⟩
    · have hw : w.tree.Reachable := hcmds ▸ (hs.run .checkpoint).runAll cmds
      exact hw.run .commit
    · have hgrown : s.tree.Grown w.tree := hcmds ▸ (hs.sound.grown_runAll cmds).1
      exact hgrown.trans (.of_slots rfl)
    · rcases judge_eq_ok hjudge with rfl | ⟨rfl, rfl⟩
      · exact hseats.commit
      · exact Outcome.Seats.commit (o := .unchanged) hseats
    · subst ho
      have hrev : w.tree.revision = s.tree.revision := (judge_unchanged_iff.mp hjudge).2
      have hkept : s.tree.checkpoint.Kept w.tree :=
        (Tree.Edited.counted ⟨cmds, hplain, hcmds⟩ hs.sound.checkpoint.linked).2 hrev
      exact (s.tree.kept_checkpoint.trans hkept).trans w.tree.kept_commit
  · rw [Action.after, happ] at hedited
    have hback : w.tree.rollback = s.tree.commit := hs.sound.rollback_edited hedited
    rw [hback]
    exact ⟨rfl, hs.run .commit, .of_slots rfl, .of_same rfl fun _ _ _ => rfl, fun _ _ => rfl,
      fun _ => s.tree.kept_commit, ⟨_, rfl, rfl, if_pos rfl⟩, fun _ => rfl⟩

/-! ### States -/

/-- The tree is reachable; what has been entered, is in use and is not displaced is attached; what
is displaced counts as visited; and the log is about nodes that have been entered. -/
structure Steady (s : PassState) : Prop where
  reachable : s.tree.Reachable
  size : ∀ m, s.stateOf m ≠ .pending → m < s.tree.size
  attached : ∀ m, s.stateOf m ≠ .pending → displaced m s.log = false → s.tree.isLive m = true →
    s.tree.Reaches s.tree.root m
  visited : ∀ m, displaced m s.log = true → s.stateOf m = .visited
  logged : ∀ e ∈ s.log, s.stateOf e.node ≠ .pending

lemma Steady.linked (h : Steady s) : s.tree.WellLinked := h.reachable.sound.linked

lemma Steady.mark (h : Steady s) (hm : s.tree.Reaches s.tree.root m ∨ s.stateOf m ≠ .pending)
    {v : VisitState} (hv : v ≠ .pending) (hd : displaced m s.log = true → v = .visited) :
    Steady (s.mark m v) := by
  have hstate : ∀ k, (s.mark m v).stateOf k = if k = m then v else s.stateOf k :=
    fun k => s.stateOf_mark m k v
  refine ⟨h.reachable, fun k hk => ?_, fun k hk hhere hlive => ?_, fun k hk => ?_, fun e he => ?_⟩
  · by_cases hkm : k = m
    · subst hkm
      exact hm.elim h.linked.lt_size_of_reaches (h.size k)
    · rw [hstate, if_neg hkm] at hk
      exact h.size k hk
  · by_cases hkm : k = m
    · subst hkm
      exact hm.elim id fun hbegun => h.attached k hbegun hhere hlive
    · rw [hstate, if_neg hkm] at hk
      exact h.attached k hk hhere hlive
  · rw [hstate]
    split
    · next hkm =>
      subst hkm
      exact hd hk
    · exact h.visited k hk
  · rw [hstate]
    split
    · exact hv
    · exact h.logged e he

lemma Steady.enter (h : Steady s) (hn : s.tree.Reaches s.tree.root n)
    (hhere : displaced n s.log = false) : Steady (s.enter n) := by
  have hmark : Steady (s.mark n .visiting) :=
    h.mark (Or.inl hn) VisitState.noConfusion fun hd => by
      rw [hhere] at hd
      cases hd
  refine ⟨hmark.reachable, hmark.size, hmark.attached, hmark.visited, fun e he => ?_⟩
  rcases List.mem_cons.mp he with rfl | he
  · rw [PassState.stateOf_enter, Event.node, if_pos rfl]
    exact VisitState.noConfusion
  · exact hmark.logged e he

/-- The node has not been visited, or only before it was displaced. -/
def Fresh (s : PassState) (m : NodeId) : Prop := s.stateOf m = .pending ∨ displaced m s.log = true

/-- The node has been entered and stands in its place, and everything below it is fresh. -/
structure Begun (s : PassState) (n : NodeId) : Prop where
  attached : s.tree.Reaches s.tree.root n
  begun : s.stateOf n ≠ .pending
  here : displaced n s.log = false
  fresh : ∀ m, s.tree.Reaches n m → m ≠ n → Fresh s m

/-- Everything from `x` downwards is fresh. -/
def Untouched (s : PassState) (x : NodeId) : Prop := ∀ m, s.tree.Reaches x m → Fresh s m

/-- From `x` downwards, a displaced node stands above `m`. -/
def Covered (s : PassState) (x m : NodeId) : Prop :=
  ∃ a, s.tree.Reaches x a ∧ s.tree.Reaches a m ∧ a ≠ m ∧ displaced a s.log = true

/-- The node has been offered to every rule that accepts it. -/
def Offered (σ : PassSetting) (s : PassState) (m : NodeId) : Prop :=
  ∀ r ∈ σ.rules, accepts s.tree r m = true →
    ∃ e ∈ s.log, e.offerOf? m = some (r.id, r.order)

lemma Offered.mono (h : Offered σ s m) (hlog : s.log ⊆ s'.log)
    (hkind : s'.tree.kind? m = s.tree.kind? m) : Offered σ s' m := by
  intro r hr hacc
  rw [accepts, hkind] at hacc
  obtain ⟨e, he, hoffer⟩ := h r hr hacc
  exact ⟨e, hlog he, hoffer⟩

/-- From `x` downwards what is covered has not been visited, and everything else has, apart from
the displaced nodes. -/
def Toured (σ : PassSetting) (s : PassState) (x : NodeId) : Prop :=
  ∀ m, s.tree.Reaches x m → displaced m s.log = false →
    (Covered s x m → s.stateOf m = .pending) ∧
    (¬ Covered s x m → s.stateOf m = .visited ∧ Offered σ s m)

/-- Of a node that has been entered a mark changes nothing that a tour says. -/
lemma Toured.mark {x : NodeId} (h : Toured σ s x) (hm : s.stateOf m ≠ .pending) :
    Toured σ (s.mark m .visited) x := by
  intro k hk hhere
  obtain ⟨hcovered, hopen⟩ := h k hk hhere
  refine ⟨fun hc => ?_, fun hc => ⟨?_, (hopen hc).2⟩⟩
  · have hkm : k ≠ m := by
      rintro rfl
      exact hm (hcovered hc)
    rw [PassState.stateOf_mark, if_neg hkm]
    exact hcovered hc
  · rw [PassState.stateOf_mark, (hopen hc).1, ite_self]

/-! ### Progress -/

/-- What a part of the visit of `n` does: the row stands in the place of `n`, and outside the visits
are where they were. -/
structure Progress (s : PassState) (n : NodeId) (row : List NodeId) (s' : PassState) : Prop where
  steady : Steady s'
  occupied : s.tree.Occupied n row s'.tree
  begun : ∀ m, s.stateOf m ≠ .pending → s'.stateOf m ≠ .pending
  states : ∀ m, s.tree.Outside n m → s'.stateOf m = s.stateOf m
  displaced : ∀ m, s.tree.Outside n m → displaced m s'.log = displaced m s.log
  kinds : ∀ m, s.tree.Outside n m → s'.tree.kind? m = s.tree.kind? m
  log : s.log ⊆ s'.log

namespace Progress

lemma refl (hs : Steady s) (n : NodeId) : Progress s n [n] s :=
  ⟨hs, .refl _ n, fun _ h => h, fun _ _ => rfl, fun _ _ => rfl, fun _ _ => rfl, fun _ h => h⟩

/-- What is done in the place of one node of the row comes after what put it there. -/
lemma trans {x : NodeId} {before after new : List NodeId} (hs : Steady s)
    (hn : s.tree.Reaches s.tree.root n) (h : Progress s n (before ++ x :: after) s₁)
    (h' : Progress s₁ x new s₂) : Progress s n (before ++ new ++ after) s₂ := by
  have hx : x ∈ before ++ x :: after := List.mem_append_right _ List.mem_cons_self
  have hout : ∀ m, s.tree.Outside n m → s₁.tree.Outside x m := fun m hm =>
    ⟨h.occupied.attached hs.linked h.steady.linked hm,
      h.occupied.not_reaches_row hs.linked h.steady.linked hn hx hm⟩
  exact ⟨h'.steady, h.occupied.trans h'.occupied hs.linked h.steady.linked hn,
    fun m hm => h'.begun m (h.begun m hm),
    fun m hm => (h'.states m (hout m hm)).trans (h.states m hm),
    fun m hm => (h'.displaced m (hout m hm)).trans (h.displaced m hm),
    fun m hm => (h'.kinds m (hout m hm)).trans (h.kinds m hm), fun _ he => h'.log (h.log he)⟩

lemma trans_single {x : NodeId} {new : List NodeId} (hs : Steady s)
    (hn : s.tree.Reaches s.tree.root n) (h : Progress s n [x] s₁) (h' : Progress s₁ x new s₂) :
    Progress s n new s₂ := by
  have hsingle : Progress s n ([] ++ x :: []) s₁ := h
  have hrow := hsingle.trans hs hn h'
  rwa [List.nil_append, List.append_nil] at hrow

/-- A visit of a child leaves its parent in its place. -/
lemma of_child {p c : NodeId} (hs : Steady s) (hlink : s.tree.Link p c)
    (h : Progress s c row s') : Progress s p [p] s' := by
  have hout : ∀ m, s.tree.Outside p m → s.tree.Outside c m := fun m hm =>
    ⟨hm.attached, fun hc => hm.out (hlink.reaches.trans hc)⟩
  exact ⟨h.steady, h.occupied.of_child hs.linked hlink, h.begun,
    fun m hm => h.states m (hout m hm), fun m hm => h.displaced m (hout m hm),
    fun m hm => h.kinds m (hout m hm), h.log⟩

/-- A mark inside the place changes nothing outside. -/
lemma mark (h : Progress s n row s') {v : VisitState} (hs : Steady (s'.mark m v))
    (hv : v ≠ .pending) (hout : ¬ s.tree.Outside n m) : Progress s n row (s'.mark m v) := by
  refine ⟨hs, h.occupied, fun k hk => ?_, fun k hk => ?_, h.displaced, h.kinds, h.log⟩
  · rw [PassState.stateOf_mark]
    split
    · exact hv
    · exact h.begun k hk
  · have hkm : k ≠ m := by
      rintro rfl
      exact hout hk
    rw [PassState.stateOf_mark, if_neg hkm, h.states k hk]

/-- Nodes that are apart from a visited one are where they were before its visit. -/
lemma apart {z : NodeId} (hs : Steady s) (h : Progress s n row s')
    (hz : s.tree.Reaches s.tree.root z) (hnz : ¬ s.tree.Reaches n z) (hzn : ¬ s.tree.Reaches z n) :
    (Untouched s z → Untouched s' z) ∧ (Toured σ s z → Toured σ s' z) := by
  have hkeep : ∀ m, s'.tree.Reaches z m → s.tree.Outside n m ∧ s.tree.Reaches z m := fun m hm =>
    h.occupied.outside_of_below hs.linked h.steady.linked ⟨hz, hnz⟩ hzn hm
  refine ⟨fun hfresh m hm => ?_, fun htour m hm hhere => ?_⟩
  · obtain ⟨hout, hzm⟩ := hkeep m hm
    rw [Fresh, h.states m hout, h.displaced m hout]
    exact hfresh m hzm
  · obtain ⟨hout, hzm⟩ := hkeep m hm
    have hcovered : Covered s' z m ↔ Covered s z m := by
      refine exists_congr fun a => ?_
      rw [h.occupied.reaches_iff_outside hs.linked h.steady.linked hout]
      constructor
      · rintro ⟨hza, ham, hne, hd⟩
        obtain ⟨haout, hza⟩ := hkeep a hza
        exact ⟨hza, ham, hne, (h.displaced a haout) ▸ hd⟩
      · rintro ⟨hza, ham, hne, hd⟩
        have haout : s.tree.Outside n a :=
          ⟨hz.trans hza, fun hna => hout.out (hna.trans ham)⟩
        exact ⟨(h.occupied.reaches_iff_outside hs.linked h.steady.linked haout).mpr hza, ham, hne,
          (h.displaced a haout).trans hd⟩
    rw [h.displaced m hout] at hhere
    obtain ⟨hclosed, hopen⟩ := htour m hzm hhere
    rw [hcovered, h.states m hout]
    exact ⟨hclosed, fun hc => ⟨(hopen hc).1, (hopen hc).2.mono h.log (h.kinds m hout)⟩⟩

end Progress

/-! ### Progress by an offer -/

lemma kind?_of_finishRemoval {rule : String} (hlinked : s.tree.WellLinked)
    (hfinish : finishRemoval rule n s = .ok () s') (m : NodeId) :
    s'.tree.kind? m = s.tree.kind? m := by
  rcases finishRemoval_eq_ok_iff.mp hfinish with ⟨_, rfl⟩ | ⟨_, _, t, hremove, rfl⟩
  · rfl
  · obtain ⟨_, ⟨p, _, hremove⟩ | ⟨_, _, rfl⟩⟩ := Tree.remove_eq_ok_iff.mp hremove
    · obtain ⟨_, _, rfl⟩ := (Tree.removeChild_eq_ok_iff hlinked).mp hremove
      simp [Tree.kind?]
    · simp [Tree.kind?]

section places

variable (hs : Steady s) (hn : Begun s n) (hreach : s₁.tree.Reachable)
  (hgrown : s.tree.Grown s₁.tree) (hocc : s.tree.Occupied n row s₁.tree)
include hs hn hreach hgrown hocc

/-- Whatever the offer has put below the row is fresh, apart from the node itself. -/
lemma fresh_of_below {x : NodeId} (hx : x ∈ row) (hxm : s₁.tree.Reaches x m) (hne : m ≠ n) :
    Fresh s m := by
  by_contra hseen
  rw [Fresh, not_or, Bool.not_eq_true] at hseen
  have hlinked := hreach.sound.linked
  have hlive : s₁.tree.isLive m = true :=
    hlinked.isLive_of_attached ((hocc.attached_row hs.linked hlinked hn.attached hx).trans hxm)
  have hattached := hs.attached m hseen.1 hseen.2 (hgrown.live m (hs.size m hseen.1) hlive)
  have hbelow := hocc.reaches_of_below hs.linked hlinked hn.attached hx hxm hattached
  exact (hn.fresh m hbelow hne).elim hseen.1 (by simp [hseen.2])

/-- What has been entered elsewhere is attached as before. -/
lemma attached_of_offer (hbegun : s.stateOf m ≠ .pending) (hhere : displaced m s.log = false)
    (hne : m ≠ n) (hlive : s₁.tree.isLive m = true) : s₁.tree.Reaches s₁.tree.root m := by
  have hattached := hs.attached m hbegun hhere (hgrown.live m (hs.size m hbegun) hlive)
  refine hocc.attached hs.linked hreach.sound.linked ⟨hattached, fun hnm => ?_⟩
  exact (hn.fresh m hnm hne).elim hbegun (by simp [hhere])

/-- The state after an offer and the marks that follow it. They concern the node itself and those
of the row that are marked as put in its place. -/
lemma progress_of_offer {e : Event} (seated : List NodeId) (hlog : s₁.log = e :: s.log)
    (he : e.node = n) (hseated : ∀ m ∈ seated, m ∈ row)
    (hsame : ∀ m, m ≠ n → m ∉ seated →
      s₁.stateOf m = s.stateOf m ∧ displaced m s₁.log = displaced m s.log)
    (hmarked : ∀ m, m = n ∨ m ∈ seated → s₁.stateOf m ≠ .pending ∧
      (displaced m s₁.log = true → s₁.stateOf m = .visited))
    (hhere : displaced n s₁.log = false → s₁.tree.isLive n = true → n ∈ row)
    (hkinds : ∀ m, s.tree.Outside n m → s₁.tree.kind? m = s.tree.kind? m) :
    Progress s n row s₁ := by
  have hlinked := hreach.sound.linked
  have hrow : ∀ m ∈ row, s₁.tree.Reaches s₁.tree.root m := fun m hm =>
    hocc.attached_row hs.linked hlinked hn.attached hm
  have hout : ∀ m, s.tree.Outside n m →
      s₁.stateOf m = s.stateOf m ∧ displaced m s₁.log = displaced m s.log := fun m hm =>
    hsame m hm.ne fun hin => hocc.not_reaches_row hs.linked hlinked hn.attached (hseated m hin) hm
      (Tree.Reaches.refl m)
  have hbegun : ∀ m, s.stateOf m ≠ .pending → s₁.stateOf m ≠ .pending := by
    intro m hm
    by_cases hmarks : m = n ∨ m ∈ seated
    · exact (hmarked m hmarks).1
    · rw [not_or] at hmarks
      rwa [(hsame m hmarks.1 hmarks.2).1]
  refine ⟨⟨hreach, fun m hm => ?_, fun m hm hd hlive => ?_, fun m hm => ?_, fun e' he' => ?_⟩, hocc,
    hbegun, fun m hm => (hout m hm).1, fun m hm => (hout m hm).2, hkinds, fun e' he' => ?_⟩
  · by_cases hin : m ∈ seated
    · exact hlinked.lt_size_of_reaches (hrow m (hseated m hin))
    · have hold : s.stateOf m ≠ .pending := by
        by_cases hmn : m = n
        · exact hmn ▸ hn.begun
        · rwa [(hsame m hmn hin).1] at hm
      exact Nat.lt_of_lt_of_le (hs.size m hold) hgrown.size_le
  · by_cases hin : m ∈ seated
    · exact hrow m (hseated m hin)
    · by_cases hmn : m = n
      · exact hrow m (hmn ▸ hhere (hmn ▸ hd) (hmn ▸ hlive))
      · obtain ⟨hstate, hdisplaced⟩ := hsame m hmn hin
        exact attached_of_offer hs hn hreach hgrown hocc (hstate ▸ hm) (hdisplaced ▸ hd) hmn hlive
  · by_cases hmarks : m = n ∨ m ∈ seated
    · exact (hmarked m hmarks).2 hm
    · rw [not_or] at hmarks
      obtain ⟨hstate, hdisplaced⟩ := hsame m hmarks.1 hmarks.2
      rw [hstate]
      exact hs.visited m (hdisplaced ▸ hm)
  · rw [hlog] at he'
    rcases List.mem_cons.mp he' with rfl | he'
    · exact he ▸ (hmarked n (Or.inl rfl)).1
    · exact hbegun _ (hs.logged e' he')
  · rw [hlog]
    exact List.mem_cons_of_mem e he'

end places

section offers

variable {r : Rule} {o : Outcome} (hs : Steady s) (hn : Begun s n)
include hs hn

/-- An offer that leaves the node in its place. -/
lemma progress_of_stay (h : Handled s n r o s₁)
    (hocc : s.tree.Occupied n [n] s₁.tree)
    (hd : ∀ m, displaced m s₁.log = displaced m s.log) : Progress s n [n] s₁ ∧ Begun s₁ n := by
  have hstates : ∀ m, s₁.stateOf m = s.stateOf m := fun m => by
    rw [PassState.stateOf, h.states, PassState.stateOf]
  have hmem : n ∈ [n] := List.mem_singleton_self n
  have hbegun : s₁.stateOf n ≠ .pending := by
    rw [hstates]
    exact hn.begun
  have hhere : displaced n s₁.log = false := (hd n).trans hn.here
  obtain ⟨e, hlog, he, _⟩ := h.log
  have hprogress : Progress s n [n] s₁ := by
    refine progress_of_offer hs hn h.reachable h.grown hocc [] hlog he (by simp)
      (fun m _ _ => ⟨hstates m, hd m⟩) (fun m hm => ?_) (fun _ _ => hmem) h.kinds
    obtain rfl : m = n := by simpa using hm
    exact ⟨hbegun, by simp [hhere]⟩
  refine ⟨hprogress, hocc.attached_row hs.linked hprogress.steady.linked hn.attached hmem, hbegun,
    hhere, fun m hm hne => ?_⟩
  rw [Fresh, hstates, hd]
  exact fresh_of_below hs hn h.reachable h.grown hocc hmem hm hne

/-- An offer that puts another node in the place of the node. -/
lemma progress_of_replaced {new : NodeId} (h : Handled s n r (.replaced new) s₁) :
    Progress s n [new] ((s₁.mark n .visited).mark new .visiting) ∧
      Begun ((s₁.mark n .visited).mark new .visiting) new := by
  have hocc : s.tree.Occupied n [new] s₁.tree := h.seats
  have hmem : new ∈ [new] := List.mem_singleton_self new
  have hstate : ∀ m, ((s₁.mark n .visited).mark new .visiting).stateOf m =
      if m = new then .visiting else if m = n then .visited else s.stateOf m := fun m => by
    rw [PassState.stateOf_mark, PassState.stateOf_mark, PassState.stateOf, h.states,
      PassState.stateOf]
  have hnew : displaced new s₁.log = false := (h.displaced new).trans Outcome.displaces_new
  have hsame : ∀ m, m ≠ n → m ≠ new → ((s₁.mark n .visited).mark new .visiting).stateOf m =
      s.stateOf m ∧ displaced m s₁.log = displaced m s.log := by
    intro m hmn hmnew
    rw [hstate, if_neg hmnew, if_neg hmn, h.displaced, Outcome.displaces_of_ne _ hmn]
    · exact ⟨rfl, rfl⟩
    · simpa using hmnew.symm
  obtain ⟨e, hlog, he, _⟩ := h.log
  have hprogress : Progress s n [new] ((s₁.mark n .visited).mark new .visiting) := by
    refine progress_of_offer hs hn h.reachable h.grown hocc [new] hlog he (fun m hm => hm)
      (fun m hmn hmnew => hsame m hmn (by simpa using hmnew)) (fun m hm => ?_) (fun hhere _ => ?_)
      h.kinds
    · rw [hstate]
      by_cases hmnew : m = new
      · subst hmnew
        rw [if_pos rfl]
        exact ⟨VisitState.noConfusion, fun hd => absurd (hnew.symm.trans hd) Bool.noConfusion⟩
      · have hmn : m = n := hm.resolve_right (by simpa using hmnew)
        rw [if_neg hmnew, if_pos hmn]
        exact ⟨VisitState.noConfusion, fun _ => rfl⟩
    · by_contra hne
      have hd := (h.displaced n).trans (Outcome.displaces_replaced fun heq => hne (heq ▸ hmem))
      exact absurd (hd.symm.trans hhere) Bool.noConfusion
  refine ⟨hprogress, hocc.attached_row hs.linked hprogress.steady.linked hn.attached hmem, ?_, hnew,
    fun m hm hne => ?_⟩
  · rw [hstate, if_pos rfl]
    exact VisitState.noConfusion
  · by_cases hmn : m = n
    · subst hmn
      exact Or.inr ((h.displaced m).trans (Outcome.displaces_replaced hne.symm))
    · obtain ⟨hstate', hd'⟩ := hsame m hmn hne
      have hfresh := fresh_of_below hs hn h.reachable h.grown hocc hmem hm hmn
      exact hfresh.imp hstate'.trans hd'.trans

/-- An offer that puts a row of nodes in the place of the node. -/
lemma progress_of_expanded {new : List NodeId} (h : Handled s n r (.expanded new) s₁) :
    Progress s n new (s₁.mark n .visited) ∧ ∀ x ∈ new, Untouched (s₁.mark n .visited) x := by
  have hocc : s.tree.Occupied n new s₁.tree := h.seats
  have hd : displaced n s₁.log = true := (h.displaced n).trans Outcome.displaces_expanded
  have hsame : ∀ m, m ≠ n → (s₁.mark n .visited).stateOf m = s.stateOf m ∧
      displaced m s₁.log = displaced m s.log := by
    intro m hmn
    rw [PassState.stateOf_mark, if_neg hmn, PassState.stateOf, h.states, PassState.stateOf,
      h.displaced, Outcome.displaces_of_ne _ hmn Outcome.noConfusion]
    exact ⟨rfl, rfl⟩
  obtain ⟨e, hlog, he, _⟩ := h.log
  refine ⟨progress_of_offer hs hn h.reachable h.grown hocc [] hlog he (by simp)
    (fun m hmn _ => hsame m hmn) (fun m hm => ?_) (fun hhere _ => ?_) h.kinds,
    fun x hx m hm => ?_⟩
  · obtain rfl : m = n := by simpa using hm
    rw [PassState.stateOf_mark, if_pos rfl]
    exact ⟨VisitState.noConfusion, fun _ => rfl⟩
  · exact absurd (hd.symm.trans hhere) Bool.noConfusion
  · by_cases hmn : m = n
    · exact Or.inr (hmn ▸ hd)
    · obtain ⟨hstate', hd'⟩ := hsame m hmn
      have hfresh := fresh_of_below hs hn h.reachable h.grown hocc hx hm hmn
      exact hfresh.imp hstate'.trans hd'.trans

/-- An offer that takes the node out. -/
lemma progress_of_removed {rule : String} (h : Handled s n r .removed s₁)
    (hfinish : finishRemoval rule n s₁ = .ok () s₂) : Progress s n [] s₂ := by
  obtain ⟨hstates, hlog₂⟩ := states_of_finishRemoval hfinish
  obtain ⟨hreach, hgrown, hocc, hdead⟩ := occupied_of_finishRemoval hs.linked hn.attached
    h.reachable h.grown h.seats hfinish
  have hstate : ∀ m, s₂.stateOf m = s.stateOf m := fun m => by
    rw [PassState.stateOf, hstates, h.states, PassState.stateOf]
  have hd : ∀ m, displaced m s₂.log = displaced m s.log := fun m => hlog₂ ▸ h.displaced m
  obtain ⟨e, hlog, he, _⟩ := h.log
  refine progress_of_offer hs hn hreach hgrown hocc [] (hlog₂.trans hlog) he (by simp)
    (fun m _ _ => ⟨hstate m, hd m⟩) (fun m hm => ?_) (fun _ hlive => ?_) fun m hm => ?_
  · obtain rfl : m = n := by simpa using hm
    rw [hstate, hd, hn.here]
    exact ⟨hn.begun, by simp⟩
  · rw [hdead] at hlive
    cases hlive
  · rw [kind?_of_finishRemoval h.reachable.sound.linked hfinish, h.kinds m hm]

end offers

end Pass

end CodeMigration
