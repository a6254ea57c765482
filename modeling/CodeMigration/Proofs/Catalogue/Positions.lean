import CodeMigration.Proofs.Catalogue.Rereading

/-!
# Positions and formatting data

Positions and formatting data come in with a document and are written by no rule. They share the
bags of attributes with what decorations and rules record there, and go with a node that is
discarded; but whatever else happens in a run, a node keeps its own (`Tree.Spares`), and a node that
is made on the way has none. A flag that has been set on a node stays set as well.
-/

namespace CodeMigration

namespace Tree

variable {t t' t'' : Tree}

/-! ### Trees that keep positions and formatting data -/

/-- The tree stays sound, and no position and no formatting data comes. None goes from a node that
is not discarded, nor does a flag that is not written by decorations. -/
structure Spares (t t' : Tree) : Prop where
  sound : t'.Sound
  heeds : ∀ key, key = .span ∨ key = .layout → Heeds key t t'
  flags : ∀ n key, ¬ Decoration.records key → ¬ t'.Gone n → t.attributes.flag n key = true →
    t'.attributes.flag n key = true

namespace Spares

lemma refl (hs : t.Sound) : Spares t t :=
  ⟨hs, fun key _ => .refl key t, fun _ _ _ _ hflag => hflag⟩

lemma trans (h : Spares t t') (h' : Spares t' t'') : Spares t t'' where
  sound := h'.sound
  heeds key hkey := (h.heeds key hkey).trans (h'.heeds key hkey)
  flags n key hkey hn hflag := by
    have hgrown := (h'.heeds .span (Or.inl rfl)).grown
    exact h'.flags n key hkey hn (h.flags n key hkey (fun hgone => hn (hgrown.gone hgone)) hflag)

lemma reshaped (hs : t.Sound) (h : Reshaped t t') : Spares t t' where
  sound := hs.edited h.edited
  heeds _ hkey := hs.heeds_reshaped h hkey
  flags _ _ hkey hn hflag :=
    hs.flag_reshaped h (fun htype => hkey (Or.inr (Or.inr htype))) hn hflag

lemma checkpoint (hs : t.Sound) : Spares t t.checkpoint :=
  ⟨hs.checkpoint, fun _ _ => .of_same rfl rfl, fun _ _ _ _ hflag => hflag⟩

lemma commit (hs : t.Sound) : Spares t t.commit :=
  ⟨hs.commit, fun _ _ => .of_same rfl rfl, fun _ _ _ _ hflag => hflag⟩

lemma decorate (hs : t.Sound) (oracle : Oracle) : Spares t (t.decorate oracle).1 := by
  refine ⟨hs.edited (t.edited_decorate oracle), fun key hkey => ?_, fun n key hkey _ hflag => by
    rwa [flag_decorate oracle hs n hkey]⟩
  have hsame : ∀ n, (t.decorate oracle).1.attribute? n key = t.attribute? n key := by
    intro n
    apply attribute?_decorate oracle hs n
    rcases hkey with rfl | rfl <;> simp [Decoration.records]
  constructor
  · exact Grown.of_slots rfl
  · intro n value hvalue
    rwa [← hsame]
  · intro n value hvalue _ _
    rwa [hsame]

lemma remove {n : NodeId} (hs : t.Sound) (hok : t.remove n = .ok t') : Spares t t' := by
  have hrun := t.reshaped_run (.remove n) rfl
  rw [Command.run, Command.settle_of_ok _ hok] at hrun
  exact .reshaped hs hrun

/-- A live node keeps a value that points at no node, and gets none that it did not have. -/
lemma attribute?_eq (h : Spares t t') {n : NodeId}
    (hn : t'.isLive n = true) {key : AttributeKey} (hkey : key = .span ∨ key = .layout)
    (hpoints : ∀ c, t.attribute? n key ≠ some (.node c)) :
    t'.attribute? n key = t.attribute? n key := by
  cases hvalue : t.attribute? n key with
  | none =>
    rw [Option.eq_none_iff_forall_ne_some]
    intro value hnew
    have hold := (h.heeds key hkey).only hnew
    simp [hvalue] at hold
  | some value =>
    refine (h.heeds key hkey).keeps hvalue (not_gone_of_isLive hn) ?_
    rintro c rfl
    exact absurd hvalue (hpoints c)

end Spares

end Tree

/-! ### Passes -/

namespace Pass

variable {σ : PassSetting} {s s' : PassState}

lemma spares_finishRemoval {rule : String} {n : NodeId} (hs : s.tree.Sound)
    (hok : finishRemoval rule n s = .ok () s') : s.tree.Spares s'.tree := by
  rcases finishRemoval_eq_ok_iff.mp hok with ⟨_, rfl⟩ | ⟨_, _, t, hremove, rfl⟩
  · exact .refl hs
  · exact .remove hs hremove

lemma spares_offer {r : Rule} {n : NodeId} {o : Outcome} (hr : r.Reshapes) (hs : s.tree.Sound)
    (hok : offer σ r n s = .ok o s') : s.tree.Spares s'.tree := by
  have hreshaped := hr σ.oracle σ.pass n ⟨s.tree.checkpoint, s.files⟩
  rcases offer_eq_ok_iff.mp hok with ⟨o, w, happ, _, rfl⟩ | ⟨e, w, happ, _, _, rfl⟩
  · rw [Action.after, happ] at hreshaped
    have hwork := (Tree.Spares.checkpoint hs).trans (.reshaped hs.checkpoint hreshaped)
    exact hwork.trans (.commit hwork.sound)
  · -- the work was undone
    rw [Action.after, happ] at hreshaped
    show s.tree.Spares w.tree.rollback
    rw [hs.rollback_edited hreshaped.edited]
    exact .commit hs

lemma Application.Happens.spares {a : Application} (ha : a.Happens σ) (hr : a.rule.Reshapes)
    (hs : a.before.tree.Sound) : a.before.tree.Spares a.after.tree := by
  obtain ⟨s, ho, hafter⟩ := ha.offered
  have hoffer := spares_offer hr hs ho
  split at hafter
  · exact hoffer.trans (spares_finishRemoval hoffer.sound hafter)
  · rwa [hafter]

lemma Story.spares (hrules : ∀ r ∈ σ.rules, r.Reshapes) {apps : List Application}
    (hstory : Story σ s apps s') (hs : s.tree.Sound) : s.tree.Spares s'.tree := by
  induction hstory with
  | @rest s s' hidles =>
    rw [show s'.tree = s.tree from congrArg Workspace.tree hidles.1]
    exact .refl hs
  | @step s s' a apps hidles ha _ ih =>
    rw [show s.tree = a.before.tree from congrArg Workspace.tree hidles.1.symm] at hs ⊢
    have hfirst := ha.spares (hrules a.rule ha.mem) hs
    exact hfirst.trans (ih hfirst.sound)

end Pass

/-! ### Runs -/

lemma Pipeline.Chronicle.spares {p : Pipeline} {oracle : Oracle}
    (hrules : ∀ r ∈ p.rules, r.Reshapes) {k : Nat} {w w' : Workspace} {stats : List PassStats}
    {apps : List Pass.Application}
    (h : p.Chronicle oracle k w stats apps w') (hs : w.tree.Sound) : w.tree.Spares w'.tree := by
  induction h with
  | done k w => exact .refl hs
  | @pass k w w₁ w' stats rest apps later s _ hstory hend _ _ ih =>
    have hdecorated := Tree.Spares.decorate hs oracle
    have hpass := Pass.Story.spares (σ := p.setting oracle (k + 1)) hrules hstory hdecorated.sound
    rw [show s.tree = w₁.tree from congrArg Workspace.tree hend] at hpass
    exact (hdecorated.trans hpass).trans (ih hpass.sound)

/-! ### Documents -/

namespace Tree

variable {t t' : Tree} {d : Document}

/-- The nodes of the arena in the order of the document. -/
lemma getElem?_preorder (hdoc : ofDocument d = .ok t) (n : NodeId) :
    d.root.preorder[n]? = if n < t.size then some (t.outline n) else none := by
  have hlinked : t.WellLinked := (Reachable.ofDocument hdoc).sound.linked
  rw [← (outline_ofDocument hdoc).2, ← map_outline_preorder hlinked (Nat.le_add_left _ _)]
  have hnodes : t.preorder t.size t.root = List.range t.size := nodes_ofDocument hdoc
  rw [hnodes, List.getElem?_map]
  split_ifs with hn
  · rw [List.getElem?_range hn, Option.map_some]
  · rw [List.getElem?_eq_none (by simpa using hn), Option.map_none]

/-- The position and the formatting data of a node, as they are recorded and as they are written
out. -/
def Carries (t : Tree) (n : NodeId) (span : Option Span) (layout : Option Json) : Prop :=
  t.attribute? n .span = span.map .span ∧ t.attribute? n .layout = layout.map .data ∧
    (t.outline n).span = span ∧ (t.outline n).layout = layout

lemma carries_of_attributes (h : t.WellLinked) {n : NodeId} {span : Option Span}
    {layout : Option Json} (hspan : t.attribute? n .span = span.map .span)
    (hlayout : t.attribute? n .layout = layout.map .data) : t.Carries n span layout := by
  have hextras : t.extras n = (span, layout) := by
    rw [extras, hspan, hlayout]
    cases span <;> cases layout <;> rfl
  constructor
  · exact hspan
  · rw [outline_eq h, hextras]
    exact ⟨hlayout, rfl, rfl⟩

/-- Nodes that stay keep their positions and formatting data. -/
lemma Spares.extras (h : Spares t t') (hplain : t.Plain) {n : NodeId} (hn : t'.isLive n = true) :
    t'.extras n = t.extras n := by
  rw [Tree.extras, Tree.extras, h.attribute?_eq hn (Or.inl rfl),
    h.attribute?_eq hn (Or.inr rfl)]
  · simp [hplain.layouts n]
  · simp [hplain.spans n]

/-- A tree of a document that is spared keeps what its nodes carry. -/
lemma Spares.carries (h : Spares t t') (hdoc : ofDocument d = .ok t) {n : NodeId}
    (hn : t'.isAttached n = true) : t'.Carries n (t.extras n).1 (t.extras n).2 := by
  have hplain : t.Plain := (outline_ofDocument hdoc).1
  have hlinked : t'.WellLinked := h.sound.linked
  have hlive : t'.isLive n = true := hlinked.isLive_of_attached (hlinked.isAttached_iff.mp hn)
  apply carries_of_attributes hlinked
  · rw [← hplain.spans n]
    apply h.attribute?_eq hlive (Or.inl rfl)
    intro c
    simp [hplain.spans n]
  · rw [← hplain.layouts n]
    apply h.attribute?_eq hlive (Or.inr rfl)
    intro c
    simp [hplain.layouts n]

/-- Nodes that a document does not have come to carry nothing, whether they stay or not. -/
lemma Spares.carries_none (h : Spares t t') (hplain : t.Plain) {n : NodeId} (hn : t.size ≤ n) :
    t'.Carries n none none := by
  have hnone : ∀ key, key = .span ∨ key = .layout → t'.attribute? n key = none := by
    intro key hkey
    rw [Option.eq_none_iff_forall_ne_some]
    intro value hnew
    have hold := (h.heeds key hkey).only hnew
    rw [hplain.known n key hn] at hold
    cases hold
  exact carries_of_attributes h.sound.linked (hnone .span (Or.inl rfl)) (hnone .layout (Or.inr rfl))

end Tree

namespace Catalogue

/-- In a run of migrations that succeeds, every node of the document that is still attached at the
end carries the position and the formatting data that it has in the document, wherever it was moved
and however it was rewritten; the nodes that were made on the way carry none, also those that were
discarded again. -/
theorem run_keeps_positions (oracle : Oracle) (routes : List Route) (p : Pipeline)
    (hrules : ∀ r ∈ p.rules, r ∈ all routes) {d : Document} {t t' : Tree} {report : RunReport}
    (hdoc : Tree.ofDocument d = .ok t) (hrun : p.run oracle t = (t', .ok report)) :
    (∀ n x, d.root.preorder[n]? = some x → t'.isAttached n = true →
        t'.Carries n x.span x.layout) ∧
      ∀ n, t.size ≤ n → t'.Carries n none none := by
  obtain ⟨apps, w', hchronicle, rfl⟩ := Pipeline.exists_chronicle_of_run hrun
  have hreachable : t.Reachable := .ofDocument hdoc
  have hspares : t.Spares w'.tree :=
    hchronicle.spares (fun r hr => reshapes_of_mem_all (hrules r hr)) hreachable.sound
  constructor
  · intro n x hx hn
    rw [Tree.getElem?_preorder hdoc n] at hx
    split_ifs at hx
    cases hx
    have hcarries := hspares.carries hdoc hn
    rwa [Tree.outline_eq hreachable.sound.linked]
  · intro n hnew
    exact hspares.carries_none (Tree.outline_ofDocument hdoc).1 hnew

/-- A parameter is read from a new request; the call has formatting data, the request a position. -/
def placedRead : Document where
  root := .plain .file [
    .node (.methodCall "getParameter") [
      .node (.instantiation RequestParameters.request) [] (some ⟨12, 25, 2⟩) none,
      .plain (.string "id") []] none (some (.string "wide"))]

/-- The call is rewritten, the request is moved below a new node, and both keep what they carry. -/
theorem run_keeps_positions_read :
    (∀ r ∈ parametersOnly.rules, r ∈ all []) ∧
    ∃ t t' report, Tree.ofDocument placedRead = .ok t ∧
      parametersOnly.run (.ofIndex {}) t = (t', .ok report) ∧
      t'.name? 1 = some "get" ∧ t'.Carries 1 none (some (.string "wide")) ∧
      t'.parent? 2 = some 4 ∧ t'.Carries 2 (some ⟨12, 25, 2⟩) none ∧
      t.size = 4 ∧ t'.Carries 4 none none := by
  have hfacts : (treesOfRun? parametersOnly (.ofIndex {}) placedRead).map
      (fun trees => (trees.1.size, trees.2.name? 1, trees.2.parent? 2,
        [1, 2].all trees.2.isAttached)) = some (4, some "get", some 4, true) := by
    decide +kernel
  obtain ⟨⟨t, t'⟩, htrees, hfacts⟩ := Option.map_eq_some_iff.mp hfacts
  obtain ⟨report, hdoc, hrun⟩ := exists_run_of_treesOfRun? htrees
  simp only [Prod.mk.injEq, List.all_cons, List.all_nil, Bool.and_eq_true] at hfacts
  obtain ⟨hsize, hname, hparent, hcall, hrequest, -⟩ := hfacts
  obtain ⟨hkept, hnew⟩ := run_keeps_positions (.ofIndex {}) [] parametersOnly
    mem_all_of_parametersOnly hdoc hrun
  exact ⟨mem_all_of_parametersOnly, t, t', report, hdoc, hrun, hname, hkept 1 _ rfl hcall, hparent,
    hkept 2 _ rfl hrequest, hsize, hnew 4 (by simp [hsize])⟩

end Catalogue

end CodeMigration
