import CodeMigration.Proofs.Catalogue.Untyped

/-!
# Repeated migrations

A migration leaves a node behind that it would not change again. The constructs of the node and of
its children show it, so it holds however the node is marked or typed, and even when all marks are
lost in between.
-/

namespace CodeMigration

/-- The node that stands for `n` after it was changed into something else. -/
def Outcome.heir? (n : NodeId) : Outcome → Option NodeId
  | .mutated => some n
  | .replaced m => some m
  | .unchanged | .expanded _ | .removed => none

namespace Action

variable {α β : Type} {w : Workspace} {k : Nat}

/-- What was in the arena before a row of edits is in it afterwards. -/
lemma EditsFrom.ensures_bind {m : Action α} {f : α → Action β} {Q : β → Tree → Prop}
    (hm : EditsFrom k m) (hw : k ≤ w.tree.size)
    (hf : ∀ a (w' : Workspace), k ≤ w'.tree.size → Ensures (f a) w' Q) :
    Ensures (m >>= f) w Q := by
  intro b w' hok
  obtain ⟨a, w₁, hfirst, hok⟩ := EStateM.bind_eq_ok_iff.mp hok
  obtain ⟨hreshaped, _⟩ := hm w hw
  rw [after, hfirst] at hreshaped
  exact hf a w₁ (Nat.le_trans hw hreshaped.edited.grown.size_le) b w' hok

end Action

namespace Tree

variable {t t' : Tree} {p old new : NodeId}

lemma construct?_replace (h : t.WellLinked) (hok : t.replace old new = .ok t') (m : NodeId) :
    t'.construct? m = t.construct? m := by
  obtain ⟨_, ⟨p, _, hok⟩ | ⟨_, _, _, _, _, rfl⟩⟩ := (replace_eq_ok_iff h).mp hok
  · obtain ⟨_, _, _, rfl⟩ := (replaceChild_eq_ok_iff h).mp hok
    rw [construct?_touch, construct?_discard, construct?_relink]
  · rw [construct?_touch, construct?_discard]
    rfl

end Tree

namespace Catalogue

variable {oracle : Oracle} {routes : List Route} {n m : NodeId} {t : Tree} {w w' : Workspace}
  {guard : Tree → NodeId → Bool} {o : Outcome}

/-- The node that stands for `n` afterwards is in the arena, and there is nothing to change in it,
whatever the attributes of the tree. -/
def Finishes (guard : Tree → NodeId → Bool) (n : NodeId) (o : Outcome) (t : Tree) : Prop :=
  ∀ m, o.heir? n = some m →
    m < t.size ∧ ∀ attributes, guard { t with attributes } m = false

lemma finishes_of_heirless (h : o.heir? n = none) : Finishes guard n o t := by
  intro m hm
  rw [h] at hm
  cases hm

lemma ensures_heirless (h : o.heir? n = none) :
    Action.Ensures (pure o) w (Finishes guard n) := .pure (finishes_of_heirless h)

/-- A node that gets a construct where there is nothing to change. -/
lemma finishes_rewritten {c : Construct} (hn : n < t.size)
    (hc : ∀ t' : Tree, t'.construct? n = some c → guard t' n = false) :
    Finishes guard n .mutated (t.setConstruct n c) := by
  rintro m ⟨⟩
  refine ⟨by rwa [Tree.size_setConstruct], fun attributes => hc _ ?_⟩
  show (t.setConstruct n c).construct? n = some c
  obtain ⟨k, hk⟩ := t.exists_construct? hn
  rw [Tree.construct?_setConstruct, if_pos rfl, hk, Option.map_some]

/-! ### Calls -/

namespace Forms

lemma acts_of_methodCall {name : String} (hname : fieldType? name = none)
    (hc : t.construct? n = some (.methodCall name)) : acts oracle t n = false := by
  rw [acts, hc]
  simp [hname]

lemma finishes_replaceConstruction (hw : w.tree.Sound) :
    (replaceConstruction n).Ensures w (Finishes (acts oracle) n) := by
  refine (Action.ensures_add (Tree.Graft.start hw w.tree.size []) rfl).bind ?_
  rintro this w₁ ⟨h₁, hthis⟩
  refine (Action.ensures_addWithChildren h₁ rfl (by simpa using hthis) (by simp)).bind ?_
  rintro call w₂ ⟨⟨h₂, _⟩, hcall⟩
  refine Action.Ensures.update_bind ?_
  have hsound : (w₂.tree.setAttribute call .processed (.flag true)).Sound :=
    h₂.sound.edited (Tree.edited_setAttribute _ _ _ _)
  refine (Action.Ensures.edit (Q := fun _ t' => t'.construct? call =
    some (.methodCall "createFormBuilder")) fun t' hok => ?_).bind fun _ w₃ hsame => ?_
  · exact (Tree.construct?_replace hsound.linked hok call).trans hcall
  · refine Action.Ensures.pure ?_
    rintro m ⟨⟩
    refine ⟨Tree.lt_size_of_kind? (kind?_of_construct hsame), fun attributes => ?_⟩
    exact acts_of_methodCall (by decide) hsame

lemma finishes_foldField (hn : n < w.tree.size) (method type : String) (arguments : List NodeId) :
    (foldField n method type arguments).Ensures w (Finishes (acts oracle) n) := by
  refine (editsFrom_takeArguments (k := n + 1) n _ _).ensures_bind hn fun _ w₁ h₁ => ?_
  refine (Action.EditsFrom.mapM fun option _ => (Action.EditsFrom.add _).bind fun _ =>
    .pure _).ensures_bind h₁ fun fixed w₂ h₂ => ?_
  refine (Action.EditsFrom.add _).ensures_bind h₂ fun typeRef w₃ h₃ => ?_
  refine (Action.EditsFrom.command (.pushChild n typeRef) rfl fun _ => rfl).ensures_bind h₃
    fun _ w₄ h₄ => ?_
  refine (editsFrom_pushOptions n _).ensures_bind h₄ fun _ w₅ h₅ => ?_
  refine Action.Ensures.update_bind (Action.Ensures.update_bind (Action.Ensures.pure ?_))
  exact finishes_rewritten (t := w₅.tree) h₅ fun _ hc => acts_of_methodCall (by decide) hc

lemma finishes (pass : Nat) (hw : w.tree.Sound) :
    (apply oracle pass n).Ensures w (Finishes (acts oracle) n) := by
  refine Action.Ensures.tree_bind ?_
  split
  · exact ensures_heirless rfl
  · refine Action.Ensures.require_bind (Action.Ensures.tree_bind ?_)
    split
    · exact ensures_heirless rfl
    · split
      · split
        · exact finishes_replaceConstruction hw
        · exact ensures_heirless rfl
      · next method hc =>
        split
        · split
          · exact finishes_foldField (Tree.lt_size_of_kind? (kind?_of_construct hc)) _ _ _
          · exact ensures_heirless rfl
        · exact ensures_heirless rfl
      · exact ensures_heirless rfl

end Forms

namespace Assertions

/-- What is no assertion to migrate has no target, whichever class it is called on. -/
lemma acts_of_staticCall {className method : String} (hmethod : isAssertion method = false)
    (hc : t.construct? n = some (.staticCall className method)) : acts oracle t n = false := by
  have htarget : target? oracle t n method = none := by
    rw [Option.eq_none_iff_forall_not_mem]
    intro target hsome
    rw [isAssertion_of_target? hsome] at hmethod
    cases hmethod
  rw [acts, hc]
  simp [htarget]

lemma finishes_retarget (hn : n < w.tree.size) {target : Target}
    (htarget : isAssertion target.method = false) :
    (retarget n target).Ensures w (Finishes (acts oracle) n) := by
  have hrest : ∀ w' : Workspace, n < w'.tree.size →
      (do
        Action.update (·.setConstruct n (.staticCall phpUnit target.method))
        return Outcome.mutated).Ensures w' (Finishes (acts oracle) n) := fun w' hn' =>
    Action.Ensures.update_bind (Action.Ensures.pure
      (finishes_rewritten hn' fun t' => acts_of_staticCall htarget))
  rw [retarget]
  split
  · exact (editsFrom_dropFirst (k := n + 1) n).ensures_bind hn fun _ w' hn' => hrest w' hn'
  · exact hrest w hn

lemma finishes (pass : Nat) : (apply oracle pass n).Ensures w (Finishes (acts oracle) n) := by
  refine Action.Ensures.require_bind (Action.Ensures.tree_bind ?_)
  split
  · next className method hc =>
    split
    · split
      · next target htarget =>
        exact finishes_retarget (Tree.lt_size_of_kind? (kind?_of_construct hc))
          (isAssertion_target htarget)
      · exact ensures_heirless rfl
    · exact ensures_heirless rfl
  · exact ensures_heirless rfl

end Assertions

namespace RequestParameters

lemma finishes (pass : Nat) :
    (apply oracle pass n).Ensures w (Finishes (readsParameter oracle) n) := by
  refine Action.Ensures.require_bind (Action.Ensures.tree_bind ?_)
  split
  · next hreads =>
    rw [readsParameter, Bool.and_eq_true, beq_iff_eq] at hreads
    have hn : n < w.tree.size := Tree.lt_size_of_kind? (kind?_of_construct hreads.1)
    split
    · next receiver _ =>
      refine (Action.EditsFrom.command (k := n + 1) (.detach n receiver) rfl
        fun _ => rfl).ensures_bind hn fun _ w₁ h₁ => ?_
      refine (Action.EditsFrom.addWithChildren _ _).ensures_bind h₁ fun attributes w₂ h₂ => ?_
      refine (Action.EditsFrom.command (.insertChild n 0 attributes) rfl
        fun _ => rfl).ensures_bind h₂ fun _ w₃ h₃ => ?_
      refine Action.Ensures.update_bind (Action.Ensures.pure ?_)
      refine finishes_rewritten (t := w₃.tree) h₃ fun t' hc => ?_
      simp [readsParameter, hc]
    · exact ensures_heirless rfl
  · exact ensures_heirless rfl

end RequestParameters

/-! ### Declarations -/

namespace TestCases

lemma acts_of_classDecl {name parent : String} {interfaces : List String}
    (hparent : ClassName.same parent testerCase = false)
    (hc : t.construct? n = some (.classDecl name (some parent) interfaces)) :
    acts oracle t n = false := by
  have hkind : t.hasKind n .classDecl = true := by
    simp [Tree.hasKind, kind?_of_construct hc, Construct.kind]
  rw [acts, if_pos hkind, actsOnClass, hc]
  exact hparent

lemma finishes (pass : Nat) : (apply oracle pass n).Ensures w (Finishes (acts oracle) n) := by
  refine Action.Ensures.require_bind (Action.Ensures.tree_bind ?_)
  split
  · rw [applyToClass]
    split
    · next hc =>
      split
      · refine Action.Ensures.update_bind (Action.Ensures.update_bind (Action.Ensures.pure ?_))
        exact finishes_rewritten (t := w.tree) (Tree.lt_size_of_kind? (kind?_of_construct hc))
          fun _ hc => acts_of_classDecl (by decide) hc
      · exact ensures_heirless rfl
    · exact ensures_heirless rfl
  · split <;> exact ensures_heirless rfl

end TestCases

namespace Controls

lemma acts_of_classDecl {name parent : String} {interfaces : List String}
    (hparent : isControl oracle parent = false)
    (hc : t.construct? n = some (.classDecl name (some parent) interfaces)) :
    acts oracle t n = false := by
  rw [acts, hc]
  simp [hparent]

lemma isControl_controller (h : oracle.isSubtype controller control = false) :
    isControl oracle controller = false := by
  have hnormal : ClassName.normalize controller = controller := by decide
  have hsame : ClassName.same controller control = false := by decide
  rw [isControl, hnormal, hsame, h]
  rfl

lemma finishes (hcontroller : oracle.isSubtype controller control = false) (pass : Nat) :
    (apply oracle pass n).Ensures w (Finishes (acts oracle) n) := by
  refine Action.Ensures.require_bind (Action.Ensures.tree_bind ?_)
  split
  · next hc =>
    have hn : n < w.tree.size := Tree.lt_size_of_kind? (kind?_of_construct hc)
    split
    · split
      · next method hmethod =>
        dsimp only
        split
        · -- the edits below are followed on every node that was there before
          have hlt := lt_size_of_renderMethod? hmethod
          refine (editsFrom_gather (k := w.tree.size) method _ _).ensures_bind (Nat.le_refl _)
            fun _ w₁ h₁ => ?_
          refine (Action.EditsFrom.setConstruct hlt _).ensures_bind h₁ fun _ w₂ h₂ => ?_
          refine Action.Ensures.update_bind (Action.Ensures.pure ?_)
          exact finishes_rewritten (Nat.lt_of_lt_of_le hn h₂)
            fun t' => acts_of_classDecl (isControl_controller hcontroller)
        · exact ensures_heirless rfl
      · exact ensures_heirless rfl
    · exact ensures_heirless rfl
  · exact ensures_heirless rfl

end Controls

namespace Routes

lemma acts_of_annotated (h : isAnnotated t n = true) : acts routes t n = false := by
  rw [acts, h]
  simp

lemma finishes (oracle : Oracle) (pass : Nat) (hw : w.tree.Sound) :
    (apply routes oracle pass n).Ensures w (Finishes (acts routes) n) := by
  refine Action.Ensures.tree_bind ?_
  split
  · exact ensures_heirless rfl
  · refine Action.Ensures.require_bind (Action.Ensures.tree_bind ?_)
    split
    · exact Action.Ensures.update_bind (ensures_heirless rfl)
    · split
      · exact ensures_heirless rfl
      · next route _ =>
        refine (ensures_buildDocTag (Tree.Graft.start hw w.tree.size []) route).bind ?_
        rintro tag w₁ ⟨⟨h₁, _⟩, htag⟩
        refine (Action.Ensures.edit (Q := fun _ t' => isAnnotated t' n = true ∧ n < t'.size)
          fun t' hok => ?_).bind fun _ w₂ hdone => ?_
        · -- the annotation has become the first child
          obtain ⟨hs, hrow⟩ := Tree.shifted_insertChild h₁.sound.linked hok
          have htag' : t'.construct? tag = some (.docTag routeClass) :=
            (hs.construct? tag).trans htag
          refine ⟨?_, ?_⟩
          · rw [isAnnotated, hrow, List.any_cons, htag']
            simp [ClassName.same]
          · exact t'.lt_size_of_mem_children (hrow ▸ List.mem_cons_self)
        · refine Action.Ensures.update_bind (Action.Ensures.pure ?_)
          rintro m ⟨⟩
          exact ⟨hdone.2, fun attributes => acts_of_annotated hdone.1⟩

end Routes

namespace TestFiles

/-- The migration of test files changes no node. -/
lemma heir?_of_apply (oracle : Oracle) (pass : Nat) (hok : apply oracle pass n w = .ok o w') :
    o.heir? n = none := by
  rw [apply, EStateM.bind_eq_ok_iff] at hok
  obtain ⟨t, _, _, hok⟩ := hok
  split at hok
  · cases hok
    rfl
  · cases hpath : t.origin.path.bind targetPath? with
    | none =>
      rw [hpath] at hok
      cases hok
      rfl
    | some path =>
      rw [hpath] at hok
      cases htext : content t with
      | error e =>
        simp only [htext] at hok
        cases hok
      | ok text =>
        simp only [htext] at hok
        cases hok
        rfl

end TestFiles

/-! ### Every rule -/

/-- Where there is nothing to change and no file to ask for, at most a mark is set. -/
lemma Sharp.unchanged {m : Action Outcome} {acts : Bool} (h : Sharp m w n acts false)
    (hacts : acts = false) :
    ∃ w', m w = .ok .unchanged w' ∧ w.tree.Alike w'.tree ∧
      w'.tree.revision = w.tree.revision ∧ w'.files = w.files := by
  rcases h with ⟨_, w', hok, hrests⟩ | ⟨hacts', _⟩
  · refine ⟨w', hok, hrests.near.alike, hrests.edited.2, ?_⟩
    cases hrests with
    | still => rfl
    | routed _ => rfl
    | filed hasks _ _ => cases hasks
  · rw [hacts] at hacts'
    cases hacts'

/-- Every rule of the catalogue is idempotent on what it leaves behind, by the syntax alone: after
it has changed a node or put another one in its place, it reports for the node that stands there
that nothing is changed, and leaves slots, root, revision and files as they are. The attributes of
the tree may be any in between: those the first application left, none, or others. -/
theorem apply_again_unchanged {r : Rule} (hr : r ∈ all routes)
    (hcontroller : oracle.isSubtype Controls.controller Controls.control = false) {pass : Nat}
    (hw : w.tree.Reachable) (hok : r.apply oracle pass n w = .ok o w')
    (hheir : o.heir? n = some m) (pass' : Nat) (attributes : Attributes)
    (files : List AddedFile) :
    ∃ w'', r.apply oracle pass' m ⟨{ w'.tree with attributes }, files⟩ = .ok .unchanged w'' ∧
      w''.tree.slots = w'.tree.slots ∧ w''.tree.root = w'.tree.root ∧
      w''.tree.revision = w'.tree.revision ∧ w''.files = files := by
  have hagain : ∀ {guard : Tree → NodeId → Bool},
      (∀ {k : NodeId} {v : Workspace}, k < v.tree.size →
        Sharp (r.apply oracle pass' k) v k (guard v.tree k) false) →
      (r.apply oracle pass n).Ensures w (Finishes guard n) →
      ∃ w'', r.apply oracle pass' m ⟨{ w'.tree with attributes }, files⟩ = .ok .unchanged w'' ∧
        w''.tree.slots = w'.tree.slots ∧ w''.tree.root = w'.tree.root ∧
        w''.tree.revision = w'.tree.revision ∧ w''.files = files := by
    intro guard hsharp hfinishes
    obtain ⟨hm, hguard⟩ := hfinishes o w' hok m hheir
    obtain ⟨w'', hok', halike, hrevision, hfiles⟩ :=
      (hsharp (v := ⟨{ w'.tree with attributes }, files⟩) hm).unchanged (hguard attributes)
    exact ⟨w'', hok', halike.slots, halike.root, hrevision, hfiles⟩
  simp only [all, List.mem_cons, List.not_mem_nil, or_false] at hr
  rcases hr with rfl | rfl | rfl | rfl | rfl | rfl | rfl
  · exact hagain (Forms.sharp oracle pass') (Forms.finishes pass hw.sound)
  · exact hagain (Assertions.sharp oracle pass') (Assertions.finishes pass)
  · exact hagain (TestCases.sharp oracle pass') (TestCases.finishes pass)
  · exact hagain (RequestParameters.sharp oracle pass') (RequestParameters.finishes pass)
  · exact hagain (Controls.sharp oracle pass') (Controls.finishes hcontroller pass)
  · rw [TestFiles.heir?_of_apply oracle pass hok] at hheir
    cases hheir
  · exact hagain (Routes.sharp routes oracle pass')
      (Routes.finishes oracle pass hw.sound)

/-- The method of the sample is annotated once, although its mark is lost. -/
theorem apply_again_unchanged_route :
    ∃ t w' w'', Tree.ofDocument sampleDocument = .ok t ∧
      (Routes.rule [sampleRoute]).apply .unknown 1 2 ⟨t, []⟩ = .ok .mutated w' ∧
      w'.tree.attributes.flag 2 .hasRoute = true ∧
      (Routes.rule [sampleRoute]).apply .unknown 2 2 ⟨{ w'.tree with attributes := {} }, []⟩ =
        .ok .unchanged w'' ∧
      w''.tree.slots = w'.tree.slots ∧ w''.tree.root = w'.tree.root ∧
      w''.tree.revision = w'.tree.revision ∧ w''.files = [] := by
  have hrun : (Tree.ofDocument sampleDocument).toOption.any (fun t =>
      match (Routes.rule [sampleRoute]).apply .unknown 1 2 ⟨t, []⟩ with
      | .ok o w' => o == .mutated && w'.tree.attributes.flag 2 .hasRoute
      | .error _ _ => false) = true := by decide +kernel
  cases hdoc : Tree.ofDocument sampleDocument with
  | error e =>
    rw [hdoc] at hrun
    cases hrun
  | ok t =>
    rw [hdoc, Except.toOption, Option.any_some] at hrun
    split at hrun
    · next o w' hok =>
      rw [Bool.and_eq_true, beq_iff_eq] at hrun
      obtain ⟨rfl, hflag⟩ := hrun
      have hmem : Routes.rule [sampleRoute] ∈ all [sampleRoute] := by simp [all]
      obtain ⟨w'', hagain⟩ := apply_again_unchanged hmem rfl (Tree.Reachable.ofDocument hdoc) hok
        rfl 2 {} []
      exact ⟨t, w', w'', rfl, hok, hflag, hagain⟩
    · cases hrun

end Catalogue

end CodeMigration
