import CodeMigration.Proofs.Catalogue.Commands
import CodeMigration.Proofs.Catalogue.Declarations
import CodeMigration.Proofs.Decoration
import CodeMigration.Proofs.Document.Outline
import CodeMigration.Proofs.Tree.Alike

/-!
# Where migrations act

For every migration `acts` says whether it changes a node. Where it does not, an application reports
that nothing was changed and leaves at most a flag behind, or asks for a file.
-/

namespace CodeMigration

namespace Catalogue

variable {oracle : Oracle} {pass : Nat} {n : NodeId} {w : Workspace}

/-! ### Guards -/

/-- Whether a node is migrated. -/
def Forms.acts (oracle : Oracle) (t : Tree) (n : NodeId) : Bool :=
  !t.attributes.flag n .processed && inPresenter oracle t n &&
    match t.construct? n with
    | some (.instantiation name) => ClassName.same name form
    | some (.methodCall method) =>
      (fieldType? method).isSome && (onForm oracle t n && !(t.arguments n).isEmpty)
    | _ => false

/-- Whether a node is migrated. -/
def Assertions.acts (oracle : Oracle) (t : Tree) (n : NodeId) : Bool :=
  match t.construct? n with
  | some (.staticCall className method) =>
    isTester oracle className && (target? oracle t n method).isSome
  | _ => false

/-- Whether a class is migrated. -/
def TestCases.actsOnClass (t : Tree) (n : NodeId) : Bool :=
  match t.construct? n with
  | some (.classDecl _ (some parent) _) => ClassName.same parent testerCase
  | _ => false

/-- Whether a node is migrated or dropped. -/
def TestCases.acts (oracle : Oracle) (t : Tree) (n : NodeId) : Bool :=
  if t.hasKind n .classDecl then actsOnClass t n else isDropped oracle t n

/-- The file that a control shows in its `render` method. -/
def Controls.file? (t : Tree) (n : NodeId) : Option NodeId :=
  (renderMethod? t n).bind fun method => (templateUse t method).file

/-- Whether a node is migrated. -/
def Controls.acts (oracle : Oracle) (t : Tree) (n : NodeId) : Bool :=
  match t.construct? n with
  | some (.classDecl _ (some parent) _) => isControl oracle parent && (file? t n).isSome
  | _ => false

/-- Whether a method is annotated. -/
def Routes.acts (routes : List Route) (t : Tree) (n : NodeId) : Bool :=
  !t.attributes.flag n .hasRoute && (!isAnnotated t n && (routeFor? routes t n).isSome)

/-- Whether a file is asked for at a node. -/
def TestFiles.asks (t : Tree) (n : NodeId) : Bool :=
  !decide (n ≠ t.root ∨ t.attributes.flag n .processed) && (t.origin.path.bind targetPath?).isSome

/-! ### Applications -/

/-- What an application leaves behind that changes nothing; a file only where one is asked for. -/
inductive Rests (asks : Bool) (w : Workspace) (n : NodeId) : Workspace → Prop
  | still : Rests asks w n w
  | routed (hannotated : Routes.isAnnotated w.tree n = true) :
    Rests asks w n { w with tree := w.tree.setAttribute n .hasRoute (.flag true) }
  | filed (hasks : asks = true) (hfile : w.tree.kind? n = some .file) (file : AddedFile) :
    Rests asks w n ⟨w.tree.setAttribute n .processed (.flag true), w.files ++ [file]⟩

/-- Every result of the action is such an outcome. -/
def Answers (P : Outcome → Prop) (m : Action Outcome) : Prop := ∀ w o w', m w = .ok o w' → P o

section answers

variable {P : Outcome → Prop}

lemma answers_pure {o : Outcome} (ho : P o) : Answers P (pure o) := by
  intro w o' w' hok
  obtain ⟨rfl, _⟩ := EStateM.pure_eq_ok_iff.mp hok
  exact ho

lemma answers_refuse (e : Error) : Answers P (Action.refuse e) := by
  intro w o w' hok
  cases hok

lemma answers_bind {α : Type} {m : Action α} {f : α → Action Outcome}
    (hf : ∀ a, Answers P (f a)) : Answers P (m >>= f) := by
  intro w o w' hok
  obtain ⟨a, w₁, _, hok⟩ := EStateM.bind_eq_ok_iff.mp hok
  exact hf a w₁ o w' hok

end answers

/-- The action changes something if the guard says so, and else leaves things to rest. -/
def Sharp (m : Action Outcome) (w : Workspace) (n : NodeId) (guard asks : Bool) : Prop :=
  (guard = false ∧ ∃ w', m w = .ok .unchanged w' ∧ Rests asks w n w') ∨
    (guard = true ∧ ∀ o w', m w = .ok o w' → o ≠ .unchanged)

namespace Sharp

variable {guard asks : Bool}

lemma tree_bind {f : Tree → Action Outcome} (h : Sharp (f w.tree) w n guard asks) :
    Sharp (Action.tree >>= f) w n guard asks := h

lemma require_bind {f : Unit → Action Outcome} (hn : n < w.tree.size)
    (h : Sharp (f ()) w n guard asks) : Sharp (Action.require n >>= f) w n guard asks := by
  rwa [Sharp, Action.require_bind_apply hn]

lemma still (hguard : guard = false) : Sharp (pure .unchanged) w n guard asks :=
  Or.inl ⟨hguard, w, rfl, .still⟩

lemma busy {m : Action Outcome} (hguard : guard = true) (hm : Answers (· ≠ .unchanged) m) :
    Sharp m w n guard asks :=
  Or.inr ⟨hguard, hm w⟩

end Sharp

lemma Forms.sharp (oracle : Oracle) (pass : Nat) {n : NodeId} {w : Workspace}
    (hn : n < w.tree.size) :
    Sharp (apply oracle pass n) w n (acts oracle w.tree n) false := by
  refine Sharp.tree_bind ?_
  split
  · exact Sharp.still (by grind [acts])
  · refine Sharp.require_bind hn (Sharp.tree_bind ?_)
    split
    · exact Sharp.still (by grind [acts])
    · split
      · split
        · refine Sharp.busy (by grind [acts]) ?_
          exact answers_bind fun _ => answers_bind fun _ => answers_bind fun _ =>
            answers_bind fun _ => answers_pure (by simp)
        · exact Sharp.still (by grind [acts])
      · split
        · split
          · refine Sharp.busy (by grind [acts]) ?_
            exact answers_bind fun _ => answers_bind fun _ => answers_bind fun _ =>
              answers_bind fun _ => answers_bind fun _ => answers_bind fun _ =>
              answers_bind fun _ => answers_pure (by simp)
          · exact Sharp.still (by grind [acts])
        · exact Sharp.still (by grind [acts])
      · exact Sharp.still (by grind [acts])

lemma Assertions.sharp (oracle : Oracle) (pass : Nat) {n : NodeId} {w : Workspace}
    (hn : n < w.tree.size) :
    Sharp (apply oracle pass n) w n (acts oracle w.tree n) false := by
  refine Sharp.require_bind hn (Sharp.tree_bind ?_)
  split
  · split
    · split
      · refine Sharp.busy (by grind [acts]) ?_
        rw [retarget]
        split
        · exact answers_bind fun _ => answers_bind fun _ => answers_pure (by simp)
        · exact answers_bind fun _ => answers_pure (by simp)
      · exact Sharp.still (by grind [acts])
    · exact Sharp.still (by grind [acts])
  · exact Sharp.still (by grind [acts])

lemma TestCases.sharp (oracle : Oracle) (pass : Nat) {n : NodeId} {w : Workspace}
    (hn : n < w.tree.size) :
    Sharp (apply oracle pass n) w n (acts oracle w.tree n) false := by
  refine Sharp.require_bind hn (Sharp.tree_bind ?_)
  split
  · rw [applyToClass]
    split
    · split
      · refine Sharp.busy (by grind [acts, actsOnClass]) ?_
        exact answers_bind fun _ => answers_bind fun _ => answers_pure (by simp)
      · exact Sharp.still (by grind [acts, actsOnClass])
    · exact Sharp.still (by grind [acts, actsOnClass])
  · split
    · exact Sharp.busy (by grind [acts]) (answers_pure (by simp))
    · exact Sharp.still (by grind [acts])

lemma RequestParameters.sharp (oracle : Oracle) (pass : Nat) {n : NodeId} {w : Workspace}
    (hn : n < w.tree.size) :
    Sharp (apply oracle pass n) w n (readsParameter oracle w.tree n) false := by
  refine Sharp.require_bind hn (Sharp.tree_bind ?_)
  split
  · next hreads =>
    split
    · refine Sharp.busy hreads ?_
      exact answers_bind fun _ => answers_bind fun _ => answers_bind fun _ =>
        answers_bind fun _ => answers_pure (by simp)
    · next hnone => exact Sharp.still (by rw [readsParameter, hnone]; simp)
  · exact Sharp.still (by grind)

lemma Controls.sharp (oracle : Oracle) (pass : Nat) {n : NodeId} {w : Workspace}
    (hn : n < w.tree.size) :
    Sharp (apply oracle pass n) w n (acts oracle w.tree n) false := by
  refine Sharp.require_bind hn (Sharp.tree_bind ?_)
  split
  · split
    · split
      · dsimp only
        split
        · refine Sharp.busy (by grind [acts, file?]) ?_
          exact answers_bind fun _ => answers_bind fun _ => answers_bind fun _ =>
            answers_pure (by simp)
        · exact Sharp.still (by grind [acts, file?])
      · exact Sharp.still (by grind [acts, file?])
    · exact Sharp.still (by grind [acts, file?])
  · exact Sharp.still (by grind [acts])

lemma Routes.sharp (routes : List Route) (oracle : Oracle) (pass : Nat) {n : NodeId} {w : Workspace}
    (hn : n < w.tree.size) :
    Sharp (apply routes oracle pass n) w n (acts routes w.tree n) false := by
  refine Sharp.tree_bind ?_
  split
  · exact Sharp.still (by grind [acts])
  · refine Sharp.require_bind hn (Sharp.tree_bind ?_)
    split
    · next hannotated =>
      exact Or.inl ⟨by grind [acts], _, rfl, .routed hannotated⟩
    · split
      · exact Sharp.still (by grind [acts])
      · refine Sharp.busy (by grind [acts]) ?_
        exact answers_bind fun _ => answers_bind fun _ => answers_bind fun _ =>
          answers_pure (by simp)

lemma TestFiles.sharp (oracle : Oracle) (pass : Nat) {n : NodeId} {w : Workspace}
    (ht : w.tree.WellLinked) (hfile : w.tree.kind? n = some .file) :
    Sharp (apply oracle pass n) w n false (asks w.tree n) := by
  refine Sharp.tree_bind ?_
  split
  · exact Sharp.still rfl
  · split
    · exact Sharp.still rfl
    · obtain ⟨text, htext⟩ := exists_content ht
      simp only [htext]
      exact Or.inl ⟨rfl, _, rfl, .filed (by grind [asks]) hfile _⟩

/-! ### Replacements -/

/-- No result of the action puts another node in the place of the one it is about. -/
abbrev Stationary (m : Action Outcome) : Prop := Answers (fun o => ∀ new, o ≠ .replaced new) m

lemma not_replaces_of_stationary {r : Rule} (h : ∀ pass n, Stationary (r.apply oracle pass n)) :
    ¬ r.Replaces oracle := by
  rintro ⟨pass, n, w, new, w', _, hok⟩
  exact h pass n w _ w' hok new rfl

lemma stationary_unchanged : Stationary (pure .unchanged) := answers_pure (by simp)

lemma stationary_mutated : Stationary (pure .mutated) := answers_pure (by simp)

lemma Assertions.not_replaces : ¬ rule.Replaces oracle := by
  refine not_replaces_of_stationary fun pass n => answers_bind fun _ => answers_bind fun t => ?_
  split
  · split
    · split
      · rw [retarget]
        split
        · exact answers_bind fun _ => answers_bind fun _ => stationary_mutated
        · exact answers_bind fun _ => stationary_mutated
      · exact stationary_unchanged
    · exact stationary_unchanged
  · exact stationary_unchanged

lemma TestCases.not_replaces : ¬ rule.Replaces oracle := by
  refine not_replaces_of_stationary fun pass n => answers_bind fun _ => answers_bind fun t => ?_
  split
  · rw [applyToClass]
    split
    · split
      · exact answers_bind fun _ => answers_bind fun _ => stationary_mutated
      · exact stationary_unchanged
    · exact stationary_unchanged
  · split
    · exact answers_pure (by simp)
    · exact stationary_unchanged

lemma RequestParameters.not_replaces : ¬ rule.Replaces oracle := by
  refine not_replaces_of_stationary fun pass n => answers_bind fun _ => answers_bind fun t => ?_
  split
  · split
    · exact answers_bind fun _ => answers_bind fun _ => answers_bind fun _ =>
        answers_bind fun _ => stationary_mutated
    · exact stationary_unchanged
  · exact stationary_unchanged

lemma Controls.not_replaces : ¬ rule.Replaces oracle := by
  refine not_replaces_of_stationary fun pass n => answers_bind fun _ => answers_bind fun t => ?_
  split
  · split
    · split
      · dsimp only
        split
        · exact answers_bind fun _ => answers_bind fun _ => answers_bind fun _ =>
            stationary_mutated
        · exact stationary_unchanged
      · exact stationary_unchanged
    · exact stationary_unchanged
  · exact stationary_unchanged

lemma TestFiles.not_replaces : ¬ rule.Replaces oracle := by
  refine not_replaces_of_stationary fun pass n => answers_bind fun t => ?_
  split
  · exact stationary_unchanged
  · split
    · exact stationary_unchanged
    · split
      · exact answers_refuse _
      · exact answers_bind fun _ => answers_bind fun _ => stationary_unchanged

lemma Routes.not_replaces (routes : List Route) : ¬ (rule routes).Replaces oracle := by
  refine not_replaces_of_stationary fun pass n => answers_bind fun t => ?_
  split
  · exact stationary_unchanged
  · refine answers_bind fun _ => answers_bind fun t => ?_
    split
    · exact answers_bind fun _ => stationary_unchanged
    · split
      · exact stationary_unchanged
      · exact answers_bind fun _ => answers_bind fun _ => answers_bind fun _ => stationary_mutated

/-- Of all migrations only the one for forms may put another node in the place of a node. -/
lemma eq_forms_of_replaces {routes : List Route} {r : Rule} (hr : r ∈ all routes)
    (h : r.Replaces oracle) : r = Forms.rule := by
  simp only [all, List.mem_cons, List.not_mem_nil, or_false] at hr
  rcases hr with rfl | rfl | rfl | rfl | rfl | rfl | rfl
  · rfl
  · exact absurd h Assertions.not_replaces
  · exact absurd h TestCases.not_replaces
  · exact absurd h RequestParameters.not_replaces
  · exact absurd h Controls.not_replaces
  · exact absurd h TestFiles.not_replaces
  · exact absurd h (Routes.not_replaces routes)

/-! ### Success -/

lemma TestCases.yields_apply (oracle : Oracle) (pass : Nat) {n : NodeId} {w : Workspace}
    (hn : n < w.tree.size) :
    (apply oracle pass n).Yields w fun _ _ => True := by
  refine Action.Yields.require_bind hn (Action.Yields.tree_bind ?_)
  split
  · rw [applyToClass]
    split
    · split
      · exact Action.Yields.update_bind (Action.Yields.update_bind (Action.Yields.pure trivial))
      · exact Action.Yields.pure trivial
    · exact Action.Yields.pure trivial
  · split <;> exact Action.Yields.pure trivial

lemma Controls.yields_apply (oracle : Oracle) (pass : Nat) {n : NodeId} {w : Workspace}
    (ht : w.tree.Sound) (hn : w.tree.Reaches w.tree.root n) :
    (apply oracle pass n).Yields w fun _ _ => True := by
  refine Action.Yields.require_bind (ht.linked.lt_size_of_reaches hn) (Action.Yields.tree_bind ?_)
  split
  · split
    · split
      · next method hmethod =>
        dsimp only
        split
        · next file hfile =>
          have hlink := (ht.linked.mem_children_iff n method).mp (List.mem_of_find?_eq_some hmethod)
          have hgather := yields_gather ht hn hlink hfile (Bench.start oracle w.tree n)
          exact hgather.bind fun _ w' _ =>
            Action.Yields.update_bind (Action.Yields.update_bind (Action.Yields.pure trivial))
        · exact Action.Yields.pure trivial
      · exact Action.Yields.pure trivial
    · exact Action.Yields.pure trivial
  · exact Action.Yields.pure trivial

/-! ### Nearness -/

/-- The tree `t'` is `t` up to what migrations read only to leave a node alone: marks of methods
that carry an annotation, and the mark of a file. -/
structure Near (t t' : Tree) : Prop where
  alike : t.Alike t'
  origin : t'.origin = t.origin
  types : ∀ n, t'.attribute? n .resolvedType = t.attribute? n .resolvedType
  classes : ∀ n, t'.attribute? n .enclosingClass = t.attribute? n .enclosingClass
  processed : ∀ n, t.kind? n ≠ some .file →
    t'.attributes.flag n .processed = t.attributes.flag n .processed
  kept : ∀ n key, ¬ Decoration.records key → t.attributes.flag n key = true →
    t'.attributes.flag n key = true
  routed : ∀ n, t'.attributes.flag n .hasRoute = true →
    t.attributes.flag n .hasRoute = true ∨ Routes.isAnnotated t n = true
  extras : ∀ n, t'.extras n = t.extras n

section near

variable {t t' : Tree}

lemma Near.refl (t : Tree) : Near t t :=
  ⟨.refl t, rfl, fun _ => rfl, fun _ => rfl, fun _ _ => rfl, fun _ _ _ h => h, fun _ h => Or.inl h,
    fun _ => rfl⟩

lemma isAnnotated_alike (h : t.Alike t') : Routes.isAnnotated t' = Routes.isAnnotated t := by
  funext n
  rw [Routes.isAnnotated, h.children, h.construct?, Routes.isAnnotated]

lemma Near.trans {t'' : Tree} (h : Near t t') (h' : Near t' t'') : Near t t'' where
  alike := h.alike.trans h'.alike
  origin := h'.origin.trans h.origin
  types n := (h'.types n).trans (h.types n)
  classes n := (h'.classes n).trans (h.classes n)
  processed n hn := by
    rw [h'.processed n (by rwa [h.alike.kind?]), h.processed n hn]
  kept n key hkey hflag := h'.kept n key hkey (h.kept n key hkey hflag)
  routed n hn := by
    rcases h'.routed n hn with hn | hn
    · exact h.routed n hn
    · rw [isAnnotated_alike h.alike] at hn
      exact Or.inr hn
  extras n := (h'.extras n).trans (h.extras n)

section alike

variable (h : t.Alike t') (hflag : ∀ n, t.kind? n = some .classDecl →
  t'.attributes.flag n .processed = t.attributes.flag n .processed)
include h hflag

lemma TestCases.isTestCase_alike : isTestCase oracle t' = isTestCase oracle t := by
  funext n
  rw [isTestCase, isTestCase, h.construct?]
  split
  · next hc => rw [hflag n (kind?_of_construct hc)]
  · rfl

lemma TestCases.testCases_alike : testCases oracle t' = testCases oracle t := by
  rw [testCases, h.nodes, isTestCase_alike h hflag, h.qualifiedClass?, testCases]

end alike

variable (h : Near t t')
include h

lemma Near.enclosingClass? (n : NodeId) : t'.enclosingClass? n = t.enclosingClass? n :=
  h.alike.enclosingClass? (h.classes n)

lemma Routes.routeFor?_near (routes : List Route) (n : NodeId) :
    routeFor? routes t' n = routeFor? routes t n := by
  rw [routeFor?, h.alike.name?, h.enclosingClass?, h.alike.qualifiedClass?, routeFor?]

lemma Routes.acts_near (routes : List Route) (n : NodeId) :
    acts routes t' n = acts routes t n := by
  rw [acts, acts, routeFor?_near h, isAnnotated_alike h.alike]
  have hkept := h.kept n .hasRoute (by simp [Decoration.records])
  have hrouted := h.routed n
  grind

lemma TestFiles.asks_near {n : NodeId} (hasks : asks t' n = true) : asks t n = true := by
  have hkept := h.kept n .processed (by simp [Decoration.records])
  rw [asks, h.origin, h.alike.root] at hasks
  grind [asks]

variable (horacle : oracle.Steady)
include horacle

lemma Forms.acts_near (n : NodeId) : acts oracle t' n = acts oracle t n := by
  rw [acts, acts, inPresenter, h.enclosingClass?, onForm, horacle.isInstance h.alike h.types,
    h.alike.construct?, h.alike.child?, h.alike.arguments, inPresenter, onForm]
  by_cases hfile : t.kind? n = some .file
  · rw [Tree.kind?, Option.map_eq_some_iff] at hfile
    obtain ⟨c, hc, hkind⟩ := hfile
    rw [hc]
    cases c <;> cases hkind
    simp
  · rw [h.processed n hfile]

lemma Assertions.acts_near (n : NodeId) : acts oracle t' n = acts oracle t n := by
  rw [acts, acts, h.alike.construct?]
  simp only [target?, containsTarget?, typeTarget?, h.alike.arguments, h.alike.construct?,
    horacle.typeOf h.alike h.types]

lemma RequestParameters.acts_near (n : NodeId) :
    readsParameter oracle t' n = readsParameter oracle t n := by
  rw [readsParameter, h.alike.construct?, h.alike.child?, horacle.isInstance h.alike h.types,
    readsParameter]

omit horacle in
lemma TestCases.testCases_near : testCases oracle t' = testCases oracle t :=
  testCases_alike h.alike fun n hn => h.processed n (by simp [hn])

omit horacle in
lemma TestCases.acts_near (n : NodeId) : acts oracle t' n = acts oracle t n := by
  have hboot : isBootstrap t' = isBootstrap t := by
    funext cases' m
    rw [isBootstrap, h.alike.construct?, h.alike.child?, isBootstrap]
  rw [acts, acts, h.alike.hasKind, actsOnClass, h.alike.construct?, isDropped, isTopLevel,
    testCases_near h, h.alike.child?, h.alike.parent?, h.alike.hasKind, hboot, actsOnClass,
    isDropped, isTopLevel]

omit horacle in
lemma Controls.acts_near (n : NodeId) : acts oracle t' n = acts oracle t n := by
  have hstatement : templateStatement? t' = templateStatement? t := by
    funext s
    have htemplate : isTemplate t' = isTemplate t := by
      funext m
      rw [isTemplate, h.alike.construct?, h.alike.child?, isTemplate]
    rw [templateStatement?, h.alike.hasKind, h.alike.child?, h.alike.construct?, htemplate,
      templateStatement?]
  have huse : templateUse t' = templateUse t := by
    funext m
    simp only [templateUse, h.alike.children, TemplateUse.add, hstatement]
  rw [acts, acts, h.alike.construct?, file?, renderMethod?, h.alike.children, h.alike.construct?,
    huse, file?, renderMethod?]

end near

/-! ### The list of migrations -/

lemma TestFiles.asks_apply (oracle : Oracle) (pass : Nat) {n : NodeId} {w w' : Workspace}
    {o : Outcome} (hok : apply oracle pass n w = .ok o w') :
    asks w'.tree n = false := by
  rw [apply, EStateM.bind_eq_ok_iff] at hok
  obtain ⟨_, _, htree, hok⟩ := hok
  cases htree
  split at hok
  · next hdone =>
    cases hok
    simp [asks, hdone]
  · cases hpath : w.tree.origin.path.bind targetPath? with
    | none =>
      rw [hpath] at hok
      cases hok
      simp [asks, hpath]
    | some path =>
      rw [hpath] at hok
      cases htext : content w.tree with
      | error e =>
        simp only [htext] at hok
        cases hok
      | ok text =>
        simp only [htext] at hok
        cases hok
        have hflag : (w.tree.setAttribute n .processed (.flag true)).attributes.flag n .processed =
            true := by
          show (w.tree.attributes.set n .processed (.flag true)).flag n .processed = true
          rw [Attributes.flag, Attributes.get?_set, if_pos ⟨rfl, rfl⟩]
          rfl
        simp [asks, hflag]

/-- A rule of the catalogue with what is known of it: where it changes something, and where it asks
for a file. -/
structure Migration where
  rule : Rule
  acts : Oracle → Tree → NodeId → Bool
  asks : Tree → NodeId → Bool
  pre : rule.order = .pre
  commands : rule.ActsByCommands
  yields : ∀ (oracle : Oracle) pass {n : NodeId} {w : Workspace}, w.tree.Sound →
    w.tree.Reaches w.tree.root n → Pass.accepts w.tree rule n = true →
    (rule.apply oracle pass n).Yields w fun _ _ => True
  sharp : ∀ (oracle : Oracle) pass {n : NodeId} {w : Workspace}, w.tree.Sound →
    w.tree.Reaches w.tree.root n → Pass.accepts w.tree rule n = true →
    Sharp (rule.apply oracle pass n) w n (acts oracle w.tree n) (asks w.tree n)
  acts_near : ∀ {oracle : Oracle}, oracle.Steady → ∀ {t t' : Tree}, Near t t' → ∀ n,
    acts oracle t' n = acts oracle t n
  asks_near : ∀ {t t' : Tree}, Near t t' → ∀ {n}, asks t' n = true → asks t n = true
  asks_apply : ∀ (oracle : Oracle) pass {n w w' o}, rule.apply oracle pass n w = .ok o w' →
    asks w'.tree n = false

/-- A rule that asks for no file. -/
def Migration.ofRule (rule : Rule) (acts : Oracle → Tree → NodeId → Bool) (pre : rule.order = .pre)
    (commands : rule.ActsByCommands)
    (yields : ∀ (oracle : Oracle) pass {n : NodeId} {w : Workspace}, w.tree.Sound →
      w.tree.Reaches w.tree.root n → Pass.accepts w.tree rule n = true →
      (rule.apply oracle pass n).Yields w fun _ _ => True)
    (sharp : ∀ (oracle : Oracle) pass {n : NodeId} {w : Workspace}, n < w.tree.size →
      Sharp (rule.apply oracle pass n) w n (acts oracle w.tree n) false)
    (acts_near : ∀ {oracle : Oracle}, oracle.Steady → ∀ {t t' : Tree}, Near t t' → ∀ n,
      acts oracle t' n = acts oracle t n) : Migration where
  rule := rule
  acts := acts
  asks _ _ := false
  pre := pre
  commands := commands
  yields := yields
  sharp oracle pass _ _ ht hn _ := sharp oracle pass (ht.linked.lt_size_of_reaches hn)
  acts_near := acts_near
  asks_near _ _ h := h
  asks_apply _ _ _ _ _ _ _ := rfl

lemma yields_of_tame {g : Gauge} {r : Rule} (h : r.Tame g oracle) (ht : w.tree.Sound)
    (hn : w.tree.Reaches w.tree.root n) (hacc : Pass.accepts w.tree r n = true) :
    (r.apply oracle pass n).Yields w fun _ _ => True := by
  obtain ⟨o, w', hok, _⟩ := h.2 pass n w ht hn hacc
  exact ⟨o, w', hok, trivial⟩

/-- The migrations in the order of the catalogue. -/
def migrations (routes : List Route) : List Migration := [
  .ofRule Forms.rule Forms.acts rfl Forms.editsOnly.actsByCommands
    (fun _ _ => yields_of_tame Forms.tame) Forms.sharp
    fun horacle _ _ h => Forms.acts_near h horacle,
  .ofRule Assertions.rule Assertions.acts rfl Assertions.editsOnly.actsByCommands
    (fun _ _ => yields_of_tame Assertions.tame) Assertions.sharp
    fun horacle _ _ h => Assertions.acts_near h horacle,
  .ofRule TestCases.rule TestCases.acts rfl TestCases.editsOnly.actsByCommands
    (fun oracle pass _ _ ht hn _ =>
      TestCases.yields_apply oracle pass (ht.linked.lt_size_of_reaches hn))
    TestCases.sharp fun _ _ _ h => TestCases.acts_near h,
  .ofRule RequestParameters.rule RequestParameters.readsParameter rfl
    RequestParameters.editsOnly.actsByCommands
    (fun _ _ => yields_of_tame RequestParameters.tame) RequestParameters.sharp
    fun horacle _ _ h => RequestParameters.acts_near h horacle,
  .ofRule Controls.rule Controls.acts rfl Controls.editsOnly.actsByCommands
    (fun oracle pass _ _ ht hn _ => Controls.yields_apply oracle pass ht hn) Controls.sharp
    fun _ _ _ h => Controls.acts_near h,
  { rule := TestFiles.rule
    acts _ _ _ := false
    asks := TestFiles.asks
    pre := rfl
    commands := TestFiles.reshapes.actsByCommands
    yields _ _ := yields_of_tame TestFiles.tame
    sharp oracle pass _ _ ht _ hacc :=
      TestFiles.sharp oracle pass ht.linked (kind?_of_accepts rfl hacc)
    acts_near _ _ _ _ _ := rfl
    asks_near h _ := TestFiles.asks_near h
    asks_apply := TestFiles.asks_apply },
  .ofRule (Routes.rule routes) (fun _ => Routes.acts routes) rfl
    (Routes.editsOnly routes).actsByCommands
    (fun _ _ => yields_of_tame (Routes.tame routes)) (Routes.sharp routes)
    fun _ _ _ h => Routes.acts_near h routes]

lemma map_rule_migrations (routes : List Route) :
    (migrations routes).map (·.rule) = all routes := rfl

end Catalogue

end CodeMigration
