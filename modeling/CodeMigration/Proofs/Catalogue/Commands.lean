import CodeMigration.Catalogue
import CodeMigration.Proofs.Rule.Commands

/-!
# Migrations work by commands

Every migration changes the tree through the edits of the library only, whether it succeeds or not,
and none of them writes a position or formatting data or takes a flag back. Only the migration of
test files asks for a file.
-/

namespace CodeMigration

namespace Catalogue

open CodeMigration.Action

variable {k : Nat}

/-! ### Calls -/

namespace Forms

lemma editsFrom_takeArguments (n : NodeId) (kept arguments : List NodeId) :
    EditsFrom k (takeArguments n kept arguments) := by
  induction arguments with
  | nil => exact .pure ()
  | cons a arguments ih =>
    rw [takeArguments]
    split
    · exact (EditsFrom.command (.detach n a) rfl fun _ => rfl).bind fun _ => ih
    · exact (EditsFrom.command (.removeChild n a) rfl fun _ => rfl).bind fun _ => ih

lemma editsFrom_pushOptions (n : NodeId) (options : List (String × NodeId)) :
    EditsFrom k (pushOptions n options) := by
  rw [pushOptions]
  split
  · exact .pure ()
  · refine (EditsFrom.mapM fun option _ => .addItem option.1 option.2).bind fun items => ?_
    refine (EditsFrom.addWithChildren _ items).bind fun array => ?_
    exact .command (.pushChild n array) rfl fun _ => rfl

lemma editsFrom_replaceConstruction (n : NodeId) : EditsFrom k (replaceConstruction n) := by
  refine (EditsFrom.add _).bind fun this => (EditsFrom.addWithChildren _ _).bind fun call => ?_
  refine (EditsFrom.mark call (by decide)).bind fun _ => ?_
  exact (EditsFrom.command (.replace n call) rfl fun _ => rfl).bind fun _ => .pure _

lemma editsFrom_foldField {n : NodeId} (hn : n < k) (method type : String)
    (arguments : List NodeId) : EditsFrom k (foldField n method type arguments) := by
  refine (editsFrom_takeArguments n _ _).bind fun _ => ?_
  refine (EditsFrom.mapM fun option _ => (EditsFrom.add _).bind fun _ => .pure _).bind
    fun fixed => ?_
  refine (EditsFrom.add _).bind fun typeRef => ?_
  refine (EditsFrom.command (.pushChild n typeRef) rfl fun _ => rfl).bind fun _ => ?_
  refine (editsFrom_pushOptions n _).bind fun _ => ?_
  refine (EditsFrom.setConstruct hn _).bind fun _ => ?_
  exact (EditsFrom.mark n (by decide)).bind fun _ => .pure _

lemma editsOnly : rule.EditsOnly := by
  refine fun oracle _ n => EditsFrom.tree_bind_all fun t => ?_
  split
  · exact .pure _
  · refine EditsFrom.require_bind (EditsFrom.tree_bind_all fun t => ?_)
    split
    · exact .pure _
    · split
      · split
        · exact editsFrom_replaceConstruction n
        · exact .pure _
      · split
        · split
          · exact editsFrom_foldField (Nat.lt_succ_self n) _ _ _
          · exact .pure _
        · exact .pure _
      · exact .pure _

end Forms

namespace Assertions

lemma editsFrom_dropFirst (n : NodeId) : EditsFrom k (dropFirst n) := by
  refine EditsFrom.tree_bind_all fun t => ?_
  split
  · next first _ => exact .command (.removeChild n first) rfl fun _ => rfl
  · exact .pure ()

lemma editsFrom_retarget {n : NodeId} (hn : n < k) (target : Target) :
    EditsFrom k (retarget n target) := by
  have hrest : EditsFrom k (do
      Action.update (·.setConstruct n (.staticCall phpUnit target.method))
      return Outcome.mutated) := (EditsFrom.setConstruct hn _).bind fun _ => .pure _
  rw [retarget]
  split
  · exact (editsFrom_dropFirst n).bind fun _ => hrest
  · exact hrest

lemma editsOnly : rule.EditsOnly := by
  refine fun oracle _ n => ?_
  refine EditsFrom.require_bind (EditsFrom.tree_bind_all fun t => ?_)
  split
  · split
    · split
      · exact editsFrom_retarget (Nat.lt_succ_self n) _
      · exact .pure _
    · exact .pure _
  · exact .pure _

end Assertions

namespace RequestParameters

lemma editsOnly : rule.EditsOnly := by
  refine fun oracle _ n => ?_
  refine EditsFrom.require_bind (EditsFrom.tree_bind_all fun t => ?_)
  split
  · split
    · next receiver _ =>
      refine (EditsFrom.command (.detach n receiver) rfl fun _ => rfl).bind fun _ => ?_
      refine (EditsFrom.addWithChildren _ _).bind fun attributes => ?_
      refine (EditsFrom.command (.insertChild n 0 attributes) rfl fun _ => rfl).bind fun _ => ?_
      exact (EditsFrom.setConstruct (Nat.lt_succ_self n) _).bind fun _ => .pure _
    · exact .pure _
  · exact .pure _

end RequestParameters

/-! ### Declarations -/

namespace TestCases

lemma editsOnly : rule.EditsOnly := by
  refine fun oracle _ n => ?_
  refine EditsFrom.require_bind (EditsFrom.tree_bind_all fun t => ?_)
  split
  · rw [applyToClass]
    split
    · split
      · refine (EditsFrom.setConstruct (Nat.lt_succ_self n) _).bind fun _ => ?_
        exact (EditsFrom.mark n (by decide)).bind fun _ => .pure _
      · exact .pure _
    · exact .pure _
  · split
    · exact .pure _
    · exact .pure _

end TestCases

namespace TestFiles

lemma reshapes : rule.Reshapes := by
  intro oracle pass n w
  have hafter : ∀ f : Tree → Action Outcome, (Action.tree >>= f).after w = (f w.tree).after w :=
    fun _ => rfl
  show w.tree.Reshaped ((TestFiles.apply oracle pass n).after w).tree
  rw [TestFiles.apply, hafter]
  split
  · exact .refl w.tree
  · split
    · exact .refl w.tree
    · split
      · exact .refl w.tree
      · exact w.tree.reshaped_setFlag n (by decide)

end TestFiles

namespace Routes

lemma editsFrom_buildMethods (httpMethods : List String) :
    EditsFrom k (buildMethods httpMethods) := by
  rw [buildMethods]
  split
  · exact .pure _
  · refine (EditsFrom.mapM fun m _ => (EditsFrom.add _).bind fun _ =>
      EditsFrom.addWithChildren _ _).bind fun items => ?_
    refine (EditsFrom.add _).bind fun key => (EditsFrom.addWithChildren _ _).bind fun list => ?_
    exact (EditsFrom.addWithChildren _ _).bind fun _ => .pure _

lemma editsFrom_buildDocTag (route : Route) : EditsFrom k (buildDocTag route) :=
  (EditsFrom.add _).bind fun _ => (editsFrom_buildMethods _).bind fun _ =>
    EditsFrom.addWithChildren _ _

lemma editsOnly (routes : List Route) : (rule routes).EditsOnly := by
  refine fun oracle _ n => EditsFrom.tree_bind_all fun t => ?_
  split
  · exact .pure _
  · refine EditsFrom.require_bind (EditsFrom.tree_bind_all fun t => ?_)
    split
    · exact (EditsFrom.mark n (by decide)).bind fun _ => .pure _
    · split
      · exact .pure _
      · refine (editsFrom_buildDocTag _).bind fun tag => ?_
        refine (EditsFrom.command (.insertChild n 0 tag) rfl fun _ => rfl).bind fun _ => ?_
        exact (EditsFrom.mark n (by decide)).bind fun _ => .pure _

end Routes

namespace Controls

lemma editsFrom_release (v : NodeId) : EditsFrom k (release v) := by
  refine EditsFrom.tree_bind_all fun t => ?_
  split
  · next parent _ => exact .command (.detach parent v) rfl fun _ => rfl
  · exact .pure ()

lemma editsFrom_buildVariables (assigned : List (String × NodeId)) :
    EditsFrom k (buildVariables assigned) := by
  rw [buildVariables]
  split
  · exact .pure _
  · refine (EditsFrom.mapM fun entry _ => .addItem entry.1 entry.2).bind fun items => ?_
    exact (EditsFrom.addWithChildren _ _).bind fun _ => .pure _

lemma editsFrom_buildReturn (file : NodeId) (assigned : List (String × NodeId)) :
    EditsFrom k (buildReturn file assigned) :=
  (EditsFrom.add _).bind fun _ => (editsFrom_buildVariables _).bind fun _ =>
    (EditsFrom.addWithChildren _ _).bind fun _ => EditsFrom.addWithChildren _ _

lemma editsFrom_gather (method : NodeId) (usage : TemplateUse) (file : NodeId) :
    EditsFrom k (gather method usage file) := by
  refine (EditsFrom.forM fun entry _ => editsFrom_release entry.2).bind fun _ => ?_
  refine (editsFrom_release file).bind fun _ => ?_
  refine (EditsFrom.forM fun s _ => .command (.removeChild method s) rfl fun _ => rfl).bind
    fun _ => ?_
  refine (editsFrom_buildReturn _ _).bind fun statement => ?_
  exact .command (.pushChild method statement) rfl fun _ => rfl

lemma editsFrom_convert {n method : NodeId} (hn : n < k) (hmethod : method < k)
    (usage : TemplateUse) (file : NodeId) (name : String) (interfaces : List String) :
    EditsFrom k (convert n method usage file name interfaces) := by
  refine (editsFrom_gather method usage file).bind fun _ => ?_
  refine (EditsFrom.setConstruct hmethod _).bind fun _ => ?_
  exact (EditsFrom.setConstruct hn _).bind fun _ => .pure _

lemma lt_size_of_renderMethod? {t : Tree} {n method : NodeId}
    (h : renderMethod? t n = some method) : method < t.size := by
  have hrender := List.find?_some h
  rw [beq_iff_eq, Tree.construct?, Option.map_eq_some_iff] at hrender
  obtain ⟨slot, hslot, _⟩ := hrender
  exact t.lt_size_iff_slot?.mpr ⟨slot, hslot⟩

lemma editsOnly : rule.EditsOnly := by
  refine fun oracle _ n => ?_
  refine EditsFrom.require_bind (EditsFrom.tree_bind fun w hw => ?_)
  have hidle := Action.EditsAt.pure Outcome.unchanged w
  split
  · split
    · split
      · next method hmethod =>
        dsimp only
        split
        · have hlt : method < w.tree.size := lt_size_of_renderMethod? hmethod
          exact editsFrom_convert hw hlt _ _ _ _ w (Nat.le_refl _)
        · exact hidle
      · exact hidle
    · exact hidle
  · exact hidle

end Controls

lemma reshapes_of_mem_all {routes : List Route} {r : Rule} (hr : r ∈ all routes) : r.Reshapes := by
  simp only [all, List.mem_cons, List.not_mem_nil, or_false] at hr
  rcases hr with rfl | rfl | rfl | rfl | rfl | rfl | rfl
  · exact Forms.editsOnly.reshapes
  · exact Assertions.editsOnly.reshapes
  · exact TestCases.editsOnly.reshapes
  · exact RequestParameters.editsOnly.reshapes
  · exact Controls.editsOnly.reshapes
  · exact TestFiles.reshapes
  · exact (Routes.editsOnly routes).reshapes

lemma actsByCommands_of_mem_all {routes : List Route} {r : Rule} (hr : r ∈ all routes) :
    r.ActsByCommands := (reshapes_of_mem_all hr).actsByCommands

end Catalogue

end CodeMigration
