import CodeMigration.Proofs.Catalogue.Declarations
import CodeMigration.Proofs.Rule.Accounts

/-!
# What the migrations discard

`Catalogue.Discards` lists the parts of a tree that a migration may discard. Everything else that it
takes out of the tree is put back in another place by the same application.
-/

namespace CodeMigration

namespace Catalogue

/-- How many arguments of a field call are made use of. -/
def Forms.used (method : String) : Nat := if (choiceOptions? method).isSome then 3 else 2

/-- The node `m` lies in a part of the tree that the rule discards when it is applied to `n`. -/
inductive Discards (oracle : Oracle) (t : Tree) (n m : NodeId) : Rule → Prop
  /-- In the construction of a form, in a presenter. -/
  | construction {name : String} (hpresenter : Forms.inPresenter oracle t n = true)
    (hc : t.construct? n = some (.instantiation name))
    (hform : ClassName.same name Forms.form = true) (hm : t.Reaches n m) :
    Discards oracle t n m Forms.rule
  /-- In an argument of a field call behind those that are made use of, in a presenter. -/
  | argument {method : String} {i : Nat} {a : NodeId}
    (hpresenter : Forms.inPresenter oracle t n = true)
    (hc : t.construct? n = some (.methodCall method))
    (hfield : (Forms.fieldType? method).isSome = true) (hform : Forms.onForm oracle t n = true)
    (ha : (t.arguments n)[i]? = some a) (hi : Forms.used method ≤ i) (hm : t.Reaches a m) :
    Discards oracle t n m Forms.rule
  /-- In the first argument of an assertion of a type, which names a built-in type. -/
  | typeName {className value : String} {a : NodeId}
    (hc : t.construct? n = some (.staticCall className "type"))
    (htester : Assertions.isTester oracle className = true) (ha : (t.arguments n)[0]? = some a)
    (hvalue : t.construct? a = some (.string value))
    (hbuiltin : (Assertions.builtinTypes.lookup (value.map Char.toLower)).isSome = true)
    (hm : t.Reaches a m) : Discards oracle t n m Assertions.rule
  /-- In a statement of a file with test cases that sets the tester up. -/
  | bootstrap (hkind : t.kind? n = some .expression)
    (hdropped : TestCases.isDropped oracle t n = true) (hm : t.Reaches n m) :
    Discards oracle t n m TestCases.rule
  /-- In a template statement of the `render` method of a control, outside of the values that are
  assigned and of the file that is shown. -/
  | statement {name parent : String} {interfaces : List String} {method file s : NodeId}
    (hc : t.construct? n = some (.classDecl name (some parent) interfaces))
    (hcontrol : Controls.isControl oracle parent = true)
    (hmethod : Controls.renderMethod? t n = some method)
    (hfile : (Controls.templateUse t method).file = some file)
    (hs : s ∈ t.children method) (hstatement : (Controls.templateStatement? t s).isSome = true)
    (hm : t.Reaches s m) (hclear : ¬ t.Reaches file m)
    (hvalues : ∀ entry ∈ (Controls.templateUse t method).assigned, ¬ t.Reaches entry.2 m) :
    Discards oracle t n m Controls.rule

variable {oracle : Oracle} {n : NodeId} {w : Workspace} {t : Tree} {gone : NodeId → Prop}
  {spare : List NodeId}

lemma lt_size_of_construct? {c : Construct} (hc : t.construct? n = some c) : n < t.size :=
  Tree.lt_size_of_kind? (kind?_of_construct hc)

/-! ### Forms -/

namespace Forms

lemma accounted_replaceConstruction (ht : w.tree.Sound) (h : w.tree.Whole)
    (hroot : n ≠ w.tree.root) (hgone : ∀ m, w.tree.Reaches n m → gone m) :
    (replaceConstruction n).Ensures w (Accounted gone w.tree n) := by
  have hthis := (Action.ledger_add (Tree.Ledger.start h gone) (.variableRef "this")).and
    (Action.ensures_add (Tree.Graft.start ht w.tree.size []) rfl)
  refine hthis.bind fun this w₁ ⟨h₁, hg₁, hfresh⟩ => ?_
  have hcall := (Action.ledger_addWithChildren ht [this] h₁ (.methodCall "createFormBuilder")).and
    (Action.ensures_addWithChildren hg₁ rfl (by simpa using hfresh) (by simp))
  refine hcall.bind fun call w₂ ⟨h₂, ⟨hg₂, _⟩, _⟩ => Action.Ensures.update_bind ?_
  refine Action.Ensures.edit_bind (fun t' hok => ?_) fun w₃ h₃ => Action.Ensures.pure h₃
  refine (h₂.setFlag call (by decide)).replace ht hroot hok fun m hm hlive => hgone m ?_
  exact (hg₂.pruned.reaches ht.linked hm (w.tree.lt_size_of_isLive hlive)).1

/-- Arguments are taken out of a call; those that are kept are spare. -/
lemma ledger_takeArguments (ht : t.Sound) {kept arguments : List NodeId}
    (hgone : ∀ a ∈ arguments, a ∉ kept → ∀ m, t.Reaches a m → gone m)
    (h : t.Ledger gone w.tree kept) (hpruned : ∃ out, t.Pruned out w.tree) :
    (takeArguments n kept arguments).Ensures w fun _ t' => t.Ledger gone t' kept := by
  rw [takeArguments_eq]
  have hloop := Action.Ensures.forM (w := w) (l := arguments)
    (I := fun t' => t.Ledger gone t' kept ∧ ∃ out, t.Pruned out t')
    (f := fun a => if kept.contains a then Action.edit (Edit.detach n a)
      else Action.edit (Edit.removeChild n a)) ?_ ⟨h, hpruned⟩
  · exact hloop.mono fun _ t' h' => h'.1
  · rintro a ha w' ⟨h', out, hpruned'⟩
    have hlinked := (h'.sound ht).linked
    split
    · next hkept =>
      refine Action.Ensures.edit fun t' hok => ⟨(h'.detach ht hok).mono ?_, a :: out, ?_⟩
      · exact List.cons_subset.mpr ⟨List.contains_iff_mem.mp hkept, List.Subset.refl _⟩
      · exact hpruned'.moved (Tree.shifted_detach hlinked hok).toMoved
    · next hkept =>
      rw [List.contains_iff_mem] at hkept
      refine Action.Ensures.edit fun t' hok => ⟨h'.removeChild ht hok fun m hm hlive => ?_,
        a :: out, hpruned'.moved (Tree.shifted_removeChild hlinked hok).toMoved⟩
      exact hgone a ha hkept m (hpruned'.reaches ht.linked hm (t.lt_size_of_isLive hlive)).1

/-- An argument behind the first that is not kept stands behind those that are made use of. -/
lemma exists_index_of_not_kept {method : String} {arguments : List NodeId} {a : NodeId}
    (ha : a ∈ arguments.drop 1)
    (hkept : a ∉ (arguments[1]?).toList ++
      (if (choiceOptions? method).isSome then arguments[2]? else none).toList) :
    ∃ i, arguments[i]? = some a ∧ used method ≤ i := by
  obtain ⟨j, hj⟩ := List.mem_iff_getElem?.mp ha
  rw [List.getElem?_drop] at hj
  rw [List.mem_append, not_or, Option.mem_toList, Option.mem_toList] at hkept
  refine ⟨1 + j, hj, ?_⟩
  have hj₀ : j ≠ 0 := by
    rintro rfl
    exact hkept.1 hj
  rw [used]
  split
  · next hchoice =>
    rw [if_pos hchoice] at hkept
    have hj₁ : j ≠ 1 := by
      rintro rfl
      exact hkept.2 hj
    omega
  · omega

/-- The fixed options are new literals. -/
lemma ledger_fixed (options : List (String × Bool)) (h : t.Ledger gone w.tree spare) :
    (options.mapM fun (key, value) => do
        return (key, ← Action.add (.bool value)) : Action (List (String × NodeId))).Ensures w
      fun fixed t' => t.Ledger gone t' (fixed.map (·.2) ++ spare) := by
  refine Action.ledger_mapM (fun _ => []) Prod.snd (fun option w' spare' h' => ?_) options spare ?_
  · exact (Action.ledger_add h' _).bind fun id w'' hid => Action.Ensures.pure hid
  · rwa [List.flatMap_eq_nil_iff.mpr fun _ _ => rfl, List.nil_append]

lemma ledger_pushOptions (ht : t.Sound) {options : List (String × NodeId)}
    (h : t.Ledger gone w.tree (options.map (·.2))) :
    (pushOptions n options).Ensures w fun _ t' => t.Ledger gone t' [] := by
  rw [pushOptions]
  split
  · next hnone =>
    obtain rfl := List.isEmpty_iff.mp hnone
    exact Action.Ensures.pure h
  · refine (Action.ledger_addItems ht options [] (by simpa using h)).bind fun items w₁ h₁ => ?_
    refine (Action.ledger_addWithChildren ht items h₁ _).bind fun array w₂ h₂ => ?_
    exact Action.Ensures.edit fun t' hok => h₂.pushChild ht hok

lemma accounted_foldField (ht : w.tree.Sound) (h : w.tree.Whole) (hn : n < w.tree.size)
    (method type : String) {arguments : List NodeId}
    (hgone : ∀ i a, arguments[i]? = some a → used method ≤ i → ∀ m, w.tree.Reaches a m → gone m) :
    (foldField n method type arguments).Ensures w (Accounted gone w.tree n) := by
  refine (ledger_takeArguments ht (fun a ha hkept m hm => ?_)
    ((Tree.Ledger.start h gone).mono (List.nil_subset _))
    ⟨[], Tree.Pruned.refl w.tree⟩).bind fun _ w₁ h₁ => ?_
  · obtain ⟨i, hi, hused⟩ := exists_index_of_not_kept ha hkept
    exact hgone i a hi hused m hm
  refine (ledger_fixed (fixedOptions method) h₁).bind fun fixed w₂ h₂ => ?_
  refine (Action.ledger_add h₂ _).bind fun typeRef w₃ h₃ => ?_
  refine Action.Ensures.edit_bind (fun t' hok => h₃.pushChild ht hok) fun w₄ h₄ => ?_
  refine (ledger_pushOptions ht (h₄.mono ?_)).bind fun _ w₅ h₅ => ?_
  · rw [List.map_append, List.map_append, List.map_map, List.map_map]
    simp only [Function.comp_def, List.map_id']
    exact List.perm_append_comm.subset
  refine Action.Ensures.update_bind (Action.Ensures.update_bind (Action.Ensures.pure ?_))
  exact (h₅.setConstruct ht hn _).setFlag n (by decide)

lemma accounts : rule.Accounts fun oracle t n m => Discards oracle t n m rule := by
  intro oracle pass n w ht h _
  have hstart := Tree.Ledger.start h fun m => Discards oracle w.tree n m rule
  refine Action.Ensures.tree_bind ?_
  split
  · exact Action.Ensures.pure hstart
  · refine Action.Ensures.require_bind (Action.Ensures.tree_bind ?_)
    split
    · exact Action.Ensures.pure hstart
    · next hpresenter =>
      rw [Bool.not_eq_true', Bool.not_eq_false] at hpresenter
      split
      · next name hc =>
        split
        · next hform =>
          obtain ⟨p, hlink⟩ := exists_link_of_inPresenter ht.linked hpresenter
          exact accounted_replaceConstruction ht h (ht.linked.ne_root_of_link hlink)
            fun m hm => .construction hpresenter hc hform hm
        · exact Action.Ensures.pure hstart
      · next method hc =>
        split
        · next type htype =>
          split
          · next hguard =>
            rw [Bool.and_eq_true] at hguard
            have hfield : (fieldType? method).isSome = true := by rw [htype]; rfl
            exact accounted_foldField ht h (lt_size_of_construct? hc) method type
              fun i a ha hi m hm => .argument hpresenter hc hfield hguard.1 ha hi hm
          · exact Action.Ensures.pure hstart
        · exact Action.Ensures.pure hstart
      · exact Action.Ensures.pure hstart

end Forms

/-! ### Assertions -/

namespace Assertions

/-- Only an assertion of a built-in type drops its first argument. -/
lemma dropFirst_of_target? {method : String} {target : Target}
    (h : target? oracle t n method = some target) (hdrop : target.dropFirst = true) :
    method = "type" ∧ ∃ a value, (t.arguments n)[0]? = some a ∧
      t.construct? a = some (.string value) ∧
        (builtinTypes.lookup (value.map Char.toLower)).isSome = true := by
  have hcontains : ∀ negated, containsTarget? oracle t (t.arguments n) negated ≠ some target := by
    intro negated hsome
    rw [containsTarget?] at hsome
    split at hsome
    · split at hsome
      · cases hsome
        cases hdrop
      · split at hsome
        · cases hsome
          cases hdrop
        · cases hsome
    · cases hsome
  rw [target?] at h
  split at h
  · exact absurd h (hcontains false)
  · split at h
    · exact absurd h (hcontains true)
    · split at h
      · next htype =>
        refine ⟨htype, ?_⟩
        rw [typeTarget?] at h
        split at h
        · next value hvalue =>
          obtain ⟨a, ha, hconstruct⟩ := Option.bind_eq_some_iff.mp hvalue
          split at h
          · next hname => exact ⟨a, value, ha, hconstruct, by rw [hname]; rfl⟩
          · cases h
            cases hdrop
        · split at h
          · cases h
            cases hdrop
          · cases h
        · cases h
      · obtain ⟨name, _, rfl⟩ := Option.map_eq_some_iff.mp h
        cases hdrop

lemma accounted_retarget (ht : w.tree.Sound) (h : w.tree.Whole) (hn : n < w.tree.size)
    {target : Target}
    (hgone : target.dropFirst = true → ∀ a, w.tree.child? n 0 = some a →
      ∀ m, w.tree.Reaches a m → gone m) :
    (retarget n target).Ensures w (Accounted gone w.tree n) := by
  have hrewrite : ∀ w' : Workspace, w.tree.Ledger gone w'.tree [] →
      Action.Ensures (do
        Action.update (·.setConstruct n (.staticCall phpUnit target.method))
        return Outcome.mutated) w' (Accounted gone w.tree n) := fun w' h' =>
    Action.Ensures.update_bind (Action.Ensures.pure (h'.setConstruct ht hn _))
  have hstart := Tree.Ledger.start h gone
  rw [retarget]
  split
  · next hdrop =>
    refine Action.Ensures.bind (P := fun _ t' => w.tree.Ledger gone t' []) ?_
      fun _ w' h' => hrewrite w' h'
    refine Action.Ensures.tree_bind ?_
    split
    · next a ha =>
      exact Action.Ensures.edit fun t' hok =>
        hstart.removeChild ht hok fun m hm _ => hgone hdrop a ha m hm
    · exact Action.Ensures.pure hstart
  · exact hrewrite w hstart

lemma accounts : rule.Accounts fun oracle t n m => Discards oracle t n m rule := by
  intro oracle pass n w ht h _
  have hstart := Tree.Ledger.start h fun m => Discards oracle w.tree n m rule
  refine Action.Ensures.require_bind (Action.Ensures.tree_bind ?_)
  split
  · next className method hc =>
    split
    · next htester =>
      split
      · next target htarget =>
        refine accounted_retarget ht h (lt_size_of_construct? hc) fun hdrop a ha m hm => ?_
        obtain ⟨rfl, a', value, ha', hvalue, hbuiltin⟩ := dropFirst_of_target? htarget hdrop
        have harguments : w.tree.arguments n = w.tree.children n := by
          rw [Tree.arguments, kind?_of_construct hc]
          rfl
        have heq : (w.tree.arguments n)[0]? = some a := by
          rw [harguments]
          exact ha
        obtain rfl := Option.some.inj (ha'.symm.trans heq)
        exact .typeName hc htester heq hvalue hbuiltin hm
      · exact Action.Ensures.pure hstart
    · exact Action.Ensures.pure hstart
  · exact Action.Ensures.pure hstart

end Assertions

/-! ### Request parameters -/

lemma RequestParameters.accounts :
    rule.Accounts fun oracle t n m => Discards oracle t n m rule := by
  intro oracle pass n w ht h _
  have hstart := Tree.Ledger.start h fun m => Discards oracle w.tree n m rule
  refine Action.Ensures.require_bind (Action.Ensures.tree_bind ?_)
  split
  · next hreads =>
    rw [readsParameter, Bool.and_eq_true, beq_iff_eq] at hreads
    split
    · next receiver _ =>
      refine Action.Ensures.edit_bind (fun t' hok => hstart.detach ht hok) fun w₁ h₁ => ?_
      refine (Action.ledger_addWithChildren ht [receiver] h₁ _).bind fun attributes w₂ h₂ => ?_
      refine Action.Ensures.edit_bind (fun t' hok => h₂.insertChild ht hok) fun w₃ h₃ => ?_
      refine Action.Ensures.update_bind (Action.Ensures.pure ?_)
      exact h₃.setConstruct ht (lt_size_of_construct? hreads.1) _
    · exact Action.Ensures.pure hstart
  · exact Action.Ensures.pure hstart

/-! ### Test cases and test files -/

lemma TestCases.accounts : rule.Accounts fun oracle t n m => Discards oracle t n m rule := by
  intro oracle pass n w ht h haccepts
  have hstart := Tree.Ledger.start h fun m => Discards oracle w.tree n m rule
  refine Action.Ensures.require_bind (Action.Ensures.tree_bind ?_)
  split
  · rw [applyToClass]
    split
    · next hc =>
      split
      · refine Action.Ensures.update_bind (Action.Ensures.update_bind (Action.Ensures.pure ?_))
        exact (hstart.setConstruct ht (lt_size_of_construct? hc) _).setFlag n (by decide)
      · exact Action.Ensures.pure hstart
    · exact Action.Ensures.pure hstart
  · next hclass =>
    split
    · next hdropped =>
      refine Action.Ensures.pure ⟨rfl, ?_, fun m hm => .bootstrap ?_ hdropped hm⟩
      · rw [isDropped, Bool.and_eq_true, isTopLevel, Option.any_eq_true] at hdropped
        obtain ⟨⟨p, hp, _⟩, _⟩ := hdropped
        exact ht.linked.ne_root_of_link hp
      · rw [Pass.accepts, Option.any_eq_true] at haccepts
        obtain ⟨k, hk, hmem⟩ := haccepts
        rw [Tree.hasKind, hk, beq_iff_eq] at hclass
        simp only [rule, List.contains_iff_mem, List.mem_cons, List.not_mem_nil, or_false] at hmem
        rcases hmem with rfl | rfl
        · exact absurd rfl hclass
        · exact hk
    · exact Action.Ensures.pure hstart

lemma TestFiles.accounts : rule.Accounts fun oracle t n m => Discards oracle t n m rule := by
  intro oracle pass n w ht h _
  have hstart := Tree.Ledger.start h fun m => Discards oracle w.tree n m rule
  refine Action.Ensures.tree_bind ?_
  split
  · exact Action.Ensures.pure hstart
  · split
    · exact Action.Ensures.pure hstart
    · split
      · intro o w' hok
        cases hok
      · intro o w' hok
        cases hok
        exact hstart.setFlag n (by decide)

/-! ### Routes -/

namespace Routes

section building

variable (ht : t.Sound)
include ht

lemma ledger_buildMethods (httpMethods : List String) (h : t.Ledger gone w.tree spare) :
    (buildMethods httpMethods).Ensures w fun ids t' => t.Ledger gone t' (ids ++ spare) := by
  rw [buildMethods]
  split
  · exact Action.Ensures.pure h
  · have hitems : Action.Ensures (httpMethods.mapM fun (m : String) => do
        let value ← Action.add (.string (m.map Char.toUpper))
        Action.addWithChildren (.arrayItem false) [value]) w fun items t' =>
        t.Ledger gone t' (items.map id ++ spare) := by
      refine Action.ledger_mapM (fun _ => []) id (fun m w' spare' h' => ?_) _ _ ?_
      · exact (Action.ledger_add h' _).bind fun value w'' h'' =>
          Action.ledger_addWithChildren ht [value] h'' _
      · rwa [List.flatMap_eq_nil_iff.mpr fun _ _ => rfl, List.nil_append]
    refine hitems.bind fun items w₁ h₁ => (Action.ledger_add h₁ _).bind fun key w₂ h₂ => ?_
    rw [List.map_id] at h₂
    have h₂' := h₂.mono List.perm_middle.symm.subset
    refine (Action.ledger_addWithChildren ht items h₂' _).bind fun list w₃ h₃ => ?_
    have h₃' := h₃.mono (List.Perm.swap key list spare).subset
    refine (Action.ledger_addWithChildren ht [key, list] h₃' _).bind fun item w₄ h₄ => ?_
    exact Action.Ensures.pure h₄

lemma ledger_buildDocTag (route : Route) (h : t.Ledger gone w.tree spare) :
    (buildDocTag route).Ensures w fun id t' => t.Ledger gone t' (id :: spare) := by
  refine (Action.ledger_add h _).bind fun path w₁ h₁ => ?_
  refine (ledger_buildMethods ht route.httpMethods h₁).bind fun methods w₂ h₂ => ?_
  exact Action.ledger_addWithChildren ht (path :: methods) (h₂.mono List.perm_middle.subset) _

end building

lemma accounts (routes : List Route) :
    (rule routes).Accounts fun oracle t n m => Discards oracle t n m (rule routes) := by
  intro oracle pass n w ht h _
  have hstart := Tree.Ledger.start h fun m => Discards oracle w.tree n m (rule routes)
  refine Action.Ensures.tree_bind ?_
  split
  · exact Action.Ensures.pure hstart
  · refine Action.Ensures.require_bind (Action.Ensures.tree_bind ?_)
    split
    · exact Action.Ensures.update_bind (Action.Ensures.pure (hstart.setFlag n (by decide)))
    · split
      · exact Action.Ensures.pure hstart
      · next route _ =>
        refine (ledger_buildDocTag ht route hstart).bind fun tag w₁ h₁ => ?_
        refine Action.Ensures.edit_bind (fun t' hok => h₁.insertChild ht hok) fun w₂ h₂ => ?_
        exact Action.Ensures.update_bind (Action.Ensures.pure (h₂.setFlag n (by decide)))

end Routes

/-! ### Controls -/

namespace Controls

section gathering

variable (ht : t.Sound) {method file : NodeId} {out : List NodeId}
include ht

lemma ledger_buildVariables (assigned : List (String × NodeId))
    (h : t.Ledger gone w.tree (assigned.map (·.2) ++ spare)) :
    (buildVariables assigned).Ensures w fun ids t' => t.Ledger gone t' (ids ++ spare) := by
  rw [buildVariables]
  split
  · next hnone =>
    obtain rfl := List.isEmpty_iff.mp hnone
    exact Action.Ensures.pure h
  · refine (Action.ledger_addItems ht assigned spare h).bind fun items w₁ h₁ => ?_
    refine (Action.ledger_addWithChildren ht items h₁ _).bind fun array w₂ h₂ => ?_
    exact Action.Ensures.pure h₂

lemma ledger_buildReturn (assigned : List (String × NodeId))
    (h : t.Ledger gone w.tree (file :: assigned.map (·.2))) :
    (buildReturn file assigned).Ensures w fun id t' => t.Ledger gone t' [id] := by
  refine (Action.ledger_add h _).bind fun this w₁ h₁ => ?_
  have hperm : ([this, file] ++ assigned.map (·.2)).Perm (assigned.map (·.2) ++ [this, file]) :=
    List.perm_append_comm
  refine (ledger_buildVariables ht assigned (h₁.mono hperm.subset)).bind fun array w₂ h₂ => ?_
  have h₂' : t.Ledger gone w₂.tree ([this, file] ++ array ++ []) := by
    rw [List.append_nil]
    exact h₂.mono List.perm_append_comm.subset
  refine (Action.ledger_addWithChildren ht ([this, file] ++ array) h₂' _).bind fun call w₃ h₃ => ?_
  exact Action.ledger_addWithChildren ht [call] h₃ _

/-- A node that is to be used again is taken out. -/
lemma ledger_release {v : NodeId} (hv : v ∈ spare) (h : t.Ledger gone w.tree spare)
    (hpruned : t.Pruned out w.tree) :
    (release v).Ensures w fun _ t' => t.Ledger gone t' spare ∧ t.Pruned (v :: out) t' := by
  refine Action.Ensures.tree_bind ?_
  split
  · refine Action.Ensures.edit fun t' hok => ⟨(h.detach ht hok).mono ?_, ?_⟩
    · exact List.cons_subset.mpr ⟨hv, List.Subset.refl _⟩
    · exact hpruned.moved (Tree.shifted_detach (h.sound ht).linked hok).toMoved
  · next hfree => exact Action.Ensures.pure ⟨h, hpruned.widen hfree⟩

lemma ledger_releaseAll {assigned : List (String × NodeId)} (hsub : assigned.map Prod.snd ⊆ spare)
    (h : t.Ledger gone w.tree spare) (hpruned : t.Pruned out w.tree) :
    (assigned.forM fun (_, value) => release value).Ensures w fun _ t' =>
      t.Ledger gone t' spare ∧ ∃ out', assigned.map Prod.snd ⊆ out' ∧ out ⊆ out' ∧
        t.Pruned out' t' := by
  induction assigned generalizing w out with
  | nil => exact Action.Ensures.pure ⟨h, out, List.nil_subset _, List.Subset.refl _, hpruned⟩
  | cons entry assigned ih =>
    rw [List.map_cons, List.cons_subset] at hsub
    refine (ledger_release ht hsub.1 h hpruned).bind fun _ w₁ ⟨h₁, hpruned₁⟩ => ?_
    refine (ih hsub.2 h₁ hpruned₁).mono fun _ t' ⟨h', out', hvalues, hout, hpruned'⟩ => ?_
    rw [List.cons_subset] at hout
    exact ⟨h', out', List.cons_subset.mpr ⟨hout.1, hvalues⟩, hout.2, hpruned'⟩

/-- The template statements are removed after what they hand over has been taken out. -/
lemma ledger_removeAll (hout : ∀ v ∈ spare, ∃ st s, Hands t method st s v)
    (hgone : ∀ s ∈ (templateUse t method).statements, ∀ m, t.Reaches s m →
      (∀ v ∈ spare, ¬ t.Reaches v m) → gone m)
    (h : t.Ledger gone w.tree spare) (hsub : spare ⊆ out) (hpruned : t.Pruned out w.tree) :
    ((templateUse t method).statements.forM fun s =>
      Action.edit (Edit.removeChild method s)).Ensures w fun _ t' => t.Ledger gone t' spare := by
  have hloop := Action.Ensures.forM (w := w) (l := (templateUse t method).statements)
    (I := fun t' => t.Ledger gone t' spare ∧ ∃ out, spare ⊆ out ∧ t.Pruned out t')
    (f := fun s => Action.edit (Edit.removeChild method s)) ?_ ⟨h, out, hsub, hpruned⟩
  · exact hloop.mono fun _ t' h' => h'.1
  · rintro s hs w' ⟨h', out', hsub', hpruned'⟩
    refine Action.Ensures.edit fun t' hok => ⟨h'.removeChild ht hok fun m hm hlive => ?_, s :: out',
      List.subset_cons_of_subset s hsub',
      hpruned'.moved (Tree.shifted_removeChild (h'.sound ht).linked hok).toMoved⟩
    obtain ⟨hold, hclear⟩ := hpruned'.reaches ht.linked hm (t.lt_size_of_isLive hlive)
    refine hgone s hs m hold fun v hv hvm => ?_
    obtain ⟨_, _, hhands⟩ := hout v hv
    exact hhands.not_reaches_statement ht.linked (link_of_mem_statements ht.linked hs)
      (hclear v (hsub' hv) hvm)

lemma ledger_gather (h : t.Ledger gone w.tree []) (hw : w.tree = t)
    (hfile : (templateUse t method).file = some file)
    (hgone : ∀ s ∈ (templateUse t method).statements, ∀ m, t.Reaches s m →
      (∀ v ∈ file :: (templateUse t method).assigned.map (·.2), ¬ t.Reaches v m) → gone m) :
    (gather method (templateUse t method) file).Ensures w fun _ t' => t.Ledger gone t' [] := by
  have hpruned : t.Pruned [] w.tree := hw ▸ Tree.Pruned.refl t
  refine (ledger_releaseAll ht (List.subset_cons_self file _) (h.mono (List.nil_subset _))
    hpruned).bind fun _ w₁ ⟨h₁, out, hvalues, _, hpruned₁⟩ => ?_
  refine (ledger_release ht List.mem_cons_self h₁ hpruned₁).bind fun _ w₂ ⟨h₂, hpruned₂⟩ => ?_
  refine (ledger_removeAll ht (fun v hv => hands_of_mem ht.linked hfile hv) hgone h₂
    (List.cons_subset_cons file hvalues) hpruned₂).bind fun _ w₃ h₃ => ?_
  refine (ledger_buildReturn ht _ h₃).bind fun statement w₄ h₄ => ?_
  exact Action.Ensures.edit fun t' hok => h₄.pushChild ht hok

end gathering

lemma isSome_of_mem_statements {method s : NodeId}
    (hs : s ∈ (templateUse t method).statements) :
    s ∈ t.children method ∧ (templateStatement? t s).isSome = true := by
  rwa [templateUse, statements_foldl, List.nil_append, List.mem_filter] at hs

lemma accounts : rule.Accounts fun oracle t n m => Discards oracle t n m rule := by
  intro oracle pass n w ht h _
  have hstart := Tree.Ledger.start h fun m => Discards oracle w.tree n m rule
  refine Action.Ensures.require_bind (Action.Ensures.tree_bind ?_)
  split
  · next name parent interfaces hc =>
    split
    · next hcontrol =>
      split
      · next method hmethod =>
        dsimp only
        split
        · next file hfile =>
          refine (ledger_gather ht hstart rfl hfile fun s hs m hm hclear => ?_).bind
            fun _ w₁ h₁ => ?_
          · obtain ⟨hchild, hstatement⟩ := isSome_of_mem_statements hs
            refine .statement hc hcontrol hmethod hfile hchild hstatement hm
              (hclear file List.mem_cons_self) fun entry hentry => ?_
            exact hclear _ (List.mem_cons_of_mem file (List.mem_map_of_mem hentry))
          · have hlink := (ht.linked.mem_children_iff n method).mp
              (List.mem_of_find?_eq_some hmethod)
            refine Action.Ensures.update_bind (Action.Ensures.update_bind (Action.Ensures.pure ?_))
            exact (h₁.setConstruct ht (ht.linked.link_lt hlink).2 _).setConstruct ht
              (lt_size_of_construct? hc) _
        · exact Action.Ensures.pure hstart
      · exact Action.Ensures.pure hstart
    · exact Action.Ensures.pure hstart
  · exact Action.Ensures.pure hstart

end Controls

/-- Every migration accounts for what it discards. -/
lemma accounts_of_mem_all {routes : List Route} {r : Rule} (hr : r ∈ all routes) :
    r.Accounts fun oracle t n m => Discards oracle t n m r := by
  simp only [all, List.mem_cons, List.not_mem_nil, or_false] at hr
  rcases hr with rfl | rfl | rfl | rfl | rfl | rfl | rfl
  · exact Forms.accounts
  · exact Assertions.accounts
  · exact TestCases.accounts
  · exact RequestParameters.accounts
  · exact Controls.accounts
  · exact TestFiles.accounts
  · exact Routes.accounts routes

end Catalogue

end CodeMigration
