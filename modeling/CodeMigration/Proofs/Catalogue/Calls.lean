import CodeMigration.Proofs.Catalogue.Bench

/-!
# Migrations of calls

Assertions, reads of request parameters and forms are migrated without a failure on every tree.
-/

namespace CodeMigration

namespace Catalogue

variable {oracle : Oracle} {n : NodeId} {w : Workspace}

lemma tame_of_yields {r : Rule} {oracle' : Oracle} (hpre : r.order = .pre)
    (h : ∀ pass n (w : Workspace), w.tree.Sound → w.tree.Reaches w.tree.root n →
      Pass.accepts w.tree r n = true →
      (r.apply oracle' pass n).Yields w (WellConducted oracle w.tree n)) :
    r.Tame (gauge oracle) oracle' := by
  refine ⟨hpre, fun pass n w ht hn hacc => ?_⟩
  obtain ⟨o, w', hok, hspec⟩ := h pass n w ht hn hacc
  exact ⟨o, w', hok, hspec⟩

lemma ripe_of_construct {t : Tree} (ht : t.WellLinked) (hn : t.Reaches t.root n) {c : Construct}
    (hc : t.construct? n = some c) (hdue : isDue oracle (t.attributes.flag n .hasRoute) c = true) :
    ripe oracle t n = true :=
  ripe_iff.mpr ⟨ht.isLive_of_attached hn, c, hc, hdue⟩

lemma kind?_of_construct {t : Tree} {c : Construct} (hc : t.construct? n = some c) :
    t.kind? n = some c.kind := by
  rw [Tree.kind?, hc, Option.map_some]

lemma mem_of_lookup {β : Type} {l : List (String × β)} {key : String} {value : β}
    (h : l.lookup key = some value) : (key, value) ∈ l := by
  obtain ⟨l₁, l₂, rfl, _⟩ := List.lookup_eq_some_iff.mp h
  exact List.mem_append_right _ List.mem_cons_self

lemma inert_methodCall {name : String}
    (h : ((Forms.fieldType? name).isSome || name == "getParameter") = false) :
    Inert oracle (.methodCall name) := fun _ => h

/-! ### Assertions -/

namespace Assertions

lemma isAssertion_of_target? {t : Tree} {method : String} {target : Target}
    (h : target? oracle t n method = some target) : isAssertion method = true := by
  rw [target?] at h
  split at h
  · next hm => simp [isAssertion, hm]
  · split at h
    · next hm => simp [isAssertion, hm]
    · split at h
      · next hm => simp [isAssertion, hm]
      · obtain ⟨name, hname, _⟩ := Option.map_eq_some_iff.mp h
        simp [isAssertion, hname]

lemma isAssertion_of_table {l : List (String × String)} {key name : String}
    (hl : ∀ p ∈ l, isAssertion p.2 = false) (h : l.lookup key = some name) :
    isAssertion name = false :=
  hl _ (mem_of_lookup h)

lemma isAssertion_containsTarget {t : Tree} {arguments : List NodeId} {negated : Bool}
    {target : Target} (h : containsTarget? oracle t arguments negated = some target) :
    isAssertion target.method = false := by
  rw [containsTarget?] at h
  split at h
  · split at h
    · cases h
      cases negated <;> decide
    · split at h
      · cases h
        cases negated <;> decide
      · cases h
  · cases h

lemma isAssertion_typeTarget {t : Tree} {arguments : List NodeId} {target : Target}
    (h : typeTarget? t arguments = some target) : isAssertion target.method = false := by
  rw [typeTarget?] at h
  split at h
  · split at h
    · next hname =>
      cases h
      exact isAssertion_of_table (by decide) hname
    · cases h
      decide
  · split at h
    · cases h
      decide
    · cases h
  · cases h

/-- No target is an assertion to migrate. -/
lemma isAssertion_target {t : Tree} {method : String} {target : Target}
    (h : target? oracle t n method = some target) : isAssertion target.method = false := by
  rw [target?] at h
  split at h
  · exact isAssertion_containsTarget h
  · split at h
    · exact isAssertion_containsTarget h
    · split at h
      · exact isAssertion_typeTarget h
      · obtain ⟨name, hname, rfl⟩ := Option.map_eq_some_iff.mp h
        exact isAssertion_of_table (l := renames) (by decide) hname

/-- Dropping the first argument of a call. -/
lemma yields_dropFirst (ht : w.tree.Sound) (hn : w.tree.Reaches w.tree.root n) :
    (dropFirst n).Yields w fun _ t' => ∃ out, Bench oracle w.tree n t' out [] := by
  refine Action.Yields.tree_bind ?_
  split
  · next first hfirst =>
    have hlink := ht.linked.link_of_child? hfirst
    obtain ⟨t', hok, hb⟩ := (Bench.start oracle w.tree n).removeChild ht hn
      (Tree.Reaches.refl n) hlink (by simp)
    exact Action.Yields.edit hok ⟨_, hb⟩
  · exact Action.Yields.pure ⟨[], Bench.start oracle w.tree n⟩

/-- An assertion with a target is migrated. -/
lemma yields_retarget (ht : w.tree.Sound) (hn : w.tree.Reaches w.tree.root n)
    (hripe : ripe oracle w.tree n = true) (hkind : w.tree.kind? n = some .staticCall)
    {target : Target} (htarget : isAssertion target.method = false) :
    (retarget n target).Yields w (WellConducted oracle w.tree n) := by
  have hrewrite : ∀ w' : Workspace, (∃ out, Bench oracle w.tree n w'.tree out []) →
      (do
        Action.update (·.setConstruct n (.staticCall phpUnit target.method))
        return Outcome.mutated).Yields w' (WellConducted oracle w.tree n) := by
    rintro w' ⟨out, hb⟩
    refine Action.Yields.update_bind (Action.Yields.pure ?_)
    exact wellConducted_rewritten hb ht hn hripe _ hkind fun _ => htarget
  rw [retarget]
  split
  · exact (yields_dropFirst ht hn).bind fun _ w' hb => hrewrite w' hb
  · exact hrewrite w ⟨[], Bench.start oracle w.tree n⟩

lemma tame : rule.Tame (gauge oracle) oracle := by
  refine tame_of_yields rfl fun pass n w ht hn _ => ?_
  refine Action.Yields.require_bind (ht.linked.lt_size_of_reaches hn) (Action.Yields.tree_bind ?_)
  have hidle := wellConducted_refl oracle w.tree n
  split
  · next className method hc =>
    split
    · split
      · next target htarget =>
        refine yields_retarget ht hn ?_ (kind?_of_construct hc) (isAssertion_target htarget)
        exact ripe_of_construct ht.linked hn hc (isAssertion_of_target? htarget)
      · exact Action.Yields.pure hidle
    · exact Action.Yields.pure hidle
  · exact Action.Yields.pure hidle

end Assertions

/-! ### Request parameters -/

namespace RequestParameters

lemma yields_readAttribute (ht : w.tree.Sound) (hn : w.tree.Reaches w.tree.root n)
    (hripe : ripe oracle w.tree n = true) (hkind : w.tree.kind? n = some .methodCall)
    {receiver : NodeId} (hlink : w.tree.Link n receiver) :
    (readAttribute n receiver).Yields w (WellConducted oracle w.tree n) := by
  obtain ⟨t₁, hdetach, hb₁⟩ := (Bench.start oracle w.tree n).detach ht hn
    (Tree.Reaches.refl n) hlink (by simp)
  refine Action.Yields.edit_bind hdetach fun w₁ hw₁ => ?_
  subst hw₁
  refine (Bench.yields_addWithChildren ht [receiver] hb₁ fun _ => rfl).bind ?_
  rintro attributes w₂ ⟨_, hb₂⟩
  obtain ⟨t₃, hinsert, hb₃⟩ := hb₂.insertChild ht hn
  refine Action.Yields.edit_bind hinsert fun w₃ hw₃ => ?_
  subst hw₃
  refine Action.Yields.update_bind (Action.Yields.pure ?_)
  exact wellConducted_rewritten hb₃ ht hn hripe _ hkind (inert_methodCall (by decide))

lemma tame : rule.Tame (gauge oracle) oracle := by
  refine tame_of_yields rfl fun pass n w ht hn _ => ?_
  refine Action.Yields.require_bind (ht.linked.lt_size_of_reaches hn) (Action.Yields.tree_bind ?_)
  have hidle := wellConducted_refl oracle w.tree n
  split
  · next hreads =>
    split
    · next receiver hreceiver =>
      rw [readsParameter, Bool.and_eq_true, beq_iff_eq] at hreads
      have hdue : ((Forms.fieldType? "getParameter").isSome || "getParameter" == "getParameter") =
          true := by decide
      refine yields_readAttribute ht hn (ripe_of_construct ht.linked hn hreads.1 hdue)
        (kind?_of_construct hreads.1) ?_
      exact ht.linked.link_of_child? hreceiver
    · exact Action.Yields.pure hidle
  · exact Action.Yields.pure hidle

end RequestParameters

/-! ### Forms -/

namespace Forms

/-- A node with a class around it is not the root of a tree. -/
lemma exists_link_of_inPresenter {t : Tree} (ht : t.WellLinked)
    (h : inPresenter oracle t n = true) : ∃ p, t.Link p n := by
  rw [inPresenter, Option.any_eq_true] at h
  obtain ⟨c, hc, _⟩ := h
  cases hp : t.parent? n with
  | some p => exact ⟨p, hp⟩
  | none =>
    have habove : t.ancestors n = [] := Tree.WellLinked.ancestors_of_free hp
    rw [Tree.enclosingClass?, Tree.enclosing?, habove, List.find?_nil, Option.or_none,
      Option.filter_eq_some_iff] at hc
    obtain ⟨_, hc⟩ := hc
    rw [Bool.and_eq_true, Bool.and_eq_true, ht.isAncestorOrSelf_iff] at hc
    have heq : c = n := hc.1.2.eq_of_free hp
    simp [heq] at hc

lemma yields_replaceConstruction (ht : w.tree.Sound) (hn : w.tree.Reaches w.tree.root n)
    (hripe : ripe oracle w.tree n = true) {p : NodeId} (hlink : w.tree.Link p n) :
    (replaceConstruction n).Yields w (WellConducted oracle w.tree n) := by
  refine (Bench.yields_add ht (Bench.start oracle w.tree n) fun _ => rfl).bind ?_
  rintro this w₁ ⟨_, hb₁⟩
  refine (Bench.yields_addWithChildren ht [this] hb₁
    (inert_methodCall (by decide))).bind ?_
  rintro call w₂ ⟨hfresh, hb₂⟩
  refine Action.Yields.update_bind ?_
  have hb : Bench oracle w.tree n (w₂.tree.setAttribute call .processed (.flag true)) [] [call] :=
    hb₂.setFlag call .processed
  -- the place of the node is still there, and the call fits in
  have hp : w.tree.Reaches w.tree.root p := ht.linked.attached_of_link hlink hn
  have hplt : p < w.tree.size := ht.linked.lt_size_of_reaches hp
  have hpout : ¬ w.tree.Reaches n p := ht.linked.not_reaches_of_link hlink
  have hp' := (hb.frame.reaches_same ht.linked hplt hpout).mpr hp
  rw [← hb.root] at hp'
  have hattach := (hb.loose call List.mem_cons_self).attachable (hb.linked ht) hp'
  obtain ⟨t₃, hok, hedited, hroot, hsize, hfades, hparent⟩ := Tree.exists_replace (hb.linked ht)
    ((hb.place ht hn).trans hlink) ((hb.linked ht).isLive_of_attached (hb.attached ht hn)) hattach
  refine Action.Yields.edit_bind hok fun w₃ hw₃ => ?_
  subst hw₃
  have hmono : ∀ m, ripe oracle w₃.tree m = true → ripe oracle w.tree m = true :=
    fun m hm => hb.ripe m (ripe_of_fades hfades hm)
  have hframe : w.tree.Frame n w₃.tree := by
    refine ⟨hroot.trans hb.root, Nat.le_trans hb.size_le (Nat.le_of_eq hsize.symm), ?_⟩
    intro m hm hout
    have hmn : m ≠ n := by
      rintro rfl
      exact hout (Tree.Reaches.refl m)
    have hmc : m ≠ call := Nat.ne_of_lt (Nat.lt_of_lt_of_le hm hfresh)
    rw [hparent, if_neg hmn, if_neg hmc]
    exact hb.frame.parent? m hm hout
  refine Action.Yields.pure ⟨hb.edited.trans hedited, hmono, .replaced hripe ?_ hframe hfresh ?_⟩
  · rw [← Bool.not_eq_true]
    intro hcall
    have hlt := w.tree.lt_size_of_isLive (ripe_iff.mp (hmono call hcall)).1
    exact absurd hlt (Nat.not_lt.mpr hfresh)
  · have hcn : call ≠ n :=
      (Nat.ne_of_lt (Nat.lt_of_lt_of_le (ht.linked.lt_size_of_reaches hn) hfresh)).symm
    have hplace : w₃.tree.Link p call := by
      rw [Tree.Link, hparent, if_neg hcn, if_pos rfl]
    refine Tree.Reaches.trans ?_ hplace.reaches
    rw [hframe.root]
    exact (hframe.reaches_same ht.linked hplt hpout).mpr hp

lemma takeArguments_eq (kept arguments : List NodeId) :
    takeArguments n kept arguments = arguments.forM fun a =>
      if kept.contains a then Action.edit (Edit.detach n a)
      else Action.edit (Edit.removeChild n a) := by
  induction arguments with
  | nil => rfl
  | cons a arguments ih =>
    rw [takeArguments, ih, List.forM]
    split <;> rfl

/-- Arguments are taken out of a call; those that are kept lie loose. -/
lemma yields_takeArguments {t : Tree} (ht : t.Sound) (hn : t.Reaches t.root n)
    (kept : List NodeId) {arguments : List NodeId} (hnodup : arguments.Nodup)
    (hlinks : ∀ a ∈ arguments, t.Link n a) (hb : Bench oracle t n w.tree [] []) :
    (takeArguments n kept arguments).Yields w fun _ t' =>
      Bench oracle t n t' arguments (arguments.filter kept.contains) := by
  rw [takeArguments_eq]
  refine Action.Yields.mono (Bench.yields_forM id (fun a => [a].filter kept.contains) ?_ ?_ hb) ?_
  · intro a ha w' out spare hclear hb'
    rw [List.filter_singleton]
    split
    · next hkept =>
      obtain ⟨t', hok, hb''⟩ := hb'.detach ht hn (Tree.Reaches.refl n) (hlinks a ha) hclear
      rw [hkept]
      exact Action.Yields.edit hok hb''
    · next hkept =>
      obtain ⟨t', hok, hb''⟩ := hb'.removeChild ht hn (Tree.Reaches.refl n) (hlinks a ha) hclear
      rw [Bool.not_eq_true] at hkept
      rw [hkept]
      exact Action.Yields.edit hok hb''
  · rw [List.map_id]
    exact Tree.apart_of_pairwise (ht.linked.pairwise_siblings hnodup hlinks) (by simp)
  · intro _ t' hb'
    rwa [List.map_id, List.append_nil, List.append_nil, ← List.filter_flatMap,
      List.flatMap_singleton'] at hb'

/-- What is filtered for the elements of a part is that part. -/
lemma filter_contains_perm {l kept : List NodeId} (hl : l.Nodup) (hkept : kept.Sublist l) :
    (l.filter kept.contains).Perm kept := by
  rw [List.perm_ext_iff_of_nodup (hl.filter _) (hl.sublist hkept)]
  intro a
  rw [List.mem_filter, List.contains_iff_mem]
  exact ⟨And.right, fun ha => ⟨hkept.subset ha, ha⟩⟩

/-- The label and the choices stand right behind the name of a field. -/
lemma kept_sublist (arguments : List NodeId) (isChoice : Bool) :
    (arguments[1]?.toList ++ (if isChoice then arguments[2]? else none).toList).Sublist
      (arguments.drop 1) := by
  match arguments with
  | [] | [_] => cases isChoice <;> simp
  | [_, a] => cases isChoice <;> simp
  | _ :: a :: b :: rest => cases isChoice <;> simp

section fields

variable {t : Tree} (ht : t.Sound) (hn : t.Reaches t.root n) {out spare : List NodeId}
include ht

/-- The fixed options are new literals. -/
lemma yields_fixed (options : List (String × Bool)) (hb : Bench oracle t n w.tree out spare) :
    (options.mapM fun (key, value) => do
        return (key, ← Action.add (.bool value)) : Action (List (String × NodeId))).Yields w
      fun fixed t' => Bench oracle t n t' out (fixed.map (·.2) ++ spare) := by
  refine Bench.yields_mapM (fun _ => []) Prod.snd (fun option w' spare' hb' => ?_) options spare ?_
  · refine (Bench.yields_add ht hb' fun _ => rfl).bind fun id w'' hid => ?_
    exact Action.Yields.pure hid.2
  · rwa [List.flatMap_eq_nil_iff.mpr fun _ _ => rfl, List.nil_append]

include hn

lemma yields_pushOptions (hout : ∀ o ∈ out, t.Link n o) {options : List (String × NodeId)}
    (hb : Bench oracle t n w.tree out (options.map (·.2))) :
    (pushOptions n options).Yields w fun _ t' => Bench oracle t n t' out [] := by
  rw [pushOptions]
  split
  · next hnone =>
    obtain rfl := List.isEmpty_iff.mp hnone
    exact Action.Yields.pure hb
  · refine (Bench.yields_addItems ht options [] (by simpa using hb)).bind ?_
    intro items w' hitems
    refine (Bench.yields_addWithChildren ht items hitems fun _ => rfl).bind ?_
    rintro array w'' ⟨_, harray⟩
    obtain ⟨t', hok, hb'⟩ := harray.pushChild ht hn (Tree.Reaches.refl n) fun o ho =>
      ht.linked.not_reaches_of_link (hout o ho)
    exact Action.Yields.edit hok hb'

end fields

lemma yields_foldField (ht : w.tree.Sound) (hn : w.tree.Reaches w.tree.root n)
    (hripe : ripe oracle w.tree n = true) (hkind : w.tree.kind? n = some .methodCall)
    (method type : String) {arguments : List NodeId}
    (hnodup : arguments.Nodup) (hlinks : ∀ a ∈ arguments, w.tree.Link n a) :
    (foldField n method type arguments).Yields w (WellConducted oracle w.tree n) := by
  have hdrop : (arguments.drop 1).Nodup := hnodup.sublist (List.drop_sublist 1 arguments)
  have hkept := kept_sublist arguments (choiceOptions? method).isSome
  refine (yields_takeArguments ht hn _ hdrop (fun a ha => hlinks a (List.mem_of_mem_drop ha))
    (Bench.start oracle w.tree n)).bind fun _ w₁ hb₁ => ?_
  have hout : ∀ o ∈ arguments.drop 1, w.tree.Link n o :=
    fun o ho => hlinks o (List.mem_of_mem_drop ho)
  have hb₁' := hb₁.perm (filter_contains_perm hdrop hkept)
  refine (yields_fixed ht (fixedOptions method) hb₁').bind fun fixed w₂ hb₂ => ?_
  refine (Bench.yields_add ht hb₂ fun _ => rfl).bind ?_
  rintro typeRef w₃ ⟨_, hb₃⟩
  obtain ⟨t₄, hpush, hb₄⟩ := hb₃.pushChild ht hn (Tree.Reaches.refl n) fun o ho =>
    ht.linked.not_reaches_of_link (hout o ho)
  refine Action.Yields.edit_bind hpush fun w₄ hw₄ => ?_
  subst hw₄
  refine (yields_pushOptions ht hn hout (hb₄.perm ?_)).bind fun _ w₅ hb₅ => ?_
  · rw [List.map_append, List.map_append, List.map_map, List.map_map]
    simp only [Function.comp_def, List.map_id']
    exact List.perm_append_comm
  refine Action.Yields.update_bind (Action.Yields.update_bind (Action.Yields.pure ?_))
  have hdone := wellConducted_rewritten hb₅ ht hn hripe (.methodCall "add") hkind
    (inert_methodCall (by decide))
  exact hdone.setFlag n _

lemma tame : rule.Tame (gauge oracle) oracle := by
  refine tame_of_yields rfl fun pass n w ht hn _ => Action.Yields.tree_bind ?_
  have hidle := wellConducted_refl oracle w.tree n
  split
  · exact Action.Yields.pure hidle
  · refine Action.Yields.require_bind (ht.linked.lt_size_of_reaches hn)
      (Action.Yields.tree_bind ?_)
    split
    · exact Action.Yields.pure hidle
    · next hpresenter =>
      rw [Bool.not_eq_true', Bool.not_eq_false] at hpresenter
      split
      · next name hc =>
        split
        · next hform =>
          obtain ⟨p, hlink⟩ := exists_link_of_inPresenter ht.linked hpresenter
          exact yields_replaceConstruction ht hn (ripe_of_construct ht.linked hn hc hform) hlink
        · exact Action.Yields.pure hidle
      · next method hc =>
        split
        · next type htype =>
          split
          · have hdue : ((fieldType? method).isSome || method == "getParameter") = true := by
              rw [htype]
              rfl
            have harguments : w.tree.arguments n = (w.tree.children n).drop 1 := by
              rw [Tree.arguments, Tree.kind?, hc]
              rfl
            refine yields_foldField ht hn (ripe_of_construct ht.linked hn hc hdue)
              (kind?_of_construct hc) method type ?_ ?_
            · rw [harguments]
              exact (ht.linked.nodup_children n).sublist (List.drop_sublist _ _)
            · rw [harguments]
              exact fun a ha => (ht.linked.mem_children_iff n a).mp (List.mem_of_mem_drop ha)
          · exact Action.Yields.pure hidle
        · exact Action.Yields.pure hidle
      · exact Action.Yields.pure hidle

end Forms

end Catalogue

end CodeMigration
