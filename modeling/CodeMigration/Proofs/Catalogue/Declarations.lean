import CodeMigration.Proofs.Catalogue.Calls
import CodeMigration.Proofs.Tree.Validate

/-!
# Migrations of declarations

Test cases, test files, routes and controls are migrated without a failure on every tree. The new
parent of a class must not itself be a control for the oracle, or the class would be due again.
-/

namespace CodeMigration

namespace Catalogue

variable {oracle : Oracle} {n : NodeId} {w : Workspace}

/-- A class is settled once its parent is neither the tester's test case nor a control. -/
lemma inert_classDecl {parent : String} (hnormal : ClassName.normalize parent = parent)
    (hcase : ClassName.same parent TestCases.testerCase = false)
    (hcontrol : ClassName.same parent Controls.control = false)
    (hsub : oracle.isSubtype parent Controls.control = false) (name : String)
    (interfaces : List String) : Inert oracle (.classDecl name (some parent) interfaces) := by
  intro routed
  rw [isDue, Controls.isControl, hnormal, hcase, hcontrol, hsub, Bool.false_and]
  rfl

lemma exists_method {t : Tree} (hkind : t.kind? n = some .method) :
    ∃ name, t.construct? n = some (.method name) := by
  obtain ⟨c, hc, hck⟩ := Option.map_eq_some_iff.mp hkind
  cases c <;> cases hck
  exact ⟨_, hc⟩

lemma kind?_of_accepts {t : Tree} {r : Rule} {k : Kind} (hkinds : r.kinds = [k])
    (h : Pass.accepts t r n = true) : t.kind? n = some k := by
  rw [Pass.accepts, Option.any_eq_true] at h
  obtain ⟨k', hk', hmem⟩ := h
  rw [hkinds, List.contains_iff_mem, List.mem_singleton] at hmem
  rw [hk', hmem]

/-! ### Test cases -/

namespace TestCases

lemma yields_applyToClass (hsub : oracle.isSubtype phpUnitCase Controls.control = false)
    (ht : w.tree.Sound) (hn : w.tree.Reaches w.tree.root n) :
    (applyToClass w.tree n).Yields w (WellConducted oracle w.tree n) := by
  have hidle := wellConducted_refl oracle w.tree n
  rw [applyToClass]
  split
  · next name parent interfaces hc =>
    split
    · next hcase =>
      refine Action.Yields.update_bind (Action.Yields.update_bind (Action.Yields.pure ?_))
      have hdue : ∀ routed, isDue oracle routed (.classDecl name (some parent) interfaces) = true :=
        fun _ => by rw [isDue, hcase, Bool.true_or]
      have hkind : w.tree.kind? n = some .classDecl := kind?_of_construct hc
      have hdone := wellConducted_rewritten (Bench.start oracle w.tree n) ht hn
        (ripe_of_construct ht.linked hn hc (hdue _)) (.classDecl name (some phpUnitCase) interfaces)
        hkind (inert_classDecl (by decide) (by decide) (by decide) hsub _ _)
      exact hdone.setFlag n _
    · exact Action.Yields.pure hidle
  · exact Action.Yields.pure hidle

/-- What a class declaration is due for may be read off from another oracle. -/
lemma tame {oracle' : Oracle} (hsub : oracle.isSubtype phpUnitCase Controls.control = false) :
    rule.Tame (gauge oracle) oracle' := by
  refine tame_of_yields rfl fun pass n w ht hn _ => ?_
  refine Action.Yields.require_bind (ht.linked.lt_size_of_reaches hn) (Action.Yields.tree_bind ?_)
  split
  · exact yields_applyToClass hsub ht hn
  · split
    · next hdropped =>
      rw [isDropped, Bool.and_eq_true, isTopLevel, Option.any_eq_true] at hdropped
      obtain ⟨⟨p, hp, _⟩, _⟩ := hdropped
      have hplace : w.tree.parent? n ≠ none := by
        rw [hp]
        exact Option.some_ne_none p
      refine Action.Yields.pure ⟨Tree.Edited.refl w.tree, fun _ h => h, ?_⟩
      exact .removed (Tree.Kept.refl w.tree) rfl hplace
    · exact Action.Yields.pure (wellConducted_refl oracle w.tree n)

end TestCases

/-! ### Test files -/

namespace TestFiles

lemma exists_content {t : Tree} (ht : t.WellLinked) : ∃ text, content t = .ok text := by
  rw [content]
  split
  · next source _ => exact ⟨source, rfl⟩
  · rw [Tree.listing, ht.validate_eq_ok]
    exact ⟨_, rfl⟩

lemma tame : rule.Tame (gauge oracle) oracle := by
  refine tame_of_yields rfl fun pass n w ht hn _ => Action.Yields.tree_bind ?_
  have hidle := wellConducted_refl oracle w.tree n
  split
  · exact Action.Yields.pure hidle
  · split
    · exact Action.Yields.pure hidle
    · next path _ =>
      obtain ⟨text, htext⟩ := exists_content ht.linked
      simp only [htext]
      exact ⟨.unchanged, _, rfl, wellConducted_setFlag oracle w.tree n .processed⟩

end TestFiles

/-! ### Routes -/

namespace Routes

section building

variable {t : Tree} (ht : t.Sound) {out spare : List NodeId}
include ht

/-- The request methods become items without keys. -/
lemma yields_items (httpMethods : List String) (hb : Bench oracle t n w.tree out spare) :
    (httpMethods.mapM fun (m : String) => do
        let value ← Action.add (.string (m.map Char.toUpper))
        Action.addWithChildren (.arrayItem false) [value]).Yields w fun items t' =>
      Bench oracle t n t' out (items ++ spare) := by
  refine Action.Yields.mono (P := fun items t' => Bench oracle t n t' out (items.map id ++ spare))
    (Bench.yields_mapM (fun _ => []) id (fun m w' spare' hb' => ?_) httpMethods spare ?_)
    fun items t' hitems => ?_
  · refine (Bench.yields_add ht hb' fun _ => rfl).bind fun value w'' hvalue => ?_
    refine (Bench.yields_addWithChildren ht [value] hvalue.2 fun _ => rfl).mono ?_
    exact fun id t' hid => hid.2
  · rwa [List.flatMap_eq_nil_iff.mpr fun _ _ => rfl, List.nil_append]
  · rwa [List.map_id] at hitems

lemma yields_buildMethods (httpMethods : List String)
    (hb : Bench oracle t n w.tree out spare) :
    (buildMethods httpMethods).Yields w fun ids t' =>
      Bench oracle t n t' out (ids ++ spare) := by
  rw [buildMethods]
  split
  · exact Action.Yields.pure hb
  · refine (yields_items ht httpMethods hb).bind fun items w₁ hitems => ?_
    refine (Bench.yields_add ht hitems fun _ => rfl).bind fun key w₂ hkey => ?_
    have hkey' := hkey.2.perm List.perm_middle.symm
    refine (Bench.yields_addWithChildren ht items hkey' fun _ => rfl).bind fun list w₃ hlist => ?_
    have hlist' := hlist.2.perm (List.Perm.swap key list spare)
    refine (Bench.yields_addWithChildren ht [key, list] hlist' fun _ => rfl).bind ?_
    exact fun item w₄ hitem => Action.Yields.pure hitem.2

lemma yields_buildDocTag (route : Route) (hb : Bench oracle t n w.tree out spare) :
    (buildDocTag route).Yields w fun id t' => Bench oracle t n t' out (id :: spare) := by
  refine (Bench.yields_add ht hb fun _ => rfl).bind fun path w₁ hpath => ?_
  refine (yields_buildMethods ht route.httpMethods hpath.2).bind fun methods w₂ hmethods => ?_
  have hmethods' := hmethods.perm List.perm_middle
  refine (Bench.yields_addWithChildren ht (path :: methods) hmethods' fun _ => rfl).mono ?_
  exact fun id t' hid => hid.2

end building

/-- A method is settled once it is known to carry a route. -/
lemma ripe_setFlag {t : Tree} (hkind : t.kind? n = some .method) :
    ripe oracle (t.setAttribute n .hasRoute (.flag true)) n = false := by
  have hflag : (t.setAttribute n .hasRoute (.flag true)).attributes.flag n .hasRoute = true := by
    show (t.attributes.set n .hasRoute (.flag true)).flag n .hasRoute = true
    rw [Attributes.flag, Attributes.get?_set, if_pos ⟨rfl, rfl⟩]
    rfl
  rw [← Bool.not_eq_true, ripe_iff, hflag]
  rintro ⟨_, c, hc, hdue⟩
  obtain ⟨name, hname⟩ := exists_method hkind
  obtain rfl : Construct.method name = c := Option.some.inj (hname.symm.trans hc)
  cases hdue

lemma tame (routes : List Route) : (rule routes).Tame (gauge oracle) oracle := by
  refine tame_of_yields rfl fun pass n w ht hn haccepts => Action.Yields.tree_bind ?_
  have hidle := wellConducted_refl oracle w.tree n
  split
  · exact Action.Yields.pure hidle
  · next hflag =>
    refine Action.Yields.require_bind (ht.linked.lt_size_of_reaches hn)
      (Action.Yields.tree_bind ?_)
    split
    · refine Action.Yields.update_bind (Action.Yields.pure ?_)
      exact wellConducted_setFlag oracle w.tree n .hasRoute
    · split
      · exact Action.Yields.pure hidle
      · next route _ =>
        have hkind : w.tree.kind? n = some .method := kind?_of_accepts rfl haccepts
        refine (yields_buildDocTag ht route (Bench.start oracle w.tree n)).bind fun tag w₁ hb₁ => ?_
        obtain ⟨t₂, hinsert, hb₂⟩ := hb₁.insertChild ht hn
        refine Action.Yields.edit_bind hinsert fun w₂ hw₂ => ?_
        subst hw₂
        refine Action.Yields.update_bind (Action.Yields.pure ?_)
        refine wellConducted_mutated (hb₂.setFlag n .hasRoute) ht hn ?_ (ripe_setFlag ?_)
        · obtain ⟨name, hname⟩ := exists_method hkind
          refine ripe_of_construct ht.linked hn hname ?_
          rwa [isDue, Bool.not_eq_true', ← Bool.not_eq_true]
        · rw [hb₂.kinds n (ht.linked.lt_size_of_reaches hn), hkind]

end Routes

/-! ### Controls -/

namespace Controls

section usage

variable {t : Tree} (ht : t.WellLinked) {method : NodeId}

/-- The node that a statement about the template hands over. -/
def TemplateStatement.part? : TemplateStatement → Option NodeId
  | .assign _ value => some value
  | .display file => file

/-- The variable that a statement assigns, with its value. -/
def assigned? (t : Tree) (statement : NodeId) : Option (String × NodeId) :=
  match templateStatement? t statement with
  | some (.assign name value) => some (name, value)
  | _ => none

/-- A statement of a method that hands a node over. -/
structure Hands (t : Tree) (method : NodeId) (st : TemplateStatement) (s v : NodeId) : Prop where
  link : t.Link method s
  statement : templateStatement? t s = some st
  part : st.part? = some v

lemma hands_of_assigned? {s : NodeId} {entry : String × NodeId} (hlink : t.Link method s)
    (h : assigned? t s = some entry) : Hands t method (.assign entry.1 entry.2) s entry.2 := by
  rw [assigned?] at h
  split at h
  · next name value hs =>
    cases h
    exact ⟨hlink, hs, rfl⟩
  · cases h

lemma assigned_add (u : TemplateUse) (s : NodeId) :
    (u.add t s).assigned = u.assigned ++ (assigned? t s).toList := by
  rw [TemplateUse.add, assigned?]
  split <;> simp [*]

lemma statements_add (u : TemplateUse) (s : NodeId) :
    (u.add t s).statements =
      u.statements ++ [s].filter fun s => (templateStatement? t s).isSome := by
  rw [TemplateUse.add, List.filter_singleton]
  split
  · next hs => rw [hs]; rfl
  · next hs => rw [hs]; rfl
  · next hs => rw [hs, Option.isSome_none, cond_false, List.append_nil]

lemma file_add {u : TemplateUse} {s file : NodeId} (h : (u.add t s).file = some file) :
    u.file = some file ∨ templateStatement? t s = some (.display (some file)) := by
  rw [TemplateUse.add] at h
  split at h
  · exact Or.inl h
  · next shown hs =>
    cases shown with
    | none => exact Or.inl h
    | some shown =>
      obtain rfl : shown = file := Option.some.inj h
      exact Or.inr hs
  · exact Or.inl h

lemma assigned_foldl (l : List NodeId) (u : TemplateUse) :
    (l.foldl (fun u s => u.add t s) u).assigned = u.assigned ++ l.filterMap (assigned? t) := by
  induction l generalizing u with
  | nil => simp
  | cons s l ih =>
    rw [List.foldl_cons, ih, assigned_add, List.append_assoc, List.filterMap_cons]
    cases assigned? t s <;> rfl

lemma statements_foldl (l : List NodeId) (u : TemplateUse) :
    (l.foldl (fun u s => u.add t s) u).statements =
      u.statements ++ l.filter fun s => (templateStatement? t s).isSome := by
  induction l generalizing u with
  | nil => simp
  | cons s l ih =>
    rw [List.foldl_cons, ih, statements_add, List.append_assoc, ← List.filter_append,
      List.singleton_append]

lemma file_foldl {l : List NodeId} {u : TemplateUse} {file : NodeId}
    (h : (l.foldl (fun u s => u.add t s) u).file = some file) :
    u.file = some file ∨ ∃ s ∈ l, templateStatement? t s = some (.display (some file)) := by
  induction l generalizing u with
  | nil => exact Or.inl h
  | cons s l ih =>
    rcases ih h with h | ⟨s', hs', h⟩
    · rcases file_add h with h | h
      · exact Or.inl h
      · exact Or.inr ⟨s, List.mem_cons_self, h⟩
    · exact Or.inr ⟨s', List.mem_cons_of_mem s hs', h⟩

include ht

omit ht in
lemma kind?_of_templateStatement? {s : NodeId} {st : TemplateStatement}
    (hs : templateStatement? t s = some st) : t.kind? s = some .expression := by
  rw [templateStatement?] at hs
  split at hs
  · next hkind => simpa [Tree.hasKind] using hkind
  · cases hs

/-- The node handed over stands two levels below the statement. -/
lemma exists_link_of_part {s v : NodeId} {st : TemplateStatement}
    (hs : templateStatement? t s = some st) (hv : st.part? = some v) :
    ∃ e, t.Link s e ∧ t.Link e v ∧
      (t.kind? e = some .assignment ∨ t.kind? e = some .methodCall) := by
  rw [templateStatement?] at hs
  split at hs
  · split at hs
    · next e he =>
      refine ⟨e, ht.link_of_child? he, ?_⟩
      split at hs
      · next hc =>
        split at hs
        · next target value _ hvalue =>
          split at hs
          · split at hs
            · cases hs
              cases hv
              exact ⟨ht.link_of_child? hvalue, Or.inl (kind?_of_construct hc)⟩
            · cases hs
          · cases hs
        · cases hs
      · next hc =>
        split at hs
        · cases hs
          exact ⟨ht.link_of_child? hv, Or.inr (kind?_of_construct hc)⟩
        · cases hs
      · cases hs
    · cases hs
  · cases hs

namespace Hands

variable {s s' v v' : NodeId} {st st' : TemplateStatement}

lemma below (h : Hands t method st s v) (hm : t.Reaches n method) :
    ∃ p, t.Reaches n p ∧ t.Link p v := by
  obtain ⟨e, hse, hev, _⟩ := exists_link_of_part ht h.statement h.part
  exact ⟨e, hm.trans (h.link.reaches.trans hse.reaches), hev⟩

lemma reaches (h : Hands t method st s v) : t.Reaches s v := by
  obtain ⟨e, hse, hev, _⟩ := exists_link_of_part ht h.statement h.part
  exact hse.reaches.trans hev.reaches

/-- What two statements of a method hand over is apart. -/
lemma not_reaches (h : Hands t method st s v) (h' : Hands t method st' s' v') (hne : s ≠ s') :
    ¬ t.Reaches v v' :=
  fun hvv => hne (ht.eq_of_siblings h.link h'.link ((h.reaches ht).trans hvv) (h'.reaches ht))

/-- What a statement hands over leads to no statement of the method. -/
lemma not_reaches_statement (h : Hands t method st s v) (hlink : t.Link method s') :
    ¬ t.Reaches v s' := by
  intro hvs
  obtain ⟨e, hse, hev, _⟩ := exists_link_of_part ht h.statement h.part
  obtain rfl := ht.eq_of_siblings h.link hlink ((h.reaches ht).trans hvs) (Tree.Reaches.refl s')
  exact ht.not_reaches_of_link hse (hev.reaches.trans hvs)

end Hands

/-- The values that a method assigns are apart. -/
lemma pairwise_assigned :
    ((templateUse t method).assigned.map (·.2)).Pairwise fun a b => ¬ t.Reaches a b := by
  rw [templateUse, assigned_foldl, List.nil_append, List.pairwise_map, List.pairwise_filterMap]
  refine (ht.nodup_children method).imp_of_mem fun {s s'} hs hs' hne entry h entry' h' => ?_
  exact (hands_of_assigned? ((ht.mem_children_iff _ _).mp hs) h).not_reaches ht
    (hands_of_assigned? ((ht.mem_children_iff _ _).mp hs') h') hne

lemma hands_of_mem_assigned {v : NodeId} (hv : v ∈ (templateUse t method).assigned.map (·.2)) :
    ∃ s name, Hands t method (.assign name v) s v := by
  obtain ⟨entry, hentry, rfl⟩ := List.mem_map.mp hv
  rw [templateUse, assigned_foldl, List.nil_append] at hentry
  obtain ⟨s, hs, h⟩ := List.mem_filterMap.mp hentry
  exact ⟨s, entry.1, hands_of_assigned? ((ht.mem_children_iff _ _).mp hs) h⟩

lemma hands_of_file {file : NodeId} (hfile : (templateUse t method).file = some file) :
    ∃ s, Hands t method (.display (some file)) s file := by
  rcases file_foldl hfile with h | ⟨s, hs, h⟩
  · cases h
  · exact ⟨s, (ht.mem_children_iff _ _).mp hs, h, rfl⟩

lemma hands_of_mem {file v : NodeId} (hfile : (templateUse t method).file = some file)
    (hv : v ∈ file :: (templateUse t method).assigned.map (·.2)) :
    ∃ st s, Hands t method st s v := by
  rcases List.mem_cons.mp hv with rfl | hv
  · obtain ⟨s, hs⟩ := hands_of_file ht hfile
    exact ⟨_, s, hs⟩
  · obtain ⟨s, _, hs⟩ := hands_of_mem_assigned ht hv
    exact ⟨_, s, hs⟩

/-- The file is apart from the values. -/
lemma not_reaches_file {file v : NodeId} (hfile : (templateUse t method).file = some file)
    (hv : v ∈ (templateUse t method).assigned.map (·.2)) : ¬ t.Reaches v file := by
  obtain ⟨s, hs⟩ := hands_of_file ht hfile
  obtain ⟨s', name, hs'⟩ := hands_of_mem_assigned ht hv
  refine hs'.not_reaches ht hs ?_
  rintro rfl
  cases hs.statement.symm.trans hs'.statement

lemma nodup_statements : (templateUse t method).statements.Nodup := by
  rw [templateUse, statements_foldl, List.nil_append]
  exact (ht.nodup_children method).filter _

lemma link_of_mem_statements {s : NodeId} (hs : s ∈ (templateUse t method).statements) :
    t.Link method s := by
  rw [templateUse, statements_foldl, List.nil_append] at hs
  exact (ht.mem_children_iff _ _).mp (List.mem_of_mem_filter hs)

omit ht in
lemma kind?_of_mem_statements {s : NodeId} (hs : s ∈ (templateUse t method).statements) :
    t.kind? s = some .expression := by
  rw [templateUse, statements_foldl, List.nil_append, List.mem_filter] at hs
  obtain ⟨st, hst⟩ := Option.isSome_iff_exists.mp hs.2
  exact kind?_of_templateStatement? hst

end usage

section gathering

variable {t : Tree} (ht : t.Sound) (hn : t.Reaches t.root n) {method : NodeId}
  {out spare : List NodeId}
include ht

lemma yields_buildVariables (assigned : List (String × NodeId))
    (hb : Bench oracle t n w.tree out (assigned.map (·.2) ++ spare)) :
    (buildVariables assigned).Yields w fun ids t' => Bench oracle t n t' out (ids ++ spare) := by
  rw [buildVariables]
  split
  · next hnone =>
    obtain rfl := List.isEmpty_iff.mp hnone
    exact Action.Yields.pure hb
  · refine (Bench.yields_addItems ht assigned spare hb).bind fun items w₁ hitems => ?_
    refine (Bench.yields_addWithChildren ht items hitems fun _ => rfl).bind
      fun array w₂ harray => ?_
    exact Action.Yields.pure harray.2

lemma yields_buildReturn {file : NodeId} (assigned : List (String × NodeId))
    (hb : Bench oracle t n w.tree out (assigned.map (·.2) ++ [file])) :
    (buildReturn file assigned).Yields w fun id t' => Bench oracle t n t' out [id] := by
  refine (Bench.yields_add ht hb fun _ => rfl).bind fun this w₁ hthis => ?_
  refine (yields_buildVariables ht assigned (hthis.2.perm List.perm_middle.symm)).bind ?_
  intro array w₂ harray
  have harray' : Bench oracle t n w₂.tree out ([this, file] ++ array ++ []) := by
    rw [List.append_nil]
    exact harray.perm List.perm_append_comm
  refine (Bench.yields_addWithChildren ht ([this, file] ++ array) harray'
    (inert_methodCall (by decide))).bind fun call w₃ hcall => ?_
  exact (Bench.yields_addWithChildren ht [call] hcall.2 fun _ => rfl).mono fun id t' hid => hid.2

include hn

lemma yields_release {p v : NodeId} (hp : t.Reaches n p) (hlink : t.Link p v)
    (hclear : ∀ o ∈ out, ¬ t.Reaches o v) (hb : Bench oracle t n w.tree out spare) :
    (release v).Yields w fun _ t' => Bench oracle t n t' (v :: out) ([v] ++ spare) := by
  obtain ⟨hlink', _⟩ := hb.child ht hn hp hlink hclear
  obtain ⟨t', hok, hb'⟩ := hb.detach ht hn hp hlink hclear
  refine Action.Yields.tree_bind ?_
  rw [hlink']
  exact Action.Yields.edit hok hb'

/-- The values of a method are taken out and lie loose. -/
lemma yields_releaseAll (hm : t.Link n method) (hb : Bench oracle t n w.tree [] []) :
    ((templateUse t method).assigned.forM fun (_, value) => release value).Yields w fun _ t' =>
      Bench oracle t n t' ((templateUse t method).assigned.map Prod.snd)
        ((templateUse t method).assigned.map Prod.snd) := by
  refine Action.Yields.mono (Bench.yields_forM Prod.snd (fun entry => [entry.2]) ?_ ?_ hb) ?_
  · intro entry hentry w' out spare hclear hb'
    have hvalue := List.mem_map_of_mem (f := Prod.snd) hentry
    obtain ⟨_, _, hv⟩ := hands_of_mem_assigned ht.linked hvalue
    obtain ⟨q, hq, hqv⟩ := hv.below ht.linked hm.reaches
    exact yields_release ht hn hq hqv hclear hb'
  · exact Tree.apart_of_pairwise (pairwise_assigned ht.linked) (by simp)
  · intro _ t' hb'
    rwa [List.append_nil, List.append_nil, ← List.map_eq_flatMap] at hb'

/-- The template statements of a method are removed after what they hand over has been taken out. -/
lemma yields_removeAll (hm : t.Link n method) (hout : ∀ v ∈ out, ∃ st s, Hands t method st s v)
    (hb : Bench oracle t n w.tree out spare) :
    ((templateUse t method).statements.forM fun s =>
      Action.edit (Edit.removeChild method s)).Yields w
        fun _ t' => Bench oracle t n t' ((templateUse t method).statements ++ out) spare := by
  have hlinks : ∀ s ∈ (templateUse t method).statements, t.Link method s :=
    fun s hs => link_of_mem_statements ht.linked hs
  refine Action.Yields.mono (Bench.yields_forM id (fun _ => []) ?_ ?_ hb) ?_
  · intro s hs w' out spare hclear hb'
    obtain ⟨t', hok, hb''⟩ := hb'.removeChild ht hn hm.reaches (hlinks s hs) hclear
    exact Action.Yields.edit hok hb''
  · rw [List.map_id]
    refine Tree.apart_of_pairwise (ht.linked.pairwise_siblings (nodup_statements ht.linked) hlinks)
      fun s hs v hv => ?_
    obtain ⟨_, _, hv'⟩ := hout v hv
    exact hv'.not_reaches_statement ht.linked (hlinks s hs)
  · intro _ t' hb'
    rwa [List.map_id, List.flatMap_eq_nil_iff.mpr fun _ _ => rfl, List.nil_append] at hb'

/-- The template statements of a method are gathered into one. -/
lemma yields_gather (hm : t.Link n method) {file : NodeId}
    (hfile : (templateUse t method).file = some file) (hb : Bench oracle t n w.tree [] []) :
    (gather method (templateUse t method) file).Yields w fun _ t' =>
      ∃ out, Bench oracle t n t' out [] := by
  obtain ⟨s, hs⟩ := hands_of_file ht.linked hfile
  obtain ⟨p, hp, hpfile⟩ := hs.below ht.linked hm.reaches
  refine (yields_releaseAll ht hn hm hb).bind fun _ w₁ hb₁ => ?_
  refine (yields_release ht hn hp hpfile (fun v hv => not_reaches_file ht.linked hfile hv)
    hb₁).bind fun _ w₂ hb₂ => ?_
  have hout : ∀ v ∈ file :: (templateUse t method).assigned.map (·.2),
      ∃ st s, Hands t method st s v := fun v hv => hands_of_mem ht.linked hfile hv
  refine (yields_removeAll ht hn hm hout hb₂).bind fun _ w₃ hb₃ => ?_
  refine (yields_buildReturn ht _ (hb₃.perm List.perm_append_comm)).bind fun id w₄ hb₄ => ?_
  -- the method is still in its place for the new statement
  have hclear : ∀ o ∈ (templateUse t method).statements ++
      file :: (templateUse t method).assigned.map (·.2), ¬ t.Reaches o method := by
    intro o ho
    rcases List.mem_append.mp ho with ho | ho
    · exact ht.linked.not_reaches_of_link (link_of_mem_statements ht.linked ho)
    · obtain ⟨_, s', hv'⟩ := hout o ho
      exact fun hom => ht.linked.not_reaches_of_link hv'.link ((hv'.reaches ht.linked).trans hom)
  obtain ⟨t₅, hpush, hb₅⟩ := hb₄.pushChild ht hn hm.reaches hclear
  exact Action.Yields.edit hpush ⟨_, hb₅⟩

end gathering

lemma yields_convert (hsub : oracle.isSubtype controller control = false) (ht : w.tree.Sound)
    (hn : w.tree.Reaches w.tree.root n) (hripe : ripe oracle w.tree n = true)
    (hkind : w.tree.kind? n = some .classDecl) {method file : NodeId} (hm : w.tree.Link n method)
    (hmethod : w.tree.kind? method = some .method)
    (hfile : (templateUse w.tree method).file = some file) (name : String)
    (interfaces : List String) :
    (convert n method (templateUse w.tree method) file name interfaces).Yields w
      (WellConducted oracle w.tree n) := by
  refine (yields_gather ht hn hm hfile (Bench.start oracle w.tree n)).bind ?_
  rintro _ w₁ ⟨out, hb₁⟩
  refine Action.Yields.update_bind (Action.Yields.update_bind (Action.Yields.pure ?_))
  have hmethod' : w₁.tree.kind? method = some .method :=
    (hb₁.kinds method (ht.linked.link_lt hm).2).trans hmethod
  obtain ⟨render, hrender⟩ := exists_method hmethod'
  have hlt : method < w₁.tree.size := Nat.lt_of_lt_of_le (ht.linked.link_lt hm).2 hb₁.size_le
  have hb₂ := hb₁.setConstruct ht hlt (c := .method (actionName name)) hrender rfl fun _ h => h
  exact wellConducted_rewritten hb₂ ht hn hripe _ hkind
    (inert_classDecl (by decide) (by decide) (by decide) hsub _ _)

lemma tame (hsub : oracle.isSubtype controller control = false) :
    rule.Tame (gauge oracle) oracle := by
  refine tame_of_yields rfl fun pass n w ht hn _ => ?_
  refine Action.Yields.require_bind (ht.linked.lt_size_of_reaches hn) (Action.Yields.tree_bind ?_)
  have hidle := wellConducted_refl oracle w.tree n
  split
  · next name parent interfaces hc =>
    split
    · next hcontrol =>
      split
      · next method hmethod =>
        dsimp only
        split
        · next file hfile =>
          have hdue : ∀ routed,
              isDue oracle routed (.classDecl name (some parent) interfaces) = true :=
            fun _ => by rw [isDue, hcontrol, Bool.or_true]
          have hlink := (ht.linked.mem_children_iff n method).mp (List.mem_of_find?_eq_some hmethod)
          have hrender := List.find?_some hmethod
          rw [beq_iff_eq] at hrender
          exact yields_convert hsub ht hn (ripe_of_construct ht.linked hn hc (hdue _))
            (kind?_of_construct hc) hlink (kind?_of_construct hrender) hfile name interfaces
        · exact Action.Yields.pure hidle
      · exact Action.Yields.pure hidle
    · exact Action.Yields.pure hidle
  · exact Action.Yields.pure hidle

end Controls

end Catalogue

end CodeMigration
