import CodeMigration.Proofs.Catalogue.Discards
import CodeMigration.Proofs.Catalogue.Rebuilding

/-!
# How controls are folded

The template statements of the `render` method of a control are gathered into one that returns what
is shown. `Controls.Collects` reads off the statements of a method what they assign and show, and
`Controls.Gathered` says what becomes of every node of the tree.
-/

namespace CodeMigration

namespace Catalogue.Controls

open CodeMigration.Tree

variable {oracle : Oracle} {t t' : Tree} {n method s file : NodeId} {w : Workspace}
  {assigned : List (String × NodeId)} {rest : List NodeId}

/-! ### Template statements -/

/-- The statement `$this->template->name = value`. -/
def Fills (t : Tree) (s : NodeId) (name : String) (value : NodeId) : Prop :=
  t.kind? s = some .expression ∧ ∃ e target, t.child? s 0 = some e ∧
    t.construct? e = some .assignment ∧ t.child? e 0 = some target ∧ t.child? e 1 = some value ∧
    t.construct? target = some (.propertyFetch name) ∧
    (t.child? target 0).any (isTemplate t) = true

/-- The statement `$this->template->render(file)` or `$this->template->setFile(file)`, also without
an argument. -/
def Displays (t : Tree) (s : NodeId) (file : Option NodeId) : Prop :=
  t.kind? s = some .expression ∧ ∃ e name, t.child? s 0 = some e ∧
    t.construct? e = some (.methodCall name) ∧ (name = "render" ∨ name = "setFile") ∧
    (t.child? e 0).any (isTemplate t) = true ∧ t.child? e 1 = file

/-- What a row of statements says about the template: the variables that are assigned in order, and
the file that is shown last. The other statements remain. -/
inductive Collects (t : Tree) :
    List NodeId → List (String × NodeId) → Option NodeId → List NodeId → Prop
  | nil : Collects t [] [] none []
  | fill {s value : NodeId} {name : String} {l rest : List NodeId}
    {assigned : List (String × NodeId)} {file : Option NodeId} (hs : Fills t s name value)
    (hl : Collects t l assigned file rest) :
    Collects t (s :: l) ((name, value) :: assigned) file rest
  | display {s : NodeId} {l rest : List NodeId} {assigned : List (String × NodeId)}
    {shown file : Option NodeId} (hs : Displays t s shown) (hl : Collects t l assigned file rest) :
    Collects t (s :: l) assigned (file.or shown) rest
  | other {s : NodeId} {l rest : List NodeId} {assigned : List (String × NodeId)}
    {file : Option NodeId} (hfill : ∀ name value, ¬ Fills t s name value)
    (hdisplay : ∀ shown, ¬ Displays t s shown) (hl : Collects t l assigned file rest) :
    Collects t (s :: l) assigned file (s :: rest)

/-- The statements of a method that do not remain. -/
def removed (t : Tree) (method : NodeId) (rest : List NodeId) : List NodeId :=
  (t.children method).filter (· ∉ rest)

@[simp] lemma mem_removed : s ∈ removed t method rest ↔ s ∈ t.children method ∧ s ∉ rest := by
  simp [removed]

lemma templateStatement?_eq_assign_iff {name : String} {value : NodeId} :
    templateStatement? t s = some (.assign name value) ↔ Fills t s name value := by
  grind [templateStatement?, Fills, Tree.hasKind]

lemma templateStatement?_eq_display_iff {shown : Option NodeId} :
    templateStatement? t s = some (.display shown) ↔ Displays t s shown := by
  grind [templateStatement?, Displays, Tree.hasKind]

lemma templateStatement?_eq_none_iff :
    templateStatement? t s = none ↔
      (∀ name value, ¬ Fills t s name value) ∧ ∀ shown, ¬ Displays t s shown := by
  simp only [← templateStatement?_eq_assign_iff, ← templateStatement?_eq_display_iff]
  cases templateStatement? t s with
  | none => simp
  | some st => cases st <;> simp

lemma exists_collects (t : Tree) (l : List NodeId) :
    ∃ assigned file rest, Collects t l assigned file rest := by
  induction l with
  | nil => exact ⟨[], none, [], .nil⟩
  | cons s l ih =>
    obtain ⟨assigned, file, rest, h⟩ := ih
    cases hs : templateStatement? t s with
    | none =>
      obtain ⟨hfill, hdisplay⟩ := templateStatement?_eq_none_iff.mp hs
      exact ⟨_, _, _, h.other hfill hdisplay⟩
    | some st =>
      cases st with
      | assign name value => exact ⟨_, _, _, h.fill (templateStatement?_eq_assign_iff.mp hs)⟩
      | display shown => exact ⟨_, _, _, h.display (templateStatement?_eq_display_iff.mp hs)⟩

/-- The statements that remain are those that say nothing about the template. -/
lemma Collects.rest_eq {l : List NodeId} {file : Option NodeId}
    (h : Collects t l assigned file rest) :
    rest = l.filter fun s => (templateStatement? t s).isNone := by
  induction h with
  | nil => rfl
  | fill hs _ ih => simp [templateStatement?_eq_assign_iff.mpr hs, ih]
  | display hs _ ih => simp [templateStatement?_eq_display_iff.mpr hs, ih]
  | other hfill hdisplay _ ih => simp [templateStatement?_eq_none_iff.mpr ⟨hfill, hdisplay⟩, ih]

/-- The statements are read one after the other, so the last file counts. -/
lemma Collects.foldl_add {l : List NodeId} {file : Option NodeId}
    (h : Collects t l assigned file rest) (u : TemplateUse) :
    l.foldl (fun u s => u.add t s) u =
      { file := file.or u.file
        assigned := u.assigned ++ assigned
        statements := u.statements ++ l.filter fun s => (templateStatement? t s).isSome } := by
  induction h generalizing u with
  | nil => simp
  | fill hs _ ih =>
    rw [List.foldl_cons, ih]
    simp [TemplateUse.add, templateStatement?_eq_assign_iff.mpr hs]
  | display hs _ ih =>
    rw [List.foldl_cons, ih]
    simp [TemplateUse.add, templateStatement?_eq_display_iff.mpr hs, Option.or_assoc]
  | other hfill hdisplay _ ih =>
    rw [List.foldl_cons, ih]
    simp [TemplateUse.add, templateStatement?_eq_none_iff.mpr ⟨hfill, hdisplay⟩]

lemma Collects.templateUse_eq {file : Option NodeId}
    (h : Collects t (t.children method) assigned file rest) :
    templateUse t method = ⟨file, assigned, removed t method rest⟩ := by
  have hstatements : (t.children method).filter (fun s => (templateStatement? t s).isSome) =
      removed t method rest := by
    refine List.filter_congr fun s hs => ?_
    rw [Bool.eq_iff_iff]
    simp [h.rest_eq, hs, Option.isSome_iff_ne_none]
  rw [templateUse, h.foldl_add, hstatements]
  simp

lemma Collects.file_eq (h : Collects t (t.children method) assigned (some file) rest) :
    (templateUse t method).file = some file := by rw [h.templateUse_eq]

lemma Collects.assigned_eq (h : Collects t (t.children method) assigned (some file) rest) :
    (templateUse t method).assigned = assigned := by rw [h.templateUse_eq]

/-! ### What is handed over -/

section parts

variable (ht : t.WellLinked) (h : Collects t (t.children method) assigned (some file) rest)
  {v o q : NodeId}
include ht

lemma link_of_mem_removed (hs : s ∈ removed t method rest) : t.Link method s :=
  (ht.mem_children_iff method s).mp (mem_removed.mp hs).1

/-- What a statement hands over hangs below the method. -/
lemma Hands.exists_link {st : TemplateStatement} (hv : Hands t method st s v)
    (hlive : t.isLive method = true) : ∃ e, t.Link e v ∧ t.isLive v = true := by
  obtain ⟨e, hmethod, hlink⟩ := hv.below ht (Reaches.refl method)
  exact ⟨e, hlink, (ht.isLive_of_reaches (hmethod.trans hlink.reaches)).symm.trans hlive⟩

/-- What a statement hands over leads to nothing else that is handed over. -/
lemma Hands.eq_of_reaches {s s' v' : NodeId} {st st' : TemplateStatement}
    (hv : Hands t method st s v) (hv' : Hands t method st' s' v') (hvv : t.Reaches v v') :
    v = v' := by
  by_cases hs : s = s'
  · subst hs
    obtain rfl := Option.some.inj (hv.statement.symm.trans hv'.statement)
    exact Option.some.inj (hv.part.symm.trans hv'.part)
  · exact absurd hvv (hv.not_reaches ht hv' hs)

include h

lemma hands_of_collects (hv : v ∈ file :: assigned.map Prod.snd) :
    ∃ st s, Hands t method st s v ∧ s ∈ removed t method rest := by
  rw [← h.assigned_eq] at hv
  obtain ⟨st, s, hs⟩ := hands_of_mem ht h.file_eq hv
  refine ⟨st, s, hs, ?_⟩
  simp [h.rest_eq, (ht.mem_children_iff method s).mpr hs.link, hs.statement]

lemma nodup_parts : (file :: assigned.map Prod.snd).Nodup := by
  rw [← h.assigned_eq, List.nodup_cons]
  constructor
  · intro hmem
    exact not_reaches_file ht h.file_eq hmem (Reaches.refl file)
  · refine (pairwise_assigned ht).imp fun hab => ?_
    rintro rfl
    exact hab (Reaches.refl _)

/-- What is handed over is apart. -/
lemma eq_of_reaches_part {v' : NodeId} (hv : v ∈ file :: assigned.map Prod.snd)
    (hv' : v' ∈ file :: assigned.map Prod.snd) (hvv : t.Reaches v v') : v = v' := by
  obtain ⟨_, _, hs, _⟩ := hands_of_collects ht h hv
  obtain ⟨_, _, hs', _⟩ := hands_of_collects ht h hv'
  exact hs.eq_of_reaches ht hs' hvv

/-- Everything that is taken out lies below a statement that is removed. -/
lemma exists_removed_above (ho : o ∈ removed t method rest ++ file :: assigned.map Prod.snd) :
    ∃ s ∈ removed t method rest, t.Reaches s o := by
  rcases List.mem_append.mp ho with ho | ho
  · exact ⟨o, ho, Reaches.refl o⟩
  · obtain ⟨_, s, hs, hremoved⟩ := hands_of_collects ht h ho
    exact ⟨s, hremoved, hs.reaches ht⟩

/-- What is taken out is taken from the method or from below a statement that is removed. -/
lemma parent_of_taken (ho : o ∈ removed t method rest ++ file :: assigned.map Prod.snd)
    (hlink : t.Link q o) : q = method ∨ ∃ s ∈ removed t method rest, t.Reaches s q := by
  obtain ⟨s, hs, hso⟩ := exists_removed_above ht h ho
  rcases reaches_iff.mp hso with rfl | ⟨q', hq', hsq⟩
  · exact Or.inl (hlink.unique (link_of_mem_removed ht hs))
  · exact Or.inr ⟨s, hs, hlink.unique hq' ▸ hsq⟩

/-- Nothing that is taken out lies above the method. -/
lemma not_reaches_method (ho : o ∈ removed t method rest ++ file :: assigned.map Prod.snd) :
    ¬ t.Reaches o method := by
  obtain ⟨s, hs, hso⟩ := exists_removed_above ht h ho
  exact fun hom => ht.not_reaches_of_link (link_of_mem_removed ht hs) (hso.trans hom)

/-- In the row of the method exactly the statements that remain are left. -/
lemma filter_not_taken :
    (t.children method).filter (· ∉ removed t method rest ++ file :: assigned.map Prod.snd) =
      rest := by
  conv_rhs => rw [h.rest_eq]
  refine List.filter_congr fun x hx => ?_
  have hpart : x ∉ file :: assigned.map Prod.snd := by
    intro hmem
    obtain ⟨_, _, hs, _⟩ := hands_of_collects ht h hmem
    exact hs.not_reaches_statement ht ((ht.mem_children_iff method x).mp hx) (Reaches.refl x)
  rw [Bool.eq_iff_iff, decide_eq_true_iff, List.mem_append, or_iff_left hpart]
  simp [h.rest_eq, hx]

end parts

/-! ### The folded control -/

/-- The statement `return $this->render(file, [name => value, ...])`; the array is left out if there
are no variables. -/
def returned (file : NodeId) (assigned : List (String × NodeId)) : Sketch :=
  .made .returnStatement [.made (.methodCall "render") (.made (.variableRef "this") [] ::
    .given file :: Sketch.dictionary (assigned.map fun (name, value) => (name, .given value)))]

/-- The tree `t'` after the template statements of `method` in the control `n` of `t` have been
gathered. -/
structure Gathered (t : Tree) (n method file : NodeId) (assigned : List (String × NodeId))
    (rest : List NodeId) (name : String) (interfaces : List String) (t' : Tree) : Prop where
  reachable : t'.Reachable
  root : t'.root = t.root
  controller : t'.construct? n =
    some (.classDecl (controllerName name) (some controller) interfaces)
  members : t'.children n = t.children n
  place : t'.parent? n = t.parent? n
  live : t'.isLive n = true
  action : t'.construct? method = some (.method (actionName name))
  /-- The other statements stay, and one that returns what is shown follows. -/
  row : ∃ new, t'.children method = rest ++ [new] ∧
    t'.Shows t.size (returned file assigned) new
  intact : ∀ v ∈ file :: assigned.map Prod.snd, t.Intact t' v
  gone : ∀ s ∈ t.children method, s ∉ rest → ∀ m, t.Reaches s m →
    (∀ v ∈ file :: assigned.map Prod.snd, ¬ t.Reaches v m) → t'.isLive m = false
  others : ∀ m < t.size, m ≠ n → m ≠ method →
    (∀ s ∈ t.children method, s ∉ rest → ¬ t.Reaches s m) → t'.slot? m = t.slot? m

section gathering

variable (ht : t.Sound)
include ht

lemma extracted_release {p v : NodeId} {out gone : List NodeId} (hlink : t.Link p v)
    (hlive : t.isLive v = true) (hclear : ∀ o ∈ out, ¬ t.Reaches o v)
    (h : Extracted t out gone w.tree) :
    (release v).Yields w fun _ t' => Extracted t (v :: out) gone t' := by
  obtain ⟨hlink', _⟩ := h.child hlink hlive hclear
  obtain ⟨t', hok, h'⟩ := h.detach ht hlink hlive hclear
  refine Action.Yields.tree_bind ?_
  rw [hlink']
  exact Action.Yields.edit hok h'

variable (hlive : t.isLive method = true)
  (hc : Collects t (t.children method) assigned (some file) rest)
include hlive hc

/-- What is handed over is taken out of the statements. -/
lemma extracted_parts (h : Extracted t [] [] w.tree) :
    ((do
      assigned.forM fun (_, value) => release value
      release file) : Action Unit).Yields w fun _ t' =>
        Extracted t (file :: assigned.map Prod.snd) [] t' := by
  have hrelease : ∀ v ∈ file :: assigned.map Prod.snd, ∀ (w : Workspace) out gone,
      (∀ o ∈ out, ¬ t.Reaches o v) → Extracted t out gone w.tree →
      (release v).Yields w fun _ t' => Extracted t (v :: out) gone t' := by
    intro v hv w' out gone hclear h'
    obtain ⟨_, _, hs, _⟩ := hands_of_collects ht.linked hc hv
    obtain ⟨e, hlink, hlive'⟩ := hs.exists_link ht.linked hlive
    exact extracted_release ht hlink hlive' hclear h'
  obtain ⟨hfile, hnodup⟩ := List.nodup_cons.mp (nodup_parts ht.linked hc)
  refine Action.Yields.bind (h.yields_forM Prod.snd (fun _ => []) ?_ ?_) fun _ w' h' => ?_
  · intro entry hentry w' out gone hclear h'
    have hvalue : entry.2 ∈ file :: assigned.map Prod.snd :=
      List.mem_cons_of_mem _ (List.mem_map_of_mem hentry)
    exact hrelease entry.2 hvalue w' out gone hclear h'
  · refine apart_of_pairwise (hnodup.imp_of_mem fun {v v'} hv hv' hne hvv => hne ?_) (by simp)
    exact eq_of_reaches_part ht.linked hc (List.mem_cons_of_mem _ hv)
      (List.mem_cons_of_mem _ hv') hvv
  · rw [List.append_nil, List.flatMap_eq_nil_iff.mpr fun _ _ => rfl, List.nil_append] at h'
    refine hrelease file List.mem_cons_self w' _ _ (fun v hv hvfile => hfile ?_) h'
    rwa [← eq_of_reaches_part ht.linked hc (List.mem_cons_of_mem _ hv) List.mem_cons_self hvfile]

/-- The template statements are removed after that. -/
lemma extracted_statements (h : Extracted t (file :: assigned.map Prod.snd) [] w.tree) :
    ((removed t method rest).forM fun s =>
        Action.edit (Edit.removeChild method s)).Yields w fun _ t' =>
      Extracted t (removed t method rest ++ file :: assigned.map Prod.snd)
        (removed t method rest) t' := by
  have hlinks : ∀ s ∈ removed t method rest, t.Link method s :=
    fun s hs => link_of_mem_removed ht.linked hs
  have hnodup : (removed t method rest).Nodup := (ht.linked.nodup_children method).filter _
  refine Action.Yields.mono (h.yields_forM id (fun s => [s]) ?_ ?_) ?_
  · intro s hs w' out gone hclear h'
    have hlive' : t.isLive s = true := (ht.linked.isLive_eq method s (hlinks s hs)).symm.trans hlive
    obtain ⟨t', hok, h''⟩ := h'.removeChild ht (hlinks s hs) hlive' hclear
    exact Action.Yields.edit hok h''
  · rw [List.map_id]
    refine apart_of_pairwise (ht.linked.pairwise_siblings hnodup hlinks) fun s hs v hv => ?_
    obtain ⟨_, _, hv', _⟩ := hands_of_collects ht.linked hc hv
    exact hv'.not_reaches_statement ht.linked (hlinks s hs)
  · intro _ t' h'
    rwa [List.map_id, List.flatMap_singleton', List.append_nil] at h'

end gathering

section building

variable {p : NodeId} {stock : List NodeId} {row spare : List (Sketch × NodeId)} (ht : t.Sound)
include ht

lemma assembled_buildVariables (assigned : List (String × NodeId))
    (h : Assembled t p stock w.tree row (assigned.map (fun e => (.given e.2, e.2)) ++ spare)) :
    (buildVariables assigned).Yields w fun ids t' => ∃ array : List (Sketch × NodeId),
      ids = array.map Prod.snd ∧
        array.map Prod.fst = Sketch.dictionary (assigned.map fun e => (e.1, .given e.2)) ∧
          Assembled t p stock t' row (array ++ spare) := by
  rw [buildVariables]
  split
  · next hnone =>
    obtain rfl := List.isEmpty_iff.mp hnone
    exact Action.Yields.pure ⟨[], rfl, rfl, h⟩
  · next hsome =>
    have harray := Assembled.yields_addArray ht (w := w)
      (assigned.map fun e => (e.1, .given e.2, e.2)) spare (by simpa [Function.comp_def] using h)
    simp only [List.map_map, Function.comp_def, List.map_id', Prod.mk.eta] at harray
    rw [← bind_assoc]
    refine harray.bind fun array w' h' => Action.Yields.pure ⟨[_], rfl, ?_, h'⟩
    simp [Sketch.dictionary, hsome, Function.comp_def]

/-- The statement that shows a file with variables is put together. -/
lemma assembled_buildReturn (assigned : List (String × NodeId))
    (h : Assembled t p stock w.tree row
      ((file :: assigned.map Prod.snd).map fun c => (.given c, c))) :
    (buildReturn file assigned).Yields w fun id t' =>
      Assembled t p stock t' row [(returned file assigned, id)] := by
  refine (h.yields_add ht (.variableRef "this")).bind fun this w₁ h₁ => ?_
  have hvalues : Assembled t p stock w₁.tree row (assigned.map (fun e => (.given e.2, e.2)) ++
      [(.made (.variableRef "this") [], this), (.given file, file)]) := by
    rw [List.map_cons, List.map_map] at h₁
    exact h₁.perm ((List.perm_append_singleton _ _).symm.cons _ |>.trans List.perm_middle.symm)
  refine (assembled_buildVariables ht assigned hvalues).bind ?_
  rintro _ w₂ ⟨array, rfl, hsketch, h₂⟩
  rw [returned, ← hsketch]
  have hparts : Assembled t p stock w₂.tree row
      ((.made (.variableRef "this") [], this) :: (.given file, file) :: array ++ []) := by
    rw [List.append_nil]
    exact h₂.perm List.perm_append_comm
  have hcall := Assembled.yields_addWithChildren ht _ (.methodCall "render") hparts
  refine hcall.bind fun call w₃ h₃ => ?_
  exact Assembled.yields_addWithChildren ht [(_, call)] .returnStatement h₃

end building

/-- What is handed over lies loose once it has been taken out. -/
lemma loose_of_part (ht : t.WellLinked) (hlive : t.isLive method = true)
    (hc : Collects t (t.children method) assigned (some file) rest)
    (h : Extracted t (removed t method rest ++ file :: assigned.map Prod.snd)
      (removed t method rest) t') {v : NodeId} (hv : v ∈ file :: assigned.map Prod.snd) :
    t'.Loose v := by
  obtain ⟨_, _, hs, _⟩ := hands_of_collects ht hc hv
  obtain ⟨e, hlink, hlive'⟩ := hs.exists_link ht hlive
  refine h.loose ht hlink hlive' (List.mem_append_right _ hv) fun g hg => ?_
  exact hs.not_reaches_statement ht (link_of_mem_removed ht hg)

/-- The template statements of a method are gathered without a failure. -/
lemma rebuilt_gather (ht : w.tree.Sound) (hlive : w.tree.isLive method = true)
    (hc : Collects w.tree (w.tree.children method) assigned (some file) rest) :
    (gather method (templateUse w.tree method) file).Yields w fun _ t' =>
      Rebuilt w.tree method
        (removed w.tree method rest ++ file :: assigned.map Prod.snd)
        (removed w.tree method rest) [returned file assigned] t' := by
  rw [gather, hc.templateUse_eq, ← bind_assoc]
  refine (extracted_parts ht hlive hc (Extracted.refl w.tree)).bind fun _ w₁ h₁ => ?_
  refine (extracted_statements ht hlive hc h₁).bind fun _ w₂ h₂ => ?_
  have ht₂ := h₂.sound ht
  have hlive₂ := h₂.isLive_of_clear ht.linked hlive fun o ho => not_reaches_method ht.linked hc ho
  have habove : ∀ v ∈ file :: assigned.map Prod.snd, ¬ w₂.tree.Reaches v method := fun v hv hvm =>
    not_reaches_method ht.linked hc (List.mem_append_right _ hv) (h₂.reaches_of_reaches hvm)
  have hstart := Assembled.start method (nodup_parts ht.linked hc) fun v hv =>
    loose_of_part ht.linked hlive hc h₂ hv
  refine (assembled_buildReturn ht₂ assigned hstart).bind fun id w₃ h₃ => ?_
  obtain ⟨t₄, hpush, h₄⟩ := h₃.append ht₂ hlive₂ habove
  refine Action.Yields.edit hpush ?_
  exact h₄.rebuilt h₂ ht.linked (w.tree.lt_size_of_isLive hlive) (List.subset_append_right _ _)

section rebuilt

variable (ht : t.WellLinked) (hc : Collects t (t.children method) assigned (some file) rest)
  (h : Rebuilt t method (removed t method rest ++ file :: assigned.map Prod.snd)
    (removed t method rest) [returned file assigned] t') {m v : NodeId}
include ht hc h

lemma intact_of_part (hv : v ∈ file :: assigned.map Prod.snd) : t.Intact t' v := by
  obtain ⟨_, s, hs, _⟩ := hands_of_collects ht hc hv
  have htaken := List.mem_append_right (removed t method rest) hv
  have hlt : v < t.size := ht.lt_size_of_below (ht.link_lt hs.link).2 (hs.reaches ht)
  refine h.intact ht hlt (not_reaches_method ht hc htaken) ?_ ?_
  · intro o ho hvo
    rcases List.mem_append.mp ho with ho | ho
    · exact absurd hvo (hs.not_reaches_statement ht (link_of_mem_removed ht ho))
    · exact (eq_of_reaches_part ht hc hv ho hvo).symm
  · intro g hg _
    exact ⟨htaken, hs.not_reaches_statement ht (link_of_mem_removed ht hg)⟩

omit hc in
lemma isLive_eq_false_of_removed (hs : s ∈ removed t method rest) (hsm : t.Reaches s m)
    (hclear : ∀ v ∈ file :: assigned.map Prod.snd, ¬ t.Reaches v m) : t'.isLive m = false := by
  have hlink := link_of_mem_removed ht hs
  have hlt : m < t.size := ht.lt_size_of_below (ht.link_lt hlink).2 hsm
  refine h.isLive_eq_false hlt hs hsm fun o ho hom => ?_
  rcases List.mem_append.mp ho with ho | ho
  · rw [ht.eq_of_siblings (link_of_mem_removed ht ho) hlink hom hsm]
  · exact absurd hom (hclear o ho)

/-- Outside of the statements that are removed nothing but the method changes. -/
lemma slot?_eq_of_clear (hlt : m < t.size) (hm : m ≠ method)
    (hclear : ∀ s ∈ removed t method rest, ¬ t.Reaches s m) : t'.slot? m = t.slot? m := by
  refine h.slot?_eq ht hlt hm ?_ ?_
  · intro o ho hom
    obtain ⟨s, hs, hso⟩ := exists_removed_above ht hc ho
    exact hclear s hs (hso.trans hom)
  · intro o ho hmo
    rcases parent_of_taken ht hc ho hmo with heq | ⟨s, hs, hsm⟩
    · exact hm heq
    · exact hclear s hs hsm

end rebuilt

/-- What is known of the rebuilt tree, read at the class and its method. -/
lemma gathered_of_rebuilt (ht : t.Reachable) (hlive : t.isLive n = true) {name : String}
    {parent : Option String} {interfaces : List String}
    (hclass : t.construct? n = some (.classDecl name parent interfaces)) (hlink : t.Link n method)
    (hmethod : t.construct? method = some (.method "render"))
    (hc : Collects t (t.children method) assigned (some file) rest)
    (h : Rebuilt t method (removed t method rest ++ file :: assigned.map Prod.snd)
      (removed t method rest) [returned file assigned] t') :
    Gathered t n method file assigned rest name interfaces
      ((t'.setConstruct method (.method (actionName name))).setConstruct n
        (.classDecl (controllerName name) (some controller) interfaces)) := by
  have hlinked := ht.sound.linked
  have hn : n < t.size := t.lt_size_of_isLive hlive
  have hm : method < t.size := (hlinked.link_lt hlink).2
  have hne : n ≠ method := by
    rintro rfl
    exact hlinked.not_reaches_of_link hlink (Reaches.refl _)
  have hclass' := (h.construct? n hn).trans hclass
  have hmethod' := (h.construct? method hm).trans hmethod
  have habove : ∀ o ∈ removed t method rest ++ file :: assigned.map Prod.snd, ¬ t.Reaches o n :=
    fun o ho hon => not_reaches_method hlinked hc ho (hon.trans hlink.reaches)
  have hslot : t'.slot? n = t.slot? n := slot?_eq_of_clear hlinked hc h hn hne
    fun s hs => habove s (List.mem_append_left _ hs)
  obtain ⟨new, hchildren, hshows⟩ := h.row
  have hshows' := (hshows.setConstruct hm (.method (actionName name))).setConstruct hn
    (.classDecl (controllerName name) (some controller) interfaces)
  obtain ⟨new, _, rfl, hnew, rfl⟩ := hshows'
  refine ⟨?_, ?_, ?_, ?_, ?_, ?_, ?_, ⟨new, ?_, hnew⟩, ?_, ?_, ?_⟩
  · have hedited := edited_setConstruct (lt_size_of_construct? hmethod') (.method (actionName name))
    refine ((ht.edited h.edited).edited hedited).edited (edited_setConstruct ?_ _)
    rw [size_setConstruct]
    exact lt_size_of_construct? hclass'
  · rw [root_setConstruct, root_setConstruct, h.root]
  · simp [construct?_setConstruct, hne, hclass']
  · rw [children_setConstruct, children_setConstruct, children, hslot, children]
  · rw [parent?_setConstruct, parent?_setConstruct, parent?, hslot, parent?]
  · rw [isLive_setConstruct, isLive_setConstruct, isLive, hslot, ← isLive, hlive]
  · simp [construct?_setConstruct, hne.symm, hmethod']
  · rw [children_setConstruct, children_setConstruct, hchildren, filter_not_taken hlinked hc]
  · intro v hv
    have htaken := List.mem_append_right (removed t method rest) hv
    have hintact := intact_of_part hlinked hc h hv
    exact (hintact.setConstruct (not_reaches_method hlinked hc htaken) _).setConstruct
      (habove v htaken) _
  · intro s hs hnot m hsm hclear
    rw [isLive_setConstruct, isLive_setConstruct]
    exact isLive_eq_false_of_removed hlinked h (mem_removed.mpr ⟨hs, hnot⟩) hsm hclear
  · intro m hlt hmn hmm hclear
    rw [slot?_setConstruct, if_neg hmn, slot?_setConstruct, if_neg hmm]
    refine slot?_eq_of_clear hlinked hc h hlt hmm fun s hs => ?_
    exact hclear s (mem_removed.mp hs).1 (mem_removed.mp hs).2

/-! ### Controls -/

/-- The class `n` is a control, and its `render` method shows a file. -/
structure ShowsFile (oracle : Oracle) (t : Tree) (n method file : NodeId)
    (assigned : List (String × NodeId)) (rest : List NodeId) : Prop where
  control : ∃ name parent interfaces,
    t.construct? n = some (.classDecl name (some parent) interfaces) ∧
      isControl oracle parent = true
  render : renderMethod? t n = some method
  collects : Collects t (t.children method) assigned (some file) rest

lemma apply_eq_convert (pass : Nat) {name : String} {parent : Option String}
    {interfaces : List String}
    (hclass : w.tree.construct? n = some (.classDecl name parent interfaces))
    (h : ShowsFile oracle w.tree n method file assigned rest) :
    rule.apply oracle pass n w =
      convert n method (templateUse w.tree method) file name interfaces w := by
  obtain ⟨name', parent', interfaces', hclass', hcontrol⟩ := h.control
  cases hclass.symm.trans hclass'
  show Controls.apply oracle pass n w = _
  rw [Controls.apply, Action.require_bind_apply (lt_size_of_construct? hclass),
    Action.tree_bind_apply, hclass]
  simp [hcontrol, h.render, h.collects.file_eq]

lemma apply_eq_unchanged (pass : Nat) {name : String} {parent : Option String}
    {interfaces : List String}
    (hclass : w.tree.construct? n = some (.classDecl name parent interfaces))
    (h : ¬ ∃ method file assigned rest, ShowsFile oracle w.tree n method file assigned rest) :
    rule.apply oracle pass n w = .ok .unchanged w := by
  show Controls.apply oracle pass n w = _
  rw [Controls.apply, Action.require_bind_apply (lt_size_of_construct? hclass),
    Action.tree_bind_apply, hclass]
  cases parent with
  | none => rfl
  | some parent =>
    dsimp only
    split
    · next hcontrol =>
      cases hmethod : renderMethod? w.tree n with
      | none => rfl
      | some method =>
        obtain ⟨assigned, file?, rest, hcollects⟩ :=
          exists_collects w.tree (w.tree.children method)
        cases file? with
        | none =>
          dsimp only
          rw [hcollects.templateUse_eq]
          rfl
        | some file =>
          refine absurd ⟨method, file, assigned, rest, ?_, hmethod, hcollects⟩ h
          exact ⟨name, parent, interfaces, hclass, hcontrol⟩
    · rfl

/-- Controls are folded exactly, and every other class stays as it is. -/
theorem apply_folds_control (oracle : Oracle) (pass : Nat) {w : Workspace} {n : NodeId}
    {name : String} {parent : Option String} {interfaces : List String} (ht : w.tree.Reachable)
    (hlive : w.tree.isLive n = true)
    (hclass : w.tree.construct? n = some (.classDecl name parent interfaces)) :
    (∀ method file assigned rest, ShowsFile oracle w.tree n method file assigned rest →
      (rule.apply oracle pass n).Yields w fun outcome t' => outcome = .mutated ∧
        Gathered w.tree n method file assigned rest name interfaces t') ∧
      ((¬ ∃ method file assigned rest, ShowsFile oracle w.tree n method file assigned rest) →
        rule.apply oracle pass n w = .ok .unchanged w) := by
  constructor
  · intro method file assigned rest h
    have hmethod : w.tree.construct? method = some (.method "render") := by
      simpa using List.find?_some h.render
    have hlink : w.tree.Link n method :=
      (ht.sound.linked.mem_children_iff n method).mp (List.mem_of_find?_eq_some h.render)
    have hlive' : w.tree.isLive method = true :=
      (ht.sound.linked.isLive_eq n method hlink).symm.trans hlive
    have hconvert : (convert n method (templateUse w.tree method) file name interfaces).Yields w
        fun outcome t' => outcome = .mutated ∧
          Gathered w.tree n method file assigned rest name interfaces t' := by
      refine (rebuilt_gather ht.sound hlive' h.collects).bind fun _ w₁ h₁ => ?_
      refine Action.Yields.update_bind (Action.Yields.update_bind (Action.Yields.pure ⟨rfl, ?_⟩))
      exact gathered_of_rebuilt ht hlive hclass hlink hmethod h.collects h₁
    rwa [Action.Yields, apply_eq_convert pass hclass h]
  · exact apply_eq_unchanged pass hclass

/-- A control that assigns a variable, shows a file and does something else in between. -/
def pollControl : Tree :=
  Command.runAll (Tree.new .file) [.add (.variableRef "this"),
    .addWithChildren (.propertyFetch "template") [1],
    .addWithChildren (.propertyFetch "question") [2], .add (.string "Why?"),
    .addWithChildren .assignment [3, 4], .addWithChildren .expression [5],
    .addWithChildren (.functionCall "count_view") [], .addWithChildren .expression [7],
    .add (.variableRef "this"), .addWithChildren (.propertyFetch "template") [9],
    .add (.string "poll.latte"), .addWithChildren (.methodCall "render") [10, 11],
    .addWithChildren .expression [12], .addWithChildren (.method "render") [6, 8, 13],
    .addWithChildren (.classDecl "PollControl" (some control) []) [14], .pushChild 0 15]

theorem apply_folds_control_poll :
    (rule.apply .unknown 0 15).Yields ⟨pollControl, []⟩ fun outcome t' => outcome = .mutated ∧
      Gathered pollControl 15 14 11 [("question", 4)] [8] "PollControl" [] t' := by
  have ht : pollControl.Reachable := (Reachable.new .file).runAll _
  have hlive : pollControl.isLive 15 = true := by decide +kernel
  have hclass : pollControl.construct? 15 = some (.classDecl "PollControl" (some control) []) := by
    decide +kernel
  have hrender : renderMethod? pollControl 15 = some 14 := by decide +kernel
  have hchildren : pollControl.children 14 = [6, 8, 13] := by decide +kernel
  have hother : templateStatement? pollControl 8 = none :=
    Option.isNone_iff_eq_none.mp (by decide +kernel)
  have hcollects : Collects pollControl [6, 8, 13] [("question", 4)] (some 11) [8] := by
    obtain ⟨hfill, hdisplay⟩ := templateStatement?_eq_none_iff.mp hother
    refine .fill ⟨?_, 5, 3, ?_⟩ (.other hfill hdisplay (.display ⟨?_, 12, "render", ?_⟩ .nil))
    · decide +kernel
    · decide +kernel
    · decide +kernel
    · decide +kernel
  rw [← hchildren] at hcollects
  -- the tree is not to be computed from here on
  generalize pollControl = t at *
  refine (apply_folds_control .unknown 0 ht hlive hclass).1 14 11 _ _ ⟨?_, hrender, hcollects⟩
  exact ⟨_, _, _, hclass, by decide +kernel⟩

end Catalogue.Controls

end CodeMigration
