import CodeMigration.Proofs.Catalogue.Discards
import CodeMigration.Proofs.Catalogue.Rebuilding
import CodeMigration.Proofs.ClassIndex.Instances

/-!
# How field calls are folded

A call of a field method of a form keeps its receiver and its first argument, gets a reference to a
form type, and has the other arguments that count gathered into one array of options
(`Forms.options`). `Forms.Folded` says what becomes of every node of the tree.
-/

namespace CodeMigration

namespace Catalogue.Forms

open CodeMigration.Tree

variable {oracle : Oracle} {t t' : Tree} {n : NodeId} {w : Workspace}

/-! ### Options -/

/-- The options of a field with the given arguments: the second argument is its label. A field that
offers choices has them as its third argument and has two fixed options, and a field for several
files has one. -/
def options (method : String) (arguments : List NodeId) : List (String × Sketch) :=
  (arguments[1]?.map fun a => ("label", .given a)).toList ++
    match choiceMethods.lookup method with
    | some c =>
      (arguments[2]?.map fun a => ("choices", .given a)).toList ++
        [("expanded", .made (.bool c.expanded) []), ("multiple", .made (.bool c.multiple) [])]
    | none => if method = "addMultiUpload" then [("multiple", .made (.bool true) [])] else []

/-- No field both offers choices and is for several files. -/
lemma fixedOptions_of_choice {method : String} {c : ChoiceOptions}
    (h : choiceOptions? method = some c) :
    fixedOptions method = [("expanded", c.expanded), ("multiple", c.multiple)] := by
  have hother : ∀ entry ∈ choiceMethods, multipleMethods.contains entry.1 = false := by decide
  have hmethod : multipleMethods.contains method = false := hother _ (mem_of_lookup h)
  rw [fixedOptions, h, hmethod]
  rfl

lemma options_eq (method : String) (arguments : List NodeId) :
    options method arguments =
      arguments[1]?.toList.map (fun a => ("label", .given a)) ++
        (if (choiceOptions? method).isSome then arguments[2]? else none).toList.map
          (fun a => ("choices", .given a)) ++
        (fixedOptions method).map fun option => (option.1, .made (.bool option.2) []) := by
  have htoList : ∀ (o : Option NodeId) (key : String),
      (o.map fun a => (key, Sketch.given a)).toList = o.toList.map fun a => (key, .given a) := by
    intro o key
    cases o <;> rfl
  rw [options, htoList, htoList, List.append_assoc]
  congr 1
  cases hchoice : choiceMethods.lookup method with
  | some c =>
    have hchoice' : choiceOptions? method = some c := hchoice
    simp [hchoice', fixedOptions_of_choice hchoice']
  | none =>
    have hchoice' : choiceOptions? method = none := hchoice
    rw [fixedOptions, hchoice']
    by_cases hmethod : method = "addMultiUpload"
    · simp [multipleMethods, hmethod]
    · simp [multipleMethods, hmethod]

/-- The options with the nodes that are their values. -/
def entries (label choices : Option NodeId) (fixed : List (String × Bool)) (ids : List NodeId) :
    List (String × Sketch × NodeId) :=
  label.toList.map (fun a => ("label", .given a, a)) ++
    choices.toList.map (fun a => ("choices", .given a, a)) ++
    List.zipWith (fun option id => (option.1, .made (.bool option.2) [], id)) fixed ids

section entries

variable (label choices : Option NodeId) (fixed : List (String × Bool)) (ids : List NodeId)

lemma nodes_entries :
    (entries label choices fixed ids).map (fun e => (e.1, e.2.2)) =
      label.toList.map (("label", ·)) ++ choices.toList.map (("choices", ·)) ++
        List.zipWith (fun option id => (option.1, id)) fixed ids := by
  simp [entries, Function.comp_def, List.map_zipWith]

lemma pieces_entries :
    (entries label choices fixed ids).map Prod.snd =
      (label.toList ++ choices.toList).map (fun a => (.given a, a)) ++
        (fixed.map fun option => .made (.bool option.2) []).zip ids := by
  simp [entries, Function.comp_def, List.map_zipWith, List.zip_eq_zipWith, List.zipWith_map_left]

lemma sketches_entries {ids : List NodeId} (hlength : ids.length = fixed.length) :
    (entries label choices fixed ids).map (fun e => (e.1, e.2.1)) =
      label.toList.map (fun a => ("label", .given a)) ++
        choices.toList.map (fun a => ("choices", .given a)) ++
        fixed.map fun option => (option.1, .made (.bool option.2) []) := by
  have hfixed : (fixed.zip ids).map Prod.fst = fixed := List.map_fst_zip (by simp [hlength])
  have hzip : List.zipWith (fun option (_ : NodeId) => (option.1, Sketch.made (.bool option.2) []))
      fixed ids = fixed.map fun option => (option.1, .made (.bool option.2) []) := by
    rw [← List.map_uncurry_zip_eq_zipWith]
    conv_rhs => rw [← hfixed, List.map_map]
    rfl
  simp [entries, Function.comp_def, List.map_zipWith, hzip]

end entries

/-- The arguments behind the first that are made use of. -/
def kept (method : String) (arguments : List NodeId) : List NodeId :=
  (arguments.drop 1).take (used method - 1)

lemma kept_eq (method : String) (arguments : List NodeId) :
    arguments[1]?.toList ++
        (if (choiceOptions? method).isSome then arguments[2]? else none).toList =
      kept method arguments := by
  rw [kept, used]
  rcases arguments with _ | ⟨_, _ | ⟨_, _ | ⟨_, _⟩⟩⟩
  all_goals cases (choiceOptions? method).isSome <;> simp

lemma kept_subset (method : String) (arguments : List NodeId) :
    kept method arguments ⊆ arguments.drop 1 := List.take_subset _ _

lemma nodup_kept (method : String) {arguments : List NodeId} (hnodup : arguments.Nodup) :
    (kept method arguments).Nodup :=
  hnodup.sublist ((List.take_sublist _ _).trans (List.drop_sublist _ _))

/-- In a list without repetitions, what is not among the first elements is among the last. -/
lemma filter_not_mem_take {l : List NodeId} (hl : l.Nodup) (k : Nat) :
    l.filter (· ∉ l.take k) = l.drop k := by
  have hsplit : (l.take k ++ l.drop k).Nodup := by rwa [List.take_append_drop]
  rw [List.nodup_append] at hsplit
  have hfront : (l.take k).filter (· ∉ l.take k) = [] := by simp
  have hback : (l.drop k).filter (· ∉ l.take k) = l.drop k := by
    rw [List.filter_eq_self]
    intro a ha
    rw [decide_eq_true_iff]
    exact fun hmem => hsplit.2.2 a hmem a ha rfl
  calc l.filter (· ∉ l.take k)
      = (l.take k ++ l.drop k).filter (· ∉ l.take k) := by rw [List.take_append_drop]
    _ = l.drop k := by rw [List.filter_append, hfront, hback, List.nil_append]

lemma filter_not_mem_kept (method : String) {arguments : List NodeId} (hnodup : arguments.Nodup) :
    (arguments.drop 1).filter (· ∉ kept method arguments) = arguments.drop (used method) := by
  have hused : 1 + (used method - 1) = used method := by
    rw [used]
    split <;> rfl
  rw [kept, filter_not_mem_take (hnodup.sublist (List.drop_sublist 1 arguments)), List.drop_drop,
    hused]

/-! ### The folded call -/

/-- The tree `t'` after the call `n` of a field method of `t` has been folded. -/
structure Folded (t : Tree) (n receiver : NodeId) (arguments : List NodeId) (method type : String)
    (t' : Tree) : Prop where
  reachable : t'.Reachable
  root : t'.root = t.root
  construct : t'.construct? n = some (.methodCall "add")
  place : t'.parent? n = t.parent? n
  live : t'.isLive n = true
  /-- The receiver and the first argument stay, and a type and the options follow. -/
  row : ∃ new, t'.children n = receiver :: arguments.take 1 ++ new ∧
    t'.ShowsRow t.size (.made (.classConstant type "class") [] ::
      Sketch.dictionary (options method arguments)) new
  intact : ∀ v ∈ receiver :: arguments.take (used method), t.Intact t' v
  dropped : ∀ a ∈ arguments.drop (used method), ∀ m, t.Reaches a m → t'.isLive m = false
  others : ∀ m < t.size, m ≠ n → (∀ a ∈ arguments.drop 1, ¬ t.Reaches a m) →
    t'.slot? m = t.slot? m

section folding

variable (ht : t.Sound) (hlive : t.isLive n = true)
include ht hlive

/-- Arguments are taken out of a call, and those that are not kept are discarded. -/
lemma extracted_takeArguments (kept : List NodeId) {arguments : List NodeId}
    (hnodup : arguments.Nodup) (hlinks : ∀ a ∈ arguments, t.Link n a)
    (h : Extracted t [] [] w.tree) :
    (takeArguments n kept arguments).Yields w fun _ t' =>
      Extracted t arguments (arguments.filter (· ∉ kept)) t' := by
  rw [takeArguments_eq]
  refine Action.Yields.mono (h.yields_forM id (fun a => [a].filter (· ∉ kept)) ?_ ?_) ?_
  · intro a ha w' out gone hclear h'
    have hlive' : t.isLive a = true := (ht.linked.isLive_eq n a (hlinks a ha)).symm.trans hlive
    split
    · next hkept =>
      obtain ⟨t', hok, h''⟩ := h'.detach ht (hlinks a ha) hlive' hclear
      rw [List.contains_iff_mem] at hkept
      refine Action.Yields.edit hok ?_
      simpa [hkept] using h''
    · next hkept =>
      obtain ⟨t', hok, h''⟩ := h'.removeChild ht (hlinks a ha) hlive' hclear
      rw [List.contains_iff_mem] at hkept
      refine Action.Yields.edit hok ?_
      simpa [hkept] using h''
  · rw [List.map_id]
    exact apart_of_pairwise (ht.linked.pairwise_siblings hnodup hlinks) (by simp)
  · intro _ t' h'
    rwa [List.map_id, List.append_nil, List.append_nil, ← List.filter_flatMap,
      List.flatMap_singleton'] at h'

omit hlive in
/-- The fixed options are new literals. -/
lemma assembled_fixed {p : NodeId} {stock : List NodeId} {row spare : List (Sketch × NodeId)}
    (fixed : List (String × Bool)) (h : Assembled t p stock w.tree row spare) :
    (fixed.mapM fun (key, value) => do
        return (key, ← Action.add (.bool value)) : Action (List (String × NodeId))).Yields w
      fun made t' => ∃ ids : List NodeId, ids.length = fixed.length ∧
        made = List.zipWith (fun option id => (option.1, id)) fixed ids ∧
          Assembled t p stock t' row
            ((fixed.map fun option => .made (.bool option.2) []).zip ids ++ spare) := by
  refine Assembled.yields_mapM (fun _ => []) _ _ (fun option w' spare' h' => ?_) fixed spare ?_
  · refine (h'.yields_add ht (.bool option.2)).bind fun id w'' hid => ?_
    exact Action.Yields.pure ⟨id, rfl, hid⟩
  · rwa [List.flatMap_eq_nil_iff.mpr fun _ _ => rfl, List.nil_append]

/-- An array of options is appended, unless there are none. -/
lemma assembled_pushOptions {stock : List NodeId} (hstock : ∀ c ∈ stock, ¬ t.Reaches c n)
    {row : List (Sketch × NodeId)} (entries : List (String × Sketch × NodeId))
    (h : Assembled t n stock w.tree row (entries.map Prod.snd)) :
    (pushOptions n (entries.map fun e => (e.1, e.2.2))).Yields w fun _ t' =>
      ∃ array : List (Sketch × NodeId),
        array.map Prod.fst = Sketch.dictionary (entries.map fun e => (e.1, e.2.1)) ∧
          Assembled t n stock t' (row ++ array) [] := by
  rw [pushOptions, List.isEmpty_map]
  split
  · next hnone =>
    obtain rfl := List.isEmpty_iff.mp hnone
    refine Action.Yields.pure ⟨[], rfl, ?_⟩
    rwa [List.append_nil]
  · next hsome =>
    rw [← List.append_nil (entries.map Prod.snd)] at h
    have harray := Assembled.yields_addArray ht entries [] h
    rw [← bind_assoc]
    refine harray.bind fun array w' h' => ?_
    obtain ⟨t', hok, h''⟩ := h'.append ht hlive hstock
    refine Action.Yields.edit hok ⟨[_], ?_, h''⟩
    simp [Sketch.dictionary, hsome]

end folding

/-- The arguments that are made use of lie loose once they have been taken out. -/
lemma loose_of_mem_kept (ht : t.WellLinked) (hlive : t.isLive n = true) {method : String}
    {arguments : List NodeId} (hnodup : arguments.Nodup) (hlinks : ∀ a ∈ arguments, t.Link n a)
    (h : Extracted t (arguments.drop 1) (arguments.drop (used method)) t') {c : NodeId}
    (hc : c ∈ kept method arguments) : t'.Loose c := by
  have hmem : c ∈ arguments.drop 1 := kept_subset method arguments hc
  have hlink : t.Link n c := hlinks c (List.mem_of_mem_drop hmem)
  refine h.loose ht hlink ((ht.isLive_eq n c hlink).symm.trans hlive) hmem fun g hg hcg => ?_
  have heq : c = g :=
    ht.eq_of_siblings hlink (hlinks g (List.mem_of_mem_drop hg)) hcg (Reaches.refl g)
  rw [← filter_not_mem_kept method hnodup, ← heq, List.mem_filter, decide_eq_true_iff] at hg
  exact hg.2 hc

/-- A field call is folded without a failure. -/
lemma rebuilt_foldField (ht : w.tree.Sound) (hlive : w.tree.isLive n = true) (method type : String)
    {arguments : List NodeId} (hnodup : arguments.Nodup)
    (hlinks : ∀ a ∈ arguments, w.tree.Link n a) :
    (foldField n method type arguments).Yields w fun outcome t' => outcome = .mutated ∧
      ∃ t₁, Rebuilt w.tree n (arguments.drop 1) (arguments.drop (used method))
        (.made (.classConstant type "class") [] ::
          Sketch.dictionary (options method arguments)) t₁ ∧
        t' = (t₁.setConstruct n (.methodCall "add")).setAttribute n .processed (.flag true) := by
  have hout : ∀ a ∈ arguments.drop 1, w.tree.Link n a :=
    fun a ha => hlinks a (List.mem_of_mem_drop ha)
  have hclear : ∀ a ∈ arguments.drop 1, ¬ w.tree.Reaches a n :=
    fun a ha => ht.linked.not_reaches_of_link (hout a ha)
  rw [foldField]
  simp only [kept_eq]
  refine (extracted_takeArguments ht hlive (kept method arguments)
    (hnodup.sublist (List.drop_sublist 1 arguments)) hout (Extracted.refl w.tree)).bind ?_
  intro _ w₁ h₁
  rw [filter_not_mem_kept method hnodup] at h₁
  have ht₁ := h₁.sound ht
  have hlive₁ := h₁.isLive_of_clear ht.linked hlive hclear
  have habove : ∀ c ∈ kept method arguments, ¬ w₁.tree.Reaches c n := fun c hc hcn =>
    hclear c (kept_subset method arguments hc) (h₁.reaches_of_reaches hcn)
  have hstart := Assembled.start n (nodup_kept method hnodup) fun c hc =>
    loose_of_mem_kept ht.linked hlive hnodup hlinks h₁ hc
  refine (assembled_fixed ht₁ _ hstart).bind ?_
  rintro _ w₂ ⟨ids, hlength, rfl, h₂⟩
  refine (h₂.yields_add ht₁ (.classConstant type "class")).bind fun typeRef w₃ h₃ => ?_
  obtain ⟨t₄, hpush, h₄⟩ := h₃.append ht₁ hlive₁ habove
  refine Action.Yields.edit_bind hpush fun w₄ hw₄ => ?_
  subst hw₄
  -- what is left lies in the order of the options
  have hspare := h₄.perm List.perm_append_comm
  rw [← kept_eq, ← pieces_entries, kept_eq] at hspare
  rw [← nodes_entries]
  refine (assembled_pushOptions ht₁ hlive₁ habove _ hspare).bind ?_
  rintro _ w₅ ⟨array, harray, h₅⟩
  rw [sketches_entries _ _ _ hlength, ← options_eq] at harray
  refine Action.Yields.update_bind (Action.Yields.update_bind (Action.Yields.pure ?_))
  refine ⟨rfl, w₅.tree, ?_, rfl⟩
  rw [← harray]
  exact h₅.rebuilt h₁ ht.linked (w.tree.lt_size_of_isLive hlive) (kept_subset method arguments)

/-- An attribute makes no difference. -/
lemma Folded.setAttribute {receiver : NodeId} {arguments : List NodeId} {method type : String}
    (h : Folded t n receiver arguments method type t') (m : NodeId) (key : AttributeKey)
    (value : AttributeValue) :
    Folded t n receiver arguments method type (t'.setAttribute m key value) :=
  { h with
    reachable := h.reachable.edited (edited_setAttribute t' m key value)
    row := by
      obtain ⟨new, hrow, hshows⟩ := h.row
      exact ⟨new, hrow, hshows.setAttribute m key value⟩ }

section rebuilt

variable {receiver : NodeId} {arguments : List NodeId} {method : String} {sketches : List Sketch}
  (ht : t.WellLinked) (hlinks : ∀ a ∈ receiver :: arguments, t.Link n a)
  (h : Rebuilt t n (arguments.drop 1) (arguments.drop (used method)) sketches t')
include ht hlinks

omit ht in
lemma link_of_mem_drop {a : NodeId} {k : Nat} (ha : a ∈ arguments.drop k) : t.Link n a :=
  hlinks a (List.mem_cons_of_mem receiver (List.mem_of_mem_drop ha))

include h

lemma intact_of_used (hnodup : (receiver :: arguments).Nodup) {v : NodeId}
    (hv : v ∈ receiver :: arguments.take (used method)) : t.Intact t' v := by
  have hsplit : (receiver :: arguments.take (used method) ++
      arguments.drop (used method)).Nodup := by
    rwa [List.cons_append, List.take_append_drop]
  have hlink : t.Link n v := by
    apply hlinks
    exact List.cons_subset_cons receiver (List.take_subset _ _) hv
  refine h.intact ht (ht.link_lt hlink).2 (ht.not_reaches_of_link hlink) ?_ ?_
  · intro o ho hvo
    exact (ht.eq_of_siblings hlink (link_of_mem_drop hlinks ho) hvo (Reaches.refl o)).symm
  · intro g hg hgv
    have heq := ht.eq_of_siblings (link_of_mem_drop hlinks hg) hlink hgv (Reaches.refl v)
    exact absurd heq.symm ((List.nodup_append.mp hsplit).2.2 v hv g hg)

lemma isLive_eq_false_of_dropped {a m : NodeId} (ha : a ∈ arguments.drop (used method))
    (ham : t.Reaches a m) : t'.isLive m = false := by
  have hlink : t.Link n a := link_of_mem_drop hlinks ha
  refine h.isLive_eq_false (ht.lt_size_of_below (ht.link_lt hlink).2 ham) ha ham ?_
  intro o ho hom
  rw [ht.eq_of_siblings (link_of_mem_drop hlinks ho) hlink hom ham]

end rebuilt

/-- What is known of the rebuilt tree, read at the call. -/
lemma folded_of_rebuilt (ht : t.Reachable) (hlive : t.isLive n = true) {receiver : NodeId}
    {arguments : List NodeId} {method type former : String}
    (hcall : t.construct? n = some (.methodCall former))
    (hchildren : t.children n = receiver :: arguments)
    (h : Rebuilt t n (arguments.drop 1) (arguments.drop (used method))
      (.made (.classConstant type "class") [] :: Sketch.dictionary (options method arguments)) t') :
    Folded t n receiver arguments method type (t'.setConstruct n (.methodCall "add")) := by
  have hlinked := ht.sound.linked
  have hn : n < t.size := t.lt_size_of_isLive hlive
  have hcall' : t'.construct? n = some (.methodCall former) := (h.construct? n hn).trans hcall
  have hnodup : (receiver :: arguments).Nodup := hchildren ▸ hlinked.nodup_children n
  have hlinks : ∀ a ∈ receiver :: arguments, t.Link n a := by
    intro a ha
    rwa [← hlinked.mem_children_iff, hchildren]
  have habove : ∀ a ∈ arguments.drop 1, ¬ t.Reaches a n :=
    fun a ha => hlinked.not_reaches_of_link (link_of_mem_drop hlinks ha)
  have hnot : n ∉ arguments.drop 1 := fun hmem => habove n hmem (Reaches.refl n)
  have hlive' : t'.isLive n = true :=
    (h.isLive_eq hn fun g hg hgn => absurd hgn (habove g (h.subset hg))).trans hlive
  obtain ⟨new, hrow, hshows⟩ := h.row
  refine ⟨?_, ?_, ?_, ?_, ?_, ⟨new, ?_, hshows.setConstruct hn _⟩, ?_, ?_, ?_⟩
  · exact (ht.edited h.edited).edited (edited_setConstruct (lt_size_of_construct? hcall') _)
  · rw [root_setConstruct, h.root]
  · simp [construct?_setConstruct, hcall']
  · rw [parent?_setConstruct, h.parent? n hn hnot]
  · rw [isLive_setConstruct, hlive']
  · rw [children_setConstruct, hrow, hchildren]
    congr 1
    cases arguments with
    | nil => rfl
    | cons a rest =>
      simp only [List.nodup_cons, List.mem_cons, not_or] at hnodup
      simp [hnodup]
  · intro v hv
    have hintact := intact_of_used hlinked hlinks h hnodup hv
    refine hintact.setConstruct (hlinked.not_reaches_of_link (hlinks v ?_)) _
    exact List.cons_subset_cons receiver (List.take_subset _ _) hv
  · intro a ha m ham
    rw [isLive_setConstruct, isLive_eq_false_of_dropped hlinked hlinks h ha ham]
  · intro m hm hmn hclear
    rw [slot?_setConstruct, if_neg hmn]
    refine h.slot?_eq hlinked hm hmn hclear ?_
    intro a ha hlink
    exact hmn (hlink.unique (link_of_mem_drop hlinks ha))

/-! ### Calls on forms -/

/-- A field call on a form with arguments is folded, and one without is left alone. -/
lemma apply_eq_of_field (pass : Nat) {receiver : NodeId} {arguments : List NodeId}
    {method type : String} (hfresh : w.tree.attributes.flag n .processed = false)
    (hpresenter : inPresenter oracle w.tree n = true)
    (hcall : w.tree.construct? n = some (.methodCall method))
    (hchildren : w.tree.children n = receiver :: arguments)
    (hform : oracle.isInstance w.tree receiver form = true)
    (htype : fieldType? method = some type) :
    rule.apply oracle pass n w =
      (if arguments.isEmpty then return .unchanged else foldField n method type arguments :
        Action Outcome) w := by
  have honForm : onForm oracle w.tree n = true := by simp [onForm, child?, hchildren, hform]
  have harguments : w.tree.arguments n = arguments := by
    simp [Tree.arguments, kind?_of_construct hcall, hchildren, Construct.kind]
  show Forms.apply oracle pass n w = _
  rw [Forms.apply, Action.tree_bind_apply, hfresh, if_neg Bool.false_ne_true,
    Action.require_bind_apply (lt_size_of_construct? hcall), Action.tree_bind_apply, hpresenter]
  simp [hcall, htype, honForm, harguments]

/-- A field call on a form in a presenter is folded exactly. Without arguments it stays as it is. An
oracle could take a discarded receiver for a form, where no edit is possible; neither
`Oracle.unknown` nor `Oracle.ofIndex` does (`Oracle.seesOnlyLive_unknown`,
`Oracle.seesOnlyLive_ofIndex`). -/
theorem apply_folds_field_call (oracle : Oracle) (pass : Nat) {w : Workspace} {n receiver : NodeId}
    {arguments : List NodeId} {method type : String} (ht : w.tree.Reachable)
    (hsight : oracle.SeesOnlyLive ∨ w.tree.isLive n = true)
    (hfresh : w.tree.attributes.flag n .processed = false)
    (hpresenter : inPresenter oracle w.tree n = true)
    (hcall : w.tree.construct? n = some (.methodCall method))
    (hchildren : w.tree.children n = receiver :: arguments)
    (hform : oracle.isInstance w.tree receiver form = true)
    (htype : fieldType? method = some type) :
    (arguments = [] → rule.apply oracle pass n w = .ok .unchanged w) ∧
      (arguments ≠ [] → (rule.apply oracle pass n).Yields w fun outcome t' =>
        outcome = .mutated ∧ Folded w.tree n receiver arguments method type t') := by
  have happly := apply_eq_of_field pass hfresh hpresenter hcall hchildren hform htype
  have hlinks : ∀ a ∈ receiver :: arguments, w.tree.Link n a := by
    intro a ha
    rwa [← ht.sound.linked.mem_children_iff, hchildren]
  constructor
  · rintro rfl
    exact happly
  · intro hsome
    have hlive : w.tree.isLive n = true := by
      rcases hsight with hsight | hlive
      · rw [ht.sound.linked.isLive_eq n receiver (hlinks receiver List.mem_cons_self)]
        exact hsight w.tree receiver form hform
      · exact hlive
    have hnodup : (receiver :: arguments).Nodup := hchildren ▸ ht.sound.linked.nodup_children n
    rw [if_neg (by simpa using hsome)] at happly
    obtain ⟨_, w', hok, rfl, t₁, hrebuilt, htree⟩ := rebuilt_foldField ht.sound hlive method type
      hnodup.of_cons fun a ha => hlinks a (List.mem_cons_of_mem receiver ha)
    refine ⟨.mutated, w', happly.trans hok, rfl, ?_⟩
    rw [htree]
    exact (folded_of_rebuilt ht hlive hcall hchildren hrebuilt).setAttribute n _ _

/-- A presenter with one statement, which adds a field with a choice of colours to a form. -/
def colorField : Tree :=
  Command.runAll (Tree.new .file) [.add (.instantiation form), .add (.string "color"),
    .add (.string "Color:"), .add .array, .add (.int 1),
    .addWithChildren (.methodCall "addSelect") [1, 2, 3, 4, 5], .addWithChildren .expression [6],
    .addWithChildren (.method "render") [7],
    .addWithChildren (.classDecl "Palette" none [presenter]) [8], .pushChild 0 9]

theorem apply_folds_field_call_select :
    (rule.apply (.ofIndex {}) 0 6).Yields ⟨colorField, []⟩ fun outcome t' => outcome = .mutated ∧
      Folded colorField 6 1 [2, 3, 4, 5] "addSelect" (typeNamespace ++ "\\ChoiceType") t' := by
  have ht : colorField.Reachable := (Reachable.new .file).runAll _
  refine (apply_folds_field_call (.ofIndex {}) 0 ht (.inl (Oracle.seesOnlyLive_ofIndex {})) ?_ ?_ ?_
    ?_ ?_ ?_).2 (by simp)
  · decide +kernel
  · decide +kernel
  · decide +kernel
  · decide +kernel
  · decide +kernel
  · decide +kernel

/-- The class that a construction names, or the first interface of a class. -/
def classAtSight? (t : Tree) (id : NodeId) : Option String :=
  match t.construct? id with
  | some (.instantiation name) => some name
  | some (.classDecl _ _ interfaces) => interfaces.head?
  | _ => none

/-- An oracle that goes by constructs only and does not ask whether a node is live. -/
def bySight : Oracle where
  typeOf t id := (classAtSight? t id).map .object
  isSubtype name candidate := name == candidate
  isInstance t id candidate := classAtSight? t id == some candidate

/-- Once the presenter is discarded, an oracle may still see a field call on a form in it. The rule
begins to fold the call, and its first edit is refused. -/
theorem apply_fails_on_discarded_field_call :
    let t := ((Command.remove 9).run colorField).1
    t.Reachable ∧ t.isLive 6 = false ∧ t.attributes.flag 6 .processed = false ∧
      inPresenter bySight t 6 = true ∧ t.construct? 6 = some (.methodCall "addSelect") ∧
      t.children 6 = [1, 2, 3, 4, 5] ∧ bySight.isInstance t 1 form = true ∧
      (∃ type, fieldType? "addSelect" = some type) ∧
      rule.apply bySight 0 6 ⟨t, []⟩ = .error (.error (.invalidMutation 6 .notLive)) ⟨t, []⟩ := by
  intro t
  refine ⟨((Reachable.new .file).runAll _).run (.remove 9), ?_, ?_, ?_, ?_, ?_, ?_, ⟨_, rfl⟩, ?_⟩
  · decide +kernel
  · decide +kernel
  · decide +kernel
  · decide +kernel
  · decide +kernel
  · decide +kernel
  · rfl

end Catalogue.Forms

end CodeMigration
