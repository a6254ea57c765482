import CodeMigration.Proofs.Catalogue.Controllers

/-!
# The methods of a converted control

The `render` method of a control is named after the class, whatever else the class declares. The
names of the methods stay distinct unless another method of the class has that name already.
-/

namespace CodeMigration

namespace Tree

variable {t : Tree} {n m : NodeId} {name : String}

/-- The name of a method; other nodes have none. -/
def methodName? (t : Tree) (m : NodeId) : Option String :=
  match t.construct? m with
  | some (.method name) => some name
  | _ => none

/-- The names of the methods right below a node, in order. -/
def methodNames (t : Tree) (n : NodeId) : List String := (t.children n).filterMap t.methodName?

lemma methodName?_eq_some_iff :
    t.methodName? m = some name ↔ t.construct? m = some (.method name) := by
  grind [methodName?]

lemma WellLinked.nodup_methodNames_iff (ht : t.WellLinked) :
    (t.methodNames n).Nodup ↔ ∀ m ∈ t.children n, ∀ m' ∈ t.children n, ∀ name,
      t.methodName? m = some name → t.methodName? m' = some name → m = m' := by
  rw [methodNames, List.Nodup, List.pairwise_filterMap]
  constructor
  · intro h m hm m' hm' name hname hname'
    by_contra hne
    have : Std.Symm fun a a' => ∀ b, t.methodName? a = some b →
        ∀ b', t.methodName? a' = some b' → b ≠ b' :=
      ⟨fun _ _ hab b hb b' hb' => (hab b' hb' b hb).symm⟩
    exact h.forall hm hm' hne name hname name hname' rfl
  · intro h
    refine (ht.nodup_children n).pairwise_of_forall_ne fun m hm m' hm' hne name hname _ hname' => ?_
    rintro rfl
    exact hne (h m hm m' hm' name hname hname')

end Tree

namespace Catalogue.Controls

open CodeMigration.Tree

variable {oracle : Oracle} {t t' : Tree} {n method file : NodeId} {w w' : Workspace}
  {assigned : List (String × NodeId)} {rest : List NodeId}

/-! ### Discarded controls -/

/-- A discarded node is not taken out of its parent. -/
lemma release_of_discarded (ht : w.tree.WellLinked) {p v : NodeId} (hlink : w.tree.Link p v)
    (hlive : w.tree.isLive v = false) : release v w ≠ .ok () w' := by
  intro h
  obtain ⟨_, _, htree, hedit⟩ := EStateM.bind_eq_ok_iff.mp h
  cases htree
  rw [hlink] at hedit
  obtain ⟨t', hdetach, _⟩ := Action.edit_eq_ok_iff.mp hedit
  have hok : w.tree.detach p v = .ok t' := Edit.result_eq_ok_iff.mpr hdetach
  simp [((detach_eq_ok_iff ht).mp hok).1] at hlive

/-- In a discarded method nothing is gathered. -/
lemma gather_of_discarded (ht : w.tree.WellLinked) (hlive : w.tree.isLive method = false)
    (hc : Collects w.tree (w.tree.children method) assigned (some file) rest) :
    gather method (templateUse w.tree method) file w ≠ .ok () w' := by
  have hrelease : ∀ v ∈ file :: assigned.map Prod.snd, ∀ w'', release v w ≠ .ok () w'' := by
    intro v hv w''
    obtain ⟨_, _, hs, _⟩ := hands_of_collects ht hc hv
    obtain ⟨e, hbelow, hlink⟩ := hs.below ht (Reaches.refl method)
    have hlive' := (ht.isLive_of_reaches (hbelow.trans hlink.reaches)).symm.trans hlive
    exact release_of_discarded ht hlink hlive'
  intro h
  rw [gather, hc.templateUse_eq] at h
  obtain ⟨_, w₁, hassigned, h⟩ := EStateM.bind_eq_ok_iff.mp h
  cases assigned with
  | nil =>
    cases hassigned
    obtain ⟨_, w₂, hfile, _⟩ := EStateM.bind_eq_ok_iff.mp h
    exact hrelease file (by simp) w₂ hfile
  | cons entry assigned =>
    obtain ⟨_, w₂, hfirst, _⟩ := EStateM.bind_eq_ok_iff.mp hassigned
    exact hrelease entry.2 (by simp) w₂ hfirst

/-! ### The methods afterwards -/

/-- A class that has been changed is a live control that shows a file, and its template statements
are gathered. -/
lemma gathered_of_mutated (pass : Nat) {name : String} {parent : Option String}
    {interfaces : List String} (ht : w.tree.Reachable)
    (hclass : w.tree.construct? n = some (.classDecl name parent interfaces))
    (h : rule.apply oracle pass n w = .ok .mutated w') :
    ∃ method file assigned rest, ShowsFile oracle w.tree n method file assigned rest ∧
      Gathered w.tree n method file assigned rest name interfaces w'.tree := by
  have hlinked := ht.sound.linked
  by_cases hshows : ∃ method file assigned rest,
      ShowsFile oracle w.tree n method file assigned rest
  · obtain ⟨method, file, assigned, rest, hshows⟩ := hshows
    refine ⟨method, file, assigned, rest, hshows, ?_⟩
    have hmethod : w.tree.construct? method = some (.method "render") := by
      simpa using List.find?_some hshows.render
    have hlink : w.tree.Link n method :=
      (hlinked.mem_children_iff n method).mp (List.mem_of_find?_eq_some hshows.render)
    rw [apply_eq_convert pass hclass hshows] at h
    obtain ⟨_, w₁, hgather, h⟩ := EStateM.bind_eq_ok_iff.mp h
    cases h
    cases hlive : w.tree.isLive n with
    | false =>
      have hlive' := (hlinked.isLive_eq n method hlink).symm.trans hlive
      exact absurd hgather (gather_of_discarded hlinked hlive' hshows.collects)
    | true =>
      have hlive' := (hlinked.isLive_eq n method hlink).symm.trans hlive
      obtain ⟨_, w₂, hok, hrebuilt⟩ := rebuilt_gather ht.sound hlive' hshows.collects
      obtain ⟨-, rfl⟩ := EStateM.Result.ok.inj (hok.symm.trans hgather)
      exact gathered_of_rebuilt ht hlive hclass hlink hmethod hshows.collects hrebuilt
  · rw [apply_eq_unchanged pass hclass hshows] at h
    cases h

/-- Of the methods of the class only `render` gets another name. -/
lemma Gathered.methodName? {name : String} {interfaces : List String} (ht : t.WellLinked)
    (hlink : t.Link n method)
    (h : Gathered t n method file assigned rest name interfaces t') {m : NodeId}
    (hm : m ∈ t.children n) :
    t'.methodName? m = if m = method then some (actionName name) else t.methodName? m := by
  have hlink' : t.Link n m := (ht.mem_children_iff n m).mp hm
  split
  · next heq => rw [heq, methodName?_eq_some_iff, h.action]
  · next hne =>
    have hslot : t'.slot? m = t.slot? m := by
      refine h.others m (ht.link_lt hlink').2 ?_ hne fun s hs _ hsm => ?_
      · rintro rfl
        exact ht.not_reaches_of_link hlink' (Reaches.refl _)
      · have hs' := (ht.mem_children_iff method s).mp hs
        exact hne (ht.eq_of_siblings hlink' hlink (Reaches.refl m) (hs'.reaches.trans hsm))
    rw [Tree.methodName?, Tree.methodName?, construct?, hslot, construct?]

/-- The names of the methods of a converted control are distinct exactly if no method but `render`
had the new name before. -/
theorem nodup_methodNames_iff_of_mutated (oracle : Oracle) (pass : Nat) {w w' : Workspace}
    {n : NodeId} {name : String} {parent : Option String} {interfaces : List String}
    (ht : w.tree.Reachable)
    (hclass : w.tree.construct? n = some (.classDecl name parent interfaces))
    (hnames : (w.tree.methodNames n).Nodup)
    (h : rule.apply oracle pass n w = .ok .mutated w') :
    (w'.tree.methodNames n).Nodup ↔ ∀ m ∈ w.tree.children n,
      w.tree.construct? m = some (.method (actionName name)) →
        w.tree.construct? m = some (.method "render") := by
  have hlinked := ht.sound.linked
  obtain ⟨method, file, assigned, rest, hshows, hgathered⟩ := gathered_of_mutated pass ht hclass h
  have hrender : w.tree.methodName? method = some "render" := by
    simpa [methodName?_eq_some_iff] using List.find?_some hshows.render
  have hmem : method ∈ w.tree.children n := List.mem_of_find?_eq_some hshows.render
  have hname := fun m hm => hgathered.methodName? (m := m) hlinked
    ((hlinked.mem_children_iff n method).mp hmem) hm
  rw [hlinked.nodup_methodNames_iff] at hnames
  rw [hgathered.reachable.sound.linked.nodup_methodNames_iff, hgathered.members]
  simp only [← methodName?_eq_some_iff]
  constructor
  · intro hdistinct m hm haction
    obtain rfl : m = method := by
      by_contra hne
      refine hne (hdistinct m hm method hmem (actionName name) ?_ ?_)
      · rw [hname m hm, if_neg hne, haction]
      · rw [hname method hmem, if_pos rfl]
    exact hrender
  · intro hclear m hm m' hm' s hs hs'
    rw [hname m hm] at hs
    rw [hname m' hm'] at hs'
    grind

/-- A control `PollControl` that shows a file, with one more method. -/
def pollWith (other : String) : Tree :=
  Command.runAll (Tree.new .file) [.add (.variableRef "this"),
    .addWithChildren (.propertyFetch "template") [1], .add (.string "poll.latte"),
    .addWithChildren (.methodCall "render") [2, 3], .addWithChildren .expression [4],
    .addWithChildren (.method "render") [5], .add (.method other),
    .addWithChildren (.classDecl "PollControl" (some control) []) [6, 7], .pushChild 0 8]

/-- The names of the methods of a node after an application that changed it. -/
def namesAfter (n : NodeId) : EStateM.Result Failure Workspace Outcome → Option (List String)
  | .ok .mutated w => some (w.tree.methodNames n)
  | _ => none

lemma exists_of_namesAfter {r : EStateM.Result Failure Workspace Outcome} {names : List String}
    (h : namesAfter n r = some names) :
    ∃ w, r = .ok .mutated w ∧ w.tree.methodNames n = names := by
  rw [namesAfter.eq_def] at h
  split at h
  · next w => exact ⟨w, rfl, Option.some.inj h⟩
  · cases h

theorem nodup_methodNames_vote :
    ∃ w, rule.apply .unknown 1 8 ⟨pollWith "vote", []⟩ = .ok .mutated w ∧
      (w.tree.methodNames 8).Nodup := by
  have ht : (pollWith "vote").Reachable := (Reachable.new .file).runAll _
  have hclass : (pollWith "vote").construct? 8 =
      some (.classDecl "PollControl" (some control) []) := by decide +kernel
  have hnames : (pollWith "vote").methodNames 8 = ["render", "vote"] := by decide +kernel
  have hclear : ∀ m ∈ (pollWith "vote").children 8,
      (pollWith "vote").construct? m = some (.method (actionName "PollControl")) →
        (pollWith "vote").construct? m = some (.method "render") := by decide +kernel
  have hafter : namesAfter 8 (rule.apply .unknown 1 8 ⟨pollWith "vote", []⟩) =
      some ["poll", "vote"] := by decide +kernel
  obtain ⟨w, hok, _⟩ := exists_of_namesAfter hafter
  refine ⟨w, hok, ?_⟩
  -- the tree is not to be computed from here on
  generalize pollWith "vote" = t at *
  refine (nodup_methodNames_iff_of_mutated .unknown 1 ht hclass ?_ hok).mpr hclear
  rw [hnames]
  decide

/-- The new name of `render` is not checked against the other methods. -/
theorem methodNames_poll_clash :
    ¬ ∀ (oracle : Oracle) (pass : Nat) (w w' : Workspace) (n : NodeId), w.tree.Reachable →
      w.tree.kind? n = some .classDecl → (w.tree.methodNames n).Nodup →
        rule.apply oracle pass n w = .ok .mutated w' → (w'.tree.methodNames n).Nodup := by
  intro h
  have ht : (pollWith "poll").Reachable := (Reachable.new .file).runAll _
  have hkind : (pollWith "poll").kind? 8 = some .classDecl := by decide +kernel
  have hnames : (pollWith "poll").methodNames 8 = ["render", "poll"] := by decide +kernel
  have hafter : namesAfter 8 (rule.apply .unknown 1 8 ⟨pollWith "poll", []⟩) =
      some ["poll", "poll"] := by decide +kernel
  obtain ⟨w, hok, hclash⟩ := exists_of_namesAfter hafter
  generalize pollWith "poll" = t at *
  have hnodup := h .unknown 1 _ w 8 ht hkind (by rw [hnames]; decide) hok
  rw [hclash] at hnodup
  exact absurd hnodup (by decide)

end Catalogue.Controls

end CodeMigration
