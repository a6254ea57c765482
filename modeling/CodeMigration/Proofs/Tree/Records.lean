import CodeMigration.Proofs.Tree.Growth

/-!
# What becomes of recorded attributes

A command changes the attributes it names, and beyond that it takes away what is recorded on nodes
that it discards and what points at them. `Command.Relabels` says this once for all commands. It
follows that a value stays as it is along commands that do not write its key, as long as neither its
node nor the node it points at has been discarded (`Tree.Heeds`).
-/

namespace CodeMigration

namespace Tree

variable {t t' t'' : Tree} {key : AttributeKey}

/-! ### Discarded nodes -/

/-- The node has been allocated and discarded. -/
def Gone (t : Tree) (n : NodeId) : Prop := n < t.size ∧ t.isLive n = false

lemma not_gone_of_isLive {n : NodeId} (hn : t.isLive n = true) : ¬ t.Gone n := by
  rintro ⟨_, hdead⟩
  simp [hn] at hdead

lemma Grown.gone {n : NodeId} (h : Grown t t') (hn : t.Gone n) : t'.Gone n := by
  refine ⟨Nat.lt_of_lt_of_le hn.1 h.size_le, ?_⟩
  by_contra hlive
  have := h.live n hn.1 (by simpa using hlive)
  simp [hn.2] at this

/-- What lies below a discarded node is gone with it. -/
lemma gone_discard (h : t.WellLinked) {id : NodeId} (hid : t.isLive id = true) {n : NodeId}
    (hn : n ∈ t.descendants id) : (t.discard id).Gone n := by
  have hlive := h.isLive_of_reaches (h.mem_descendants_iff.mp hn)
  refine ⟨?_, by simp [isLive_discard, hn]⟩
  rw [size_discard]
  exact t.lt_size_of_isLive (hlive.symm.trans hid)

end Tree

/-! ### Single commands -/

namespace Command

/-- Whether a command is meant to change an attribute. -/
def writes (key : AttributeKey) : Command NodeId → Bool
  | .setAttribute _ key' _ | .pointAttribute _ key' _ | .removeAttribute _ key' | .clearKey key' =>
    key' == key
  | .forget _ => true
  | _ => false

/-- What a command can do to the attributes of a tree. -/
inductive Relabels (c : Command NodeId) (t t' : Tree) : Prop
  | same (h : t'.attributes = t.attributes)
  | discard {gone : List NodeId} (hgone : ∀ n ∈ gone, t'.Gone n)
      (h : t'.attributes = t.attributes.forget gone)
  | set {n : NodeId} {key : AttributeKey} {value : AttributeValue} (hc : c.writes key = true)
      (h : t'.attributes = t.attributes.set n key value)
  | erase {n : NodeId} {key : AttributeKey} (hc : key = .resolvedType ∨ c.writes key = true)
      (h : t'.attributes = t.attributes.erase n key)
  | clearKey {key : AttributeKey} (hc : c.writes key = true)
      (h : t'.attributes = t.attributes.clearKey key)
  | forget {nodes : List NodeId} (hc : ∀ key, c.writes key = true)
      (h : t'.attributes = t.attributes.forget nodes)

variable {t t' : Tree} {c : Command NodeId}

/-- A node is discarded after others have been linked anew. -/
lemma Relabels.of_discard {mid : Tree} (hmid : mid.WellLinked) {id : NodeId}
    (hid : mid.isLive id = true) (hattributes : mid.attributes = t.attributes) :
    Relabels c t (mid.discard id) := by
  refine .discard (fun n hn => Tree.gone_discard hmid hid hn) ?_
  rw [Tree.attributes_discard, hattributes]

lemma Relabels.touch (h : Relabels c t t') : Relabels c t t'.touch := by
  cases h with
  | same h => exact .same h
  | discard hgone h => exact .discard hgone h
  | set hc h => exact .set hc h
  | erase hc h => exact .erase hc h
  | clearKey hc h => exact .clearKey hc h
  | forget hc h => exact .forget hc h

lemma attributes_pushChildren (h : t.WellLinked) (p : NodeId) (children : List NodeId) :
    (t.pushChildren p children).1.attributes = t.attributes := by
  refine (Tree.pushChildren_induction (P := fun t' => t'.WellLinked ∧
    t'.attributes = t.attributes) ?_ ⟨h, rfl⟩ children).2
  intro t₁ t₂ child ⟨h₁, hsame⟩ hok
  refine ⟨h₁.pushChild hok, Eq.trans ?_ hsame⟩
  obtain ⟨_, rfl⟩ := (Tree.pushChild_eq_ok_iff h₁).mp hok
  exact Tree.attributes_relink ..

lemma attributes_takeChildren (t : Tree) (n : NodeId) :
    (t.takeChildren n).1.attributes = t.attributes :=
  t.takeChildren_cases (P := fun t' => t'.attributes = t.attributes)
    (fun _ => Tree.attributes_relink ..) (Tree.attributes_relink ..)

lemma relabels_removeChild (h : t.WellLinked) {p child : NodeId}
    (hok : t.removeChild p child = .ok t') : Relabels c t t' := by
  obtain ⟨hlive, hlink, rfl⟩ := (Tree.removeChild_eq_ok_iff h).mp hok
  refine .of_discard (h.spliceChild hlink hlive List.nodup_nil (by simp)).touch ?_
    (Tree.attributes_relink ..)
  exact (Tree.isLive_relink ..).trans hlive

lemma relabels_replaceChild (h : t.WellLinked) {p old new : NodeId}
    (hok : t.replaceChild p old new = .ok t') : Relabels c t t' := by
  obtain ⟨hlive, hlink, hnew, rfl⟩ := (Tree.replaceChild_eq_ok_iff h).mp hok
  have hmid := h.spliceChild hlink hlive (List.nodup_singleton new) (by simpa using hnew)
  refine (Relabels.of_discard hmid ?_ (Tree.attributes_relink ..)).touch
  exact (Tree.isLive_relink ..).trans hlive

/-- What a command other than those of checkpoints does to the attributes. -/
lemma relabels_run (hc : c.isPlain = true) (h : t.WellLinked) : Relabels c t (c.run t).1 := by
  cases c with
  | add k => exact .same rfl
  | addWithChildren k children =>
    refine .same ?_
    rw [run_addWithChildren, Tree.addWithChildren_eq]
    exact attributes_pushChildren (h.add k) t.size children
  | pushChild p child =>
    refine settle_fst (Edit.atomic_pushChild ..) (.same rfl) fun t' hok => .same ?_
    obtain ⟨_, rfl⟩ := (Tree.pushChild_eq_ok_iff h).mp hok
    exact Tree.attributes_relink ..
  | insertChild p i child =>
    refine settle_fst (Edit.atomic_insertChild ..) (.same rfl) fun t' hok => .same ?_
    obtain ⟨_, _, rfl⟩ := (Tree.insertChild_eq_ok_iff h).mp hok
    exact Tree.attributes_relink ..
  | detach p child =>
    refine settle_fst (Edit.atomic_detach ..) (.same rfl) fun t' hok => .same ?_
    obtain ⟨_, _, rfl⟩ := (Tree.detach_eq_ok_iff h).mp hok
    exact Tree.attributes_relink ..
  | removeChild p child =>
    exact settle_fst (Edit.atomic_removeChild ..) (.same rfl)
      fun t' hok => relabels_removeChild h hok
  | remove n =>
    refine settle_fst (Edit.atomic_remove ..) (.same rfl) fun t' hok => ?_
    obtain ⟨hlive, ⟨p, _, hok⟩ | ⟨_, _, rfl⟩⟩ := Tree.remove_eq_ok_iff.mp hok
    · exact relabels_removeChild h hok
    · exact (Relabels.of_discard h hlive rfl).touch
  | replaceChild p old new =>
    exact settle_fst (Edit.atomic_replaceChild ..) (.same rfl)
      fun t' hok => relabels_replaceChild h hok
  | replace old new =>
    refine settle_fst (Edit.atomic_replace ..) (.same rfl) fun t' hok => ?_
    obtain ⟨hlive, ⟨p, _, hok⟩ | ⟨_, _, hnew, hfree, _, rfl⟩⟩ := (Tree.replace_eq_ok_iff h).mp hok
    · exact relabels_replaceChild h hok
    · have hroot : ({ t with root := new } : Tree).attributes = t.attributes := rfl
      exact (Relabels.of_discard (h.withRoot hnew hfree) hlive hroot).touch
  | replaceWithMany old new =>
    refine inside_fst (.same rfl) fun _ =>
      settle_fst (Edit.atomic_replaceWithMany ..) (.same rfl) fun t' hok => ?_
    obtain ⟨p, hlink, hlive, hnd, hnew, rfl⟩ := (Tree.replaceWithMany_eq_ok_iff h).mp hok
    refine (Relabels.of_discard (h.spliceChild hlink hlive hnd hnew) ?_
      (Tree.attributes_relink ..)).touch
    exact (Tree.isLive_relink ..).trans hlive
  | takeChildren n => exact inside_fst (.same rfl) fun _ => .same (attributes_takeChildren t n)
  | setConstruct n k =>
    refine inside_fst (.same rfl) fun _ => .erase (n := n) (Or.inl rfl) ?_
    exact Tree.attributes_modifySlot ..
  | setAttribute n key value => exact .set (by simp [writes]) rfl
  | pointAttribute n key target => exact .set (by simp [writes]) rfl
  | removeAttribute n key => exact .erase (Or.inr (by simp [writes])) rfl
  | clearKey key => exact .clearKey (by simp [writes]) rfl
  | forget nodes => exact .forget (fun _ => rfl) rfl
  | checkpoint => cases hc
  | commit => cases hc
  | rollback => cases hc

/-- A command that does not write a key changes its values only by discarding nodes. -/
lemma Relabels.same_or_discard {key : AttributeKey} (hr : Relabels c t t')
    (hd : t.attributes.Distinct) (hkey : key ≠ .resolvedType) (hw : c.writes key = false) :
    (∀ n, t'.attribute? n key = t.attribute? n key) ∨
      ∃ gone, (∀ n ∈ gone, t'.Gone n) ∧ t'.attributes = t.attributes.forget gone := by
  have hne : ∀ {key'}, c.writes key' = true → key ≠ key' := by
    rintro key' hw' rfl
    simp [hw] at hw'
  simp only [Tree.attribute?]
  cases hr with
  | same heq => exact Or.inl fun n => by rw [heq]
  | discard hgone heq => exact Or.inr ⟨_, hgone, heq⟩
  | set hw' heq =>
    left
    intro n
    rw [heq, Attributes.get?_set, if_neg fun h => hne hw' h.2]
  | erase hw' heq =>
    left
    intro n
    rw [heq, hd.get?_erase, if_neg]
    rintro ⟨_, rfl⟩
    exact hw'.elim hkey fun hw' => hne hw' rfl
  | clearKey hw' heq =>
    left
    intro n
    rw [heq, Attributes.get?_clearKey, if_neg (hne hw')]
  | forget hw' _ => exact absurd rfl (hne (hw' key))

end Command

namespace Tree

variable {t t' t'' : Tree} {key : AttributeKey}

/-! ### Values that stay -/

/-- No value of a key is new, and those that are lost were on a discarded node or pointed at
one. -/
structure Heeds (key : AttributeKey) (t t' : Tree) : Prop where
  grown : Grown t t'
  only : ∀ {n value}, t'.attribute? n key = some value → t.attribute? n key = some value
  keeps : ∀ {n value}, t.attribute? n key = some value → ¬ t'.Gone n →
    (∀ c, value = .node c → ¬ t'.Gone c) → t'.attribute? n key = some value

lemma Heeds.of_same (hslots : t'.slots = t.slots)
    (hbags : t'.attributes.bags = t.attributes.bags) : Heeds key t t' := by
  have hget : ∀ n, t'.attribute? n key = t.attribute? n key := by
    intro n
    rw [attribute?, Attributes.get?, hbags, attribute?, Attributes.get?]
  refine ⟨Grown.of_slots hslots, fun {n v} hv => ?_, fun {n v} hv _ _ => ?_⟩
  · rwa [← hget]
  · rwa [hget]

@[refl] lemma Heeds.refl (key : AttributeKey) (t : Tree) : Heeds key t t := Heeds.of_same rfl rfl

lemma Heeds.trans (h : Heeds key t t') (h' : Heeds key t' t'') : Heeds key t t'' where
  grown := h.grown.trans h'.grown
  only hv := h.only (h'.only hv)
  keeps hv hn hc := by
    have hkept := h.keeps hv (fun hgone => hn (h'.grown.gone hgone))
      fun c heq hgone => hc c heq (h'.grown.gone hgone)
    exact h'.keeps hkept hn hc

lemma heeds_run {c : Command NodeId} (hc : c.isPlain = true) (hw : c.writes key = false)
    (hkey : key ≠ .resolvedType) (hs : t.Sound) : Heeds key t (c.run t).1 := by
  have hr := Command.relabels_run hc hs.linked
  have hgrown : Grown t (c.run t).1 := (step_run hc t).grown
  rcases hr.same_or_discard hs.distinct hkey hw with hsame | ⟨gone, hgone, heq⟩
  · refine ⟨hgrown, fun {n v} hv => ?_, fun {n v} hv _ _ => ?_⟩
    · rwa [← hsame]
    · rwa [hsame]
  · refine ⟨hgrown, fun {n v} hv => ?_, fun {n v} hv hn hpoints => ?_⟩
    · rw [attribute?, heq] at hv
      rcases hs.distinct.get?_trimmed (Attributes.trimmed_forget _ gone) n key with hget | hget
      · rwa [hget] at hv
      · rw [hget] at hv
        cases hv
    · rw [attribute?, heq]
      refine Attributes.get?_forget _ _ (fun hmem => hn (hgone n hmem)) hv ?_
      cases v with
      | node m =>
        have hm : m ∉ gone := fun hmem => hpoints m rfl (hgone m hmem)
        simpa [AttributeValue.pointsInto, AttributeValue.asNode?] using hm
      | _ => rfl

/-- Along commands that do not write a key its values stay, also where the row opens checkpoints and
returns to them. -/
lemma Sound.heeds_runAll {cmds : List (Command NodeId)} (hkey : key ≠ .resolvedType)
    (hw : ∀ c ∈ cmds, c.writes key = false) (hback : t.journal = none ∨ .rollback ∉ cmds)
    (hs : t.Sound) : Heeds key t (Command.runAll t cmds) := by
  refine hs.runAll_preserves (fun {t' c} hc hplain hs' h => ?_) (fun h => ?_) (fun h => ?_)
    (Heeds.refl key t) fun hmem => ?_
  · exact h.trans (heeds_run hplain (hw c hc) hkey hs')
  · exact h.trans (.of_same rfl rfl)
  · exact h.trans (.of_same rfl rfl)
  · rw [Tree.rollback, hback.resolve_right (absurd hmem)]

end Tree

end CodeMigration
