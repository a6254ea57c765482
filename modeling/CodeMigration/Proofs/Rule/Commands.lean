import CodeMigration.Proofs.Pass.Quiet
import CodeMigration.Proofs.Tree.Records

/-!
# Actions that work by commands

An action that changes the tree only through the edits of the library comes down to a row of plain
commands, whether it succeeds or fails on the way. The arena only grows, so a node that is in it at
one point is in it later on. None of these commands writes a position or formatting data, and none
takes a flag back (`Tree.Reshaped`).
-/

namespace CodeMigration

/-- Whether a command records nothing but flags that are set. -/
def Command.keepsFlags : Command NodeId → Bool
  | .setAttribute _ _ (.flag true) => true
  | .setAttribute .. | .pointAttribute .. | .removeAttribute .. | .clearKey _ | .forget _ => false
  | _ => true

/-- Whether a command is plain, writes neither a position nor formatting data, and takes no flag
back. -/
def Command.sparesExtras (c : Command NodeId) : Bool :=
  c.isPlain && !c.writes .span && !c.writes .layout && c.keepsFlags

lemma Command.sparesExtras_iff {c : Command NodeId} : c.sparesExtras = true ↔
    ((c.isPlain = true ∧ c.writes .span = false) ∧ c.writes .layout = false) ∧
      c.keepsFlags = true := by
  simp only [sparesExtras, Bool.and_eq_true, Bool.not_eq_true']

namespace Tree

variable {t t' t'' : Tree}

/-- `t'` comes about from `t` by plain commands that write neither positions nor formatting data
and take no flag back. -/
def Reshaped (t t' : Tree) : Prop :=
  ∃ cmds : List (Command NodeId), (∀ c ∈ cmds, c.sparesExtras = true) ∧ t' = Command.runAll t cmds

lemma Reshaped.refl (t : Tree) : Reshaped t t := ⟨[], by simp, rfl⟩

lemma Reshaped.trans (h : Reshaped t t') (h' : Reshaped t' t'') : Reshaped t t'' := by
  obtain ⟨cmds, hspares, rfl⟩ := h
  obtain ⟨cmds', hspares', rfl⟩ := h'
  refine ⟨cmds ++ cmds', ?_, (Command.runAll_append _ _ _).symm⟩
  exact List.forall_mem_append.mpr ⟨hspares, hspares'⟩

lemma Reshaped.edited (h : Reshaped t t') : Edited t t' := by
  obtain ⟨cmds, hspares, rfl⟩ := h
  refine ⟨cmds, fun c hc => ?_, rfl⟩
  exact (Command.sparesExtras_iff.mp (hspares c hc)).1.1.1

/-- The values of both keys stay. -/
lemma Sound.heeds_reshaped (hs : t.Sound) (h : Reshaped t t') {key : AttributeKey}
    (hkey : key = .span ∨ key = .layout) : Heeds key t t' := by
  obtain ⟨cmds, hspares, rfl⟩ := h
  have hboth : ∀ c ∈ cmds, c.isPlain = true ∧ c.writes key = false := by
    intro c hc
    obtain ⟨⟨⟨hplain, hspan⟩, hlayout⟩, _⟩ := Command.sparesExtras_iff.mp (hspares c hc)
    rcases hkey with rfl | rfl
    · exact ⟨hplain, hspan⟩
    · exact ⟨hplain, hlayout⟩
  refine hs.heeds_runAll ?_ (fun c hc => (hboth c hc).2) (Or.inr fun hc => ?_)
  · rcases hkey with rfl | rfl <;> decide
  · cases (hboth _ hc).1

/-- A flag stays set on a node as long as the node is not discarded. -/
lemma flag_run (hs : t.Sound) {c : Command NodeId} (hc : c.sparesExtras = true) {n : NodeId}
    {key : AttributeKey} (hkey : key ≠ .resolvedType) (hn : ¬ (c.run t).1.Gone n)
    (hflag : t.attributes.flag n key = true) : (c.run t).1.attributes.flag n key = true := by
  obtain ⟨⟨⟨hplain, _⟩, _⟩, hkeeps⟩ := Command.sparesExtras_iff.mp hc
  cases hwrites : c.writes key with
  | false =>
    have hvalue : t.attribute? n key = some (.flag true) := by
      rw [attribute?]
      rw [Attributes.flag] at hflag
      cases hget : t.attributes.get? n key with
      | none => simp [hget] at hflag
      | some value => cases value <;> simp_all [AttributeValue.asFlag?]
    have hkept := (heeds_run hplain hwrites hkey hs).keeps hvalue hn (by simp)
    rw [attribute?] at hkept
    simp [Attributes.flag, hkept, AttributeValue.asFlag?]
  | true =>
    -- the only command that is left sets a flag
    cases c with
    | setAttribute m key' value =>
      cases value with
      | flag b =>
        cases b with
        | true =>
          show (t.attributes.set m key' (.flag true)).flag n key = true
          rw [Attributes.flag, Attributes.get?_set]
          split
          · rfl
          · exact hflag
        | false => cases hkeeps
      | _ => cases hkeeps
    | pointAttribute _ _ _ => cases hkeeps
    | removeAttribute _ _ => cases hkeeps
    | clearKey _ => cases hkeeps
    | forget _ => cases hkeeps
    | _ => cases hwrites

lemma Sound.flag_reshaped (hs : t.Sound) (h : Reshaped t t') {n : NodeId} {key : AttributeKey}
    (hkey : key ≠ .resolvedType) (hn : ¬ t'.Gone n) (hflag : t.attributes.flag n key = true) :
    t'.attributes.flag n key = true := by
  obtain ⟨cmds, hspares, rfl⟩ := h
  induction cmds generalizing t with
  | nil => exact hflag
  | cons c cmds ih =>
    obtain ⟨hc, hspares⟩ := List.forall_mem_cons.mp hspares
    have hplain := (Command.sparesExtras_iff.mp hc).1.1.1
    have hs' : (c.run t).1.Sound := hs.edited (t.edited_run c hplain)
    have hrest : Reshaped (c.run t).1 (Command.runAll (c.run t).1 cmds) := ⟨cmds, hspares, rfl⟩
    refine ih hs' (flag_run hs hc hkey (fun hgone => hn ?_) hflag) hspares hn
    exact hrest.edited.grown.gone hgone

lemma reshaped_run (t : Tree) (c : Command NodeId) (hc : c.sparesExtras = true) :
    Reshaped t (c.run t).1 := ⟨[c], by simpa using hc, rfl⟩

lemma reshaped_setConstruct {n : NodeId} (hn : n < t.size) (c : Construct) :
    Reshaped t (t.setConstruct n c) := by
  have hrun := t.reshaped_run (.setConstruct n c) rfl
  have hin : t.contains n = true := by simpa [contains] using hn
  rwa [Command.run, Command.inside, if_pos hin] at hrun

lemma reshaped_setFlag (t : Tree) (n : NodeId) {key : AttributeKey}
    (hkey : key ≠ .span ∧ key ≠ .layout) : Reshaped t (t.setAttribute n key (.flag true)) := by
  refine t.reshaped_run (.setAttribute n key (.flag true)) ?_
  simp [Command.sparesExtras, Command.isPlain, Command.writes, Command.keepsFlags, hkey]

end Tree

namespace Action

variable {α β : Type} {k : Nat}

/-- The action works by plain commands that leave positions, formatting data and flags alone, and
asks for no file. -/
def EditsAt (w : Workspace) (m : Action α) : Prop :=
  w.tree.Reshaped (m.after w).tree ∧ (m.after w).files = w.files

lemma EditsAt.pure (a : α) (w : Workspace) : EditsAt w (pure a : Action α) := ⟨.refl w.tree, rfl⟩

/-- The action does so on every tree with at least so many slots. -/
def EditsFrom (k : Nat) (m : Action α) : Prop := ∀ w : Workspace, k ≤ w.tree.size → EditsAt w m

namespace EditsFrom

lemma pure (a : α) : EditsFrom k (pure a : Action α) := fun w _ => .pure a w

lemma bind {m : Action α} {f : α → Action β} (hm : EditsFrom k m) (hf : ∀ a, EditsFrom k (f a)) :
    EditsFrom k (m >>= f) := by
  intro w hw
  obtain ⟨hfirst, hfiles⟩ := hm w hw
  show EditsAt w (EStateM.bind m f)
  rw [EditsAt, after, EStateM.bind]
  rw [after] at hfirst hfiles
  cases hok : m w with
  | ok a w' =>
    rw [hok] at hfirst hfiles
    obtain ⟨hrest, hfiles'⟩ := hf a w' (Nat.le_trans hw hfirst.edited.grown.size_le)
    exact ⟨hfirst.trans hrest, hfiles'.trans hfiles⟩
  | error e w' =>
    rw [hok] at hfirst hfiles
    exact ⟨hfirst, hfiles⟩

/-- What is done next may depend on the tree. -/
lemma tree_bind {f : Tree → Action β}
    (hf : ∀ w : Workspace, k ≤ w.tree.size → EditsAt w (f w.tree)) :
    EditsFrom k (tree >>= f) := fun w hw => hf w hw

lemma tree_bind_all {f : Tree → Action β} (hf : ∀ t, EditsFrom k (f t)) :
    EditsFrom k (tree >>= f) := tree_bind fun w hw => hf w.tree w hw

lemma require_bind {n : NodeId} {f : Unit → Action β} (hf : EditsFrom (n + 1) (f ())) :
    EditsFrom k (require n >>= f) := by
  intro w _
  have hrequire : require n w =
      (if w.tree.contains n then Pure.pure () else abort (.outsideArena w.tree.size n)) w := rfl
  show EditsAt w (EStateM.bind (require n) f)
  rw [EditsAt, after, EStateM.bind, hrequire]
  cases hn : w.tree.contains n with
  | true =>
    have hlt : n < w.tree.size := by simpa [Tree.contains] using hn
    exact hf w hlt
  | false => exact ⟨.refl w.tree, rfl⟩

lemma update {f : Tree → Tree} (hf : ∀ t : Tree, k ≤ t.size → t.Reshaped (f t)) :
    EditsFrom k (update f) := fun w hw => ⟨hf w.tree hw, rfl⟩

/-- An edit that is one of the commands. -/
lemma command {m : Edit Unit} {reply : Reply} (c : Command NodeId) (hc : c.sparesExtras = true)
    (hrun : ∀ t, c.run t = Command.settle t reply m) : EditsFrom k (edit m) := by
  intro w _
  have hreshaped := w.tree.reshaped_run c hc
  rw [hrun, Command.settle] at hreshaped
  rw [EditsAt, after, edit]
  cases hm : m w.tree with
  | ok _ t' =>
    rw [hm] at hreshaped
    exact ⟨hreshaped, rfl⟩
  | error e t' =>
    rw [hm] at hreshaped
    exact ⟨hreshaped, rfl⟩

lemma setConstruct {n : NodeId} (hn : n < k) (c : Construct) :
    EditsFrom k (Action.update (·.setConstruct n c)) :=
  update fun _ ht => Tree.reshaped_setConstruct (Nat.lt_of_lt_of_le hn ht) c

lemma mark (n : NodeId) {key : AttributeKey} (hkey : key ≠ .span ∧ key ≠ .layout) :
    EditsFrom k (mark n key) :=
  update fun t _ => t.reshaped_setFlag n hkey

lemma add (c : Construct) : EditsFrom k (add c) :=
  fun w _ => ⟨w.tree.reshaped_run (.add c) rfl, rfl⟩

lemma addWithChildren (c : Construct) (children : List NodeId) :
    EditsFrom k (addWithChildren c children) := by
  intro w _
  have hreshaped := w.tree.reshaped_run (.addWithChildren c children) rfl
  rw [Command.run] at hreshaped
  rw [EditsAt, after, Action.addWithChildren, edit]
  cases hadd : Edit.addWithChildren c children w.tree with
  | ok id t' =>
    rw [hadd] at hreshaped
    exact ⟨hreshaped, rfl⟩
  | error e t' =>
    rw [hadd] at hreshaped
    exact ⟨hreshaped, rfl⟩

lemma addItem (key : String) (value : NodeId) : EditsFrom k (addItem key value) :=
  (add _).bind fun _ => addWithChildren _ _

lemma forM {l : List α} {f : α → Action Unit} (hf : ∀ a ∈ l, EditsFrom k (f a)) :
    EditsFrom k (l.forM f) := by
  induction l with
  | nil => exact pure ()
  | cons a l ih =>
    exact (hf a List.mem_cons_self).bind fun _ => ih fun b hb => hf b (List.mem_cons_of_mem a hb)

lemma mapM {l : List α} {f : α → Action β} (hf : ∀ a ∈ l, EditsFrom k (f a)) :
    EditsFrom k (l.mapM f) := by
  induction l with
  | nil => exact pure []
  | cons a l ih =>
    rw [List.mapM_cons]
    refine (hf a List.mem_cons_self).bind fun b => ?_
    exact (ih fun c hc => hf c (List.mem_cons_of_mem a hc)).bind fun bs => pure _

end EditsFrom

end Action

namespace Rule

/-- Every application works on the tree by plain commands that leave positions, formatting data and
flags alone. -/
def Reshapes (r : Rule) : Prop :=
  ∀ oracle pass node (w : Workspace), w.tree.Reshaped ((r.apply oracle pass node).after w).tree

/-- Besides, no application asks for a file. -/
def EditsOnly (r : Rule) : Prop := ∀ oracle pass node, (r.apply oracle pass node).EditsFrom 0

lemma Reshapes.actsByCommands {r : Rule} (h : r.Reshapes) : r.ActsByCommands :=
  fun oracle pass node w => (h oracle pass node w).edited

lemma EditsOnly.reshapes {r : Rule} (h : r.EditsOnly) : r.Reshapes :=
  fun oracle pass node w => (h oracle pass node w (Nat.zero_le _)).1

lemma EditsOnly.actsByCommands {r : Rule} (h : r.EditsOnly) : r.ActsByCommands :=
  h.reshapes.actsByCommands

end Rule

end CodeMigration
