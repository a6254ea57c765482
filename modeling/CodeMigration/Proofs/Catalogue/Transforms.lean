import CodeMigration.Proofs.Catalogue.Convergence
import CodeMigration.Proofs.Catalogue.Requests

/-!
# Migrations as transformations of documents

A migration changes a tree step by step; what it amounts to in the end may be a function on
documents. A tree follows the tree of a document when the function cannot tell its outline from that
of the document (`Tree.Follows`). A pipeline realizes the function when its passes keep this and
leave an outline that the function does not change, and then every run, also on a tree that has been
migrated already, leaves the transformed document (`Pipeline.Realizes.run`,
`Pipeline.Realizes.rerun`).
-/

namespace CodeMigration

/-! ### Names in a document -/

/-- The namespace of what stands below a construct in a namespace. -/
def Construct.spaceBelow (space : Option String) : Construct → Option String
  | .namespaceDecl name => some name
  | _ => space

/-- The full name of a class in a namespace. -/
def ClassName.qualified (space : Option String) (name : String) : String :=
  match space with
  | some ns => if ns = "" then normalize name else normalize ns ++ "\\" ++ name
  | none => normalize name

/-- The full name of the class around what stands below a construct. -/
def Construct.ownerBelow (space owner : Option String) : Construct → Option String
  | .classDecl name _ _ => some (ClassName.qualified space name)
  | _ => owner

namespace Tree

variable {t t' t₀ : Tree} {n p c : NodeId} {k : Construct} {F : DocNode → DocNode}

/-- The name of the namespace around a node. -/
def space? (t : Tree) (n : NodeId) : Option String := (t.enclosing? n .namespaceDecl).bind t.name?

lemma qualifiedClass?_of_class {name : String} {parent : Option String} {interfaces : List String}
    (hc : t.construct? n = some (.classDecl name parent interfaces)) :
    t.qualifiedClass? n = some (ClassName.qualified (t.space? n) name) := by
  rw [qualifiedClass?, hc, space?]
  cases (t.enclosing? n .namespaceDecl).bind t.name? with
  | none => rfl
  | some ns => exact (apply_ite some (ns = "") _ _).symm

namespace WellLinked

variable (h : t.WellLinked)
include h

lemma space?_root : t.space? t.root = none := by
  rw [space?, enclosing?_of_free h.root_free, Option.bind_none]

lemma owner?_root : Catalogue.owner? t t.root = none := by
  rw [Catalogue.owner?, enclosing?_of_free h.root_free, Option.bind_none]

lemma space?_of_link (hlink : t.Link p c) (hp : t.construct? p = some k) :
    t.space? c = k.spaceBelow (t.space? p) := by
  rw [space?, h.enclosing?_of_link hlink, hasKind, Catalogue.kind?_of_construct hp]
  cases k <;> simp [Construct.kind, Construct.spaceBelow, space?, name?, hp, Construct.name?]

lemma owner?_of_link (hlink : t.Link p c) (hp : t.construct? p = some k) :
    Catalogue.owner? t c = k.ownerBelow (t.space? p) (Catalogue.owner? t p) := by
  rw [Catalogue.owner?, h.enclosing?_of_link hlink, hasKind, Catalogue.kind?_of_construct hp]
  cases k with
  | classDecl name parent interfaces => exact qualifiedClass?_of_class hp
  | _ => rfl

end WellLinked

/-! ### Trees on their way -/

/-- The tree `t` came about from `t₀`, and the function does not tell their outlines apart. -/
structure Follows (F : DocNode → DocNode) (t₀ t : Tree) : Prop where
  spares : t₀.Spares t
  origin : t.origin = t₀.origin
  outline : F (t.outline t.root) = F (t₀.outline t₀.root)

namespace Follows

lemma refl (ht : t.Sound) : Follows F t t := ⟨.refl ht, rfl, rfl⟩

lemma decorate (h : Follows F t₀ t) (oracle : Oracle) : Follows F t₀ (t.decorate oracle).1 where
  spares := h.spares.trans (.decorate h.spares.sound oracle)
  origin := h.origin
  outline := by
    show F ((t.decorate oracle).1.outline t.root) = _
    rw [Catalogue.outline_decorate oracle h.spares.sound, h.outline]

/-- Where the function changes nothing, the document is the transformed one. -/
lemma toDocument {d : Document} (h : Follows F t₀ t) (hdoc : ofDocument d = .ok t₀)
    (hdone : F (t.outline t.root) = t.outline t.root) :
    t.toDocument = .ok { d with root := F d.root } := by
  have horigin := origin_ofDocument hdoc
  have houtline := (outline_ofDocument hdoc).2
  rw [Tree.toDocument, h.spares.sound.linked.validate_eq_ok, h.origin, horigin, ← hdone, h.outline,
    houtline]
  rfl

end Follows

end Tree

namespace Pass

variable {σ : PassSetting} {s s₁ s₂ : PassState} {r : Rule} {n : NodeId} {o : Outcome} {t₀ : Tree}
  {F : DocNode → DocNode}

/-- An offer follows the function when it keeps what the function makes of the outline. -/
lemma follows_offer (hr : r.Reshapes) (h : t₀.Follows F s.tree) (hok : offer σ r n s = .ok o s₁)
    (hsame : t₀.Spares s₁.tree →
      F (s₁.tree.outline s₁.tree.root) = F (s.tree.outline s.tree.root)) :
    t₀.Follows F s₁.tree := by
  have hs := h.spares.sound
  have hspares := h.spares.trans (spares_offer hr hs hok)
  exact ⟨hspares, (origin_offer hr.actsByCommands hs hok).trans h.origin,
    (hsame hspares).trans h.outline⟩

/-- So does a removal. -/
lemma follows_removal (hr : r.Reshapes) (h : t₀.Follows F s.tree)
    (hok : offer σ r n s = .ok o s₁) (hfinish : finishRemoval r.id n s₁ = .ok () s₂)
    (hsame : t₀.Spares s₂.tree →
      F (s₂.tree.outline s₂.tree.root) = F (s.tree.outline s.tree.root)) :
    t₀.Follows F s₂.tree := by
  have hs := h.spares.sound
  have hoffer := spares_offer hr hs hok
  have hspares := h.spares.trans (hoffer.trans (spares_finishRemoval hoffer.sound hfinish))
  refine ⟨hspares, ?_, (hsame hspares).trans h.outline⟩
  rw [origin_finishRemoval hoffer.sound.linked hfinish, origin_offer hr.actsByCommands hs hok,
    h.origin]

end Pass

/-! ### Runs -/

namespace Pipeline

variable {p : Pipeline} {oracle : Oracle} {L : Tree → Prop} {F : DocNode → DocNode} {t t' t₀ : Tree}
  {w w' : Workspace}

/-- Decorations and passes keep the laws `L`, and after a pass there is nothing left that `F` would
change. -/
structure Realizes (p : Pipeline) (oracle : Oracle) (L : Tree → Prop) (F : DocNode → DocNode) :
    Prop where
  decorate : ∀ {t : Tree}, t.Sound → L t → L (t.decorate oracle).1
  pass : ∀ {t₀ : Tree} {pass : Nat} {w w' : Workspace} {stats : PassStats}, t₀.Plain →
    w.tree.Reachable → L w.tree → t₀.Follows F w.tree →
    Pass.run (p.setting oracle pass) w = .ok stats w' →
    w'.tree.Reachable ∧ L w'.tree ∧ t₀.Follows F w'.tree ∧
      F (w'.tree.outline w'.tree.root) = w'.tree.outline w'.tree.root

/-- A tree on the way to the document that `F` leads to, under the laws `L`. -/
structure UnderWay (L : Tree → Prop) (F : DocNode → DocNode) (t₀ t : Tree) : Prop where
  reachable : t.Reachable
  lawful : L t
  follows : t₀.Follows F t

namespace Realizes

variable (h : p.Realizes oracle L F) (hplain : t₀.Plain)
include h hplain

lemma onePass {pass : Nat} {stats : PassStats} (hw : UnderWay L F t₀ w.tree)
    (hok : p.onePass oracle pass w = .ok stats w') :
    UnderWay L F t₀ w'.tree ∧ F (w'.tree.outline w'.tree.root) = w'.tree.outline w'.tree.root := by
  obtain ⟨hrun, _⟩ := onePass_eq_ok_iff.mp hok
  have hreach : (w.tree.decorate oracle).1.Reachable := by
    obtain ⟨cmds, _, hcmds⟩ := w.tree.edited_decorate oracle
    rw [hcmds]
    exact hw.reachable.runAll cmds
  obtain ⟨hreach', hl', hfollows', hdone⟩ := h.pass hplain hreach
    (h.decorate hw.reachable.sound hw.lawful) (hw.follows.decorate oracle) hrun
  exact ⟨⟨hreach', hl', hfollows'⟩, hdone⟩

lemma passesFrom {left : Nat} {done stats : List PassStats} {outcome : RunOutcome}
    (hw : UnderWay L F t₀ w.tree)
    (hok : p.passesFrom oracle (left + 1) done w = .ok (outcome, stats) w') :
    UnderWay L F t₀ w'.tree ∧ F (w'.tree.outline w'.tree.root) = w'.tree.outline w'.tree.root := by
  induction left generalizing done w with
  | zero =>
    rw [Pipeline.passesFrom] at hok
    obtain ⟨s, w₁, hpass, hok⟩ := EStateM.bind_eq_ok_iff.mp hok
    have hdone := h.onePass hplain hw hpass
    split at hok <;> cases hok <;> exact hdone
  | succ left ih =>
    rw [Pipeline.passesFrom] at hok
    obtain ⟨s, w₁, hpass, hok⟩ := EStateM.bind_eq_ok_iff.mp hok
    have hdone := h.onePass hplain hw hpass
    split at hok
    · exact ih hdone.1 hok
    · cases hok
      exact hdone

/-- A run leaves an outline that `F` does not change. -/
lemma run {report : RunReport} (hpasses : 1 ≤ p.limits.maxPasses) (ht : UnderWay L F t₀ t)
    (hrun : p.run oracle t = (t', .ok report)) :
    UnderWay L F t₀ t' ∧ F (t'.outline t'.root) = t'.outline t'.root := by
  obtain ⟨outcome, stats, w', hok, rfl, rfl⟩ := run_eq_ok hrun
  obtain ⟨left, hleft⟩ := Nat.exists_eq_add_of_le' hpasses
  rw [hleft] at hok
  exact h.passesFrom hplain (w := { tree := t }) ht hok

end Realizes

/-- The tree after so many runs, one after the other, if all of them succeed. -/
def rerun? (p : Pipeline) (oracle : Oracle) : Nat → Tree → Option Tree
  | 0, t => some t
  | k + 1, t =>
    match p.run oracle t with
    | (t', .ok _) => p.rerun? oracle k t'
    | (_, .error _) => none

/-- However often the pipeline runs, all runs succeed from some depth on, and `F` does not change
what the last of them leaves. -/
lemma Realizes.rerun {g : Gauge} (h : ∀ depth, (p.withDepth depth).Realizes oracle L F)
    (hrules : ∀ r ∈ p.rules, r.Tame g oracle)
    (hroom : ∀ pass, ∀ r ∈ p.rules, r.Replaces oracle →
      1 ≤ Pass.replacementLimit (p.setting oracle pass))
    (hbound : 1 ≤ p.limits.revisitBound)
    (hpasses : 1 ≤ p.limits.maxPasses) (hplain : t₀.Plain) (ht : UnderWay L F t₀ t) (k : Nat) :
    ∃ t', (∃ N, ∀ depth ≥ N, (p.withDepth depth).rerun? oracle (k + 1) t = some t') ∧
      UnderWay L F t₀ t' ∧ F (t'.outline t'.root) = t'.outline t'.root := by
  induction k generalizing t with
  | zero =>
    obtain ⟨t', report, ⟨N, hrun⟩, _⟩ := run_tame hrules hroom hbound ht.reachable.sound
    refine ⟨t', ⟨N, fun depth hdepth => ?_⟩, ?_⟩
    · rw [rerun?, hrun depth hdepth]
      rfl
    · exact (h N).run hplain hpasses ht (hrun N (Nat.le_refl N))
  | succ k ih =>
    obtain ⟨t₁, report, ⟨N₁, hrun⟩, _⟩ := run_tame hrules hroom hbound ht.reachable.sound
    obtain ⟨ht₁, _⟩ := (h N₁).run hplain hpasses ht (hrun N₁ (Nat.le_refl N₁))
    obtain ⟨t', ⟨N₂, hlater⟩, hdone⟩ := ih ht₁
    refine ⟨t', ⟨max N₁ N₂, fun depth hdepth => ?_⟩, hdone⟩
    rw [rerun?, hrun depth (le_of_max_le_left hdepth)]
    exact hlater depth (le_of_max_le_right hdepth)

end Pipeline

end CodeMigration
