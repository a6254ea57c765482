import CodeMigration.Proofs.Document.Numbering
import CodeMigration.Proofs.Pass.Story
import CodeMigration.Proofs.Pipeline

/-!
# The chronicle of a run

A run is a row of passes, each with a decoration before it. `Pipeline.Chronicle` puts the stories of
its passes one after the other. A decoration only touches attributes, so the balance of a run is
that of its applications.
-/

namespace CodeMigration

/-! ### Decorations -/

namespace Decoration

variable {a : Attributes} {m : NodeId} {e : AttributeEntry}

lemma mem_of_mem_record {p : Placement} (he : e ∈ (record a p).ofNode m)
    (hkey : e.key = .layout) : e ∈ a.ofNode m := by
  obtain ⟨n, s, enclosing⟩ := p
  have hscope : e ∈ (a.set n .scope (.scope s)).ofNode m → e ∈ a.ofNode m := fun he =>
    Attributes.mem_of_mem_set he (by simp [hkey])
  cases enclosing with
  | none => exact hscope ((Attributes.trimmed_erase _ n .enclosingClass m).subset he)
  | some c => exact hscope (Attributes.mem_of_mem_set he (by simp [hkey]))

lemma mem_of_mem_foldl {α : Type} {g : Attributes → α → Attributes}
    (hg : ∀ {a x}, e ∈ (g a x).ofNode m → e ∈ a.ofNode m) (l : List α)
    (he : e ∈ (l.foldl g a).ofNode m) : e ∈ a.ofNode m := by
  induction l generalizing a with
  | nil => exact he
  | cons x l ih => exact hg (ih he)

end Decoration

namespace Tree

variable {t : Tree}

lemma balance_decorate (oracle : Oracle) (ht : t.Sound) (h : t.Whole) (gone : NodeId → Prop) :
    t.Balance gone (t.decorate oracle).1 where
  sound := ht.edited (t.edited_decorate oracle)
  whole := h
  root := rfl
  lost m hm hm' := by
    have hsame : (t.decorate oracle).1.isLive m = t.isLive m := rfl
    rw [hsame, hm] at hm'
    cases hm'
  layouts m e he hkey := by
    refine Decoration.mem_of_mem_foldl (g := Decoration.record)
      (fun he => Decoration.mem_of_mem_record he hkey) (Decoration.placements t) ?_
    refine Decoration.mem_of_mem_foldl (g := Decoration.recordType) (fun he => ?_) _ he
    exact Attributes.mem_of_mem_set he (by simp [hkey])

/-! ### Documents -/

lemma whole_ofDocument {d : Document} (hdoc : ofDocument d = .ok t) : t.Whole := by
  intro m hm
  have hlinked := (Reachable.ofDocument hdoc).sound.linked
  rw [← hlinked.mem_nodes_iff, nodes_ofDocument hdoc, List.mem_range]
  exact t.lt_size_of_isLive hm

end Tree

/-! ### Runs -/

namespace Pipeline

open Pass (Application Story)

variable {p : Pipeline} {oracle : Oracle} {w w' : Workspace}

/-- The passes behind the first `k` have the given counters, and lead from one workspace to another
by the given applications. -/
inductive Chronicle (p : Pipeline) (oracle : Oracle) :
    Nat → Workspace → List PassStats → List Application → Workspace → Prop
  | done (k : Nat) (w : Workspace) : Chronicle p oracle k w [] [] w
  | pass {k : Nat} {w w₁ w' : Workspace} {stats : PassStats} {rest : List PassStats}
    {apps later : List Application} {s : PassState}
    (hpass : p.onePass oracle (k + 1) w = .ok stats w₁)
    (hstory : Story (p.setting oracle (k + 1))
      (Pass.start { w with tree := (w.tree.decorate oracle).1 }) apps s)
    (hend : s.toWorkspace = w₁) (hstats : stats = .ofLog s.log)
    (hlater : Chronicle p oracle (k + 1) w₁ rest later w') :
    Chronicle p oracle k w (stats :: rest) (apps ++ later) w'

lemma exists_chronicle_of_passesFrom {left : Nat} {done stats : List PassStats}
    {outcome : RunOutcome} (hok : p.passesFrom oracle left done w = .ok (outcome, stats) w') :
    ∃ new apps, stats = done.reverse ++ new ∧ p.Chronicle oracle done.length w new apps w' := by
  induction left generalizing done w with
  | zero =>
    cases hok
    exact ⟨[], [], (List.append_nil _).symm, .done _ _⟩
  | succ left ih =>
    rw [passesFrom] at hok
    obtain ⟨pass, w₁, hpass, hok⟩ := EStateM.bind_eq_ok_iff.mp hok
    obtain ⟨apps, s, hstory, hend, hstats⟩ :=
      Pass.exists_story_of_run (onePass_eq_ok_iff.mp hpass).1
    split at hok
    · obtain ⟨new, later, rfl, hlater⟩ := ih hok
      refine ⟨pass :: new, apps ++ later, ?_, .pass hpass hstory hend hstats hlater⟩
      rw [List.reverse_cons, List.append_assoc, List.singleton_append]
    · cases hok
      refine ⟨[pass], apps ++ [], List.reverse_cons, .pass hpass hstory hend hstats (.done _ _)⟩

/-- A run that succeeds has a chronicle, with the passes of its report. -/
lemma exists_chronicle_of_run {t t' : Tree} {report : RunReport}
    (hrun : p.run oracle t = (t', .ok report)) :
    ∃ apps w', p.Chronicle oracle 0 { tree := t } report.stats apps w' ∧ w'.tree = t' := by
  rw [run] at hrun
  cases hpasses : p.passesFrom oracle p.limits.maxPasses [] { tree := t } with
  | error e w' =>
    rw [hpasses] at hrun
    cases hrun
  | ok result w' =>
    rw [hpasses] at hrun
    cases hrun
    obtain ⟨new, apps, hstats, hchronicle⟩ := exists_chronicle_of_passesFrom hpasses
    rw [List.reverse_nil, List.nil_append] at hstats
    exact ⟨apps, w', hstats ▸ hchronicle, rfl⟩

/-- In a run whose rules account for what they discard, every node that is gone at the end was
attached before one of the applications and discarded by it. -/
lemma Chronicle.balance {discards : Rule → Oracle → Tree → NodeId → NodeId → Prop}
    (hrules : ∀ r ∈ p.rules, r.Accounts (discards r) ∧ r.ActsByCommands)
    {k : Nat} {stats : List PassStats} {apps : List Application}
    (h : p.Chronicle oracle k w stats apps w') (ht : w.tree.Sound) (hw : w.tree.Whole) :
    w.tree.Balance (fun m => ∃ a ∈ apps, a.before.tree.isAttached m = true ∧
      a.after.tree.isLive m = false ∧
        discards a.rule oracle a.before.tree.checkpoint a.node m) w'.tree := by
  induction h with
  | done k w => exact .refl ht hw _
  | @pass k w w₁ w' stats rest apps later s _ hstory hend _ _ ih =>
    have hdecorated := w.tree.balance_decorate oracle ht hw fun _ => False
    have hpass := Story.balance (σ := p.setting oracle (k + 1)) hrules hstory hdecorated.sound
      hdecorated.whole
    rw [show s.tree = w₁.tree from congrArg Workspace.tree hend] at hpass
    have hall := (hdecorated.trans hpass).trans (ih hpass.sound hpass.whole)
    refine hall.weaken fun m _ _ hgone => ?_
    rcases hgone with (⟨⟨⟩⟩ | ⟨a, ha, hgone⟩) | ⟨a, ha, hgone⟩
    · exact ⟨a, List.mem_append_left _ ha, hgone⟩
    · exact ⟨a, List.mem_append_right _ ha, hgone⟩

end Pipeline

end CodeMigration
