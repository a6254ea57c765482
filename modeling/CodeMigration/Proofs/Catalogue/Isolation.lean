import CodeMigration.Catalogue
import CodeMigration.Proofs.Pass.Inquiry
import Mathlib.Algebra.Order.BigOperators.Group.List
import Mathlib.Algebra.Order.Group.Nat

/-!
# Files of a batch do not influence each other

All that the files of a batch share is the class index with its remembered answers. The migrations
ask it finitely many subtype questions, so the run over a file is a dialogue, and every way of
interleaving the dialogues of all files gives each file the report that it would get alone.
-/

namespace CodeMigration

namespace Catalogue

variable (index : ClassIndex)

lemma Forms.asksIndex : Forms.rule.AsksIndex index := by
  intro pass node
  refine (Asks.const Action.tree).bind fun t => .branch (.const _) ?_
  refine (Asks.const (Action.require node)).bind fun _ => (Asks.const Action.tree).bind fun t => ?_
  have hpresenter : Inquires fun f => inPresenter (.consulting index f) t node :=
    .optionAny (fun c => Oracle.inquires_isInstance index t c presenter) _
  have hform : Inquires fun f => onForm (.consulting index f) t node :=
    .optionAny (fun c => Oracle.inquires_isInstance index t c form) _
  refine .ite hpresenter.not (.const _) ?_
  cases t.construct? node with
  | none => exact .const _
  | some c =>
    cases c with
    | methodCall method =>
      dsimp only
      cases fieldType? method with
      | none => exact .const _
      | some type => exact .ite (hform.and (.const _)) (.const _) (.const _)
    | _ => exact .const _

lemma Assertions.asksIndex : Assertions.rule.AsksIndex index := by
  intro pass node
  refine (Asks.const (Action.require node)).bind fun _ => (Asks.const Action.tree).bind fun t => ?_
  cases t.construct? node with
  | none => exact .const _
  | some c =>
    cases c with
    | staticCall className method =>
      have htester : Inquires fun f => isTester (.consulting index f) className :=
        (Inquires.const _).or (.question _ tester)
      refine .ite htester ?_ (.const _)
      -- the target depends on the type of an argument only
      have htarget : ∀ f, target? (.consulting index f) t node method =
          target? (.ofIndex index) t node method := fun _ => rfl
      simp only [htarget]
      exact .const _
    | _ => exact .const _

lemma TestCases.asksIndex : TestCases.rule.AsksIndex index := by
  intro pass node
  refine (Asks.const (Action.require node)).bind fun _ => (Asks.const Action.tree).bind fun t => ?_
  refine .branch (.const _) (.ite ?_ (.const _) (.const _))
  have hcase : ∀ id, Inquires fun f => isTestCase (.consulting index f) t id := by
    intro id
    simp only [isTestCase]
    cases t.construct? id with
    | none => exact .const _
    | some c =>
      cases c with
      | classDecl name parent interfaces =>
        cases parent with
        | none => exact .const _
        | some parent => exact (Inquires.const _).or (.question _ testerCase)
      | _ => exact .const _
  have hcases : Inquires fun f => testCases (.consulting index f) t :=
    (Inquires.listFilter hcase t.nodes).map (·.filterMap t.qualifiedClass?)
  exact (Inquires.const (isTopLevel t node)).and (hcases.map fun cases =>
    !cases.isEmpty && (t.child? node 0).any (isBootstrap t cases))

lemma RequestParameters.asksIndex : RequestParameters.rule.AsksIndex index := by
  intro pass node
  refine (Asks.const (Action.require node)).bind fun _ => (Asks.const Action.tree).bind fun t => ?_
  have hreads : Inquires fun f => readsParameter (.consulting index f) t node :=
    (Inquires.const _).and
      (.optionAny (fun c => Oracle.inquires_isInstance index t c request) _)
  exact .ite hreads (.const _) (.const _)

lemma Controls.asksIndex : Controls.rule.AsksIndex index := by
  intro pass node
  refine (Asks.const (Action.require node)).bind fun _ => (Asks.const Action.tree).bind fun t => ?_
  cases t.construct? node with
  | none => exact .const _
  | some c =>
    cases c with
    | classDecl name parent interfaces =>
      cases parent with
      | none => exact .const _
      | some parent =>
        have hcontrol : Inquires fun f => isControl (.consulting index f) parent :=
          (Inquires.const _).or
            ((Inquires.question _ control).and (Inquires.question _ presenter).not)
        exact .ite hcontrol (.const _) (.const _)
    | _ => exact .const _

lemma asksIndex_of_mem_all {routes : List Route} {r : Rule} (hr : r ∈ all routes) :
    r.AsksIndex index := by
  simp only [all, List.mem_cons, List.not_mem_nil, or_false] at hr
  rcases hr with rfl | rfl | rfl | rfl | rfl | rfl | rfl
  · exact Forms.asksIndex index
  · exact Assertions.asksIndex index
  · exact TestCases.asksIndex index
  · exact RequestParameters.asksIndex index
  · exact Controls.asksIndex index
  · exact fun pass node => .const (TestFiles.apply .unknown pass node)
  · exact fun pass node => .const (Routes.apply routes .unknown pass node)

end Catalogue

namespace Batch

/-- The run over a file, as a dialogue with the index. -/
def Runs (p : Pipeline) (index : ClassIndex) (cancelled : Bool) (unit : SourceUnit)
    (d : Dialogue FileReport) : Prop :=
  d.Conducts fun f => process p (.consulting index f) cancelled unit

variable {p : Pipeline} {index : ClassIndex} {cancelled : Bool} {units : List SourceUnit}
  {dialogues : List (Dialogue FileReport)}

lemma exists_runs (hrules : ∀ r ∈ p.rules, r.AsksIndex index) :
    ∃ dialogues, List.Forall₂ (Runs p index cancelled) units dialogues := by
  induction units with
  | nil => exact ⟨[], .nil⟩
  | cons unit units ih =>
    obtain ⟨d, hd⟩ := inquires_process hrules cancelled unit
    obtain ⟨dialogues, hdialogues⟩ := ih
    exact ⟨d :: dialogues, .cons hd hdialogues⟩

/-- The reports of a batch are the results when the index answers. -/
lemma files_run (h : List.Forall₂ (Runs p index cancelled) units dialogues) :
    (run p (.ofIndex index) cancelled units).files =
      dialogues.map (·.result index.isSubtype) := by
  show units.map (process p (.ofIndex index) cancelled) = _
  induction h with
  | nil => rfl
  | @cons unit d _ _ hd _ ih =>
    have hunit : d.result index.isSubtype = process p (.ofIndex index) cancelled unit :=
      hd index.isSubtype
    rw [List.map_cons, List.map_cons, ih, hunit]

/-- The run of the migrations over each file of a batch is a dialogue with the shared index. In
whatever order the dialogues take turns in asking questions and entering answers, starting from
whatever has been asked before, a file that is done has the report that it gets alone with an empty
table; and when every dialogue has had its turns all reports are there, in the order of the
files. -/
theorem run_isolated (p : Pipeline) (routes : List Route)
    (hrules : ∀ r ∈ p.rules, r ∈ Catalogue.all routes) (calls : List IndexCall) (cancelled : Bool)
    (units : List SourceUnit) :
    (∃ dialogues,
      List.Forall₂ (Runs p (MemoIndex.after calls).index cancelled) units dialogues) ∧
    ∀ dialogues, List.Forall₂ (Runs p (MemoIndex.after calls).index cancelled) units dialogues →
      (run p (.ofIndex (MemoIndex.after calls).index) cancelled units).files =
        dialogues.map (·.alone { index := (MemoIndex.after calls).index }) ∧
      ∀ schedule : List Nat,
        let reports := ((Meeting.start (MemoIndex.after calls) dialogues).run schedule).results
        reports.length = units.length ∧
        (∀ (i : Nat) (report : FileReport), reports[i]? = some (some report) →
          (run p (.ofIndex (MemoIndex.after calls).index) cancelled units).files[i]? =
            some report) ∧
        ((∀ (i : Nat) (d : Dialogue FileReport), dialogues[i]? = some d →
            2 * d.depth ≤ schedule.count i) →
          reports =
            (run p (.ofIndex (MemoIndex.after calls).index) cancelled units).files.map some) := by
  refine ⟨exists_runs fun r hr => Catalogue.asksIndex_of_mem_all _ (hrules r hr), ?_⟩
  intro dialogues hruns
  have hfiles := files_run hruns
  refine ⟨?_, fun schedule => ?_⟩
  · rw [hfiles]
    refine List.map_congr_left fun d _ => ?_
    exact (d.alone_eq_result (MemoIndex.faithful_fresh _)).symm
  · have hsound := (Meeting.sound_start (MemoIndex.faithful_after calls) dialogues).run schedule
    rw [← hfiles] at hsound
    refine ⟨?_, fun i report h => hsound.getElem_results h, fun hturns => ?_⟩
    · rw [hsound.length_results, run, List.length_map]
    · refine hsound.results_eq fun i => Nat.eq_zero_of_le_zero ?_
      refine (Meeting.leftAt_run _ i schedule).trans ?_
      rw [Meeting.leftAt, Meeting.start, List.getElem?_map]
      cases hd : dialogues[i]? with
      | none => simp
      | some d =>
        have := hturns i d hd
        simp only [Option.map_some, Option.getD_some, Worker.left]
        omega

/-- A control whose parent has to be looked up, with a method for each file that it shows. -/
def pollControl (files : List String) : Document where
  root := .plain .file [
    .plain (.classDecl "PollControl" (some "BaseControl") []) (files.map fun file =>
      .plain (.method "render") [
        .plain .expression [
          .plain (.methodCall "render") [
            .plain (.propertyFetch "template") [.plain (.variableRef "this") []],
            .plain (.string file) []]]])]

/-- The files of documents that can be read. -/
def unitsOf (documents : List (String × Document)) : List SourceUnit :=
  documents.filterMap fun (path, d) => (Tree.ofDocument d).toOption.map (SourceUnit.mk path)

/-- Two copies of a control, and between them one with two methods called `render`. -/
def controlUnits : List SourceUnit :=
  unitsOf [("first/PollControl.php", pollControl ["poll.latte"]),
    ("twice/PollControl.php", pollControl ["poll.latte", "result.latte"]),
    ("second/PollControl.php", pollControl ["poll.latte"])]

/-- Calls that make controls of the parent class and of the class of controllers, and ask about the
parent. -/
def controlCalls : List IndexCall :=
  [.insert "BaseControl" { parents := [Catalogue.Controls.control] },
    .insert Catalogue.Controls.controller { parents := [Catalogue.Controls.control] },
    .isSubtype "BaseControl" Catalogue.Controls.presenter]

/-- A pipeline for controls only. -/
def controlPipeline : Pipeline where
  limits := { depth := 12 }
  rules := [Catalogue.Controls.rule]

/-- The three files take turns. As a controller still counts as a control, the file between the
copies is rewritten once for each of its methods, and that is once too often. -/
theorem run_isolated_controls :
    (∀ r ∈ controlPipeline.rules, r ∈ Catalogue.all []) ∧
    ∃ dialogues schedule,
      List.Forall₂ (Runs controlPipeline (MemoIndex.after controlCalls).index false)
        controlUnits dialogues ∧
      ((Meeting.start (MemoIndex.after controlCalls) dialogues).run schedule).results.map
          (·.map (·.status)) =
        [some .migrated,
          some (.failed ("rule 'nette_control_to_symfony_controller' keeps rewriting node #1 " ++
            "(re-visit bound 1 exceeded)")),
          some .migrated] := by
  have hrules : ∀ r ∈ controlPipeline.rules, r ∈ Catalogue.all [] := by
    simp [controlPipeline, Catalogue.all]
  refine ⟨hrules, ?_⟩
  obtain ⟨⟨dialogues, hruns⟩, hall⟩ := run_isolated controlPipeline [] hrules controlCalls false
    controlUnits
  -- every dialogue gets a turn in each of as many rounds as all of them can need
  let rounds := 2 * (dialogues.map (·.depth)).sum
  refine ⟨dialogues, (List.replicate rounds [0, 1, 2]).flatten, hruns, ?_⟩
  obtain ⟨_, _, hreports⟩ := (hall dialogues hruns).2 (List.replicate rounds [0, 1, 2]).flatten
  rw [hreports fun i d hd => ?_]
  · decide +kernel
  · have hthree : controlUnits.length = 3 := by decide +kernel
    have hi : i < 3 := by
      rw [← hthree, hruns.length_eq]
      exact (List.getElem?_eq_some_iff.mp hd).1
    have hcount : (List.replicate rounds [0, 1, 2]).flatten.count i = rounds := by
      rw [List.count_flatten, List.map_replicate, List.sum_replicate_nat]
      obtain rfl | rfl | rfl : i = 0 ∨ i = 1 ∨ i = 2 := by omega
      all_goals simp
    have hdepth : d.depth ≤ (dialogues.map (·.depth)).sum :=
      List.le_sum_of_mem (List.mem_map_of_mem (List.mem_of_getElem? hd))
    rw [hcount]
    omega

end Batch

end CodeMigration
