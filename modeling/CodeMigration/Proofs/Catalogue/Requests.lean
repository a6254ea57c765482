import CodeMigration.Proofs.Catalogue.Positions
import CodeMigration.Proofs.Catalogue.Run
import CodeMigration.Proofs.Listing
import CodeMigration.Proofs.Pass.Abreast

/-!
# One test file for a tree

The file that the migration of test files asks for is not part of the tree, so nothing but a flag on
the root keeps it from being asked for again. The root is visited first, before any other migration
has touched the tree (`Ready`), and once there is nothing left to ask for (`Answered`) no
application, no pass and no run changes that.
-/

namespace CodeMigration

/-! ### Origins -/

namespace Tree

variable {t t' : Tree}

/-- Edits under a checkpoint do not touch the origin. -/
lemma origin_of_edited (ht : t.Sound) (h : Edited t.checkpoint t') : t'.origin = t.origin := by
  have hback : t'.rollback.origin = t'.origin := by
    rw [rollback]
    cases t'.journal <;> rfl
  rw [← hback, ht.rollback_edited h]
  rfl

lemma origin_remove {n : NodeId} (ht : t.WellLinked) (hok : t.remove n = .ok t') :
    t'.origin = t.origin := by
  obtain ⟨_, ⟨p, _, hremove⟩ | ⟨_, _, rfl⟩⟩ := remove_eq_ok_iff.mp hok
  · obtain ⟨_, _, rfl⟩ := (removeChild_eq_ok_iff ht).mp hremove
    rw [origin_discard, origin_touch, origin_relink]
  · rw [origin_touch, origin_discard]

end Tree

namespace Pass

variable {σ : PassSetting} {s s' : PassState} {n : NodeId}

lemma origin_offer {r : Rule} {o : Outcome} (hr : r.ActsByCommands) (hs : s.tree.Sound)
    (hok : offer σ r n s = .ok o s') : s'.tree.origin = s.tree.origin := by
  have hedited := hr σ.oracle σ.pass n ⟨s.tree.checkpoint, s.files⟩
  rcases offer_eq_ok_iff.mp hok with ⟨o, w, happ, _, rfl⟩ | ⟨e, w, happ, _, _, rfl⟩
  · rw [Action.after, happ] at hedited
    have horigin : w.tree.origin = s.tree.origin := Tree.origin_of_edited hs hedited
    exact horigin
  · rw [Action.after, happ] at hedited
    show w.tree.rollback.origin = _
    rw [hs.rollback_edited hedited]
    rfl

lemma origin_finishRemoval {rule : String} (hs : s.tree.WellLinked)
    (hok : finishRemoval rule n s = .ok () s') : s'.tree.origin = s.tree.origin := by
  rcases finishRemoval_eq_ok_iff.mp hok with ⟨_, rfl⟩ | ⟨_, _, t', hremove, rfl⟩
  · rfl
  · exact Tree.origin_remove hs hremove

/-- No application touches the origin. -/
lemma Application.Happens.origin {a : Application} (ha : a.Happens σ)
    (hcommands : a.rule.ActsByCommands) (hs : a.before.tree.Sound) :
    a.after.tree.origin = a.before.tree.origin := by
  obtain ⟨s, ho, hafter⟩ := ha.offered
  have hoffer := origin_offer hcommands hs ho
  split at hafter
  · have hlinked := (sound_offer hcommands hs ho).linked
    exact (origin_finishRemoval hlinked hafter).trans hoffer
  · rw [hafter, hoffer]

end Pass

namespace Catalogue.TestFiles

open CodeMigration.Tree
open CodeMigration.Pass (Application Story)

variable {t t' : Tree} {w w' : Workspace} {oracle : Oracle} {routes : List Route}

/-! ### What is asked for -/

/-- The file that is to be asked for at the root of a tree, if any. -/
def pending (t : Tree) : List AddedFile :=
  if t.attributes.flag t.root .processed then []
  else
    match t.origin.path.bind targetPath?, content t with
    | some path, .ok text => [⟨path, text⟩]
    | _, _ => []

lemma pending_eq_nil_iff (ht : t.WellLinked) : pending t = [] ↔
    t.attributes.flag t.root .processed = true ∨ t.origin.path.bind targetPath? = none := by
  obtain ⟨text, htext⟩ := exists_content ht
  rw [pending, htext]
  cases t.attributes.flag t.root .processed <;> cases t.origin.path.bind targetPath? <;> simp

/-- Only the root, its flag, the origin and the listing matter. -/
lemma pending_congr (hroot : t'.root = t.root) (horigin : t'.origin = t.origin)
    (hlisting : t'.listing = t.listing)
    (hflag : t'.attributes.flag t.root .processed = t.attributes.flag t.root .processed) :
    pending t' = pending t := by
  rw [pending, pending, content, content, hroot, horigin, hlisting, hflag]

lemma pending_checkpoint (ht : t.Sound) : pending t.checkpoint = pending t :=
  pending_congr rfl rfl (listing_alike ht.linked ht.checkpoint.linked ⟨rfl, rfl⟩) rfl

lemma pending_commit (ht : t.Sound) : pending t.commit = pending t :=
  pending_congr rfl rfl (listing_alike ht.linked ht.commit.linked ⟨rfl, rfl⟩) rfl

lemma pending_decorate (ht : t.Sound) (oracle : Oracle) :
    pending (t.decorate oracle).1 = pending t :=
  pending_congr rfl rfl
    (listing_alike ht.linked (ht.edited (t.edited_decorate oracle)).linked ⟨rfl, rfl⟩)
    (Tree.flag_decorate oracle ht _ (by simp [Decoration.records]))

/-- What a round at the root leaves of the tree: the same nodes, and perhaps one flag more. -/
def Flagged (t t' : Tree) : Prop :=
  t' = t ∨ t' = t.setAttribute t.root .processed (.flag true)

lemma Flagged.edited (h : Flagged t t') : Edited t t' := by
  rcases h with rfl | rfl
  · exact .refl t'
  · exact t.edited_setAttribute _ _ _

/-- At the root what is pending is asked for, and then nothing is. -/
lemma apply_root (oracle : Oracle) (pass : Nat) (ht : w.tree.WellLinked) :
    ∃ w', apply oracle pass w.tree.root w = .ok .unchanged w' ∧ Flagged w.tree w'.tree ∧
      w'.files = w.files ++ pending w.tree ∧ pending w'.tree = [] := by
  obtain ⟨text, htext⟩ := exists_content ht
  have happly : ∀ m : Tree → Action Outcome, (Action.tree >>= m) w = m w.tree w := fun _ => rfl
  rw [apply, happly]
  cases hflag : w.tree.attributes.flag w.tree.root .processed with
  | true =>
    have hnone : pending w.tree = [] := by rw [pending, if_pos hflag]
    refine ⟨w, ?_, Or.inl rfl, by rw [hnone, List.append_nil], hnone⟩
    rw [if_pos (Or.inr rfl)]
    rfl
  | false =>
    rw [if_neg (by simp)]
    cases hpath : w.tree.origin.path.bind targetPath? with
    | none =>
      have hnone : pending w.tree = [] := by rw [pending_eq_nil_iff ht, hpath]; exact Or.inr rfl
      exact ⟨w, rfl, Or.inl rfl, by rw [hnone, List.append_nil], hnone⟩
    | some path =>
      refine ⟨⟨w.tree.setAttribute w.tree.root .processed (.flag true), w.files ++ [⟨path, text⟩]⟩,
        ?_, Or.inr rfl, ?_, ?_⟩
      · simp only [htext]
        rfl
      · rw [pending, hflag, hpath, htext]
        rfl
      · rw [pending, if_pos]
        show (w.tree.attributes.set _ _ _).flag w.tree.root .processed = true
        rw [Attributes.flag, Attributes.get?_set, if_pos ⟨rfl, rfl⟩]
        rfl

/-- Below the root nothing is asked for. -/
lemma apply_of_ne_root (oracle : Oracle) (pass : Nat) {n : NodeId} (hn : n ≠ w.tree.root) :
    apply oracle pass n w = .ok .unchanged w := by
  show (if n ≠ w.tree.root ∨ _ then _ else _ : Action Outcome) w = _
  rw [if_pos (Or.inl hn)]
  rfl

/-- The other migrations ask for nothing. -/
lemma editsOnly_of_ne {r : Rule} (hr : r ∈ all routes) (hne : r ≠ rule) : r.EditsOnly := by
  simp only [all, List.mem_cons, List.not_mem_nil, or_false] at hr
  rcases hr with rfl | rfl | rfl | rfl | rfl | rfl | rfl
  · exact Forms.editsOnly
  · exact Assertions.editsOnly
  · exact TestCases.editsOnly
  · exact RequestParameters.editsOnly
  · exact Controls.editsOnly
  · exact absurd rfl hne
  · exact Routes.editsOnly routes

/-- No other migration accepts files. -/
lemma eq_rule_of_accepts {r : Rule} (hr : r ∈ all routes) {n : NodeId}
    (hkind : t.kind? n = some .file) (hacc : Pass.accepts t r n = true) : r = rule := by
  rw [Pass.accepts, hkind, Option.any_some] at hacc
  simp only [all, List.mem_cons, List.not_mem_nil, or_false] at hr
  rcases hr with rfl | rfl | rfl | rfl | rfl | rfl | rfl
  all_goals first | rfl | cases hacc

/-! ### Trees with nothing left to ask for -/

/-- A whole tree for which every file has been asked for. -/
structure Answered (t : Tree) : Prop where
  sound : t.Sound
  whole : t.Whole
  none_pending : pending t = []

/-- A change that keeps the root, its flag and the origin. -/
lemma Answered.balance (h : Answered t) {gone : NodeId → Prop} (hbalance : t.Balance gone t')
    (hspares : t.Spares t') (horigin : t'.origin = t.origin) : Answered t' := by
  refine ⟨hbalance.sound, hbalance.whole, ?_⟩
  have hdone := h.none_pending
  rw [pending_eq_nil_iff h.sound.linked] at hdone
  rw [pending_eq_nil_iff hbalance.sound.linked, hbalance.root, horigin]
  refine hdone.imp_left fun hflag => ?_
  have hlive : t'.isLive t.root = true := hbalance.root ▸ hbalance.sound.linked.root_live
  exact hspares.flags _ _ (by simp [Decoration.records]) (not_gone_of_isLive hlive) hflag

lemma Answered.decorate (h : Answered t) (oracle : Oracle) : Answered (t.decorate oracle).1 where
  sound := h.sound.edited (t.edited_decorate oracle)
  whole := h.whole
  none_pending := (pending_decorate h.sound oracle).trans h.none_pending

section applications

variable {σ : PassSetting} (hrules : ∀ r ∈ σ.rules, r ∈ all routes) {a : Application}
  {s s' : PassState}
include hrules

/-- An application asks for nothing but the file that is pending. -/
lemma files_after_happens (ha : a.Happens σ) (h : a.before.tree.Sound) :
    ∃ new, a.after.files = a.before.files ++ new ∧ ∀ f ∈ new, f ∈ pending a.before.tree := by
  obtain ⟨s, ho, hafter⟩ := ha.offered
  have hwork : ∃ new, ((a.rule.apply σ.oracle σ.pass a.node).after
      ⟨a.before.tree.checkpoint, a.before.files⟩).files = a.before.files ++ new ∧
        ∀ f ∈ new, f ∈ pending a.before.tree := by
    by_cases hrule : a.rule = rule
    · rw [hrule]
      by_cases hroot : a.node = a.before.tree.root
      · obtain ⟨w', hok, _, hfiles, _⟩ := apply_root (w := ⟨a.before.tree.checkpoint,
          a.before.files⟩) σ.oracle σ.pass h.checkpoint.linked
        have happ : rule.apply σ.oracle σ.pass a.before.tree.root _ = _ := hok
        rw [hroot, Action.after, happ]
        exact ⟨_, hfiles, fun f hf => pending_checkpoint h ▸ hf⟩
      · have happ : rule.apply σ.oracle σ.pass a.node
            ⟨a.before.tree.checkpoint, a.before.files⟩ = _ := apply_of_ne_root σ.oracle σ.pass hroot
        rw [Action.after, happ]
        exact ⟨[], (List.append_nil _).symm, by simp⟩
    · refine ⟨[], ?_, by simp⟩
      rw [List.append_nil]
      exact (editsOnly_of_ne (hrules _ ha.mem) hrule σ.oracle σ.pass a.node _ (Nat.zero_le _)).2
  obtain ⟨new, hnew, hpending⟩ := hwork
  have hoffer : ∃ new, s.files = a.before.files ++ new ∧
      ∀ f ∈ new, f ∈ pending a.before.tree := by
    rcases Pass.offer_eq_ok_iff.mp ho with ⟨o, w, happ, _, rfl⟩ | ⟨e, w, happ, _, _, rfl⟩
    · rw [Action.after, happ] at hnew
      exact ⟨new, hnew, hpending⟩
    · rw [Action.after, happ] at hnew
      refine ⟨[], ?_, by simp⟩
      show w.files.take a.before.files.length = _
      rw [hnew, List.take_left, List.append_nil]
  split at hafter
  · rcases Pass.finishRemoval_eq_ok_iff.mp hafter with ⟨_, heq⟩ | ⟨_, _, t', _, heq⟩
    · rw [heq]
      exact hoffer
    · rw [heq]
      exact hoffer
  · rw [hafter]
    exact hoffer

/-- Once everything has been asked for, no application asks for more. -/
lemma files_of_happens (ha : a.Happens σ) (h : Answered a.before.tree) :
    a.after.files = a.before.files := by
  obtain ⟨new, hnew, hpending⟩ := files_after_happens hrules ha h.sound
  rw [h.none_pending] at hpending
  rw [hnew, List.eq_nil_iff_forall_not_mem.mpr fun f hf => List.not_mem_nil (hpending f hf),
    List.append_nil]

lemma answered_of_happens (ha : a.Happens σ) (h : Answered a.before.tree) :
    Answered a.after.tree := by
  have hr := hrules _ ha.mem
  have hbalance :=
    ha.balance (accounts_of_mem_all hr) (actsByCommands_of_mem_all hr) h.sound h.whole
  exact h.balance hbalance (ha.spares (reshapes_of_mem_all hr) h.sound)
    (ha.origin (actsByCommands_of_mem_all hr) h.sound)

lemma answered_of_story {apps : List Application} (hstory : Story σ s apps s')
    (h : Answered s.tree) : Answered s'.tree ∧ s'.files = s.files := by
  induction hstory with
  | @rest s s' hidles =>
    rw [show s'.tree = s.tree from congrArg Workspace.tree hidles.1]
    exact ⟨h, congrArg Workspace.files hidles.1⟩
  | @step s s' a apps hidles ha _ ih =>
    rw [show s.tree = a.before.tree from congrArg Workspace.tree hidles.1.symm] at h
    rw [show s.files = a.before.files from congrArg Workspace.files hidles.1.symm]
    obtain ⟨hlater, hfiles⟩ := ih (answered_of_happens hrules ha h)
    exact ⟨hlater, hfiles.trans (files_of_happens hrules ha h)⟩

end applications

/-! ### The first visit of the root -/

/-- A whole tree with a file at its root. -/
structure Ready (t : Tree) : Prop where
  sound : t.Sound
  whole : t.Whole
  kind : t.kind? t.root = some .file

lemma Ready.flagged (h : Ready t) (hflagged : Flagged t.checkpoint t') :
    Ready t'.commit ∧ t'.commit.root = t.root := by
  have hsound := (h.sound.checkpoint.edited hflagged.edited).commit
  rcases hflagged with rfl | rfl
  · exact ⟨⟨hsound, h.whole, h.kind⟩, rfl⟩
  · exact ⟨⟨hsound, h.whole, h.kind⟩, rfl⟩

lemma Ready.answered (h : Ready t) (hnone : pending t = []) : Answered t :=
  ⟨h.sound, h.whole, hnone⟩

section first

variable {σ : PassSetting} {s s' : PassState}

/-- An offer of the root to the migration of test files. -/
lemma offer_root (h : Ready s.tree) {o : Outcome}
    (ho : Pass.offer σ rule s.tree.root s = .ok o s') :
    o = .unchanged ∧ Ready s'.tree ∧ s'.tree.root = s.tree.root ∧
      s'.files = s.files ++ pending s.tree ∧ pending s'.tree = [] := by
  obtain ⟨w', hok, hflagged, hfiles, hnone⟩ := apply_root (w := ⟨s.tree.checkpoint, s.files⟩)
    σ.oracle σ.pass h.sound.checkpoint.linked
  have happ : rule.apply σ.oracle σ.pass s.tree.root ⟨s.tree.checkpoint, s.files⟩ = _ := hok
  have hready := h.flagged hflagged
  have hrevision : w'.tree.commit.revision = s.tree.revision := by
    rcases hflagged with heq | heq <;> rw [heq] <;> rfl
  rw [pending_checkpoint h.sound] at hfiles
  rcases Pass.offer_eq_ok_iff.mp ho with ⟨o', w, happ', hjudge, rfl⟩ | ⟨_, _, happ', _⟩
  · obtain ⟨rfl, rfl⟩ := EStateM.Result.ok.inj (happ.symm.trans happ')
    have hquiet : Pass.judge rule.id s.tree.root s.tree.revision w'.tree.commit .unchanged =
        .ok .unchanged := Pass.judge_unchanged_iff.mpr ⟨rfl, hrevision⟩
    refine ⟨Except.ok.inj (hjudge.symm.trans hquiet), hready.1, hready.2, hfiles, ?_⟩
    exact (pending_commit (h.sound.checkpoint.edited hflagged.edited)).trans hnone
  · cases happ.symm.trans happ'

variable {v : NodeId → UInt32 → PassM Nat} {lineage : UInt32} {last : Option String}

/-- The first round at the root only asks for the file. -/
lemma round_root {rules : List Rule} (hrules : ∀ r ∈ rules, r ∈ all routes) (h : Ready s.tree)
    {e : Pass.RoundEnd} (hround : Pass.round σ v rules s.tree.root lineage last s = .ok e s') :
    e = .ongoing s.tree.root lineage last ∧ Ready s'.tree ∧
      (pending s.tree = [] → s'.files = s.files ∧ pending s'.tree = []) ∧
      (rule ∈ rules → s'.files = s.files ++ pending s.tree ∧ pending s'.tree = []) := by
  induction rules generalizing s with
  | nil =>
    cases hround
    exact ⟨rfl, h, fun hnone => ⟨rfl, hnone⟩, fun hmem => absurd hmem List.not_mem_nil⟩
  | cons r rules ih =>
    obtain ⟨hr, hrest⟩ := List.forall_mem_cons.mp hrules
    rcases Pass.round_cons_eq_ok_iff.mp hround with ⟨hacc, hround⟩ | ⟨hacc, o, s₁, ho, hround⟩
    · obtain ⟨he, hready, hdone, hasks⟩ := ih hrest h hround
      refine ⟨he, hready, hdone, fun hmem => hasks ?_⟩
      refine (List.mem_cons.mp hmem).resolve_left ?_
      rintro rfl
      simp [Pass.accepts, h.kind, rule] at hacc
    · obtain rfl := eq_rule_of_accepts hr h.kind hacc
      obtain ⟨rfl, hready, hroot, hfiles, hnone⟩ := offer_root h ho
      rw [Pass.afterOffer, ← hroot] at hround
      obtain ⟨he, hready', hdone, _⟩ := ih hrest hready hround
      obtain ⟨hfiles', hnone'⟩ := hdone hnone
      refine ⟨hroot ▸ he, hready', fun hpending => ⟨?_, hnone'⟩, fun _ => ⟨?_, hnone'⟩⟩
      · rw [hfiles', hfiles, hpending, List.append_nil]
      · rw [hfiles', hfiles]

/-- The first pass asks for the file that was pending before it. -/
lemma answered_of_first_pass (hrules : ∀ r ∈ σ.rules, r ∈ all routes) (hmem : rule ∈ σ.rules)
    {stats : PassStats} (h : Ready w.tree) (hrun : Pass.run σ w = .ok stats w') :
    Answered w'.tree ∧ w'.files = w.files ++ pending w.tree := by
  rw [Pass.run] at hrun
  cases hvisit : Pass.visitRoot σ { tree := w.tree, files := w.files } with
  | error e s =>
    rw [hvisit] at hrun
    cases hrun
  | ok count s =>
    rw [hvisit] at hrun
    cases hrun
    have hvisit' : Pass.visit σ σ.depth w.tree.root 0 (Pass.start w) = .ok count s := hvisit
    cases hdepth : σ.depth with
    | zero =>
      rw [hdepth] at hvisit'
      cases hvisit'
    | succ k =>
      rw [hdepth] at hvisit'
      have hlive : w.tree.isLive w.tree.root = true := h.sound.linked.root_live
      rcases Pass.visit_succ_eq_ok_iff.mp hvisit' with ⟨hseen, _⟩ | ⟨_, place, s₁, hrounds, hleave⟩
      · simp [Pass.start, PassState.stateOf, hlive] at hseen
      · obtain ⟨b, hrounds⟩ := Pass.exists_roundsFrom_succ hrounds
        obtain ⟨e, s₂, hround, hend⟩ := Pass.roundsFrom_succ_eq_ok_iff.mp hrounds
        have hready : Ready ((Pass.start w).enter w.tree.root).tree := h
        have hsub : ∀ r ∈ σ.rules.filter (·.order = .pre), r ∈ all routes :=
          fun r hr => hrules r (List.mem_filter.mp hr).1
        obtain ⟨rfl, hready', _, hasks⟩ := round_root hsub hready hround
        obtain ⟨rfl, rfl⟩ := hend
        obtain ⟨hfiles, hnone⟩ := hasks (List.mem_filter.mpr ⟨hmem, rfl⟩)
        obtain ⟨apps, hstory⟩ := Pass.tells_leave (fun n l => Pass.tells_visit k n l) _ _ _ _ _ _
          hleave
        obtain ⟨hdone, hsame⟩ := answered_of_story hrules hstory (hready'.answered hnone)
        exact ⟨hdone, hsame.trans hfiles⟩

end first

/-! ### Runs -/

section runs

variable {p : Pipeline} (hrules : ∀ r ∈ p.rules, r ∈ all routes)
include hrules

lemma answered_of_chronicle {k : Nat} {stats : List PassStats} {apps : List Application}
    (hchronicle : p.Chronicle oracle k w stats apps w') (h : Answered w.tree) :
    Answered w'.tree ∧ w'.files = w.files := by
  induction hchronicle with
  | done k w => exact ⟨h, rfl⟩
  | @pass k w w₁ w' stats rest apps later s _ hstory hend _ _ ih =>
    obtain ⟨hpass, hfiles⟩ := answered_of_story (σ := p.setting oracle (k + 1)) hrules hstory
      (h.decorate oracle)
    rw [show s.tree = w₁.tree from congrArg Workspace.tree hend] at hpass
    rw [show s.files = w₁.files from congrArg Workspace.files hend] at hfiles
    obtain ⟨hlater, hfiles'⟩ := ih hpass
    exact ⟨hlater, hfiles'.trans hfiles⟩

/-- A later run asks for nothing. -/
lemma answered_of_run {report : RunReport} (h : Answered t)
    (hrun : p.run oracle t = (t', .ok report)) : Answered t' ∧ report.files = [] := by
  rw [Pipeline.run] at hrun
  split at hrun
  · next outcome stats w' hpasses =>
    cases hrun
    obtain ⟨new, apps, _, hchronicle⟩ := Pipeline.exists_chronicle_of_passesFrom hpasses
    obtain ⟨hdone, hfiles⟩ := answered_of_chronicle hrules hchronicle h
    refine ⟨hdone, ?_⟩
    show Pipeline.distinctFiles [] w'.files = []
    rw [hfiles]
    rfl
  · cases hrun

/-- The first run asks for what is pending before it, however many passes it has. -/
lemma answered_of_first_run (hmem : rule ∈ p.rules) (hpasses : 1 ≤ p.limits.maxPasses)
    {report : RunReport} (h : Ready t) (hrun : p.run oracle t = (t', .ok report)) :
    Answered t' ∧ report.files = pending t := by
  obtain ⟨left, hleft⟩ := Nat.exists_eq_add_of_le' hpasses
  rw [Pipeline.run, hleft] at hrun
  split at hrun
  · next outcome stats w' hpasses =>
    cases hrun
    rw [Pipeline.passesFrom] at hpasses
    obtain ⟨pass, w₁, hpass, hlater⟩ := EStateM.bind_eq_ok_iff.mp hpasses
    have hready : Ready (t.decorate oracle).1 :=
      ⟨h.sound.edited (t.edited_decorate oracle), h.whole, h.kind⟩
    obtain ⟨hfirst, hfiles⟩ := answered_of_first_pass (σ := p.setting oracle 1) hrules hmem hready
      (Pipeline.onePass_eq_ok_iff.mp hpass).1
    rw [pending_decorate h.sound, List.nil_append] at hfiles
    have hend : Answered w'.tree ∧ w'.files = w₁.files := by
      split at hlater
      · obtain ⟨new, apps, _, hchronicle⟩ := Pipeline.exists_chronicle_of_passesFrom hlater
        exact answered_of_chronicle hrules hchronicle hfirst
      · cases hlater
        exact ⟨hfirst, rfl⟩
    refine ⟨hend.1, ?_⟩
    show Pipeline.distinctFiles [] w'.files = _
    rw [hend.2, hfiles, pending]
    split
    · rfl
    · split <;> rfl
  · cases hrun

end runs

/-! ### Documents -/

variable {d : Document} {rules : List Rule} {reports : List RunReport}

/-- Successful runs of pipelines with the same rules, one after the other on the same tree, each
with limits of its own. -/
inductive Reruns (oracle : Oracle) (rules : List Rule) : Tree → List RunReport → Prop
  | rest (t : Tree) : Reruns oracle rules t []
  | run {limits : Limits} {p : Pipeline} {t t' : Tree} {report : RunReport}
    {reports : List RunReport} (hp : Pipeline.withRules limits rules = .ok p)
    (hpasses : 1 ≤ limits.maxPasses) (hrun : p.run oracle t = (t', .ok report))
    (hlater : Reruns oracle rules t' reports) : Reruns oracle rules t (report :: reports)

lemma ready_ofDocument (hdoc : ofDocument d = .ok t) (hroot : d.root.construct = .file) :
    Ready t := by
  have hsound := (Reachable.ofDocument hdoc).sound
  refine ⟨hsound, whole_ofDocument hdoc, ?_⟩
  obtain ⟨c, hc⟩ := t.exists_construct? hsound.linked.root_lt
  have hshown := (outline_ofDocument hdoc).2
  rw [outline_eq hsound.linked, hc] at hshown
  have hfile : c = .file := by
    rw [← hroot, ← hshown]
    rfl
  rw [kind?, hc, hfile]
  rfl

/-- In the tree of a document nothing has been asked for. -/
lemma pending_ofDocument (hdoc : ofDocument d = .ok t) : pending t =
    match d.path.bind targetPath?, content t with
    | some path, .ok text => [⟨path, text⟩]
    | _, _ => [] := by
  have hplain := (outline_ofDocument hdoc).1
  have hflag : t.attributes.flag t.root .processed = false := by
    have hnone := hplain.keys t.root .processed (by decide) (by decide)
    rw [attribute?] at hnone
    rw [Attributes.flag, hnone]
    rfl
  rw [pending, hflag, origin_ofDocument hdoc]
  rfl

lemma exists_targetPath? {path : String} (h : Path.extension? path = some "phpt") :
    ∃ target, targetPath? path = some target := by
  rw [targetPath?, if_pos h, Path.stem?]
  rw [Path.extension?] at h
  cases hname : Path.fileName? path with
  | none =>
    rw [hname] at h
    cases h
  | some name => exact ⟨_, rfl⟩

lemma targetPath?_eq_none {path : String} (h : Path.extension? path ≠ some "phpt") :
    targetPath? path = none := by rw [targetPath?, if_neg h]

lemma files_of_reruns (hsub : ∀ r ∈ rules, r ∈ all routes) (hids : (rules.map (·.id)).Nodup)
    (hruns : Reruns oracle rules t reports) :
    (Answered t → reports.flatMap (·.files) = []) ∧
      (rule ∈ rules → Ready t → reports ≠ [] → reports.flatMap (·.files) = pending t) := by
  have hpipeline : ∀ {limits p}, Pipeline.withRules limits rules = .ok p →
      p.rules = rules ∧ p.limits = limits := by
    intro limits p hp
    have hfree : Pipeline.withRules limits rules = .ok { limits, rules } :=
      Pipeline.withRules_of_free (fun r hr => after_of_mem_all (hsub r hr)) hids
    cases Except.ok.inj (hp.symm.trans hfree)
    exact ⟨rfl, rfl⟩
  induction hruns with
  | rest t => exact ⟨fun _ => rfl, fun _ _ hne => absurd rfl hne⟩
  | @run limits p t t' report reports hp hpasses hrun _ ih =>
    obtain ⟨hrules, hlimits⟩ := hpipeline hp
    have hall : ∀ r ∈ p.rules, r ∈ all routes := hrules ▸ hsub
    constructor
    · intro h
      obtain ⟨h', hfiles⟩ := answered_of_run hall h hrun
      rw [List.flatMap_cons, hfiles, List.nil_append]
      exact ih.1 h'
    · intro hmem h _
      obtain ⟨h', hfiles⟩ := answered_of_first_run hall (hrules ▸ hmem) (hlimits ▸ hpasses) h hrun
      rw [List.flatMap_cons, hfiles, ih.1 h', List.append_nil]

/-- Over any number of successful runs on the tree of a document, a file is asked for exactly once
when the document is a tester file, and never otherwise. It goes to the path for the tester file,
and holds the source of the document, or else the listing of the tree before the first run. -/
theorem reruns_ask_once (oracle : Oracle) (routes : List Route) {rules : List Rule}
    (hsub : ∀ r ∈ rules, r ∈ all routes) (hids : (rules.map (·.id)).Nodup) (hmem : rule ∈ rules)
    {d : Document} {t : Tree} (hdoc : ofDocument d = .ok t) (hroot : d.root.construct = .file)
    {reports : List RunReport} (hruns : Reruns oracle rules t reports) (hne : reports ≠ []) :
    (∀ path, d.path = some path → Path.extension? path = some "phpt" →
      ∃ target text, targetPath? path = some target ∧
        (d.source = some text ∨ d.source = none ∧ t.listing = .ok text) ∧
          reports.flatMap (·.files) = [⟨target, text⟩]) ∧
      ((∀ path, d.path = some path → Path.extension? path ≠ some "phpt") →
        reports.flatMap (·.files) = []) := by
  have hfiles := (files_of_reruns hsub hids hruns).2 hmem (ready_ofDocument hdoc hroot) hne
  rw [hfiles, pending_ofDocument hdoc]
  constructor
  · intro path hpath hextension
    obtain ⟨target, htarget⟩ := exists_targetPath? hextension
    obtain ⟨text, htext⟩ := exists_content (Reachable.ofDocument hdoc).sound.linked
    refine ⟨target, text, htarget, ?_, ?_⟩
    · rw [content, origin_ofDocument hdoc] at htext
      cases hsource : d.source with
      | some source =>
        rw [hsource] at htext
        exact Or.inl (congrArg some (Except.ok.inj htext))
      | none =>
        rw [hsource] at htext
        exact Or.inr ⟨rfl, htext⟩
    · rw [hpath, Option.bind_some, htarget, htext]
  · intro hother
    have hnone : d.path.bind targetPath? = none := by
      rw [Option.bind_eq_none_iff]
      exact fun path hpath => targetPath?_eq_none (hother path hpath)
    rw [hnone]

/-- The migrations of test cases and test files, with a depth of visits that suffices for small
trees. -/
def testsOnly : Pipeline where
  limits := { depth := 16 }
  rules := [TestCases.rule, TestFiles.rule]

/-- The trees after a first and a second run, if both succeed. -/
def rerunsOf? (p : Pipeline) (oracle : Oracle) (d : Document) :
    Option (Tree × (Tree × RunReport) × Tree × RunReport) :=
  match ofDocument d with
  | .ok t =>
    match p.run oracle t with
    | (t', .ok first) =>
      match p.run oracle t' with
      | (t'', .ok second) => some (t, (t', first), (t'', second))
      | _ => none
    | _ => none
  | .error _ => none

lemma exists_runs_of_rerunsOf? {p : Pipeline} {t'' : Tree} {first second : RunReport}
    (h : rerunsOf? p oracle d = some (t, (t', first), (t'', second))) :
    ofDocument d = .ok t ∧ p.run oracle t = (t', .ok first) ∧
      p.run oracle t' = (t'', .ok second) := by
  rw [rerunsOf?] at h
  split at h
  · next hdoc =>
    split at h
    · next hfirst =>
      split at h
      · next hsecond =>
        cases h
        exact ⟨hdoc, hfirst, hsecond⟩
      · cases h
    · cases h
  · cases h

/-- The first run asks for the file and migrates the class; the second one does neither. -/
theorem reruns_ask_once_sample :
    ∃ t t' t'' first second text, ofDocument sampleDocument = .ok t ∧
      testsOnly.run .unknown t = (t', .ok first) ∧ first.mutations = 2 ∧
      testsOnly.run .unknown t' = (t'', .ok second) ∧ t.listing = .ok text ∧
      first.files ++ second.files = [⟨"tests/SampleTest.php", text⟩] := by
  have hmem : ∀ r ∈ testsOnly.rules, r ∈ all [] := by simp [testsOnly, all]
  have hids : (testsOnly.rules.map (·.id)).Nodup := by decide
  have hmutations : (rerunsOf? testsOnly .unknown sampleDocument).map (·.2.1.2.mutations) =
      some 2 := by decide +kernel
  obtain ⟨⟨t, ⟨t', first⟩, t'', second⟩, hruns, hmutations⟩ := Option.map_eq_some_iff.mp hmutations
  obtain ⟨hdoc, hfirst, hsecond⟩ := exists_runs_of_rerunsOf? hruns
  have hpipeline : Pipeline.withRules testsOnly.limits testsOnly.rules = .ok testsOnly :=
    Pipeline.withRules_of_free (fun r hr => after_of_mem_all (hmem r hr)) hids
  have hreruns : Reruns .unknown testsOnly.rules t [first, second] :=
    .run hpipeline (by decide) hfirst (.run hpipeline (by decide) hsecond (.rest t''))
  obtain ⟨hasked, _⟩ := reruns_ask_once .unknown [] hmem hids (by simp [testsOnly]) hdoc rfl hreruns
    (by simp)
  obtain ⟨target, text, htarget, htext, hfiles⟩ := hasked "tests/Sample.phpt" rfl
    (by decide +kernel)
  have htarget' : targetPath? "tests/Sample.phpt" = some "tests/SampleTest.php" := by
    decide +kernel
  obtain rfl : target = "tests/SampleTest.php" := Option.some.inj (htarget.symm.trans htarget')
  refine ⟨t, t', t'', first, second, text, hdoc, hfirst, hmutations, hsecond, ?_, ?_⟩
  · rcases htext with hsource | ⟨_, htext⟩
    · cases hsource
    · exact htext
  · simpa using hfiles

end Catalogue.TestFiles

end CodeMigration
