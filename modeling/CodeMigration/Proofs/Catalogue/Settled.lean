import CodeMigration.Proofs.Catalogue.Untyped

/-!
# Passes without types

A node is settled when no migration has anything to change there. Without types a migration settles
its own node and, as it only reworks the tree below, unsettles no other, so one pass settles every
node of the tree.
-/

namespace CodeMigration

namespace Catalogue

open Pass (accepts)

variable {routes : List Route} {rules : List Rule} {σ : PassSetting} {s s₁ s₂ : PassState}
  {t t' : Tree} {n x : NodeId} {row : List NodeId} {o : Outcome} {m : Migration}

/-- No rule that is a migration has anything to change at a node. -/
def Settled (routes : List Route) (rules : List Rule) (t : Tree) (n : NodeId) : Prop :=
  ∀ m ∈ migrations routes, m.rule ∈ rules → accepts t m.rule n = true →
    m.acts .unknown t n = false

/-! ### What is kept -/

lemma Settled.near (h : Settled routes rules t n) (hnear : Near t t') :
    Settled routes rules t' n := by
  intro m hm hr hacc
  rw [Pass.accepts_alike hnear.alike] at hacc
  rw [m.acts_near Oracle.steady_unknown hnear, h m hm hr hacc]

lemma Lawful.near (h : Lawful t) (hnear : Near t t') : Lawful t' where
  routed n hn hk hflag := by
    rw [hnear.alike.reaches, hnear.alike.root] at hn
    rw [hnear.alike.kind?] at hk
    rw [isAnnotated_alike hnear.alike]
    rcases hnear.routed n hflag with hflag | hannotated
    · exact h.routed n hn hk hflag
    · exact hannotated
  classes n hn hk := by
    rw [hnear.alike.reaches, hnear.alike.root] at hn
    rw [hnear.alike.kind?] at hk
    rw [hnear.classes, hnear.alike.enclosing?]
    exact h.classes n hn hk
  migrated n name parent interfaces hn hc hflag := by
    rw [hnear.alike.reaches, hnear.alike.root] at hn
    rw [hnear.alike.construct?] at hc
    rw [hnear.processed n (by simp [kind?_of_construct hc, Construct.kind])] at hflag
    exact h.migrated n name parent interfaces hn hc hflag

section alike

variable {R : NodeId → NodeId → Prop} {a b : NodeId} {t₀ t₁ : Tree} (h₀ : t₀.Alike t)
  (h₁ : t'.Alike t₁)
include h₀ h₁

lemma Mirrors.alike (h : Mirrors R t t') : Mirrors R t₀ t₁ where
  construct? hR := by
    simpa only [h₀.construct?, h₀.kind?, h₁.construct?, h₁.kind?] using h.construct? hR
  environment hR := by
    simpa only [callsEnvironment, h₀.construct?, h₁.construct?] using h.environment hR
  row hR hk := by
    simpa only [h₀.children, h₁.children] using h.row hR (by rwa [h₀.kind?])
  body hR hk := by
    simpa only [h₀.children, h₁.children, h₁.kind?] using h.body hR (by rwa [h₀.kind?])

lemma Stands.alike (h : Stands R t a t' b) : Stands R t₀ a t₁ b where
  construct? := by simpa only [h₀.construct?, h₁.construct?] using h.construct?
  row := by simpa only [h₀.kind?, h₀.children, h₁.children] using h.row
  top := by
    simpa only [TestCases.isTopLevel, h₀.parent?, h₀.hasKind, h₁.parent?, h₁.hasKind] using h.top
  owner := by
    simpa only [owner?, h₀.kind?, h₀.enclosing?, h₀.qualifiedClass?, h₁.enclosing?,
      h₁.qualifiedClass?] using h.owner

end alike

/-- A rework between trees that are near is one. -/
lemma Rework.near {t₀ t₁ : Tree} (h : Rework t n row t') (h₀ : Near t₀ t)
    (h₁ : Near t' t₁) : Rework t₀ n row t₁ := by
  have a₀ := h₀.alike
  have a₁ := h₁.alike
  have hlawful : Lawful t₀ → Lawful t := fun hl => hl.near h₀
  obtain ⟨R, hmirrors, hstands⟩ := h.mirror
  refine ⟨⟨?_, ?_, ?_⟩, fun hl => ?_, fun hl => ?_, R, hmirrors.alike a₀ a₁, fun x hx => ?_⟩
  · simpa only [a₀.root, a₁.root] using h.occupied.of_root
  · simpa only [a₀.root, a₁.root] using h.occupied.root
  · simpa only [a₀.root, a₀.reaches, a₀.children, a₁.children] using h.occupied.children
  · exact (h.lawful (hlawful hl)).near h₁
  · rw [TestCases.testCases_near h₁, ← TestCases.testCases_near h₀]
    exact h.cases (hlawful hl)
  · refine (hstands x ⟨?_, ?_⟩).alike a₀ a₁
    · simpa only [a₀.reaches, a₀.root] using hx.attached
    · simpa only [a₀.reaches] using hx.out

/-- What is settled outside the place of a rework stays so. -/
lemma Rework.settled (h : Rework t n row t') (ht : t.WellLinked) (ht' : t'.WellLinked)
    (hl : Lawful t) (hx : t.Outside n x) (hsettled : Settled routes rules t x) :
    Settled routes rules t' x := by
  obtain ⟨R, hmirrors, hstands⟩ := h.mirror
  have hs := hstands x hx
  have hkind : t'.kind? x = t.kind? x := by rw [Tree.kind?, hs.construct?, Tree.kind?]
  have hx' := h.occupied.attached ht ht' hx
  intro m hm hr hacc
  rw [accepts, hkind] at hacc
  refine acts_of_stands hmirrors hs hm (h.cases hl) hacc (fun hk => hl.routed x hx.attached hk)
    (fun hk => hl.enclosingClass? hx.attached hk) (fun hk => ?_) (hsettled m hm hr hacc)
  exact (h.lawful hl).enclosingClass? hx' (hkind.trans hk)

/-! ### Offers -/

lemma reform_remove {p : NodeId} (ht : t.Sound) (hlink : t.Link p n)
    (hkind : t.kind? n = some .expression) (hok : t.remove n = .ok t') : Reform t n t' := by
  obtain ⟨_, ⟨q, hlink', hremove⟩ | ⟨hfree, _⟩⟩ := Tree.remove_eq_ok_iff.mp hok
  · have hg : t.Graft q [] t' := by
      refine (Tree.Graft.start ht q []).shift (Tree.shifted_removeChild ht.linked hremove)
        ?_ (fun _ => Or.inl rfl) ?_
      · intro r hr
        cases hr
      · intro _ _ _
        simp [hkind]
    have hr : Relabelled ∅ ∅ t' t' := .refl t'
    refine reform_of_graft ht hg hr ?_ ?_ ?_ <;> simp
  · rw [hlink] at hfree
    cases hfree

lemma occupied_remove {p : NodeId} (ht : t.Sound) (hlink : t.Link p n)
    (hok : t.remove n = .ok t') : t.Occupied n [] t' := by
  obtain ⟨hroot, _, hchildren⟩ := ht.linked.children_remove hok
  exact ⟨fun h => absurd h (ht.linked.ne_root_of_link hlink), fun _ => hroot,
    fun p _ _ => hchildren p⟩

/-- A statement right below a file or a namespace is taken out. -/
lemma rework_remove (ht : t.Sound) (hn : t.Reaches t.root n) (hkind : t.kind? n = some .expression)
    (htop : TestCases.isTopLevel t n = true) (hok : t.remove n = .ok t') : Rework t n [] t' := by
  rw [TestCases.isTopLevel, Option.any_eq_true] at htop
  obtain ⟨p, hlink, hp⟩ := htop
  have hocc := occupied_remove ht hlink hok
  have hreform := reform_remove ht hlink hkind hok
  refine hreform.rework_removed ht hocc hn hkind ?_
  rw [TestCases.isTopLevel, hlink]
  exact hp

section offers

variable (hm : m ∈ migrations routes) (horacle : σ.oracle = .unknown) (ht : s.tree.Sound)
  (hn : s.tree.Reaches s.tree.root n) (hacc : accepts s.tree m.rule n = true)
include hm horacle ht hn hacc

/-- An offer leaves the node alone, or reworks the tree, or has a statement to be removed. -/
lemma offer_cases (hok : Pass.offer σ m.rule n s = .ok o s₁) :
    (o = .unchanged ∧ m.acts .unknown s.tree n = false ∧ Near s.tree s₁.tree) ∨
    (o = .mutated ∧ Rework s.tree n [n] s₁.tree) ∨
    (o = .removed ∧ s₁.tree = s.tree.checkpoint.commit ∧ s.tree.kind? n = some .expression ∧
      TestCases.isTopLevel s.tree n = true) := by
  have hsteady : σ.oracle.Steady := horacle ▸ Oracle.steady_unknown
  cases hacts : m.acts .unknown s.tree n with
  | false =>
    obtain ⟨t, files, hok', hnear, _⟩ := offer_rests hsteady ht hn hacc (horacle ▸ hacts)
    rw [hok'] at hok
    cases hok
    exact Or.inl ⟨rfl, rfl, hnear⟩
  | true =>
    have hacts' : m.acts σ.oracle s.tree.checkpoint n = true := by
      rw [m.acts_near hsteady (near_checkpoint s.tree), horacle, hacts]
    obtain ⟨_, _, happ', _⟩ := m.yields σ.oracle σ.pass (w := ⟨s.tree.checkpoint, s.files⟩)
      ht.checkpoint hn hacc
    rcases Pass.offer_eq_ok_iff.mp hok with ⟨o₀, w, happ, hjudge, rfl⟩ | ⟨e, w, happ, _⟩
    · have hchange : o₀ ≠ .unchanged := by
        rcases m.sharp σ.oracle σ.pass (w := ⟨s.tree.checkpoint, s.files⟩) ht.checkpoint hn hacc
          with ⟨hidle, _⟩ | ⟨_, hends⟩
        · cases hacts'.symm.trans hidle
        · exact hends o₀ w happ
      rw [horacle] at happ hacts'
      have hreworks := ensures_migration σ.pass hm (w := ⟨s.tree.checkpoint, s.files⟩)
        ht.checkpoint hn hacc o₀ w happ hacts'
      match o₀, hreworks, hjudge with
      | .unchanged, _, _ => exact absurd rfl hchange
      | .mutated, hrework, hjudge =>
        cases hjudge
        exact Or.inr (Or.inl ⟨rfl, Rework.near hrework (near_checkpoint _) (near_commit _)⟩)
      | .removed, ⟨hsame, hkind, htop⟩, hjudge =>
        cases hjudge
        exact Or.inr (Or.inr ⟨rfl, congrArg Tree.commit hsame, hkind, htop⟩)
    · rw [happ'] at happ
      cases happ

/-- A removal reworks the tree. -/
lemma rework_removal (hok : Pass.offer σ m.rule n s = .ok .removed s₁)
    (hfinish : Pass.finishRemoval m.rule.id n s₁ = .ok () s₂) : Rework s.tree n [] s₂.tree := by
  rcases offer_cases hm horacle ht hn hacc hok with ⟨ho, _⟩ | ⟨ho, _⟩ | ⟨_, hsame, hkind, htop⟩
  · cases ho
  · cases ho
  · have hnear : Near s.tree s₁.tree := hsame ▸ (near_checkpoint _).trans (near_commit _)
    have hlive : s₁.tree.isLive n = true := by
      rw [hnear.alike.isLive]
      exact ht.linked.isLive_of_attached hn
    have ht₁ : s₁.tree.Sound := hsame ▸ ht.checkpoint.commit
    rcases Pass.finishRemoval_eq_ok_iff.mp hfinish with ⟨hdead, _⟩ | ⟨_, _, t₂, hremove, rfl⟩
    · rw [hlive] at hdead
      cases hdead
    · rw [← hnear.alike.kind?] at hkind
      have htop' : TestCases.isTopLevel s₁.tree n = true := by
        rwa [TestCases.isTopLevel, hnear.alike.parent?, hnear.alike.hasKind]
      exact Rework.near (rework_remove ht₁ (hnear.attached hn) hkind htop' hremove) hnear (.refl t₂)

end offers

/-! ### Passes -/

lemma slotLocal (hm : m ∈ migrations routes) : m.rule.SlotLocal .unknown := by
  refine .of_commands m.pre m.commands ?_
  intro pass n t files o w ht hn hacc happ
  have ht' := ht.sound.checkpoint
  have hreworks := ensures_migration pass hm (w := ⟨t.checkpoint, files⟩) ht' hn hacc o w happ
  rcases m.sharp .unknown pass (w := ⟨t.checkpoint, files⟩) ht' hn hacc with
    ⟨_, w', happ', hrests⟩ | ⟨hacts, hchange⟩
  · rw [happ'] at happ
    cases happ
    have halike := ((near_checkpoint t).trans hrests.near).alike
    exact .of_same halike.root fun p _ _ => by rw [halike.children]
  · match o, hreworks hacts, hchange o w happ with
    | .unchanged, _, hchange => exact absurd rfl hchange
    | .mutated, hrework, _ =>
      exact ⟨hrework.occupied.of_root, hrework.occupied.root, hrework.occupied.children⟩
    | .removed, ⟨hsame, _⟩, _ =>
      rw [hsame]
      exact Or.inr (.of_same rfl fun _ _ _ => rfl)

section passes

variable (hsub : σ.rules ⊆ all routes) (horacle : σ.oracle = .unknown)
include hsub horacle

/-- A round without a change settles the node. -/
lemma round_settles {v : NodeId → UInt32 → PassM Nat} {rs : List Rule} (hrs : rs ⊆ σ.rules)
    {current : NodeId} {lineage lineage' : UInt32} {last : Option String} (ht : s.tree.Reachable)
    (hn : s.tree.Reaches s.tree.root n)
    (hok : Pass.round σ v rs n lineage last s = .ok (.ongoing current lineage' none) s₁) :
    last = none ∧ current = n ∧ Near s.tree s₁.tree ∧ Settled routes rs s.tree n := by
  induction rs generalizing s n lineage last with
  | nil =>
    cases hok
    exact ⟨rfl, rfl, .refl _, fun m _ hr => absurd hr List.not_mem_nil⟩
  | cons r rs ih =>
    have hrest : rs ⊆ σ.rules := fun r' hr' => hrs (List.mem_cons_of_mem r hr')
    rcases Pass.round_cons_eq_ok_iff.mp hok with ⟨hacc, hok⟩ | ⟨hacc, o, s₂, hoffer, hok⟩
    · obtain ⟨hlast, hcurrent, hnear, hsettled⟩ := ih hrest ht hn hok
      refine ⟨hlast, hcurrent, hnear, fun m hm hr hacc' => ?_⟩
      rcases List.mem_cons.mp hr with rfl | hr
      · cases hacc.symm.trans hacc'
      · exact hsettled m hm hr hacc'
    · obtain ⟨m, hm, rfl⟩ := exists_migration (hsub (hrs List.mem_cons_self))
      obtain ⟨_, ht₂, _, hleaves⟩ :=
        Pass.offer_slotLocal (horacle ▸ slotLocal hm) ht hn hacc hoffer
      rcases offer_cases hm horacle ht.sound hn hacc hoffer with
        ⟨rfl, hacts, hnear⟩ | ⟨rfl, _⟩ | ⟨rfl, _⟩
      · obtain ⟨hlast, hcurrent, hnear', hsettled⟩ := ih hrest ht₂ (hnear.attached hn) hok
        refine ⟨hlast, hcurrent, hnear.trans hnear', fun m' hm' hr hacc' => ?_⟩
        rcases List.mem_cons.mp hr with hr | hr
        · rw [eq_of_id hm' hm (congrArg Rule.id hr)]
          exact hacts
        · rw [← m'.acts_near Oracle.steady_unknown hnear]
          exact hsettled m' hm' hr (by rwa [Pass.accepts_alike hnear.alike])
      · have hn₂ := Tree.Occupied.attached_row hleaves ht.sound.linked ht₂.sound.linked hn
          (List.mem_singleton_self n)
        obtain ⟨hlast, _⟩ := ih hrest ht₂ hn₂ hok
        cases hlast
      · obtain ⟨_, hend⟩ := Pass.afterRemoved_eq_ok_iff.mp hok
        cases hend

lemma settles : Pass.Settles σ Lawful (Settled routes σ.rules) where
  offer {s s₁ r n o} hr ht hl hn hacc hok ho := by
    obtain ⟨m, hm, rfl⟩ := exists_migration (hsub hr)
    obtain ⟨_, ht₁, _, _⟩ := Pass.offer_slotLocal (horacle ▸ slotLocal hm) ht hn hacc hok
    rcases offer_cases hm horacle ht.sound hn hacc hok with
      ⟨_, _, hnear⟩ | ⟨_, hrework⟩ | ⟨hremoved, _⟩
    · exact ⟨hl.near hnear, fun x _ hx => hx.near hnear⟩
    · refine ⟨hrework.lawful hl, fun x hx hsettled => ?_⟩
      exact hrework.settled ht.sound.linked ht₁.sound.linked hl hx hsettled
    · exact absurd hremoved ho
  removal {s s₁ s₂ r n} hr ht hl hn hacc hok hfinish := by
    obtain ⟨m, hm, rfl⟩ := exists_migration (hsub hr)
    have hrework := rework_removal hm horacle ht.sound hn hacc hok hfinish
    obtain ⟨_, ht₂, _⟩ := Pass.removal_slotLocal (horacle ▸ slotLocal hm) ht hn hacc hok hfinish
    refine ⟨hrework.lawful hl, fun x hx hsettled => ?_⟩
    exact hrework.settled ht.sound.linked ht₂.sound.linked hl hx hsettled
  done {v s s' n current lineage lineage'} ht _ hn hok := by
    obtain ⟨_, rfl, hnear, hsettled⟩ :=
      round_settles hsub horacle (fun r hr => List.mem_of_mem_filter hr) ht hn hok
    refine Settled.near (fun m hm hr => hsettled m hm ?_) hnear
    exact List.mem_filter.mpr ⟨hr, by simp [m.pre]⟩

/-- A pass without types over a lawful tree leaves a lawful and idle tree. -/
lemma run_settled {w w' : Workspace} {stats : PassStats} (ht : w.tree.Reachable)
    (hl : Lawful w.tree) (hrun : Pass.run σ w = .ok stats w') :
    w'.tree.Reachable ∧ Lawful w'.tree ∧ Idle routes .unknown σ.rules w'.tree := by
  have hlocal : ∀ r ∈ σ.rules, r.SlotLocal σ.oracle := by
    intro r hr
    obtain ⟨m, hm, rfl⟩ := exists_migration (hsub hr)
    exact horacle ▸ slotLocal hm
  obtain ⟨ht', hl', hsettled⟩ := Pass.run_settles hlocal (settles hsub horacle) ht hl hrun
  exact ⟨ht', hl', fun m hm hr n hn hacc => hsettled n hn m hm hr hacc⟩

end passes

end Catalogue

end CodeMigration
