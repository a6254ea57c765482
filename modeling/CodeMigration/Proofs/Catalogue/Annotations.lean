import CodeMigration.Proofs.Catalogue.Assembly
import CodeMigration.Proofs.Catalogue.Transforms
import CodeMigration.Proofs.Pass.Inquiry

/-!
# Routes are declared once

In the document the migration of routes puts the annotation of the first route that leads to a
method in front of the method's children, unless there is an annotation already
(`Routes.annotate`). The marks on the tree, the classes recorded by decorations and the oracle make
no difference, and neither does another run, on the same tree or on one read from the result.
-/

namespace CodeMigration

/-! ### Sketches in documents -/

mutual

/-- What a sketch looks like in a document. -/
def Sketch.drawn (given : NodeId → DocNode) : Sketch → DocNode
  | .given node => given node
  | .made construct parts => .plain construct (Sketch.drawnRow given parts)

/-- What a row of sketches looks like. -/
def Sketch.drawnRow (given : NodeId → DocNode) : List Sketch → List DocNode
  | [] => []
  | s :: ss => s.drawn given :: Sketch.drawnRow given ss

end

namespace Tree

variable {t : Tree} {fresh : Nat}

mutual

/-- New nodes without positions and formatting data have the outlines that are sketched. -/
lemma Shows.outline (ht : t.WellLinked)
    (hfresh : ∀ m, fresh ≤ m → t.isLive m = true → t.extras m = (none, none)) :
    ∀ {s : Sketch} {m : NodeId}, t.Shows fresh s m → t.outline m = s.drawn t.outline
  | .given _, _, hs => by
    rw [Shows] at hs
    rw [hs, Sketch.drawn]
  | .made construct parts, m, hs => by
    rw [Shows] at hs
    obtain ⟨hm, hlive, hconstruct, hparts⟩ := hs
    rw [outline_eq ht, hconstruct, hfresh m hm hlive, hparts.outline ht hfresh, Sketch.drawn]
    rfl

lemma ShowsRow.outline (ht : t.WellLinked)
    (hfresh : ∀ m, fresh ≤ m → t.isLive m = true → t.extras m = (none, none)) :
    ∀ {ss : List Sketch} {ms : List NodeId}, t.ShowsRow fresh ss ms →
      ms.map t.outline = Sketch.drawnRow t.outline ss
  | [], _, hs => by
    rw [ShowsRow] at hs
    rw [hs, List.map_nil, Sketch.drawnRow]
  | s :: ss, _, hs => by
    rw [ShowsRow] at hs
    obtain ⟨m, rest, rfl, hm, hrest⟩ := hs
    rw [List.map_cons, hm.outline ht hfresh, hrest.outline ht hfresh, Sketch.drawnRow]

end

end Tree

namespace Catalogue.Routes

open CodeMigration.Tree
open Pass (accepts)

variable {routes : List Route} {route : Route} {t t' t₀ : Tree} {n x : NodeId} {name : String}
  {w : Workspace} {space owner : Option String}

/-! ### Documents -/

/-- Whether a node of a document is a route annotation. -/
def isTag : DocNode → Bool
  | .node (.docTag name) _ _ _ => ClassName.same name routeClass
  | _ => false

/-- The list of request methods, in upper case, as an item of an annotation. -/
def methodsTag (httpMethods : List String) : DocNode :=
  .plain (.arrayItem true) [.plain (.string "methods") [],
    .plain .array (httpMethods.map fun m =>
      .plain (.arrayItem false) [.plain (.string (m.map Char.toUpper)) []])]

/-- The annotation of a route. -/
def tag (route : Route) : DocNode :=
  .plain (.docTag routeClass) (.plain (.string route.path) [] ::
    if route.httpMethods.isEmpty then [] else [methodsTag route.httpMethods])

/-- The first route that leads to a method of a class. -/
def leading? (routes : List Route) (owner : Option String) (method : String) : Option Route :=
  owner.bind fun className =>
    routes.find? fun r => r.method == method && ClassName.normalize r.className == className

/-- What comes in front of the children of a construct in a class. -/
def newTags (routes : List Route) (owner : Option String) :
    Construct → List DocNode → List DocNode
  | .method name, children =>
    if children.any isTag then [] else ((leading? routes owner name).map tag).toList
  | _, _ => []

mutual

/-- A node of a document in a namespace and a class, with the annotations of all methods below. -/
def annotate (routes : List Route) (space owner : Option String) : DocNode → DocNode
  | .node c children span layout =>
    .node c (newTags routes owner c children ++
      annotateRow routes (c.spaceBelow space) (c.ownerBelow space owner) children) span layout

/-- A row of nodes with all annotations. -/
def annotateRow (routes : List Route) (space owner : Option String) :
    List DocNode → List DocNode
  | [] => []
  | d :: ds => annotate routes space owner d :: annotateRow routes space owner ds

end

/-- A document with all annotations. -/
def annotated (routes : List Route) (d : Document) : Document :=
  { d with root := annotate routes none none d.root }

lemma annotateRow_eq_map (ds : List DocNode) :
    annotateRow routes space owner ds = ds.map (annotate routes space owner) := by
  induction ds with
  | nil => rw [annotateRow, List.map_nil]
  | cons d ds ih => rw [annotateRow, List.map_cons, ih]

/-- There is no method in an annotation. -/
lemma annotate_tag : annotate routes space owner (tag route) = tag route := by
  have hmethods : annotate routes space owner (methodsTag route.httpMethods) =
      methodsTag route.httpMethods := by
    simp [methodsTag, DocNode.plain, annotate, annotateRow_eq_map, newTags, Function.comp_def,
      Construct.spaceBelow, Construct.ownerBelow]
  rw [tag]
  split <;> simp [DocNode.plain, annotate, annotateRow_eq_map, newTags, hmethods,
    Construct.spaceBelow, Construct.ownerBelow]

lemma isTag_tag (route : Route) : isTag (tag route) = true := by
  simp [tag, DocNode.plain, isTag, ClassName.same]

/-! ### Trees -/

lemma isTag_outline (ht : t.WellLinked) (x : NodeId) :
    isTag (t.outline x) = isRouteTag (t.construct? x) := by
  rw [outline_eq ht]
  cases t.construct? x with
  | none => rfl
  | some c => cases c <;> rfl

lemma any_isTag_outline (ht : t.WellLinked) (n : NodeId) :
    ((t.children n).map t.outline).any isTag = isAnnotated t n := by
  rw [List.any_map, isAnnotated]
  congr 1
  funext x
  rw [Function.comp_apply, isTag_outline ht]
  rfl

/-- The route to a method, found by way of the class around it. -/
lemma leading?_eq_routeFor? (hn : t.construct? n = some (.method name))
    (hclass : t.enclosingClass? n = t.enclosing? n .classDecl) :
    leading? routes (owner? t n) name = routeFor? routes t n := by
  rw [routeFor?, hclass, name?, hn, leading?, owner?]
  cases (t.enclosing? n .classDecl).bind t.qualifiedClass? <;> rfl

/-- The annotations for a node, at its place in the tree. -/
lemma annotate_outline (ht : t.WellLinked) {c : Construct} (hc : t.construct? n = some c) :
    annotate routes (t.space? n) (owner? t n) (t.outline n) =
      .node c (newTags routes (owner? t n) c ((t.children n).map t.outline) ++
        (t.children n).map fun x => annotate routes (t.space? x) (owner? t x) (t.outline x))
        (t.extras n).1 (t.extras n).2 := by
  rw [outline_eq ht, hc, Option.getD_some, annotate, annotateRow_eq_map, List.map_map]
  congr 2
  refine List.map_congr_left fun x hx => ?_
  have hlink := (ht.mem_children_iff n x).mp hx
  rw [Function.comp_apply, ht.space?_of_link hlink hc, ht.owner?_of_link hlink hc]

/-! ### Putting an annotation together -/

/-- The items of the list of request methods. -/
def itemSketch (httpMethod : String) : Sketch :=
  .made (.arrayItem false) [.made (.string (httpMethod.map Char.toUpper)) []]

/-- The list of request methods; none for an empty list. -/
def methodsSketch (httpMethods : List String) : List Sketch :=
  if httpMethods.isEmpty then []
  else [.made (.arrayItem true)
    [.made (.string "methods") [], .made .array (httpMethods.map itemSketch)]]

/-- The annotation of a route. -/
def tagSketch (route : Route) : Sketch :=
  .made (.docTag routeClass) (.made (.string route.path) [] :: methodsSketch route.httpMethods)

lemma drawn_tagSketch (given : NodeId → DocNode) (route : Route) :
    (tagSketch route).drawn given = tag route := by
  have hitems : ∀ l : List String, Sketch.drawnRow given (l.map itemSketch) = l.map fun m =>
      .plain (.arrayItem false) [.plain (.string (m.map Char.toUpper)) []] := by
    intro l
    induction l with
    | nil => rfl
    | cons m l ih =>
      rw [List.map_cons, Sketch.drawnRow, ih]
      rfl
  rw [tagSketch, methodsSketch, tag]
  split
  · rfl
  · simp only [Sketch.drawn, Sketch.drawnRow, hitems, methodsTag]

section building

variable (ht : t.Sound) {p : NodeId} {stock : List NodeId} {row spare : List (Sketch × NodeId)}
  (h : Assembled t p stock w.tree row spare)
include ht h

lemma assembles_items (httpMethods : List String) :
    (httpMethods.mapM fun (m : String) => do
        let value ← Action.add (.string (m.map Char.toUpper))
        Action.addWithChildren (.arrayItem false) [value]).Yields w fun ids t' =>
      ids.length = httpMethods.length ∧
        Assembled t p stock t' row ((httpMethods.map itemSketch).zip ids ++ spare) := by
  have hstep : ∀ (m : String) (w' : Workspace) spare',
      Assembled t p stock w'.tree row ([] ++ spare') →
      (do
        let value ← Action.add (.string (m.map Char.toUpper))
        Action.addWithChildren (.arrayItem false) [value] : Action NodeId).Yields w' fun b t' =>
          ∃ id, b = id ∧ Assembled t p stock t' row ((itemSketch m, id) :: spare') := by
    intro m w' spare' h'
    refine (Assembled.yields_add ht _ h').bind fun value w'' hvalue => ?_
    refine (Assembled.yields_addWithChildren ht [(_, value)] _ hvalue).mono ?_
    exact fun id t' hid => ⟨id, rfl, hid⟩
  have hnone : httpMethods.flatMap (fun _ => ([] : List (Sketch × NodeId))) ++ spare = spare := by
    rw [List.flatMap_eq_nil_iff.mpr fun _ _ => rfl, List.nil_append]
  rw [← hnone] at h
  refine (Assembled.yields_mapM _ itemSketch (fun _ id => id) hstep httpMethods spare h).mono ?_
  rintro _ t' ⟨ids, hlength, rfl, hids⟩
  have hsame : List.zipWith (fun (_ : String) id => id) httpMethods ids = ids := by
    rw [← List.map_uncurry_zip_eq_zipWith]
    exact List.map_snd_zip (Nat.le_of_eq hlength)
  rw [hsame]
  exact ⟨hlength, hids⟩

lemma assembles_methods (httpMethods : List String) :
    (buildMethods httpMethods).Yields w fun ids t' => ∃ parts : List (Sketch × NodeId),
      parts.map Prod.fst = methodsSketch httpMethods ∧ parts.map Prod.snd = ids ∧
        Assembled t p stock t' row (parts ++ spare) := by
  rw [buildMethods, methodsSketch]
  split
  · exact Action.Yields.pure ⟨[], rfl, rfl, h⟩
  · refine (assembles_items ht h httpMethods).bind ?_
    rintro items w₁ ⟨hlength, hitems⟩
    refine (Assembled.yields_add ht _ hitems).bind fun key w₂ hkey => ?_
    have hparts : ((httpMethods.map itemSketch).zip items).map Prod.fst =
        httpMethods.map itemSketch := List.map_fst_zip (by simp [hlength])
    have hnodes : ((httpMethods.map itemSketch).zip items).map Prod.snd = items :=
      List.map_snd_zip (by simp [hlength])
    have hlist := Assembled.yields_addWithChildren ht _ .array (hkey.perm List.perm_middle.symm)
    rw [hparts, hnodes] at hlist
    refine hlist.bind fun list w₃ hlist => ?_
    have hboth := Assembled.yields_addWithChildren ht [(_, key), (_, list)] (.arrayItem true)
      (hlist.perm (.swap _ _ _))
    refine hboth.bind fun item w₄ hitem => ?_
    exact Action.Yields.pure ⟨[(_, item)], rfl, rfl, hitem⟩

lemma assembles_tag (route : Route) :
    (buildDocTag route).Yields w fun id t' =>
      Assembled t p stock t' row ((tagSketch route, id) :: spare) := by
  refine (Assembled.yields_add ht _ h).bind fun path w₁ hpath => ?_
  refine (assembles_methods ht hpath route.httpMethods).bind ?_
  rintro _ w₂ ⟨parts, hparts, rfl, hmethods⟩
  have htag := Assembled.yields_addWithChildren ht ((_, path) :: parts) (.docTag routeClass)
    (hmethods.perm List.perm_middle)
  rwa [List.map_cons, List.map_cons, hparts] at htag

end building

/-! ### Applications -/

/-- The method `n` has no annotation in `t`, and in `t'` that of the route that leads to it. -/
structure Annotated (routes : List Route) (t : Tree) (n : NodeId) (t' : Tree) : Prop where
  root : t'.root = t.root
  bare : isAnnotated t n = false
  construct? : ∀ x < t.size, t'.construct? x = t.construct? x
  children : ∀ x < t.size, x ≠ n → t'.children x = t.children x
  row : ∃ route id, routeFor? routes t n = some route ∧ t'.children n = id :: t.children n ∧
    t'.Shows t.size (tagSketch route) id

lemma yields_annotated (oracle : Oracle) (pass : Nat) (ht : w.tree.Sound)
    (hn : w.tree.Reaches w.tree.root n) (hacts : acts routes w.tree n = true) :
    (apply routes oracle pass n).Yields w fun o t' =>
      o = .mutated ∧ Annotated routes w.tree n t' := by
  rw [acts, Bool.and_eq_true, Bool.and_eq_true, Bool.not_eq_true', Bool.not_eq_true'] at hacts
  obtain ⟨hflag, hbare, hsome⟩ := hacts
  obtain ⟨route, hroute⟩ := Option.isSome_iff_exists.mp hsome
  have hlt := ht.linked.lt_size_of_reaches hn
  have hlive := ht.linked.isLive_of_attached hn
  refine Action.Yields.tree_bind ?_
  rw [if_neg (by simp [hflag])]
  refine Action.Yields.require_bind hlt (Action.Yields.tree_bind ?_)
  rw [if_neg (by simp [hbare]), hroute]
  have hstart : Assembled w.tree n [] w.tree [] [] := Assembled.start n List.nodup_nil (by simp)
  refine (assembles_tag ht hstart route).bind fun id w₁ h₁ => ?_
  have hattach := h₁.attachable ht hlive (by simp) List.mem_cons_self
  have hlinked := (h₁.sound ht).linked
  obtain ⟨t₂, hinsert, _, hsame⟩ := exists_insertChild hlinked hattach
  obtain ⟨hshifted, hrow⟩ := shifted_insertChild hlinked hinsert
  have hold : ∀ x < w.tree.size, w₁.tree.children x = w.tree.children x := by
    intro x hx
    rw [h₁.children x hx]
    simp
  refine Action.Yields.edit_bind hinsert fun w₂ hw₂ => ?_
  subst hw₂
  refine Action.Yields.update_bind (Action.Yields.pure ⟨rfl, ?_⟩)
  -- marking the method changes neither constructs nor rows
  refine ⟨hshifted.root.trans h₁.root, hbare, fun x hx => ?_, fun x hx hne => ?_,
    route, id, hroute, hrow.trans (congrArg _ (hold n hlt)), ?_⟩
  · exact (hshifted.construct? x).trans (h₁.construct? x hx)
  · exact (hshifted.children x hne).trans (hold x hx)
  · refine (h₁.shown (tagSketch route, id) (by simp)).mono fun m hm _ => ?_
    exact ⟨hshifted.construct? m, hsame m, hshifted.children m (Nat.ne_of_gt (hlt.trans_le hm))⟩

/-- The rule as one of the migrations. -/
lemma exists_migration_eq (routes : List Route) : ∃ m ∈ migrations routes,
    m.rule = rule routes ∧ m.acts = fun _ => acts routes :=
  ⟨(migrations routes).getLast (List.cons_ne_nil _ _), List.getLast_mem _, rfl, rfl⟩

section offers

variable {σ : PassSetting} {s s₁ : PassState} {o : Outcome}

/-- Without types an offer leaves the tree as it is, or annotates the method. -/
lemma offer_annotates (horacle : σ.oracle = .unknown) (ht : s.tree.Sound)
    (hn : s.tree.Reaches s.tree.root n) (hacc : accepts s.tree (rule routes) n = true)
    (hok : Pass.offer σ (rule routes) n s = .ok o s₁) :
    Near s.tree s₁.tree ∨ Annotated routes s.tree n s₁.tree := by
  obtain ⟨m, hm, hrule, hacts⟩ := exists_migration_eq routes
  have hsteady : σ.oracle.Steady := horacle ▸ Oracle.steady_unknown
  cases hidle : acts routes s.tree n with
  | false =>
    rw [← hrule] at hacc hok
    obtain ⟨t, files, hok', hnear, _⟩ := offer_rests hsteady ht hn hacc (by rw [hacts]; exact hidle)
    rw [hok'] at hok
    cases hok
    exact Or.inl hnear
  | true =>
    have hacts' : acts routes s.tree.checkpoint n = true :=
      (acts_near (near_checkpoint s.tree) routes n).trans hidle
    obtain ⟨_, w, happ, rfl, hdone⟩ := yields_annotated σ.oracle σ.pass
      (w := ⟨s.tree.checkpoint, s.files⟩) ht.checkpoint hn hacts'
    rcases Pass.offer_eq_ok_iff.mp hok with ⟨o', w', happ', _, rfl⟩ | ⟨e, w', happ', _⟩
    · cases happ.symm.trans happ'
      obtain ⟨route, id, hroute, hrow, hshows⟩ := hdone.row
      have hcommit : w.tree.Retains s.tree.size w.tree.commit := fun _ _ _ => ⟨rfl, rfl, rfl⟩
      refine Or.inr ⟨hdone.root, hdone.bare, hdone.construct?, hdone.children, route, id, ?_, hrow,
        hshows.mono hcommit⟩
      rwa [← routeFor?_near (near_checkpoint s.tree)]
    · cases happ.symm.trans happ'

end offers

namespace Annotated

variable (h : Annotated routes t n t') (ht : t.WellLinked) (ht' : t'.WellLinked)
include h ht ht'

/-- Nothing is lost. -/
lemma attached (hx : t.Reaches t.root x) : t'.Reaches t'.root x := by
  rw [h.root]
  induction hx with
  | refl => exact Reaches.refl _
  | @tail p c _ hlink ih =>
    have hlt := (ht.link_lt hlink).1
    have hc : c ∈ t.children p := (ht.mem_children_iff p c).mpr hlink
    have hc' : c ∈ t'.children p := by
      by_cases hp : p = n
      · obtain ⟨_, id, _, hrow, _⟩ := h.row
        rw [hp] at hc ⊢
        rw [hrow]
        exact List.mem_cons_of_mem id hc
      · rwa [h.children p hlt hp]
    have hlink' : t'.Link p c := (ht'.mem_children_iff p c).mp hc'
    exact ih.trans hlink'.reaches

/-- What is still to be annotated comes to the same. -/
lemma annotate_outline_eq (hplain : t₀.Plain) (hspares : t₀.Spares t) (hspares' : t₀.Spares t')
    (hname : t.construct? n = some (.method name))
    (hclass : t.enclosingClass? n = t.enclosing? n .classDecl) (hx : t.Reaches t.root x) :
    annotate routes (t.space? x) (owner? t x) (t'.outline x) =
      annotate routes (t.space? x) (owner? t x) (t.outline x) := by
  induction x using ht.induction_up with | hstep x ih =>
  have hlt := ht.lt_size_of_reaches hx
  obtain ⟨c, hc⟩ := t.exists_construct? hlt
  have hextras : t'.extras x = t.extras x := by
    rw [hspares'.extras hplain (ht'.isLive_of_attached (h.attached ht ht' hx)),
      hspares.extras hplain (ht.isLive_of_attached hx)]
  have hrow : ((t.children x).map t'.outline).map
        (annotate routes (c.spaceBelow (t.space? x)) (c.ownerBelow (t.space? x) (owner? t x))) =
      (t.children x).map fun y => annotate routes (t.space? y) (owner? t y) (t.outline y) := by
    rw [List.map_map]
    refine List.map_congr_left fun y hy => ?_
    have hlink := (ht.mem_children_iff x y).mp hy
    rw [Function.comp_apply, ← ht.space?_of_link hlink hc, ← ht.owner?_of_link hlink hc]
    exact ih y hy (hx.trans hlink.reaches)
  rw [annotate_outline ht hc, outline_eq ht', h.construct? x hlt, hc, hextras, Option.getD_some,
    annotate, annotateRow_eq_map]
  by_cases hxn : x = n
  · subst hxn
    obtain rfl := Option.some.inj (hc.symm.trans hname)
    obtain ⟨route, id, hroute, hchildren, hshows⟩ := h.row
    have hfresh : ∀ m, t.size ≤ m → t'.isLive m = true → t'.extras m = (none, none) := by
      intro m hm hlive
      have hnew := Nat.le_trans (hspares.heeds .span (Or.inl rfl)).grown.size_le hm
      rw [hspares'.extras hplain hlive, Tree.extras, hplain.known m .span hnew,
        hplain.known m .layout hnew]
      rfl
    have htag : t'.outline id = tag route := by
      rw [hshows.outline ht' hfresh, drawn_tagSketch]
    -- the annotation that is there in `t'` is the one to come in `t`
    rw [hchildren, List.map_cons, htag, List.map_cons, annotate_tag, hrow, newTags, newTags,
      any_isTag_outline ht, h.bare, leading?_eq_routeFor? hname hclass, hroute]
    simp [isTag_tag]
  · rw [h.children x hlt hxn, hrow]
    congr 2
    have htags : ((t.children x).map t'.outline).any isTag =
        ((t.children x).map t.outline).any isTag := by
      rw [List.any_map, List.any_map, Bool.eq_iff_iff, List.any_eq_true, List.any_eq_true]
      refine exists_congr fun y => and_congr_right fun hy => ?_
      have hlink := (ht.mem_children_iff x y).mp hy
      rw [Function.comp_apply, Function.comp_apply, isTag_outline ht', isTag_outline ht,
        h.construct? y (ht.link_lt hlink).2]
    cases c with
    | method name => rw [newTags, newTags, htags]
    | _ => rfl

end Annotated

/-! ### Idle trees -/

/-- Where nothing is left to do, there are no annotations to come. -/
lemma newTags_of_idle (ht : t.WellLinked) (hl : Lawful t) (hx : t.Reaches t.root x)
    (hname : t.construct? x = some (.method name)) (hidle : acts routes t x = false) :
    newTags routes (owner? t x) (.method name) ((t.children x).map t.outline) = [] := by
  have hkind := kind?_of_construct hname
  have hrouted := hl.routed x hx hkind
  rw [newTags, any_isTag_outline ht, leading?_eq_routeFor? hname (hl.enclosingClass? hx hkind)]
  rw [acts] at hidle
  cases hbare : isAnnotated t x with
  | true => rfl
  | false =>
    have hflag : t.attributes.flag x .hasRoute = false := by grind
    rw [hflag, hbare] at hidle
    have hroute : routeFor? routes t x = none := by simpa using hidle
    rw [hroute]
    rfl

lemma annotate_of_idle (ht : t.WellLinked) (hl : Lawful t)
    (hidle : ∀ n, t.Reaches t.root n → t.kind? n = some .method → acts routes t n = false)
    (hx : t.Reaches t.root x) :
    annotate routes (t.space? x) (owner? t x) (t.outline x) = t.outline x := by
  induction x using ht.induction_up with | hstep x ih =>
  obtain ⟨c, hc⟩ := t.exists_construct? (ht.lt_size_of_reaches hx)
  have hnone : newTags routes (owner? t x) c ((t.children x).map t.outline) = [] := by
    cases c with
    | method name =>
      exact newTags_of_idle ht hl hx hc (hidle x hx (kind?_of_construct hc))
    | _ => rfl
  rw [annotate_outline ht hc, hnone, List.nil_append, outline_eq ht, hc]
  congr 1
  refine List.map_congr_left fun y hy => ih y hy ?_
  exact hx.trans ((ht.mem_children_iff x y).mp hy).reaches

/-- Where nothing changes there are no annotations to come, and nothing changes right below. -/
lemma row_of_annotate_eq (ht : t.WellLinked) {c : Construct} (hc : t.construct? x = some c)
    (hsame : annotate routes (t.space? x) (owner? t x) (t.outline x) = t.outline x) :
    newTags routes (owner? t x) c ((t.children x).map t.outline) = [] ∧
      ∀ y ∈ t.children x,
        annotate routes (t.space? y) (owner? t y) (t.outline y) = t.outline y := by
  rw [annotate_outline ht hc, outline_eq ht, hc] at hsame
  have hrow := (DocNode.node.inj hsame).2.1
  have hnone : newTags routes (owner? t x) c ((t.children x).map t.outline) = [] := by
    have hlength := congrArg List.length hrow
    rw [List.length_append, List.length_map, List.length_map, Nat.add_eq_right] at hlength
    exact List.length_eq_zero_iff.mp hlength
  rw [hnone, List.nil_append] at hrow
  exact ⟨hnone, List.map_inj_left.mp hrow⟩

/-- What has all its annotations leaves nothing to do, whatever the marks. -/
lemma acts_of_annotate_eq (ht : t.WellLinked) (hl : Lawful t)
    (hdone : annotate routes none none (t.outline t.root) = t.outline t.root)
    (hx : t.Reaches t.root x) (hkind : t.kind? x = some .method) : acts routes t x = false := by
  have hfixed : annotate routes (t.space? x) (owner? t x) (t.outline x) = t.outline x := by
    clear hkind
    induction hx with
    | refl => rw [ht.space?_root, ht.owner?_root, hdone]
    | @tail p y hp hlink ih =>
      obtain ⟨c, hc⟩ := t.exists_construct? (ht.lt_size_of_reaches hp)
      exact (row_of_annotate_eq ht hc ih).2 y ((ht.mem_children_iff p y).mpr hlink)
  obtain ⟨name, hname⟩ := exists_method hkind
  obtain ⟨hnone, _⟩ := row_of_annotate_eq ht hname hfixed
  rw [newTags, any_isTag_outline ht, leading?_eq_routeFor? hname (hl.enclosingClass? hx hkind)]
    at hnone
  rw [acts]
  cases hbare : isAnnotated t x with
  | true => simp
  | false =>
    have hroute : routeFor? routes t x = none := by simpa [hbare] using hnone
    rw [hroute]
    simp

/-! ### Passes -/

variable {σ : PassSetting} {p : Pipeline} {oracle : Oracle} {w' : Workspace} {stats : PassStats}

lemma subset_of_eq_rule (hrules : σ.rules = [rule routes]) : σ.rules ⊆ all routes := by
  rw [hrules]
  simp [all]

/-- Every offer keeps what is to become of the document, and settles its method. -/
lemma settles_annotate (horacle : σ.oracle = .unknown) (hrules : σ.rules = [rule routes])
    (hplain : t₀.Plain) :
    Pass.Settles σ (fun t => Lawful t ∧ t₀.Follows (annotate routes none none) t)
      (Settled routes σ.rules) := by
  have hsub := subset_of_eq_rule hrules
  have hsettles := settles hsub horacle
  have hrule : ∀ r ∈ σ.rules, r = rule routes := by simp [hrules]
  refine ⟨?_, ?_, ?_⟩
  · rintro s s₁ r n o hr ht ⟨hl, hfollows⟩ hn hacc hok ho
    obtain ⟨hl₁, hkeeps⟩ := hsettles.offer hr ht hl hn hacc hok ho
    obtain rfl := hrule r hr
    refine ⟨⟨hl₁, Pass.follows_offer (editsOnly routes).reshapes hfollows hok fun hspares => ?_⟩,
      hkeeps⟩
    have hlinked := ht.sound.linked
    rcases offer_annotates horacle ht.sound hn hacc hok with hnear | hdone
    · rw [hnear.alike.root, outline_alike hnear.alike hnear.extras]
    · have hkind : s.tree.kind? n = some .method := kind?_of_accepts rfl hacc
      obtain ⟨name, hname⟩ := exists_method hkind
      have hsame := hdone.annotate_outline_eq hlinked hspares.sound.linked hplain hfollows.spares
        hspares hname (hl.enclosingClass? hn hkind) (Reaches.refl s.tree.root)
      rw [hdone.root]
      rwa [hlinked.space?_root, hlinked.owner?_root] at hsame
  · rintro s s₁ s₂ r n hr ht ⟨hl, _⟩ hn hacc hok hfinish
    -- a method is never removed
    obtain rfl := hrule r hr
    obtain ⟨m, hm, hrule, _⟩ := exists_migration_eq routes
    have hkind : s.tree.kind? n = some .method := kind?_of_accepts rfl hacc
    rw [← hrule] at hacc hok
    rcases offer_cases hm horacle ht.sound hn hacc hok with ⟨h, _⟩ | ⟨h, _⟩ | ⟨_, _, h, _⟩
    · cases h
    · cases h
    · cases hkind.symm.trans h
  · exact fun ht hJ hn hok => hsettles.done ht hJ.1 hn hok

lemma asksNothing (routes : List Route) : (rule routes).AsksNothing := fun _ _ => rfl

/-- A pass with the rule for routes alone goes the same way without types. -/
lemma run_without_types (hrules : p.rules = [rule routes]) (pass : Nat) :
    Pass.run (p.setting oracle pass) = Pass.run (p.setting .unknown pass) := by
  refine (Pass.run_withOracle fun r hr => ?_).symm
  rw [show (p.setting oracle pass).rules = [rule routes] from hrules] at hr
  rw [List.mem_singleton.mp hr]
  exact asksNothing routes

/-- A pipeline with the rule for routes alone annotates documents. -/
lemma realizes_annotate (oracle : Oracle) (hrules : p.rules = [rule routes]) :
    p.Realizes oracle Lawful (annotate routes none none) where
  decorate ht hl := hl.decorate ht oracle
  pass {t₀ pass w w' stats} hplain ht hl hfollows hrun := by
    rw [run_without_types hrules] at hrun
    have hlocal : ∀ r ∈ (p.setting .unknown pass).rules, r.SlotLocal .unknown := by
      intro r hr
      obtain ⟨m, hm, rfl⟩ := exists_migration (subset_of_eq_rule hrules hr)
      exact slotLocal hm
    obtain ⟨ht', ⟨hl', hfollows'⟩, hsettled⟩ := Pass.run_settles hlocal
      (settles_annotate rfl hrules hplain) ht ⟨hl, hfollows⟩ hrun
    refine ⟨ht', hl', hfollows', ?_⟩
    have hlinked := ht'.sound.linked
    have hidle : ∀ n, w'.tree.Reaches w'.tree.root n → w'.tree.kind? n = some .method →
        acts routes w'.tree n = false := by
      intro n hn hkind
      obtain ⟨m, hm, hrule, hacts⟩ := exists_migration_eq routes
      have hacc : accepts w'.tree m.rule n = true := by
        rw [hrule, accepts, hkind]
        rfl
      have hmem : m.rule ∈ (p.setting .unknown pass).rules := by
        rw [hrule, show (p.setting .unknown pass).rules = [rule routes] from hrules]
        exact List.mem_singleton_self _
      have hidle := hsettled n hn m hm hmem hacc
      rwa [hacts] at hidle
    have hdone := annotate_of_idle hlinked hl' hidle (Reaches.refl w'.tree.root)
    rwa [hlinked.space?_root, hlinked.owner?_root] at hdone

/-- A run on a tree that has all its annotations changes nothing. -/
lemma mutations_of_annotate_eq (hrules : p.rules = [rule routes]) (ht : t.Sound) (hl : Lawful t)
    (hdone : annotate routes none none (t.outline t.root) = t.outline t.root) {report : RunReport}
    (hrun : p.run oracle t = (t', .ok report)) : report.mutations = 0 := by
  refine Pipeline.mutations_of_quiet hrun fun s w' hpass => ?_
  obtain ⟨hpass, _⟩ := Pipeline.onePass_eq_ok_iff.mp hpass
  rw [run_without_types hrules] at hpass
  have hsound : (t.decorate oracle).1.Sound := ht.edited (t.edited_decorate oracle)
  have hdone' : annotate routes none none ((t.decorate oracle).1.outline t.root) =
      (t.decorate oracle).1.outline t.root := by
    rw [outline_decorate oracle ht, hdone]
  have hidle : Idle routes .unknown [rule routes] (t.decorate oracle).1 := by
    intro m hm hmem n hn hacc
    obtain ⟨m', hm', hrule, hacts⟩ := exists_migration_eq routes
    obtain rfl : m = m' := eq_of_id hm hm' (by rw [List.mem_singleton.mp hmem, hrule])
    rw [hrule] at hacc
    rw [hacts]
    exact acts_of_annotate_eq hsound.linked (hl.decorate ht oracle) hdone' hn
      (kind?_of_accepts rfl hacc)
  exact (quiet_of_idle (σ := p.setting .unknown 1) hsound (subset_of_eq_rule hrules)
    Oracle.steady_unknown (by rwa [← hrules] at hidle) hpass).1

/-! ### Runs -/

/-- Runs with the rule for routes alone, one or any number of them on the same tree, put the
annotation of the first route that leads to a method in front of the children of every method that
has no annotation, and change nothing else; and a run on the tree that is read from the resulting
document changes nothing at all. -/
theorem run_annotates_once (routes : List Route) (oracle : Oracle) (limits : Limits)
    (hbound : 1 ≤ limits.revisitBound) (hpasses : 1 ≤ limits.maxPasses) {d : Document} {t : Tree}
    (hdoc : ofDocument d = .ok t) :
    ∃ p, Pipeline.withRules limits [rule routes] = .ok p ∧
      (∀ k, ∃ t',
        (∃ N, ∀ depth ≥ N, (p.withDepth depth).rerun? oracle (k + 1) t = some t') ∧
        t'.toDocument = .ok (annotated routes d)) ∧
      ∀ t₁, ofDocument (annotated routes d) = .ok t₁ → ∃ t₂ report,
        (∃ N, ∀ depth ≥ N, (p.withDepth depth).run oracle t₁ = (t₂, .ok report)) ∧
        report.mutations = 0 ∧ t₂.toDocument = .ok (annotated routes d) := by
  have htame : ∀ r ∈ [rule routes], r.Tame (gauge oracle) oracle := by
    intro r hr
    rw [List.mem_singleton.mp hr]
    exact tame routes
  have hroom : ∀ pass, ∀ r ∈ [rule routes], r.Replaces oracle →
      1 ≤ Pass.replacementLimit
        (Pipeline.setting { limits, rules := [rule routes] } oracle pass) := by
    intro pass r hr hreplaces
    rw [List.mem_singleton.mp hr] at hreplaces
    exact absurd hreplaces (not_replaces routes)
  have hrealizes : ∀ depth, (Pipeline.withDepth { limits, rules := [rule routes] } depth).Realizes
      oracle Lawful (annotate routes none none) := fun depth => realizes_annotate oracle rfl
  have hstart : ∀ {d : Document} {t : Tree}, ofDocument d = .ok t →
      Pipeline.UnderWay Lawful (annotate routes none none) t t := fun hdoc =>
    ⟨.ofDocument hdoc, lawful_of_plain (outline_ofDocument hdoc).1,
      .refl (Reachable.ofDocument hdoc).sound⟩
  have hrerun := fun {d : Document} {t : Tree} (hdoc : ofDocument d = .ok t) =>
    Pipeline.Realizes.rerun (p := { limits, rules := [rule routes] }) hrealizes htame hroom hbound
      hpasses (outline_ofDocument hdoc).1 (hstart hdoc)
  refine ⟨{ limits, rules := [rule routes] }, Pipeline.withRules_singleton rfl, fun k => ?_,
    fun t₁ hload => ?_⟩
  · obtain ⟨t', hruns, hunderway, hdone⟩ := hrerun hdoc k
    exact ⟨t', hruns, hunderway.follows.toDocument hdoc hdone⟩
  · -- what has been annotated once stays as it is
    have hfixed : annotate routes none none (annotated routes d).root =
        (annotated routes d).root := by
      obtain ⟨t', _, hunderway, hdone⟩ := hrerun hdoc 0
      have hsame := hunderway.follows.outline
      rw [(outline_ofDocument hdoc).2, hdone] at hsame
      rw [annotated, ← hsame, hdone]
    have hdone₁ : annotate routes none none (t₁.outline t₁.root) = t₁.outline t₁.root := by
      rw [(outline_ofDocument hload).2, hfixed]
    have ht₁ := hstart hload
    obtain ⟨t₂, report, ⟨N, hrun⟩, _⟩ := Pipeline.run_tame (p := { limits, rules := [rule routes] })
      htame hroom hbound ht₁.reachable.sound
    have hrun' := hrun N (Nat.le_refl N)
    refine ⟨t₂, report, ⟨N, hrun⟩, ?_, ?_⟩
    · exact mutations_of_annotate_eq rfl ht₁.reachable.sound ht₁.lawful hdone₁ hrun'
    · obtain ⟨hunderway, hdone⟩ :=
        (hrealizes N).run (outline_ofDocument hload).1 hpasses ht₁ hrun'
      have hdocument := hunderway.follows.toDocument hload hdone
      rwa [hfixed] at hdocument

/-- Two routes lead to one action of a controller; the other action is annotated. -/
def pageRoutes : List Route := [
  ⟨"\\App\\Page", "show", "/show", ["get"]⟩, ⟨"App\\Page", "show", "/other", []⟩,
  ⟨"App\\Page", "edit", "/edit", []⟩]

/-- The controller, with annotations in front of the first action. -/
def pageDocument (tags : List DocNode) : Document where
  root := .plain .file [
    .plain (.namespaceDecl "App") [
      .plain (.classDecl "Page" none []) [
        .plain (.method "show") tags,
        .plain (.method "edit") [.plain (.docTag ("\\" ++ routeClass)) []]]]]

theorem run_annotates_once_page :
    ∃ t p t', ofDocument (pageDocument []) = .ok t ∧
      Pipeline.withRules {} [rule pageRoutes] = .ok p ∧
      (∃ N, ∀ depth ≥ N, (p.withDepth depth).rerun? .unknown 3 t = some t') ∧
      t'.toDocument = .ok (pageDocument [
        .plain (.docTag routeClass) [
          .plain (.string "/show") [],
          .plain (.arrayItem true) [
            .plain (.string "methods") [],
            .plain .array [.plain (.arrayItem false) [.plain (.string "GET") []]]]]]) := by
  obtain ⟨t, hdoc, -⟩ := exists_ofDocument (d := pageDocument []) (by decide +kernel)
  obtain ⟨p, hp, hreruns, _⟩ :=
    run_annotates_once pageRoutes .unknown {} (by decide) (by decide) hdoc
  obtain ⟨t', hruns, hdocument⟩ := hreruns 2
  refine ⟨t, p, t', hdoc, hp, hruns, hdocument.trans (congrArg Except.ok ?_)⟩
  decide +kernel

end Catalogue.Routes

end CodeMigration
