import CodeMigration.Proofs.Tree.Links
import CodeMigration.Tree.Validate
import Mathlib.Data.List.Flatten

/-!
# What the check of a tree accepts

The check works on any arena, whatever its links say: `Tree.Rooted` is what it accepts. The walk is
followed by `Tree.Explored`. What has been seen and what is on the stack are together the root and
the children of what has been seen, so the stack is used up after no more steps than there are
entries in child lists, and if nothing was met twice then nothing is listed twice. `Tree.Checks` is
the check without a bound on its steps.
-/

namespace CodeMigration

namespace Tree

variable {t : Tree} {seen stack : List NodeId} {id : NodeId}

/-! ### Rooted trees -/

/-- The child list of `p` has `c` in it. -/
def Lists (t : Tree) (p c : NodeId) : Prop := c ∈ t.children p

/-- Going down child lists leads from `a` to `n`. -/
def Descends (t : Tree) (a n : NodeId) : Prop := Relation.ReflTransGen t.Lists a n

/-- What hangs below the root is a tree: its nodes are live, the root is in no child list, every
other node is in one child list in one place, and its parent link names the node with that list. -/
structure Rooted (t : Tree) : Prop where
  root_free : t.parent? t.root = none
  live : ∀ n, t.Descends t.root n → t.isLive n = true
  root_unlisted : ∀ p, t.Descends t.root p → ¬ t.Lists p t.root
  listed_once : ∀ c, t.Descends t.root c → c ≠ t.root →
    ∃! e : NodeId × Nat, t.Descends t.root e.1 ∧ t.child? e.1 e.2 = some c
  parent : ∀ p c, t.Descends t.root p → t.Lists p c → t.parent? c = some p

lemma place_unique {p c : NodeId} {i j : Nat} (hrow : (t.children p).Nodup)
    (hi : t.child? p i = some c) (hj : t.child? p j = some c) : i = j :=
  (List.getElem?_inj (List.getElem?_eq_some_iff.mp hi).1 hrow).mp (hi.trans hj.symm)

/-- The child lists of different nodes below the root have nothing in common, and nothing twice. -/
lemma Rooted.nodup_rows (h : t.Rooted) {row : List NodeId} (hrow : row.Nodup)
    (hbelow : ∀ n ∈ row, t.Descends t.root n) : (t.root :: row.flatMap t.children).Nodup := by
  -- the place of a child is unique
  have hplace : ∀ {p q c : NodeId} {i j : Nat}, p ∈ row → q ∈ row → t.child? p i = some c →
      t.child? q j = some c → p = q ∧ i = j := by
    intro p q c i j hp hq hi hj
    have hc : t.Lists p c := List.mem_of_getElem? hi
    have hne : c ≠ t.root := by
      rintro rfl
      exact h.root_unlisted p (hbelow p hp) hc
    have hbelow' := (hbelow p hp).tail hc
    have hsame : (p, i) = (q, j) :=
      (h.listed_once c hbelow' hne).unique ⟨hbelow p hp, hi⟩ ⟨hbelow q hq, hj⟩
    simpa using hsame
  rw [List.nodup_cons, List.mem_flatMap, List.nodup_flatMap]
  refine ⟨?_, fun p hp => ?_, hrow.imp_of_mem fun {p q} hp hq hne => ?_⟩
  · rintro ⟨p, hp, hroot⟩
    exact h.root_unlisted p (hbelow p hp) hroot
  · rw [List.nodup_iff_getElem?_ne_getElem?]
    intro i j hij hj heq
    rw [List.getElem?_eq_getElem hj] at heq
    have hj' : t.child? p j = some _ := List.getElem?_eq_getElem hj
    exact Nat.ne_of_lt hij (hplace hp hp heq hj').2
  · intro c hcp hcq
    obtain ⟨i, hi⟩ := List.mem_iff_getElem?.mp hcp
    obtain ⟨j, hj⟩ := List.mem_iff_getElem?.mp hcq
    exact hne (hplace hp hq hi hj).1

/-! ### The walk -/

lemma checkLinks_eq_ok_iff {row : List NodeId} :
    t.checkLinks id row = .ok () ↔ ∀ c ∈ row, t.Link id c := by
  induction row with
  | nil => simp [checkLinks]
  | cons c row ih =>
    rw [checkLinks, List.forall_mem_cons, ← ih]
    by_cases hc : t.parent? c = some id <;> simp [hc, Link, violation]

/-- The walk over a stack as it goes, however long it takes, and how it ends. -/
inductive Walks (t : Tree) : List NodeId → List NodeId → Except Error Unit → Prop
  | done {seen : List NodeId} : Walks t seen [] (.ok ())
  | discarded {seen stack : List NodeId} {id : NodeId} (hdead : t.isLive id = false) :
    Walks t seen (id :: stack) (violation (.discardedReachable id))
  | repeated {seen stack : List NodeId} {id : NodeId} (hlive : t.isLive id = true)
    (hseen : id ∈ seen) : Walks t seen (id :: stack) (violation (.repeated id))
  | misplaced {seen stack : List NodeId} {id : NodeId} {e : Error} (hlive : t.isLive id = true)
    (hnew : id ∉ seen) (hlinks : t.checkLinks id (t.children id) = .error e) :
    Walks t seen (id :: stack) (.error e)
  | down {seen stack : List NodeId} {id : NodeId} {result : Except Error Unit}
    (hlive : t.isLive id = true) (hnew : id ∉ seen)
    (hlinks : t.checkLinks id (t.children id) = .ok ())
    (hrest : Walks t (id :: seen) ((t.children id).reverse ++ stack) result) :
    Walks t seen (id :: stack) result

/-- The check as it goes, and how it ends. -/
inductive Checks (t : Tree) : Except Error Unit → Prop
  | hanging (hparent : (t.parent? t.root).isSome = true) :
    Checks t (violation (.rootHasParent t.root))
  | walk {result : Except Error Unit} (hfree : t.parent? t.root = none)
    (hwalk : t.Walks [] [t.root] result) : Checks t result

/-- The walk leaves no choice. -/
lemma Walks.unique {result result' : Except Error Unit} (h : t.Walks seen stack result)
    (h' : t.Walks seen stack result') : result = result' := by
  induction h with
  | done =>
    cases h'
    rfl
  | discarded hdead => cases h' <;> simp_all
  | repeated hlive hseen => cases h' <;> simp_all
  | misplaced hlive hnew hlinks => cases h' <;> simp_all
  | down hlive hnew hlinks hrest ih =>
    cases h' with
    | discarded hdead => simp [hlive] at hdead
    | repeated _ hseen => exact absurd hseen hnew
    | misplaced _ _ hlinks' => simp [hlinks] at hlinks'
    | down _ _ _ hrest' => exact ih hrest'

lemma flatMap_range_children (t : Tree) :
    (List.range t.size).flatMap t.children = t.slots.toList.flatMap (·.children) := by
  rw [List.flatMap_def, List.flatMap_def]
  congr 1
  refine List.ext_getElem (by simp [size]) fun i hi _ => ?_
  have hslot : i < t.slots.size := by simpa [size] using hi
  simp [children, slot?, hslot]

/-- A state of the walk: nothing was seen twice, what was seen has passed, and what was seen and
what is on the stack are together the root and the children of what was seen. -/
structure Explored (t : Tree) (seen stack : List NodeId) : Prop where
  nodup : seen.Nodup
  live : ∀ n ∈ seen, t.isLive n = true
  parent : ∀ p ∈ seen, ∀ c ∈ t.children p, t.Link p c
  perm : (seen ++ stack).Perm (t.root :: seen.flatMap t.children)
  below : ∀ n ∈ seen ++ stack, t.Descends t.root n

lemma explored_root (t : Tree) : t.Explored [] [t.root] where
  nodup := List.nodup_nil
  live := by simp
  parent := by simp
  perm := List.Perm.refl _
  below n hn := by
    rw [List.nil_append, List.mem_singleton] at hn
    exact hn ▸ Relation.ReflTransGen.refl

namespace Explored

lemma step (h : t.Explored seen (id :: stack)) (hlive : t.isLive id = true) (hnew : id ∉ seen)
    (hlinks : ∀ c ∈ t.children id, t.Link id c) :
    t.Explored (id :: seen) ((t.children id).reverse ++ stack) where
  nodup := List.nodup_cons.mpr ⟨hnew, h.nodup⟩
  live := List.forall_mem_cons.mpr ⟨hlive, h.live⟩
  parent := List.forall_mem_cons.mpr ⟨hlinks, h.parent⟩
  perm := by
    calc (id :: seen ++ ((t.children id).reverse ++ stack)).Perm
          ((t.children id).reverse ++ (seen ++ id :: stack)) := by
            simp only [List.cons_append]
            refine List.Perm.trans ?_ (List.Perm.append_left _ List.perm_middle.symm)
            refine List.Perm.trans ?_ List.perm_middle.symm
            refine List.Perm.cons _ ?_
            rw [← List.append_assoc, ← List.append_assoc]
            exact List.perm_append_comm.append_right _
      _ |>.Perm (t.children id ++ (t.root :: seen.flatMap t.children)) :=
            (List.reverse_perm _).append h.perm
      _ |>.Perm (t.root :: (id :: seen).flatMap t.children) := by
            rw [List.flatMap_cons]
            exact List.perm_middle
  below n hn := by
    have hid : t.Descends t.root id := h.below id (by simp)
    rw [List.mem_append, List.mem_append, List.mem_reverse, List.mem_cons] at hn
    rcases hn with (rfl | hn) | hn | hn
    · exact hid
    · exact h.below n (List.mem_append_left _ hn)
    · exact hid.tail hn
    · exact h.below n (List.mem_append_right _ (List.mem_cons_of_mem id hn))

/-- What was seen lies in the arena, so its children and the root are no more than the walk allows
for. -/
lemma length_lt (h : t.Explored seen stack) : seen.length + stack.length < t.walkBound := by
  obtain ⟨row, hrow, hsub⟩ : seen.Subperm (List.range t.size) :=
    List.subperm_of_subset h.nodup fun n hn =>
      List.mem_range.mpr (t.lt_size_of_isLive (h.live n hn))
  have hentries := (hsub.flatMap t.children).length_le
  rw [(hrow.flatMap_right t.children).length_eq, flatMap_range_children] at hentries
  have hlen := h.perm.length_eq
  rw [List.length_append, List.length_cons] at hlen
  rw [walkBound]
  omega

/-- Enough steps for what has not been seen yet are enough to end the walk. -/
lemma walks {k : Nat} (h : t.Explored seen stack) (hk : t.walkBound ≤ k + seen.length) :
    t.Walks seen stack (t.checkStack k seen stack) := by
  induction k generalizing seen stack with
  | zero =>
    have hlt := h.length_lt
    omega
  | succ k ih =>
    cases stack with
    | nil => exact .done
    | cons id stack =>
      rw [checkStack]
      by_cases hlive : t.isLive id = true
      · by_cases hseen : id ∈ seen
        · simpa [hlive, hseen] using Walks.repeated hlive hseen
        · cases hlinks : t.checkLinks id (t.children id) with
          | error e =>
            simpa [hlive, hseen, hlinks, bind, Except.bind] using
              Walks.misplaced hlive hseen hlinks
          | ok u =>
            have hrest := ih (h.step hlive hseen (checkLinks_eq_ok_iff.mp hlinks))
              (by rw [List.length_cons]; omega)
            simpa [hlive, hseen, hlinks, bind, Except.bind] using
              Walks.down hlive hseen hlinks hrest
      · rw [Bool.not_eq_true] at hlive
        simpa [hlive] using Walks.discarded hlive

/-- Once the stack is empty, all that lies below the root has been seen. -/
lemma mem_iff (h : t.Explored seen []) {n : NodeId} : n ∈ seen ↔ t.Descends t.root n := by
  have hperm := h.perm
  rw [List.append_nil] at hperm
  refine ⟨fun hn => h.below n (List.mem_append_left _ hn), fun hn => ?_⟩
  induction hn with
  | refl => exact hperm.mem_iff.mpr List.mem_cons_self
  | tail _ hc ih =>
    exact hperm.mem_iff.mpr (List.mem_cons_of_mem _ (List.mem_flatMap.mpr ⟨_, ih, hc⟩))

/-- A walk that has come to its end has found a rooted tree. -/
lemma rooted (h : t.Explored seen []) (hfree : t.parent? t.root = none) : t.Rooted where
  root_free := hfree
  live n hn := h.live n (h.mem_iff.mpr hn)
  root_unlisted p hp hroot := by
    have hnodup := h.perm.nodup_iff.mp (by simpa using h.nodup)
    exact (List.nodup_cons.mp hnodup).1 (List.mem_flatMap.mpr ⟨p, h.mem_iff.mpr hp, hroot⟩)
  parent p c hp hc := h.parent p (h.mem_iff.mpr hp) c hc
  listed_once c hc hne := by
    have hnodup := h.perm.nodup_iff.mp (by simpa using h.nodup)
    have hlisted : c ∈ t.root :: seen.flatMap t.children := by
      rw [← h.perm.mem_iff, List.append_nil]
      exact h.mem_iff.mpr hc
    obtain ⟨p, hp, hcp⟩ := List.mem_flatMap.mp ((List.mem_cons.mp hlisted).resolve_left hne)
    obtain ⟨i, hi⟩ := List.mem_iff_getElem?.mp hcp
    refine ⟨(p, i), ⟨h.mem_iff.mp hp, hi⟩, ?_⟩
    rintro ⟨q, j⟩ ⟨hq, hj⟩
    have hcq : c ∈ t.children q := List.mem_of_getElem? hj
    -- the parent link of `c` names one node only
    obtain rfl := Link.unique (h.parent p hp c hcp) (h.parent q (h.mem_iff.mpr hq) c hcq)
    have hrow : (t.children p).Nodup := (List.nodup_flatMap.mp (List.nodup_cons.mp hnodup).2).1 p hp
    rw [place_unique hrow hi hj]

end Explored

/-- The walk ends well on the rooted trees, and on no other arena. -/
lemma Walks.eq_ok_iff {result : Except Error Unit} (hwalk : t.Walks seen stack result)
    (h : t.Explored seen stack) (hfree : t.parent? t.root = none) :
    result = .ok () ↔ t.Rooted := by
  induction hwalk with
  | done => simp [h.rooted hfree]
  | @discarded seen stack id hdead =>
    apply iff_of_false
    · simp [violation]
    · intro hroot
      simp [hroot.live id (h.below id (by simp))] at hdead
  | @repeated seen stack id hlive hseen =>
    apply iff_of_false
    · simp [violation]
    · intro hroot
      have hnodup := hroot.nodup_rows h.nodup fun n hn => h.below n (List.mem_append_left _ hn)
      rw [← h.perm.nodup_iff, List.nodup_append] at hnodup
      exact hnodup.2.2 id hseen id List.mem_cons_self rfl
  | @misplaced seen stack id e hlive hnew hlinks =>
    apply iff_of_false
    · simp
    · intro hroot
      have hid := h.below id (by simp)
      rw [checkLinks_eq_ok_iff.mpr fun c hc => hroot.parent id c hid hc] at hlinks
      simp at hlinks
  | down hlive hnew hlinks _ ih =>
    exact ih (h.step hlive hnew (checkLinks_eq_ok_iff.mp hlinks))

/-! ### The check -/

/-- The bound on the steps of the walk is never met. -/
lemma checks_validate (t : Tree) : t.Checks t.validate := by
  rw [validate]
  cases hroot : t.parent? t.root with
  | some p => exact .hanging (by simp [hroot])
  | none => exact .walk hroot ((explored_root t).walks (by simp))

lemma Checks.unique {result result' : Except Error Unit} (h : t.Checks result)
    (h' : t.Checks result') : result = result' := by
  cases h with
  | hanging hparent =>
    cases h' with
    | hanging _ => rfl
    | walk hfree _ => simp [hfree] at hparent
  | walk hfree hwalk =>
    cases h' with
    | hanging hparent => simp [hfree] at hparent
    | walk _ hwalk' => exact hwalk.unique hwalk'

lemma validate_eq_ok_iff : t.validate = .ok () ↔ t.Rooted := by
  generalize hresult : t.validate = result
  cases hresult ▸ checks_validate t with
  | hanging hparent =>
    apply iff_of_false
    · simp [violation]
    · intro hroot
      simp [hroot.root_free] at hparent
  | walk hfree hwalk => exact hwalk.eq_ok_iff (explored_root t) hfree

/-- The check accepts exactly the rooted trees: on every arena, whatever its links say, the walk
comes to an end, and it ends well if what hangs below the root is a tree. -/
theorem validate_accepts_rooted (t : Tree) :
    (∀ result, t.Checks result ↔ result = t.validate) ∧ (t.validate = .ok () ↔ t.Rooted) := by
  constructor
  · intro result
    constructor
    · intro h
      exact h.unique (checks_validate t)
    · rintro rfl
      exact checks_validate t
  · exact validate_eq_ok_iff

/-- A child that is listed twice is refused, though its parent link is right. -/
example : (validate { slots := #[{ construct := .null, children := [1, 1] },
    { construct := .null, parent := some 0 }], root := 0 }).isOk = false := by decide

namespace WellLinked

lemma descends_iff (h : t.WellLinked) {a n : NodeId} : t.Descends a n ↔ t.Reaches a n := by
  have hlists : t.Lists = t.Link := by
    funext p c
    exact propext (h.mem_children_iff p c)
  rw [Descends, Reaches, hlists]

/-- What hangs below the root of a well-linked arena is a tree. -/
lemma rooted (h : t.WellLinked) : t.Rooted where
  root_free := h.root_free
  live n hn := h.isLive_of_attached (h.descends_iff.mp hn)
  root_unlisted p _ hroot := by
    have hlink : t.parent? t.root = some p := (h.mem_children_iff p t.root).mp hroot
    simp [h.root_free] at hlink
  parent p c _ hc := (h.mem_children_iff p c).mp hc
  listed_once c hc hne := by
    rcases reaches_iff.mp (h.descends_iff.mp hc) with hroot | ⟨p, hp, hbelow⟩
    · exact absurd hroot.symm hne
    · obtain ⟨i, hi⟩ := List.mem_iff_getElem?.mp ((h.mem_children_iff p c).mpr hp)
      refine ⟨(p, i), ⟨h.descends_iff.mpr hbelow, hi⟩, ?_⟩
      rintro ⟨q, j⟩ ⟨_, hj⟩
      obtain rfl := hp.unique (h.link_of_child? hj)
      rw [place_unique (h.nodup_children p) hi hj]

/-- The check accepts every well-linked arena. -/
theorem validate_eq_ok (h : t.WellLinked) : t.validate = .ok () := validate_eq_ok_iff.mpr h.rooted

end WellLinked

end Tree

end CodeMigration
