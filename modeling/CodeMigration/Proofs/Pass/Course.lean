import CodeMigration.Proofs.Pass.Steps
import CodeMigration.Proofs.Tree.Place

/-!
# Rows of visits

A pass visits rows of nodes on two occasions: those a rule has put in the place of a node, and the
children of a node. Whatever is followed along the pass, what holds of a single visit, which puts a
row in the place of its node and leaves alone what is apart from it, holds of such rows as well.
-/

namespace CodeMigration

namespace Pass

variable {s s' s₁ : PassState} {n : NodeId}

/-- What is followed along a pass: the states it goes through, what a part of the visit of `n` does
that puts a row in its place, what is said of a node before and after its visit, and what is kept of
a node outside. -/
structure Course where
  Good : PassState → Prop
  Step : PassState → NodeId → List NodeId → PassState → Prop
  Before : PassState → NodeId → Prop
  After : PassState → NodeId → Prop
  Keeps : NodeId → PassState → PassState → Prop
  linked : ∀ {s}, Good s → s.tree.WellLinked
  good : ∀ {s n row s'}, Step s n row s' → Good s'
  occupied : ∀ {s n row s'}, Step s n row s' → s.tree.Occupied n row s'.tree
  refl : ∀ {s} n, Good s → Step s n [n] s
  trans : ∀ {s s₁ s₂ n x before after new}, Good s → s.tree.Reaches s.tree.root n →
    Step s n (before ++ x :: after) s₁ → Step s₁ x new s₂ → Step s n (before ++ new ++ after) s₂
  of_child : ∀ {s s' p c row}, Good s → s.tree.Link p c → Step s c row s' → Step s p [p] s'
  apart : ∀ {s s' n z row}, Good s → Step s n row s' → s.tree.Reaches s.tree.root z →
    ¬ s.tree.Reaches n z → ¬ s.tree.Reaches z n →
    (Before s z → Before s' z) ∧ (After s z → After s' z)
  keeps : ∀ {s s' c m row}, Step s c row s' → s.tree.Outside c m → Keeps m s s'
  keeps_refl : ∀ m s, Keeps m s s
  keeps_trans : ∀ {m s s₁ s₂}, Keeps m s s₁ → Keeps m s₁ s₂ → Keeps m s s₂

namespace Course

variable (C : Course)

/-- A visit follows the course and returns how many nodes stand in the place of its node; `u'`
agrees with it. -/
def Follows (u u' : NodeId → PassM Nat) : Prop :=
  ∀ {s s' : PassState} {n : NodeId} {count : Nat}, C.Good s → s.tree.Reaches s.tree.root n →
    C.Before s n → u n s = .ok count s' →
    u' n s = .ok count s' ∧
      ∃ row, row.length = count ∧ C.Step s n row s' ∧ ∀ x ∈ row, C.After s' x

variable {C}

/-- What is said of the rest of a row stays true when one of its nodes is visited. -/
lemma split_of_apart {done row rest : List NodeId}
    (hapart : ∀ z ∈ done ++ rest, (C.Before s z → C.Before s' z) ∧ (C.After s z → C.After s' z))
    (hdone : ∀ z ∈ done, C.After s z) (hrow : ∀ z ∈ row, C.After s' z)
    (hwait : ∀ z ∈ rest, C.Before s z) :
    (∀ z ∈ done ++ row, C.After s' z) ∧ ∀ z ∈ rest, C.Before s' z := by
  refine ⟨fun z hz => ?_, fun z hz => (hapart z (List.mem_append_right _ hz)).1 (hwait z hz)⟩
  rcases List.mem_append.mp hz with hz | hz
  · exact (hapart z (List.mem_append_left _ hz)).2 (hdone z hz)
  · exact hrow z hz

variable {u u' : NodeId → PassM Nat} (hu : C.Follows u u') (hs : C.Good s)
  (hn : s.tree.Reaches s.tree.root n)
include hu hs hn

/-- The row in the place of `n` is visited one node after the other. -/
lemma visitAll_follows {done ms : List NodeId} {count : Nat} (h : C.Step s n (done ++ ms) s₁)
    (hdone : ∀ x ∈ done, C.After s₁ x) (hwait : ∀ x ∈ ms, C.Before s₁ x)
    (hok : visitAll u ms s₁ = .ok count s') :
    visitAll u' ms s₁ = .ok count s' ∧
      ∃ out, out.length = count ∧ C.Step s n (done ++ out) s' ∧
        ∀ x ∈ done ++ out, C.After s' x := by
  induction ms generalizing done s₁ count with
  | nil =>
    obtain ⟨rfl, rfl⟩ := EStateM.pure_eq_ok_iff.mp hok
    refine ⟨hok, [], rfl, h, ?_⟩
    rwa [List.append_nil]
  | cons x ms ih =>
    obtain ⟨c, s₂, cs, hx, hrest, rfl⟩ := visitAll_cons_eq_ok_iff.mp hok
    have hlinked := C.linked (C.good h)
    have hocc := C.occupied h
    have hmem : x ∈ done ++ x :: ms := List.mem_append_right _ List.mem_cons_self
    have hattached : ∀ z ∈ done ++ x :: ms, s₁.tree.Reaches s₁.tree.root z := fun z hz =>
      hocc.attached_row (C.linked hs) hlinked hn hz
    rw [List.forall_mem_cons] at hwait
    obtain ⟨hx', row, rfl, hstep, hafter⟩ := hu (C.good h) (hattached x hmem) hwait.1 hx
    -- the other nodes of the row are apart from the visited one
    have hapart : ∀ z ∈ done ++ ms,
        (C.Before s₁ z → C.Before s₂ z) ∧ (C.After s₁ z → C.After s₂ z) := by
      intro z hz
      have hz' : z ∈ done ++ x :: ms := by
        rcases List.mem_append.mp hz with hz | hz
        · exact List.mem_append_left _ hz
        · exact List.mem_append_right _ (List.mem_cons_of_mem x hz)
      have hne : x ≠ z := by
        rintro rfl
        exact (List.nodup_middle.mp (hocc.nodup_row (C.linked hs) hlinked hn)).notMem hz
      exact C.apart (C.good h) hstep (hattached z hz')
        (hocc.row_apart (C.linked hs) hlinked hn hmem hz' hne)
        (hocc.row_apart (C.linked hs) hlinked hn hz' hmem hne.symm)
    obtain ⟨hdone', hwait'⟩ := split_of_apart hapart hdone hafter hwait.2
    obtain ⟨hrest', out, rfl, hstep', hafter'⟩ :=
      ih (C.trans hs hn h hstep) hdone' hwait' hrest
    rw [List.append_assoc] at hstep' hafter'
    exact ⟨visitAll_cons_eq_ok_iff.mpr ⟨_, s₂, _, hx', hrest', rfl⟩, row ++ out,
      List.length_append, hstep', hafter'⟩

/-- The children of a node from a position on are visited one after the other, and the position
moves by as many places as a visit has filled. -/
lemma walk_follows {k : Nat} {done rest : List NodeId}
    (hchildren : s.tree.children n = done ++ rest) (hdone : ∀ x ∈ done, C.After s x)
    (hwait : ∀ x ∈ rest, C.Before s x) (hok : walk u n k done.length s = .ok () s') :
    walk u' n k done.length s = .ok () s' ∧ C.Step s n [n] s' ∧
      (∀ x ∈ s'.tree.children n, C.After s' x) ∧ C.Keeps n s s' := by
  induction k generalizing s done rest with
  | zero => cases hok
  | succ k ih =>
    have hlinked := C.linked hs
    have hchild : s.tree.child? n done.length = rest.head? := by
      rw [Tree.child?, hchildren, List.getElem?_append_right (Nat.le_refl _), Nat.sub_self,
        List.head?_eq_getElem?]
    rcases walk_succ_eq_ok_iff.mp hok with ⟨hnone, rfl⟩ | ⟨c, hc, hlink, count, s₁, hvisit, hrest⟩
    · refine ⟨walk_succ_eq_ok_iff.mpr (Or.inl ⟨hnone, rfl⟩), C.refl n hs, ?_, C.keeps_refl n s'⟩
      rw [hchild, List.head?_eq_none_iff] at hnone
      rwa [hchildren, hnone, List.append_nil]
    · rw [hchild] at hc
      obtain ⟨rest, rfl⟩ := List.head?_eq_some_iff.mp hc
      have hcattached : s.tree.Reaches s.tree.root c := hn.trans hlink.reaches
      rw [List.forall_mem_cons] at hwait
      obtain ⟨hvisit', row, rfl, hstep, hafter⟩ := hu hs hcattached hwait.1 hvisit
      have hnout : s.tree.Outside c n := hlinked.outside_parent hlink hcattached
      have hnodup := hlinked.nodup_children n
      rw [hchildren] at hnodup
      have hnot : c ∉ done ++ rest := (List.nodup_middle.mp hnodup).notMem
      -- the other children are apart from the visited one
      have hapart : ∀ z ∈ done ++ rest,
          (C.Before s z → C.Before s₁ z) ∧ (C.After s z → C.After s₁ z) := by
        intro z hz
        have hz' : s.tree.Link n z := by
          rw [← hlinked.mem_children_iff, hchildren]
          rcases List.mem_append.mp hz with hz | hz
          · exact List.mem_append_left _ hz
          · exact List.mem_append_right _ (List.mem_cons_of_mem c hz)
        have hne : c ≠ z := fun he => hnot (he ▸ hz)
        refine C.apart hs hstep (hn.trans hz'.reaches) (fun hcz => hne ?_) fun hzc => hne ?_
        · exact hlinked.eq_of_siblings hlink hz' hcz (Tree.Reaches.refl z)
        · exact hlinked.eq_of_siblings hlink hz' (Tree.Reaches.refl c) hzc
      have hchildren₁ : s₁.tree.children n = done ++ row ++ rest := by
        rw [List.mem_append, not_or] at hnot
        rw [(C.occupied hstep).children n hnout.attached hnout.out, hchildren, Tree.put_append,
          Tree.put_cons, if_pos rfl, Tree.put_of_not_mem hnot.1, Tree.put_of_not_mem hnot.2,
          List.append_assoc]
      obtain ⟨hdone₁, hwait₁⟩ := split_of_apart hapart hdone hafter hwait.2
      rw [← List.length_append] at hrest
      have hn₁ : s₁.tree.Reaches s₁.tree.root n :=
        (C.occupied hstep).attached hlinked (C.linked (C.good hstep)) hnout
      obtain ⟨hrest', hstep', hafter', hkeeps⟩ :=
        ih (C.good hstep) hn₁ hchildren₁ hdone₁ hwait₁ hrest
      rw [List.length_append] at hrest'
      have hself : C.Step s n ([] ++ n :: []) s₁ := C.of_child hs hlink hstep
      refine ⟨walk_succ_eq_ok_iff.mpr (Or.inr ⟨c, hchild.trans hc, hlink, _, s₁, hvisit', hrest'⟩),
        ?_, hafter', C.keeps_trans (C.keeps hstep hnout) hkeeps⟩
      exact C.trans hs hn hself hstep'

end Course

end Pass

end CodeMigration
