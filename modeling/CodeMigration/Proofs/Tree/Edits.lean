import CodeMigration.Proofs.Tree.Atomic
import CodeMigration.Proofs.Tree.Relink

/-!
# When edits succeed, and what they do

In a well-linked arena every edit that can be refused succeeds under exactly the conditions stated
here, and then it is a `relink` of one row of children, with a `discard` where something goes for
good. So every edit leaves a well-linked arena behind.
-/

namespace CodeMigration

lemma Except.bind_eq_ok_iff {ε α β : Type} {x : Except ε α} {f : α → Except ε β} {b : β} :
    (x >>= f) = .ok b ↔ ∃ a, x = .ok a ∧ f a = .ok b := by
  cases x <;> simp [bind, Except.bind]

namespace Tree

variable {t t' : Tree} {p c : NodeId}

/-- The child may be attached below the parent: it is live, free, not the root and not above. -/
structure Attachable (t : Tree) (p c : NodeId) : Prop where
  parent_live : t.isLive p = true
  live : t.isLive c = true
  ne_root : c ≠ t.root
  free : t.parent? c = none
  not_above : ¬ t.Reaches c p

/-! ### Rows -/

section rows

variable {l new : List NodeId}

/-- A row in which the nodes `new` stand in the place of `c`. -/
def splice (l : List NodeId) (c : NodeId) (new : List NodeId) : List NodeId :=
  l.take (l.idxOf c) ++ new ++ l.drop (l.idxOf c + 1)

lemma splice_perm : (splice l c new).Perm (new ++ l.erase c) := by
  have herase : l.erase c = l.take (l.idxOf c) ++ l.drop (l.idxOf c + 1) := by
    rw [List.erase_eq_eraseIdx_of_idxOf rfl, List.eraseIdx_eq_take_drop_succ]
  rw [herase, splice, ← List.append_assoc]
  exact List.Perm.append_right _ List.perm_append_comm

lemma nodup_splice (hl : l.Nodup) (hnew : new.Nodup) (hd : ∀ n ∈ new, n ∉ l) :
    (splice l c new).Nodup := by
  rw [splice_perm.nodup_iff, List.nodup_append']
  refine ⟨hnew, hl.erase c, fun n hn hm => ?_⟩
  exact hd n hn (List.mem_of_mem_erase hm)

lemma mem_splice (hl : l.Nodup) {n : NodeId} :
    n ∈ splice l c new ↔ n ∈ new ∨ (n ∈ l ∧ n ∉ [c]) := by
  rw [splice_perm.mem_iff, List.mem_append, hl.mem_erase_iff, List.mem_singleton, and_comm]

lemma set_idxOf_eq_splice (hc : c ∈ l) (n : NodeId) : l.set (l.idxOf c) n = splice l c [n] := by
  rw [List.set_eq_take_append_cons_drop, if_pos (List.idxOf_lt_length_of_mem hc), splice,
    List.append_assoc]
  rfl

lemma eraseIdx_idxOf_eq_splice (c : NodeId) : l.eraseIdx (l.idxOf c) = splice l c [] := by
  rw [List.eraseIdx_eq_take_drop_succ, splice, List.append_nil]

lemma idxOf?_of_mem (hc : c ∈ l) : l.idxOf? c = some (l.idxOf c) := by
  cases hi : l.idxOf? c with
  | none => exact absurd hc (List.idxOf?_eq_none_iff.mp hi)
  | some i => rw [List.idxOf_eq_getD_idxOf?, hi, Option.getD_some]

end rows

/-! ### Checks -/

lemma checkLive_eq_ok_iff {id : NodeId} : t.checkLive id = .ok () ↔ t.isLive id = true := by
  rw [checkLive]
  split <;> simp_all [refuse]

section checks

variable (h : t.WellLinked)
include h

lemma checkAttachable_eq_ok_iff : t.checkAttachable p c = .ok () ↔ t.Attachable p c := by
  rw [checkAttachable]
  constructor
  · intro hok
    obtain ⟨_, hp, hok⟩ := Except.bind_eq_ok_iff.mp hok
    obtain ⟨_, hc, hok⟩ := Except.bind_eq_ok_iff.mp hok
    split at hok
    · simp [refuse] at hok
    · next hroot =>
      split at hok
      · simp [refuse] at hok
      · next hfree =>
        split at hok
        · simp [refuse] at hok
        · next habove =>
          rw [h.isAncestorOrSelf_iff] at habove
          exact ⟨checkLive_eq_ok_iff.mp hp, checkLive_eq_ok_iff.mp hc, hroot, hfree, habove⟩
  · rintro ⟨hp, hc, hroot, hfree, habove⟩
    rw [← h.isAncestorOrSelf_iff] at habove
    rw [checkLive_eq_ok_iff.mpr hp, checkLive_eq_ok_iff.mpr hc]
    simp [bind, Except.bind, hroot, hfree, habove]

lemma checkChild_eq_ok_iff {i : Nat} :
    t.checkChild p c = .ok i ↔ t.isLive c = true ∧ t.Link p c ∧ i = (t.children p).idxOf c := by
  rw [checkChild]
  constructor
  · intro hok
    obtain ⟨_, _, hok⟩ := Except.bind_eq_ok_iff.mp hok
    obtain ⟨_, hc, hok⟩ := Except.bind_eq_ok_iff.mp hok
    split at hok
    · simp [refuse] at hok
    · next hlink =>
      have hlink : t.Link p c := not_not.mp hlink
      rw [idxOf?_of_mem ((h.mem_children_iff p c).mpr hlink)] at hok
      exact ⟨checkLive_eq_ok_iff.mp hc, hlink, (Except.ok.inj hok).symm⟩
  · rintro ⟨hc, hlink, rfl⟩
    have hp : t.isLive p = true := (h.isLive_eq p c hlink).trans hc
    have hlink' : t.parent? c = some p := hlink
    rw [checkLive_eq_ok_iff.mpr hp, checkLive_eq_ok_iff.mpr hc]
    simp [bind, Except.bind, hlink', idxOf?_of_mem ((h.mem_children_iff p c).mpr hlink)]

/-- A child is never missing from the row of its parent. -/
lemma checkChild_ne_invariantViolation (v : Violation) :
    t.checkChild p c ≠ .error (.invariantViolation v) := by
  intro hv
  rw [checkChild] at hv
  by_cases hp : t.isLive p = true
  · by_cases hc : t.isLive c = true
    · rw [checkLive_eq_ok_iff.mpr hp, checkLive_eq_ok_iff.mpr hc] at hv
      by_cases hlink : t.parent? c = some p
      · have hmem : c ∈ t.children p := (h.mem_children_iff p c).mpr hlink
        simp [bind, Except.bind, hlink, idxOf?_of_mem hmem] at hv
      · simp [bind, Except.bind, hlink, refuse] at hv
    · rw [checkLive_eq_ok_iff.mpr hp] at hv
      simp [bind, Except.bind, checkLive, hc, refuse] at hv
  · simp [bind, Except.bind, checkLive, hp, refuse] at hv

lemma checkReplacements_eq_ok_iff {seen new : List NodeId} (hp : t.isLive p = true) :
    t.checkReplacements p seen new = .ok () ↔
      new.Nodup ∧ ∀ n ∈ new, n ∉ seen ∧ t.Attachable p n := by
  induction new generalizing seen with
  | nil => simp [checkReplacements]
  | cons n new ih =>
    have hstep : t.checkReplacements p seen (n :: new) = .ok () ↔
        (n ∉ seen ∧ t.Attachable p n) ∧ t.checkReplacements p (n :: seen) new = .ok () := by
      rw [checkReplacements]
      by_cases hseen : n ∈ seen
      · simp [hseen, bind, Except.bind, refuse]
      · by_cases hlive : t.isLive n = true
        · by_cases hbad : n = t.root ∨ (t.parent? n).isSome ∨ t.isAncestorOrSelf n p
          · have hnot : ¬ t.Attachable p n := by
              rintro ⟨_, _, hroot, hfree, habove⟩
              rw [h.isAncestorOrSelf_iff, hfree] at hbad
              simp [hroot, habove] at hbad
            simp [hseen, checkLive, hlive, hbad, bind, Except.bind, refuse, hnot]
          · have hgood : t.Attachable p n := by
              simp only [not_or, h.isAncestorOrSelf_iff, Bool.not_eq_true,
                Option.isSome_eq_false_iff, Option.isNone_iff_eq_none] at hbad
              exact ⟨hp, hlive, hbad.1, hbad.2.1, hbad.2.2⟩
            simp [hseen, checkLive, hlive, hbad, bind, Except.bind, hgood]
        · have hnot : ¬ t.Attachable p n := fun hn => hlive hn.live
          simp [hseen, checkLive, hlive, bind, Except.bind, refuse, hnot]
    rw [hstep, ih, List.nodup_cons, List.forall_mem_cons]
    constructor
    · rintro ⟨⟨hseen, hn⟩, hnd, hall⟩
      refine ⟨⟨fun hm => (hall n hm).1 (List.mem_cons_self ..), hnd⟩, ⟨hseen, hn⟩, fun m hm => ?_⟩
      exact ⟨fun hs => (hall m hm).1 (List.mem_cons_of_mem n hs), (hall m hm).2⟩
    · rintro ⟨⟨hn, hnd⟩, hhead, hall⟩
      refine ⟨hhead, hnd, fun m hm => ⟨fun hs => ?_, (hall m hm).2⟩⟩
      rcases List.mem_cons.mp hs with rfl | hs
      · exact hn hm
      · exact (hall m hm).1 hs

/-! ### Attaching and detaching -/

theorem pushChild_eq_ok_iff :
    t.pushChild p c = .ok t' ↔
      t.Attachable p c ∧ t' = (t.relink p (t.children p ++ [c]) [c] []).touch := by
  rw [pushChild, Edit.pushChild, Edit.check_bind_eq_ok_iff]
  constructor
  · rintro ⟨_, hok, ht⟩
    exact ⟨(checkAttachable_eq_ok_iff h).mp hok, (Except.ok.inj ht).symm⟩
  · rintro ⟨hc, rfl⟩
    exact ⟨(), (checkAttachable_eq_ok_iff h).mpr hc, rfl⟩

theorem insertChild_eq_ok_iff {i : Nat} :
    t.insertChild p i c = .ok t' ↔
      t.Attachable p c ∧ i ≤ (t.children p).length ∧
        t' = (t.relink p ((t.children p).insertIdx i c) [c] []).touch := by
  rw [insertChild, Edit.insertChild, Edit.check_bind_eq_ok_iff]
  constructor
  · rintro ⟨_, hok, ht⟩
    dsimp only [Edit.result_get_bind] at ht
    split at ht
    · simp [refuse] at ht
    · next hi =>
      exact ⟨(checkAttachable_eq_ok_iff h).mp hok, Nat.not_lt.mp hi, (Except.ok.inj ht).symm⟩
  · rintro ⟨hc, hi, rfl⟩
    refine ⟨(), (checkAttachable_eq_ok_iff h).mpr hc, ?_⟩
    dsimp only [Edit.result_get_bind]
    rw [if_neg (Nat.not_lt.mpr hi)]
    rfl

theorem detach_eq_ok_iff :
    t.detach p c = .ok t' ↔
      t.isLive c = true ∧ t.Link p c ∧
        t' = (t.relink p (splice (t.children p) c []) [] [c]).touch := by
  rw [detach, Edit.detach, Edit.check_bind_eq_ok_iff]
  constructor
  · rintro ⟨i, hok, ht⟩
    obtain ⟨hc, hlink, rfl⟩ := (checkChild_eq_ok_iff h).mp hok
    rw [Edit.result_modify_bind, eraseIdx_idxOf_eq_splice] at ht
    exact ⟨hc, hlink, (Except.ok.inj ht).symm⟩
  · rintro ⟨hc, hlink, rfl⟩
    refine ⟨_, (checkChild_eq_ok_iff h).mpr ⟨hc, hlink, rfl⟩, ?_⟩
    rw [Edit.result_modify_bind, eraseIdx_idxOf_eq_splice]
    rfl

/-! ### Removing and replacing -/

theorem removeChild_eq_ok_iff :
    t.removeChild p c = .ok t' ↔
      t.isLive c = true ∧ t.Link p c ∧
        t' = ((t.relink p (splice (t.children p) c []) [] [c]).touch).discard c := by
  rw [removeChild, Edit.removeChild, Edit.result_bind_modify, Except.bind_eq_ok_iff]
  constructor
  · rintro ⟨t₁, hok, ht⟩
    obtain ⟨hc, hlink, rfl⟩ := (detach_eq_ok_iff h).mp hok
    exact ⟨hc, hlink, (Except.ok.inj ht).symm⟩
  · rintro ⟨hc, hlink, rfl⟩
    exact ⟨_, (detach_eq_ok_iff h).mpr ⟨hc, hlink, rfl⟩, rfl⟩

omit h in
theorem remove_eq_ok_iff {id : NodeId} :
    t.remove id = .ok t' ↔
      t.isLive id = true ∧
        ((∃ p, t.Link p id ∧ t.removeChild p id = .ok t') ∨
          (t.parent? id = none ∧ id ≠ t.root ∧ t' = (t.discard id).touch)) := by
  rw [remove, Edit.remove, Edit.check_bind_eq_ok_iff]
  constructor
  · rintro ⟨_, hlive, ht⟩
    refine ⟨checkLive_eq_ok_iff.mp hlive, ?_⟩
    rw [Edit.result_get_bind] at ht
    split at ht
    · next p hp => exact Or.inl ⟨p, hp, ht⟩
    · next hfree =>
      split at ht
      · simp [refuse] at ht
      · next hroot => exact Or.inr ⟨hfree, hroot, (Except.ok.inj ht).symm⟩
  · rintro ⟨hlive, hcase⟩
    refine ⟨(), checkLive_eq_ok_iff.mpr hlive, ?_⟩
    rw [Edit.result_get_bind]
    rcases hcase with ⟨p, hp, ht⟩ | ⟨hfree, hroot, rfl⟩
    · rw [show t.parent? id = some p from hp]
      exact ht
    · simp only [hfree, if_neg hroot]
      rfl

theorem replaceChild_eq_ok_iff {old new : NodeId} :
    t.replaceChild p old new = .ok t' ↔
      t.isLive old = true ∧ t.Link p old ∧ t.Attachable p new ∧
        t' = ((t.relink p (splice (t.children p) old [new]) [new] [old]).discard old).touch := by
  rw [replaceChild, Edit.replaceChild, Edit.check_bind_eq_ok_iff]
  constructor
  · rintro ⟨i, hok, ht⟩
    obtain ⟨hold, hlink, rfl⟩ := (checkChild_eq_ok_iff h).mp hok
    obtain ⟨_, hnew, ht⟩ := Edit.check_bind_eq_ok_iff.mp ht
    rw [Edit.result_get_bind] at ht
    split at ht
    · simp [refuse] at ht
    · next hfree =>
      split at ht
      · simp [refuse] at ht
      · next habove =>
        simp only [not_or, Bool.not_eq_true, Option.isSome_eq_false_iff,
          Option.isNone_iff_eq_none] at hfree
        rw [h.isAncestorOrSelf_iff, not_or] at habove
        rw [Edit.result_modify_bind,
          set_idxOf_eq_splice ((h.mem_children_iff p old).mpr hlink)] at ht
        refine ⟨hold, hlink, ⟨?_, checkLive_eq_ok_iff.mp hnew, hfree.1, hfree.2, habove.1⟩,
          (Except.ok.inj ht).symm⟩
        exact (h.isLive_eq p old hlink).trans hold
  · rintro ⟨hold, hlink, ⟨hp, hnew, hroot, hfree, habove⟩, rfl⟩
    refine ⟨_, (checkChild_eq_ok_iff h).mpr ⟨hold, hlink, rfl⟩, ?_⟩
    -- The old child has a parent and the new one has none, so the old one is not above it.
    have hbelow : ¬ t.Reaches old new := by
      intro hon
      obtain rfl := hon.eq_of_free hfree
      rw [Link, hfree] at hlink
      simp at hlink
    rw [Edit.result_check_bind, checkLive_eq_ok_iff.mpr hnew]
    rw [← h.isAncestorOrSelf_iff] at habove hbelow
    show (get >>= _ : Edit Unit).result t = _
    rw [Edit.result_get_bind, if_neg (by simp [hroot, hfree]), if_neg (by simp [habove, hbelow]),
      Edit.result_modify_bind, set_idxOf_eq_splice ((h.mem_children_iff p old).mpr hlink)]
    rfl

theorem replace_eq_ok_iff {old new : NodeId} :
    t.replace old new = .ok t' ↔
      t.isLive old = true ∧
        ((∃ p, t.Link p old ∧ t.replaceChild p old new = .ok t') ∨
          (t.parent? old = none ∧ old = t.root ∧ t.isLive new = true ∧ t.parent? new = none ∧
            old ≠ new ∧ t' = (({ t with root := new } : Tree).discard old).touch)) := by
  rw [replace, Edit.replace, Edit.check_bind_eq_ok_iff]
  constructor
  · rintro ⟨_, hold, ht⟩
    refine ⟨checkLive_eq_ok_iff.mp hold, ?_⟩
    rw [Edit.result_get_bind] at ht
    split at ht
    · next p hp => exact Or.inl ⟨p, hp, ht⟩
    · next hfree =>
      split at ht
      · next hroot =>
        obtain ⟨_, hnew, ht⟩ := Edit.check_bind_eq_ok_iff.mp ht
        split at ht
        · simp [refuse] at ht
        · next hbad =>
          simp only [not_or, Bool.not_eq_true, Option.isSome_eq_false_iff,
            Option.isNone_iff_eq_none] at hbad
          refine Or.inr ⟨hfree, hroot, checkLive_eq_ok_iff.mp hnew, hbad.1, fun hon => ?_,
            (Except.ok.inj ht).symm⟩
          have := hbad.2
          rw [hon, h.isAncestorOrSelf_iff.mpr (Reaches.refl new)] at this
          simp at this
      · simp [refuse] at ht
  · rintro ⟨hold, hcase⟩
    refine ⟨(), checkLive_eq_ok_iff.mpr hold, ?_⟩
    rw [Edit.result_get_bind]
    rcases hcase with ⟨p, hp, ht⟩ | ⟨hfree, hroot, hnew, hnewfree, hne, rfl⟩
    · rw [show t.parent? old = some p from hp]
      exact ht
    · have hbelow : ¬ t.isAncestorOrSelf old new = true := by
        rw [h.isAncestorOrSelf_iff]
        exact fun hon => hne (hon.eq_of_free hnewfree)
      simp only [hfree, if_pos hroot]
      rw [Edit.result_check_bind, checkLive_eq_ok_iff.mpr hnew]
      show Edit.result (if _ then _ else _) t = _
      rw [if_neg (by simp [hnewfree, hbelow])]
      rfl

theorem replaceWithMany_eq_ok_iff {old : NodeId} {new : List NodeId} :
    t.replaceWithMany old new = .ok t' ↔
      ∃ p, t.Link p old ∧ t.isLive old = true ∧ new.Nodup ∧ (∀ n ∈ new, t.Attachable p n) ∧
        t' = ((t.relink p (splice (t.children p) old new) new [old]).discard old).touch := by
  rw [replaceWithMany, Edit.replaceWithMany, Edit.result_get_bind]
  constructor
  · intro hok
    split at hok
    · simp [refuse] at hok
    · next p hp =>
      obtain ⟨i, hi, hok⟩ := Edit.check_bind_eq_ok_iff.mp hok
      obtain ⟨hold, hlink, rfl⟩ := (checkChild_eq_ok_iff h).mp hi
      obtain ⟨_, hnew, ht⟩ := Edit.check_bind_eq_ok_iff.mp hok
      have hlive : t.isLive p = true := (h.isLive_eq p old hlink).trans hold
      obtain ⟨hnd, hall⟩ := (checkReplacements_eq_ok_iff h hlive).mp hnew
      exact ⟨p, hlink, hold, hnd, fun n hn => (hall n hn).2, (Except.ok.inj ht).symm⟩
  · rintro ⟨p, hlink, hold, hnd, hall, rfl⟩
    have hlive : t.isLive p = true := (h.isLive_eq p old hlink).trans hold
    rw [show t.parent? old = some p from hlink]
    refine Edit.check_bind_eq_ok_iff.mpr
      ⟨_, (checkChild_eq_ok_iff h).mpr ⟨hold, hlink, rfl⟩, ?_⟩
    refine Edit.check_bind_eq_ok_iff.mpr ⟨(), ?_, rfl⟩
    rw [checkReplacements_eq_ok_iff h hlive]
    exact ⟨hnd, fun n hn => ⟨by simp, hall n hn⟩⟩

end checks

/-- What outlasts the attaching of one child outlasts that of several, also when one is refused and
the earlier ones stay attached. -/
lemma pushChildren_induction {P : Tree → Prop}
    (hstep : ∀ {t t' : Tree} {c : NodeId}, P t → t.pushChild p c = .ok t' → P t') (h : P t)
    (children : List NodeId) : P (t.pushChildren p children).1 := by
  induction children generalizing t with
  | nil => exact h
  | cons c children ih =>
    rw [pushChildren_cons]
    split
    · next t' hok => exact ih (hstep h hok)
    · exact h

/-! ### Links after edits -/

namespace WellLinked

lemma attach (h : t.WellLinked) (hc : t.Attachable p c) {row : List NodeId}
    (hrow : row.Perm (c :: t.children p)) : (t.relink p row [c] []).WellLinked := by
  have hnot : c ∉ t.children p := by
    intro hm
    have hlink := (h.mem_children_iff p c).mp hm
    rw [Link, hc.free] at hlink
    simp at hlink
  have hcs := t.lt_size_of_isLive hc.live
  refine h.relink (t.lt_size_of_isLive hc.parent_live) ?_ ?_ ?_ ?_ ?_ ?_ ?_
  · rw [hrow.nodup_iff, List.nodup_cons]
    exact ⟨hnot, h.nodup_children p⟩
  · intro n
    rw [hrow.mem_iff]
    simp
  · simp
  · simpa using ⟨hcs, hc.free⟩
  · simp [hc.parent_live, hc.live]
  · simpa using hc.ne_root.symm
  · simpa using hc.not_above

/-- Free nodes may stand in the place of a child. -/
lemma spliceChild (h : t.WellLinked) (hlink : t.Link p c) (hlive : t.isLive c = true)
    {new : List NodeId} (hnd : new.Nodup) (hnew : ∀ n ∈ new, t.Attachable p n) :
    (t.relink p (splice (t.children p) c new) new [c]).WellLinked := by
  have hp : t.isLive p = true := (h.isLive_eq p c hlink).trans hlive
  refine h.relink (h.link_lt hlink).1 ?_ ?_ ?_ ?_ ?_ ?_ ?_
  · refine nodup_splice (h.nodup_children p) hnd fun n hn hm => ?_
    have hpn := (h.mem_children_iff p n).mp hm
    rw [Link, (hnew n hn).free] at hpn
    simp at hpn
  · exact fun n => mem_splice (h.nodup_children p)
  · simpa using hlink
  · exact fun n hn => ⟨t.lt_size_of_isLive (hnew n hn).live, (hnew n hn).free⟩
  · exact fun n hn => hp.trans (hnew n hn).live.symm
  · exact fun hr => (hnew _ hr).ne_root rfl
  · exact fun n hn => (hnew n hn).not_above

lemma ne_root_of_link (h : t.WellLinked) (hlink : t.Link p c) : c ≠ t.root := by
  rintro rfl
  rw [Link, h.root_free] at hlink
  simp at hlink

lemma discardSpliced (h : t.WellLinked) (hlink : t.Link p c) (hlive : t.isLive c = true)
    {new : List NodeId} (hnd : new.Nodup) (hnew : ∀ n ∈ new, t.Attachable p n) :
    ((t.relink p (splice (t.children p) c new) new [c]).discard c).WellLinked := by
  refine (h.spliceChild hlink hlive hnd hnew).discard ?_ ?_
  · rw [parent?_relink, if_pos (List.mem_singleton_self c)]
  · rw [root_relink]
    exact h.ne_root_of_link hlink

variable (h : t.WellLinked)
include h

theorem pushChild (hok : t.pushChild p c = .ok t') : t'.WellLinked := by
  obtain ⟨hc, rfl⟩ := (pushChild_eq_ok_iff h).mp hok
  exact (h.attach hc List.perm_append_comm).touch

theorem insertChild {i : Nat} (hok : t.insertChild p i c = .ok t') : t'.WellLinked := by
  obtain ⟨hc, hi, rfl⟩ := (insertChild_eq_ok_iff h).mp hok
  exact (h.attach hc (List.perm_insertIdx c _ hi)).touch

theorem detach (hok : t.detach p c = .ok t') : t'.WellLinked := by
  obtain ⟨hlive, hlink, rfl⟩ := (detach_eq_ok_iff h).mp hok
  exact (h.spliceChild hlink hlive List.nodup_nil (by simp)).touch

theorem removeChild (hok : t.removeChild p c = .ok t') : t'.WellLinked := by
  obtain ⟨hlive, hlink, rfl⟩ := (removeChild_eq_ok_iff h).mp hok
  refine (h.spliceChild hlink hlive List.nodup_nil (by simp)).touch.discard ?_ ?_
  · show (t.relink _ _ _ _).parent? c = none
    rw [parent?_relink, if_pos (List.mem_singleton_self c)]
  · show c ≠ (t.relink _ _ _ _).root
    rw [root_relink]
    exact h.ne_root_of_link hlink

theorem remove {id : NodeId} (hok : t.remove id = .ok t') : t'.WellLinked := by
  obtain ⟨_, ⟨p, _, hok⟩ | ⟨hfree, hroot, rfl⟩⟩ := remove_eq_ok_iff.mp hok
  · exact h.removeChild hok
  · exact (h.discard hfree hroot).touch

theorem replaceChild {old new : NodeId} (hok : t.replaceChild p old new = .ok t') :
    t'.WellLinked := by
  obtain ⟨hlive, hlink, hnew, rfl⟩ := (replaceChild_eq_ok_iff h).mp hok
  exact (h.discardSpliced hlink hlive (List.nodup_singleton new) (by simpa using hnew)).touch

theorem replace {old new : NodeId} (hok : t.replace old new = .ok t') : t'.WellLinked := by
  obtain ⟨_, ⟨p, _, hok⟩ | ⟨hfree, _, hnew, hnewfree, hne, rfl⟩⟩ := (replace_eq_ok_iff h).mp hok
  · exact h.replaceChild hok
  · exact ((h.withRoot hnew hnewfree).discard hfree hne).touch

theorem replaceWithMany {old : NodeId} {new : List NodeId}
    (hok : t.replaceWithMany old new = .ok t') : t'.WellLinked := by
  obtain ⟨p, hlink, hlive, hnd, hnew, rfl⟩ := (replaceWithMany_eq_ok_iff h).mp hok
  exact (h.discardSpliced hlink hlive hnd hnew).touch

theorem pushChildren {children : List NodeId} : (t.pushChildren p children).1.WellLinked :=
  pushChildren_induction (fun h hok => h.pushChild hok) h children

theorem addWithChildren (k : Construct) (children : List NodeId) :
    (t.addWithChildren k children).1.WellLinked := by
  rw [addWithChildren_eq]
  exact (h.add k).pushChildren

theorem takeChildren {id : NodeId} (hid : id < t.size) : (t.takeChildren id).1.WellLinked := by
  have hrelink : (t.relink id [] [] (t.children id)).WellLinked := by
    refine h.relink hid List.nodup_nil (by simp) ?_ (by simp) (by simp) (by simp) (by simp)
    exact fun n hn => (h.mem_children_iff id n).mp hn
  exact t.takeChildren_cases (fun _ => hrelink) hrelink.touch

end WellLinked

end Tree

end CodeMigration
