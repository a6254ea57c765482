import CodeMigration.Proofs.Pass.Steps
import CodeMigration.Proofs.Tree.Graft

/-!
# Actions that graft

What holds after an action that succeeds (`Action.Ensures`), and how the building blocks of actions
carry a graft on.
-/

namespace CodeMigration

namespace Action

variable {α β : Type} {w : Workspace}

/-- Whenever the action succeeds, its result and the tree are as described. -/
def Ensures (m : Action α) (w : Workspace) (Q : α → Tree → Prop) : Prop :=
  ∀ a w', m w = .ok a w' → Q a w'.tree

namespace Ensures

lemma pure {Q : α → Tree → Prop} {a : α} (h : Q a w.tree) : Ensures (pure a) w Q := by
  intro b w' hok
  obtain ⟨rfl, rfl⟩ := EStateM.pure_eq_ok_iff.mp hok
  exact h

lemma bind {m : Action α} {f : α → Action β} {P : α → Tree → Prop} {Q : β → Tree → Prop}
    (hm : Ensures m w P) (hf : ∀ a w', P a w'.tree → Ensures (f a) w' Q) :
    Ensures (m >>= f) w Q := by
  intro b w' hok
  obtain ⟨a, w₁, hfirst, hok⟩ := EStateM.bind_eq_ok_iff.mp hok
  exact hf a w₁ (hm a w₁ hfirst) b w' hok

lemma mono {m : Action α} {P Q : α → Tree → Prop} (hm : Ensures m w P)
    (hPQ : ∀ a t, P a t → Q a t) : Ensures m w Q :=
  fun a w' hok => hPQ a _ (hm a w' hok)

lemma tree_bind {f : Tree → Action β} {Q : β → Tree → Prop} (h : Ensures (f w.tree) w Q) :
    Ensures (tree >>= f) w Q := fun b w' hok => h b w' hok

lemma require_bind {n : NodeId} {f : Unit → Action β} {Q : β → Tree → Prop}
    (h : Ensures (f ()) w Q) : Ensures (require n >>= f) w Q := by
  intro b w' hok
  obtain ⟨_, w₁, hrequire, hok⟩ := EStateM.bind_eq_ok_iff.mp hok
  replace hrequire : (if w.tree.contains n then Pure.pure ()
    else abort (.outsideArena w.tree.size n) : Action Unit) w = .ok () w₁ := hrequire
  split at hrequire
  · cases hrequire
    exact h b w' hok
  · cases hrequire

lemma update_bind {f : Tree → Tree} {g : Unit → Action β} {Q : β → Tree → Prop}
    (h : Ensures (g ()) { w with tree := f w.tree } Q) : Ensures (update f >>= g) w Q :=
  fun b w' hok => h b w' hok

lemma edit {m : Edit Unit} {Q : Unit → Tree → Prop}
    (h : ∀ t', m.result w.tree = .ok t' → Q () t') : Ensures (edit m) w Q := by
  intro _ w' hok
  obtain ⟨t', hm, rfl⟩ := edit_eq_ok_iff.mp hok
  exact h t' (Edit.result_eq_ok_iff.mpr hm)

/-- The new node is the first free one, and every child has been attached to it. -/
lemma addWithChildren {c : Construct} {row : List NodeId} {Q : NodeId → Tree → Prop}
    (h : ∀ t', (w.tree.add c).1.pushChildren w.tree.size row = (t', .ok ()) → Q w.tree.size t') :
    Ensures (addWithChildren c row) w Q := by
  intro id w' hok
  obtain ⟨t', hadd, rfl⟩ := edit_eq_ok_iff.mp hok
  obtain ⟨hpush, rfl⟩ := Tree.addWithChildren_eq_ok_iff.mp hadd
  exact h t' hpush

lemma forM {I : Tree → Prop} {f : α → Action Unit} {l : List α}
    (hf : ∀ a ∈ l, ∀ w : Workspace, I w.tree → Ensures (f a) w fun _ => I) (h : I w.tree) :
    Ensures (l.forM f) w fun _ => I := by
  induction l generalizing w with
  | nil => exact pure h
  | cons a l ih =>
    refine (hf a List.mem_cons_self w h).bind fun _ w' h' => ?_
    exact ih (fun b hb => hf b (List.mem_cons_of_mem a hb)) h'

lemma mapM {I : Tree → Prop} {good : β → Prop} {f : α → Action β} {l : List α}
    (hf : ∀ a ∈ l, ∀ w : Workspace, I w.tree → Ensures (f a) w fun b t => I t ∧ good b)
    (h : I w.tree) : Ensures (l.mapM f) w fun bs t => I t ∧ ∀ b ∈ bs, good b := by
  induction l generalizing w with
  | nil => exact pure ⟨h, by simp⟩
  | cons a l ih =>
    rw [List.mapM_cons]
    refine (hf a List.mem_cons_self w h).bind fun b w₁ ⟨h₁, hb⟩ => ?_
    refine (ih (fun c hc => hf c (List.mem_cons_of_mem a hc)) h₁).bind fun bs w₂ ⟨h₂, hbs⟩ => ?_
    exact pure ⟨h₂, List.forall_mem_cons.mpr ⟨hb, hbs⟩⟩

end Ensures

/-! ### Building -/

section building

variable {t : Tree} {a : NodeId} {moved : List NodeId}

lemma ensures_add (h : t.Graft a moved w.tree) {c : Construct} (hc : c.kind.declares = false) :
    (add c).Ensures w fun id t' => t.Graft a moved t' ∧ t.size ≤ id := by
  intro id w' hok
  cases hok
  exact ⟨h.add hc, h.size_le⟩

lemma ensures_addWithChildren (h : t.Graft a moved w.tree) {c : Construct}
    (hc : c.kind.declares = false) {row : List NodeId} (hrow : ∀ x ∈ row, t.size ≤ x ∨ x ∈ moved)
    (hmoved : ∀ v ∈ moved, ∀ r, t.Link r v → t.kind? r ≠ some .method) :
    (addWithChildren c row).Ensures w fun id t' =>
      (t.Graft a moved t' ∧ t.size ≤ id) ∧ t'.construct? id = some c := by
  refine Ensures.addWithChildren fun t' hresult => ?_
  obtain ⟨h', hsame⟩ := (h.add hc).pushChildren h.size_le hrow hmoved hresult
  refine ⟨⟨h', h.size_le⟩, ?_⟩
  rw [hsame, Tree.construct?, Tree.slot?_add, if_pos rfl]
  rfl

lemma ensures_addItem (h : t.Graft a moved w.tree) (key : String) {value : NodeId}
    (hvalue : t.size ≤ value ∨ value ∈ moved)
    (hmoved : ∀ v ∈ moved, ∀ r, t.Link r v → t.kind? r ≠ some .method) :
    (addItem key value).Ensures w fun id t' => t.Graft a moved t' ∧ t.size ≤ id := by
  refine (ensures_add h rfl).bind fun k w' ⟨h', hk⟩ => ?_
  refine (ensures_addWithChildren h' rfl ?_ hmoved).mono fun id t' hid => hid.1
  intro x hx
  rcases List.mem_cons.mp hx with rfl | hx
  · exact Or.inl hk
  · rwa [List.mem_singleton.mp hx]

end building

end Action

end CodeMigration
