import CodeMigration.Proofs.Rule.Grafts
import CodeMigration.Proofs.Tree.Ledger

/-!
# Rules that account for what they discard

How the building blocks of actions carry a ledger on, and what it means that a rule accounts for
every node it discards (`Rule.Accounts`).
-/

namespace CodeMigration

namespace Action

variable {α β : Type} {w : Workspace} {t : Tree} {gone : NodeId → Prop} {spare : List NodeId}

lemma Ensures.and {m : Action α} {P Q : α → Tree → Prop} (hP : Ensures m w P)
    (hQ : Ensures m w Q) : Ensures m w fun a t => P a t ∧ Q a t :=
  fun a w' hok => ⟨hP a w' hok, hQ a w' hok⟩

lemma Ensures.edit_bind {m : Edit Unit} {g : Unit → Action β} {P : Tree → Prop}
    {Q : β → Tree → Prop} (hm : ∀ t', m.result w.tree = .ok t' → P t')
    (hg : ∀ w' : Workspace, P w'.tree → Ensures (g ()) w' Q) : Ensures (Action.edit m >>= g) w Q :=
  (Ensures.edit (Q := fun _ t => P t) hm).bind fun _ w' hw => hg w' hw

lemma ledger_add (h : t.Ledger gone w.tree spare) (c : Construct) :
    (add c).Ensures w fun id t' => t.Ledger gone t' (id :: spare) := by
  intro id w' hok
  cases hok
  exact h.add c

/-- A loop that makes one spare node of those it uses up in each turn. -/
lemma ledger_mapM {f : α → Action β} (used : α → List NodeId) (made : β → NodeId)
    (hf : ∀ a (w : Workspace) spare, t.Ledger gone w.tree (used a ++ spare) →
      (f a).Ensures w fun b t' => t.Ledger gone t' (made b :: spare))
    (l : List α) (spare : List NodeId) (h : t.Ledger gone w.tree (l.flatMap used ++ spare)) :
    (l.mapM f).Ensures w fun bs t' => t.Ledger gone t' (bs.map made ++ spare) := by
  induction l generalizing w spare with
  | nil => exact Ensures.pure h
  | cons a l ih =>
    rw [List.mapM_cons]
    rw [List.flatMap_cons, List.append_assoc] at h
    refine (hf a w _ h).bind fun b w' hb => ?_
    refine (ih (made b :: spare) (hb.mono List.perm_middle.symm.subset)).bind fun bs w'' hbs => ?_
    exact Ensures.pure (hbs.mono List.perm_middle.subset)

section building

variable (ht : t.Sound)
include ht

lemma ledger_addWithChildren (children : List NodeId)
    (h : t.Ledger gone w.tree (children ++ spare)) (c : Construct) :
    (addWithChildren c children).Ensures w fun id t' => t.Ledger gone t' (id :: spare) :=
  Ensures.addWithChildren fun _ hresult => (h.add c).pushChildren ht hresult

lemma ledger_addItem {value : NodeId} (h : t.Ledger gone w.tree (value :: spare)) (key : String) :
    (addItem key value).Ensures w fun id t' => t.Ledger gone t' (id :: spare) :=
  (ledger_add h _).bind fun k _ hk => ledger_addWithChildren ht [k, value] hk _

/-- Values become the items of an array. -/
lemma ledger_addItems (items : List (String × NodeId)) (spare : List NodeId)
    (h : t.Ledger gone w.tree (items.map (·.2) ++ spare)) :
    (items.mapM fun (key, value) => addItem key value).Ensures w fun ids t' =>
      t.Ledger gone t' (ids ++ spare) := by
  rw [List.map_eq_flatMap] at h
  refine (ledger_mapM (fun item => [item.2]) id (fun item w' spare' h' => ?_) items spare h).mono ?_
  · exact ledger_addItem ht h' item.1
  · intro ids t' h'
    rwa [List.map_id] at h'

end building

end Action

/-! ### Rules -/

/-- What the result of an application at a node comes to. A node that is declared removed is taken
out by the pass afterwards, so the rule has left the tree alone. -/
def Accounted (gone : NodeId → Prop) (t : Tree) (n : NodeId) : Outcome → Tree → Prop
  | .removed, t' => t' = t ∧ n ≠ t.root ∧ ∀ m, t.Reaches n m → gone m
  | _, t' => t.Ledger gone t' []

/-- Every node that an application to a whole tree discards is one of those in `discards`, and
nothing is left lying about. -/
def Rule.Accounts (r : Rule) (discards : Oracle → Tree → NodeId → NodeId → Prop) : Prop :=
  ∀ oracle pass n (w : Workspace), w.tree.Sound → w.tree.Whole →
    Pass.accepts w.tree r n = true →
    (r.apply oracle pass n).Ensures w (Accounted (discards oracle w.tree n) w.tree n)

end CodeMigration
