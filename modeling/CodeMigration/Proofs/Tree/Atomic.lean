import CodeMigration.Tree.Edit
import Mathlib.Tactic.Common

/-!
# Edits are made as a whole or not at all

An edit of links changes the tree in several steps. Its checks come before the first of them, and
none of the steps after the checks can fail, so an edit that is refused has left the tree as it was
(`Edit.Atomic`). What an edit makes of a tree is therefore known from its result.
-/

namespace CodeMigration

/-! ### Sequences -/

/-- A sequence of two steps succeeds when both do. -/
lemma EStateM.bind_eq_ok_iff {ε σ α β : Type} {x : EStateM ε σ α} {f : α → EStateM ε σ β}
    {s s'' : σ} {b : β} :
    (x >>= f) s = .ok b s'' ↔ ∃ a s', x s = .ok a s' ∧ f a s' = .ok b s'' := by
  show EStateM.bind x f s = _ ↔ _
  rw [EStateM.bind]
  cases x s <;> simp

lemma EStateM.bind_of_ok {ε σ α β : Type} {x : EStateM ε σ α} {f : α → EStateM ε σ β} {s s' : σ}
    {a : α} (h : x s = .ok a s') : (x >>= f) s = f a s' := by
  show EStateM.bind x f s = _
  rw [EStateM.bind, h]

lemma EStateM.bind_of_error {ε σ α β : Type} {x : EStateM ε σ α} {f : α → EStateM ε σ β}
    {s s' : σ} {e : ε} (h : x s = .error e s') : (x >>= f) s = .error e s' := by
  show EStateM.bind x f s = _
  rw [EStateM.bind, h]

lemma EStateM.pure_eq_ok_iff {ε σ α : Type} {a b : α} {s s' : σ} :
    (pure a : EStateM ε σ α) s = .ok b s' ↔ b = a ∧ s' = s := by
  show EStateM.Result.ok a s = .ok b s' ↔ _
  rw [EStateM.Result.ok.injEq, eq_comm, eq_comm (a := s)]

namespace Edit

variable {α β : Type} {t t' : Tree} {e : Error}

/-! ### Refusals -/

/-- A refusal leaves the tree as it was. -/
structure Atomic (m : Edit α) : Prop where
  kept : ∀ {t e t'}, m t = .error e t' → t' = t

/-- The edit is never refused. -/
def Sure (m : Edit α) : Prop := ∀ t, ∃ a t', m t = .ok a t'

lemma sure_modify (f : Tree → Tree) : Sure (modify f) := fun t => ⟨(), f t, rfl⟩

lemma Sure.bind {m : Edit α} {g : α → Edit β} (hm : Sure m) (hg : ∀ a, Sure (g a)) :
    Sure (m >>= g) := by
  intro t
  obtain ⟨a, t₁, hok⟩ := hm t
  rw [EStateM.bind_of_ok hok]
  exact hg a t₁

lemma Sure.atomic {m : Edit α} (h : Sure m) : Atomic m := by
  refine ⟨fun {t e t'} herror => ?_⟩
  obtain ⟨a, t₁, hok⟩ := h t
  cases hok.symm.trans herror

lemma atomic_refuse (id : NodeId) (reason : Refusal) : Atomic (refuse id reason) := by
  refine ⟨fun herror => ?_⟩
  cases herror
  rfl

/-- What comes before the last refusal may only read. -/
lemma atomic_get_bind {g : Tree → Edit β} (hg : ∀ t, Atomic (g t)) : Atomic (get >>= g) :=
  ⟨fun {t _ _} herror => (hg t).kept herror⟩

lemma get_eq (t : Tree) : (get : Edit Tree) t = .ok t t := rfl

lemma check_of_ok {f : Tree → Except Error α} {a : α} (h : f t = .ok a) :
    check f t = .ok a t := by
  rw [check, EStateM.bind_of_ok (get_eq t), h]
  rfl

lemma check_of_error {f : Tree → Except Error α} (h : f t = .error e) :
    check f t = .error e t := by
  rw [check, EStateM.bind_of_ok (get_eq t), h]
  rfl

lemma check_bind_of_ok {f : Tree → Except Error α} {g : α → Edit β} {a : α} (h : f t = .ok a) :
    (check f >>= g) t = g a t := EStateM.bind_of_ok (check_of_ok h)

lemma check_bind_of_error {f : Tree → Except Error α} {g : α → Edit β} (h : f t = .error e) :
    (check f >>= g) t = .error e t := EStateM.bind_of_error (check_of_error h)

lemma atomic_check_bind {f : Tree → Except Error α} {g : α → Edit β} (hg : ∀ a, Atomic (g a)) :
    Atomic (check f >>= g) := by
  refine ⟨fun {t e t'} herror => ?_⟩
  cases hf : f t with
  | ok a =>
    rw [check_bind_of_ok hf] at herror
    exact (hg a).kept herror
  | error e' =>
    rw [check_bind_of_error hf] at herror
    cases herror
    rfl

lemma Atomic.ite {b : Prop} [Decidable b] {m m' : Edit α} (hm : Atomic m) (hm' : Atomic m') :
    Atomic (if b then m else m') := by
  split
  · exact hm
  · exact hm'

/-- What comes after the first change may not fail. -/
lemma Atomic.bind {m : Edit α} {g : α → Edit β} (hm : Atomic m) (hg : ∀ a, Sure (g a)) :
    Atomic (m >>= g) := by
  refine ⟨fun {t e t'} herror => ?_⟩
  cases hok : m t with
  | ok a t₁ =>
    obtain ⟨b, t₂, hok'⟩ := hg a t₁
    rw [EStateM.bind_of_ok hok, hok'] at herror
    cases herror
  | error e' t₁ =>
    rw [EStateM.bind_of_error hok] at herror
    cases herror
    exact hm.kept hok

lemma atomic_pushChild (p c : NodeId) : Atomic (pushChild p c) :=
  atomic_check_bind fun _ => Sure.atomic <| (sure_modify _).bind fun _ =>
    (sure_modify _).bind fun _ => sure_modify _

lemma atomic_insertChild (p : NodeId) (i : Nat) (c : NodeId) : Atomic (insertChild p i c) :=
  atomic_check_bind fun _ => atomic_get_bind fun _ => .ite (atomic_refuse _ _) <| Sure.atomic <|
    (sure_modify _).bind fun _ => (sure_modify _).bind fun _ => sure_modify _

lemma atomic_detach (p c : NodeId) : Atomic (detach p c) :=
  atomic_check_bind fun _ => Sure.atomic <| (sure_modify _).bind fun _ =>
    (sure_modify _).bind fun _ => sure_modify _

lemma atomic_removeChild (p c : NodeId) : Atomic (removeChild p c) :=
  (atomic_detach p c).bind fun _ => sure_modify _

lemma atomic_remove (n : NodeId) : Atomic (remove n) := by
  refine atomic_check_bind fun _ => atomic_get_bind fun t => ?_
  cases t.parent? n with
  | some p => exact atomic_removeChild p n
  | none =>
    exact .ite (atomic_refuse _ _) ((sure_modify _).bind fun _ => sure_modify _).atomic

lemma atomic_replaceChild (p old new : NodeId) : Atomic (replaceChild p old new) := by
  refine atomic_check_bind fun i => atomic_check_bind fun _ => atomic_get_bind fun t => ?_
  refine .ite (atomic_refuse _ _) (.ite (atomic_refuse _ _) (Sure.atomic ?_))
  exact (sure_modify _).bind fun _ => (sure_modify _).bind fun _ => (sure_modify _).bind fun _ =>
    (sure_modify _).bind fun _ => sure_modify _

lemma atomic_replace (old new : NodeId) : Atomic (replace old new) := by
  refine atomic_check_bind fun _ => atomic_get_bind fun t => ?_
  cases t.parent? old with
  | some p => exact atomic_replaceChild p old new
  | none =>
    refine .ite (atomic_check_bind fun _ => .ite (atomic_refuse _ _) (Sure.atomic ?_))
      (atomic_refuse _ _)
    exact (sure_modify _).bind fun _ => (sure_modify _).bind fun _ => sure_modify _

lemma atomic_replaceWithMany (old : NodeId) (new : List NodeId) :
    Atomic (replaceWithMany old new) := by
  refine atomic_get_bind fun t => ?_
  cases t.parent? old with
  | none => exact atomic_refuse _ _
  | some p =>
    refine atomic_check_bind fun i => atomic_check_bind fun _ => Sure.atomic ?_
    exact (sure_modify _).bind fun _ => (sure_modify _).bind fun _ => (sure_modify _).bind fun _ =>
      (sure_modify _).bind fun _ => sure_modify _

/-! ### Results -/

lemma result_eq_ok_iff {m : Edit Unit} : m.result t = .ok t' ↔ m t = .ok () t' := by
  rw [result]
  cases m t <;> simp

/-- The result tells what an atomic edit does, also when it is refused. -/
lemma Atomic.apply_eq {m : Edit Unit} (h : Atomic m) (t : Tree) :
    m t = match m.result t with | .ok t' => .ok () t' | .error e => .error e t := by
  rw [result]
  cases hm : m t with
  | ok _ t' => rfl
  | error e t' => rw [h.kept hm]

lemma result_check_bind {f : Tree → Except Error α} {g : α → Edit Unit} :
    (check f >>= g).result t = f t >>= fun a => (g a).result t := by
  rw [result]
  cases hf : f t with
  | ok a => rw [check_bind_of_ok hf]; rfl
  | error e => rw [check_bind_of_error hf]; rfl

/-- An edit that begins with a check succeeds when the check does and then the rest. -/
lemma check_bind_eq_ok_iff {f : Tree → Except Error α} {g : α → Edit Unit} :
    (check f >>= g).result t = .ok t' ↔ ∃ a, f t = .ok a ∧ (g a).result t = .ok t' := by
  rw [result_check_bind]
  cases f t with
  | ok a => exact ⟨fun h => ⟨a, rfl, h⟩, fun ⟨_, rfl, h⟩ => h⟩
  | error e => exact ⟨fun h => (nomatch h), fun ⟨_, h, _⟩ => (nomatch h)⟩

section result

variable (f : Tree → Tree) (m : Edit Unit) (t : Tree)

@[simp] lemma result_get_bind (g : Tree → Edit Unit) : (get >>= g).result t = (g t).result t := rfl

@[simp] lemma result_modify : (modify f : Edit Unit).result t = .ok (f t) := rfl

@[simp] lemma result_modify_bind : (modify f >>= fun _ => m).result t = m.result (f t) := rfl

lemma result_bind_modify :
    (m >>= fun _ => modify f).result t = m.result t >>= fun t' => .ok (f t') := by
  rw [result, result]
  cases hm : m t with
  | ok _ t' => rw [EStateM.bind_of_ok hm]; rfl
  | error e t' => rw [EStateM.bind_of_error hm]; rfl

@[simp] lemma result_refuse (id : NodeId) (reason : Refusal) :
    (refuse id reason).result t = Tree.refuse id reason := rfl

end result

/-- What an edit leaves behind, also when it is refused. -/
def outcome (m : Edit α) (t : Tree) : Tree × Except Error α :=
  match m t with
  | .ok a t' => (t', .ok a)
  | .error e t' => (t', .error e)

end Edit

namespace Tree

/-- The tree with a free node as a further child. -/
def pushChild (t : Tree) (parent child : NodeId) : Except Error Tree :=
  (Edit.pushChild parent child).result t

/-- The tree with a free node as the child at a position. -/
def insertChild (t : Tree) (parent : NodeId) (index : Nat) (child : NodeId) : Except Error Tree :=
  (Edit.insertChild parent index child).result t

/-- The tree with a child taken out. -/
def detach (t : Tree) (parent child : NodeId) : Except Error Tree :=
  (Edit.detach parent child).result t

/-- The tree with a child discarded. -/
def removeChild (t : Tree) (parent child : NodeId) : Except Error Tree :=
  (Edit.removeChild parent child).result t

/-- The tree with a node discarded. -/
def remove (t : Tree) (id : NodeId) : Except Error Tree := (Edit.remove id).result t

/-- The tree with a free node in the place of a child. -/
def replaceChild (t : Tree) (parent old new : NodeId) : Except Error Tree :=
  (Edit.replaceChild parent old new).result t

/-- The tree with a free node in the place of a node. -/
def replace (t : Tree) (old new : NodeId) : Except Error Tree := (Edit.replace old new).result t

/-- The tree with a row of free nodes in the place of a child. -/
def replaceWithMany (t : Tree) (old : NodeId) (new : List NodeId) : Except Error Tree :=
  (Edit.replaceWithMany old new).result t

/-- The tree with further children, or with those that came before one that was refused. -/
def pushChildren (t : Tree) (parent : NodeId) (children : List NodeId) : Tree × Except Error Unit :=
  (Edit.pushChildren parent children).outcome t

/-- The tree with a new node and its children. -/
def addWithChildren (t : Tree) (c : Construct) (children : List NodeId) :
    Tree × Except Error NodeId :=
  (Edit.addWithChildren c children).outcome t

variable {t : Tree}

lemma pushChildren_nil (t : Tree) (p : NodeId) : t.pushChildren p [] = (t, .ok ()) := rfl

lemma pushChildren_cons (t : Tree) (p c : NodeId) (cs : List NodeId) :
    t.pushChildren p (c :: cs) =
      match t.pushChild p c with
      | .ok t' => t'.pushChildren p cs
      | .error e => (t, .error e) := by
  rw [pushChildren, Edit.outcome, Edit.pushChildren, pushChild]
  have hstep := (Edit.atomic_pushChild p c).apply_eq t
  cases hresult : (Edit.pushChild p c).result t with
  | ok t' =>
    rw [hresult] at hstep
    rw [EStateM.bind_of_ok hstep]
    rfl
  | error e =>
    rw [hresult] at hstep
    rw [EStateM.bind_of_error hstep]

lemma addWithChildren_eq (t : Tree) (c : Construct) (cs : List NodeId) :
    t.addWithChildren c cs =
      (((t.add c).1.pushChildren t.size cs).1,
        ((t.add c).1.pushChildren t.size cs).2.map fun _ => t.size) := by
  rw [addWithChildren, Edit.outcome, Edit.addWithChildren, pushChildren, Edit.outcome]
  have hadd : Edit.add c t = .ok t.size (t.add c).1 := rfl
  rw [EStateM.bind_of_ok hadd]
  cases hpush : Edit.pushChildren t.size cs (t.add c).1 with
  | ok _ t' => rw [EStateM.bind_of_ok hpush]; rfl
  | error e t' => rw [EStateM.bind_of_error hpush]; rfl

lemma addWithChildren_eq_ok_iff {t' : Tree} {c : Construct} {cs : List NodeId} {id : NodeId} :
    Edit.addWithChildren c cs t = .ok id t' ↔
      (t.add c).1.pushChildren t.size cs = (t', .ok ()) ∧ id = t.size := by
  have hadd : Edit.add c t = .ok t.size (t.add c).1 := rfl
  rw [Edit.addWithChildren, EStateM.bind_of_ok hadd, pushChildren, Edit.outcome,
    EStateM.bind_eq_ok_iff]
  cases Edit.pushChildren t.size cs (t.add c).1 with
  | ok _ t₁ => simp [EStateM.pure_eq_ok_iff, eq_comm, and_comm]
  | error e t₁ => simp

end Tree

end CodeMigration
