import CodeMigration.Proofs.ClassIndex.Memo
import Mathlib.Data.List.Basic

/-!
# Dialogues with a shared index

A computation that asks subtype questions is a tree of questions, each answer deciding how it goes
on (`Dialogue`). Several workers, each in the middle of its own dialogue, share one index with its
remembered answers. A worker looks a question up in one step, and an answer that it had to search
for it enters in a later one, so other workers may act in between, ask the same question or enter
the same answer.

Whoever takes the turns, the table stays faithful and each worker comes to the result that the
index alone determines (`Meeting.Sound.run`), after at most two turns for each of its questions
(`Meeting.left_run`).
-/

namespace CodeMigration

/-- A computation that asks subtype questions. -/
inductive Dialogue (α : Type) where
  | done (result : α)
  | ask (name candidate : String) (next : Bool → Dialogue α)

namespace Dialogue

variable {α β : Type}

/-- The result when a function answers the questions. -/
def result (answer : String → String → Bool) : Dialogue α → α
  | .done result => result
  | .ask name candidate next => (next (answer name candidate)).result answer

/-- The result when an index answers the questions and nobody else asks any. -/
def alone (m : MemoIndex) : Dialogue α → α
  | .done result => result
  | .ask name candidate next =>
    (next (m.isSubtype name candidate).1).alone (m.isSubtype name candidate).2

/-- The greatest number of questions that may be asked. -/
def depth : Dialogue α → Nat
  | .done _ => 0
  | .ask _ _ next => max (next true).depth (next false).depth + 1

lemma depth_next (name candidate : String) (next : Bool → Dialogue α) (answer : Bool) :
    (next answer).depth < (ask name candidate next).depth := by
  cases answer <;> simp only [depth] <;> omega

/-- Goes on with another dialogue. -/
def bind : Dialogue α → (α → Dialogue β) → Dialogue β
  | .done result, k => k result
  | .ask name candidate next, k => .ask name candidate fun answer => (next answer).bind k

lemma result_bind (answer : String → String → Bool) (d : Dialogue α) (k : α → Dialogue β) :
    (d.bind k).result answer = (k (d.result answer)).result answer := by
  induction d with
  | done _ => rfl
  | ask name candidate next ih => exact ih (answer name candidate)

/-- A faithful table answers as the index does. -/
lemma alone_eq_result {m : MemoIndex} (hm : m.Faithful) (d : Dialogue α) :
    d.alone m = d.result m.index.isSubtype := by
  induction d generalizing m with
  | done _ => rfl
  | ask name candidate next ih =>
    obtain ⟨hanswer, hfaithful, hindex⟩ := hm.isSubtype name candidate
    rw [alone, result, ih _ hfaithful, hindex, hanswer]

/-- The dialogue computes the function of the answers. -/
def Conducts (d : Dialogue α) (F : (String → String → Bool) → α) : Prop :=
  ∀ answer, d.result answer = F answer

end Dialogue

/-! ### Functions of the answers that ask finitely many questions -/

/-- The function of the answers can be computed in a dialogue. -/
def Inquires {α : Type} (F : (String → String → Bool) → α) : Prop :=
  ∃ d : Dialogue α, d.Conducts F

namespace Inquires

variable {α β : Type} {F : (String → String → Bool) → α}

lemma const (a : α) : Inquires fun _ => a := ⟨.done a, fun _ => rfl⟩

lemma question (name candidate : String) : Inquires fun f => f name candidate :=
  ⟨.ask name candidate .done, fun _ => rfl⟩

lemma bind {G : α → (String → String → Bool) → β} (hF : Inquires F) (hG : ∀ a, Inquires (G a)) :
    Inquires fun f => G (F f) f := by
  obtain ⟨d, hd⟩ := hF
  choose k hk using hG
  refine ⟨d.bind k, fun answer => ?_⟩
  rw [Dialogue.result_bind, hd answer, hk _ answer]

lemma map (g : α → β) (hF : Inquires F) : Inquires fun f => g (F f) :=
  hF.bind fun a => const (g a)

/-- What is determined by the outcome of a dialogue can be computed in a dialogue. -/
lemma of_factors {G : (String → String → Bool) → β} (hF : Inquires F)
    (h : Function.FactorsThrough G F) : Inquires G := by
  have hmap := hF.map (Function.extend F G fun _ => G fun _ _ => false)
  simpa only [h.extend_apply] using hmap

lemma ite {C : (String → String → Bool) → Bool} {G : (String → String → Bool) → α}
    (hC : Inquires C) (hF : Inquires F) (hG : Inquires G) :
    Inquires fun f => if C f = true then F f else G f :=
  hC.bind (G := fun c f => if c = true then F f else G f) fun c => by
    cases c
    · exact hG
    · exact hF

variable {P Q : (String → String → Bool) → Bool}

lemma not (hP : Inquires P) : Inquires fun f => !P f := hP.map (!·)

lemma or (hP : Inquires P) (hQ : Inquires Q) : Inquires fun f => P f || Q f :=
  hP.bind (G := fun p f => p || Q f) fun p => hQ.map (p || ·)

lemma and (hP : Inquires P) (hQ : Inquires Q) : Inquires fun f => P f && Q f :=
  hP.bind (G := fun p f => p && Q f) fun p => hQ.map (p && ·)

variable {P : α → (String → String → Bool) → Bool}

lemma listAny (hP : ∀ a, Inquires (P a)) (l : List α) : Inquires fun f => l.any (P · f) := by
  induction l with
  | nil => exact const false
  | cons a l ih =>
    simp only [List.any_cons]
    exact (hP a).or ih

lemma listFilter (hP : ∀ a, Inquires (P a)) (l : List α) : Inquires fun f => l.filter (P · f) := by
  induction l with
  | nil => exact const []
  | cons a l ih =>
    simp only [List.filter_cons]
    exact (hP a).ite (ih.map (a :: ·)) ih

lemma optionAny (hP : ∀ a, Inquires (P a)) (o : Option α) : Inquires fun f => o.any (P · f) := by
  cases o with
  | none => exact const false
  | some a => exact hP a

end Inquires

/-! ### Workers -/

/-- Where a worker stands: it goes on with a dialogue, or is about to enter the answer to a question
into the table and to go on then. -/
inductive Worker (α : Type) where
  | going (rest : Dialogue α)
  | entering (question : String × String) (answer : Bool) (rest : Dialogue α)

namespace Worker

variable {α : Type}

/-- What the worker is still to say. -/
def rest : Worker α → Dialogue α
  | .going rest => rest
  | .entering _ _ rest => rest

/-- The result of a worker that has come to the end. -/
def result? : Worker α → Option α
  | .going (.done result) => some result
  | _ => none

/-- The most steps that the worker still takes. -/
def left : Worker α → Nat
  | .going rest => 2 * rest.depth
  | .entering _ _ rest => 2 * rest.depth + 1

/-- Looks a question up in the table and searches if there is no answer. -/
def look (m : MemoIndex) (question : String × String) (next : Bool → Dialogue α) : Worker α :=
  match m.answers.lookup question with
  | some answer => .going (next answer)
  | none =>
    .entering question ((m.index.supertypes question.1).contains question.2)
      (next ((m.index.supertypes question.1).contains question.2))

/-- One step of a worker: it looks a question up, or enters the answer it has found. -/
def step (m : MemoIndex) : Worker α → MemoIndex × Worker α
  | .going (.done result) => (m, .going (.done result))
  | .going (.ask name candidate next) =>
    if ClassName.same name candidate then (m, .going (next true))
    else (m, look m (ClassName.normalize name, ClassName.normalize candidate) next)
  | .entering question answer rest =>
    ({ m with answers := (question, answer) :: m.answers }, .going rest)

/-- The worker is on the way to a result, and the answer that it holds is the one of the index. -/
structure Heads (index : ClassIndex) (value : α) (w : Worker α) : Prop where
  result : w.rest.result index.isSubtype = value
  answer : ∀ question answer rest, w = .entering question answer rest →
    answer = (index.supertypes question.1).contains question.2

variable {m : MemoIndex} {value : α} {w : Worker α}

lemma Heads.going {index : ClassIndex} {rest : Dialogue α}
    (h : rest.result index.isSubtype = value) : Heads index value (.going rest) :=
  ⟨h, fun _ _ _ hw => by cases hw⟩

lemma heads_look (hm : m.Faithful) {question : String × String} {next : Bool → Dialogue α}
    (h : (next ((m.index.supertypes question.1).contains question.2)).result m.index.isSubtype =
      value) : Heads m.index value (look m question next) := by
  rw [look]
  split
  · next answer hanswer => exact .going (by rwa [hm _ answer hanswer])
  · exact ⟨h, by rintro _ _ _ ⟨⟩; rfl⟩

/-- One step keeps the table faithful and the worker on its way. -/
lemma Heads.step (hm : m.Faithful) (hw : Heads m.index value w) :
    (w.step m).1.Faithful ∧ (w.step m).1.index = m.index ∧ Heads m.index value (w.step m).2 := by
  match w with
  | .going (.done result) => exact ⟨hm, rfl, hw⟩
  | .going (.ask name candidate next) =>
    -- the answer of the index decides how the dialogue goes on
    have hresult : (next (m.index.isSubtype name candidate)).result m.index.isSubtype = value :=
      hw.result
    rw [ClassIndex.isSubtype] at hresult
    rw [Worker.step]
    split
    · next hsame =>
      rw [hsame, Bool.true_or] at hresult
      exact ⟨hm, rfl, .going hresult⟩
    · next hsame =>
      rw [Bool.not_eq_true] at hsame
      rw [hsame, Bool.false_or, ← m.index.supertypes_normalize name] at hresult
      exact ⟨hm, rfl, heads_look hm hresult⟩
  | .entering question answer rest =>
    obtain rfl := hw.answer question answer rest rfl
    exact ⟨hm.remember question, rfl, .going hw.result⟩

lemma left_look (m : MemoIndex) (name candidate : String) (question : String × String)
    (next : Bool → Dialogue α) :
    (look m question next).left < (going (.ask name candidate next)).left := by
  have hdepth := Dialogue.depth_next name candidate next
  rw [look]
  split
  · next answer _ =>
    have := hdepth answer
    simp only [left]
    omega
  · have := hdepth ((m.index.supertypes question.1).contains question.2)
    simp only [left]
    omega

/-- Every step brings a worker nearer to its end. -/
lemma left_step (m : MemoIndex) (w : Worker α) : (w.step m).2.left ≤ w.left - 1 := by
  match w with
  | .going (.done result) => exact Nat.zero_le _
  | .going (.ask name candidate next) =>
    rw [Worker.step]
    split
    · have := Dialogue.depth_next name candidate next true
      simp only [left]
      omega
    · exact Nat.le_pred_of_lt (left_look m name candidate _ next)
  | .entering question answer rest => simp [Worker.step, left]

lemma Heads.result?_eq {index : ClassIndex} {found : α} (hw : Heads index value w)
    (h : w.result? = some found) : found = value := by
  match w with
  | .going (.done result) =>
    rw [← hw.result]
    exact (Option.some.inj h).symm
  | .going (.ask _ _ _) => cases h
  | .entering _ _ _ => cases h

lemma Heads.result?_of_left {index : ClassIndex} (hw : Heads index value w) (h : w.left = 0) :
    w.result? = some value := by
  match w with
  | .going (.done result) => exact congrArg some hw.result
  | .going (.ask _ _ _) => simp [left, Dialogue.depth] at h
  | .entering _ _ _ => simp [left] at h

end Worker

/-! ### Meetings -/

/-- Workers who share an index. -/
structure Meeting (α : Type) where
  memo : MemoIndex
  workers : List (Worker α)

namespace Meeting

variable {α : Type}

/-- Everyone at the beginning of a dialogue. -/
def start (memo : MemoIndex) (dialogues : List (Dialogue α)) : Meeting α :=
  ⟨memo, dialogues.map .going⟩

/-- One worker takes a step. -/
def turn (g : Meeting α) (i : Nat) : Meeting α :=
  match g.workers[i]? with
  | some w => ⟨(w.step g.memo).1, g.workers.set i (w.step g.memo).2⟩
  | none => g

/-- The workers take steps in the given order. -/
def run (g : Meeting α) (schedule : List Nat) : Meeting α := schedule.foldl turn g

/-- The results of those who have come to the end. -/
def results (g : Meeting α) : List (Option α) := g.workers.map Worker.result?

/-- The table is faithful, and every worker is on the way to its result. -/
structure Sound (index : ClassIndex) (values : List α) (g : Meeting α) : Prop where
  index_eq : g.memo.index = index
  faithful : g.memo.Faithful
  heads : List.Forall₂ (Worker.Heads index) values g.workers

variable {g : Meeting α} {index : ClassIndex} {values : List α}

lemma sound_start {memo : MemoIndex} (hm : memo.Faithful) (dialogues : List (Dialogue α)) :
    Sound memo.index (dialogues.map (·.result memo.index.isSubtype)) (start memo dialogues) := by
  refine ⟨rfl, hm, ?_⟩
  rw [start, List.forall₂_map_left_iff, List.forall₂_map_right_iff]
  exact List.forall₂_same.mpr fun d _ => .going rfl

lemma Sound.turn (hg : g.Sound index values) (i : Nat) : (g.turn i).Sound index values := by
  rw [Meeting.turn]
  split
  · next w hw =>
    obtain ⟨hi, rfl⟩ := List.getElem?_eq_some_iff.mp hw
    have hlength := hg.heads.length_eq
    have hhead : Worker.Heads g.memo.index (values.get ⟨i, hlength ▸ hi⟩) g.workers[i] :=
      hg.index_eq ▸ hg.heads.get _ hi
    obtain ⟨hfaithful, hindex, hnext⟩ := hhead.step hg.faithful
    refine ⟨hindex.trans hg.index_eq, hfaithful, List.forall₂_iff_get.mpr ⟨?_, fun j hj hj' => ?_⟩⟩
    · rw [List.length_set, hlength]
    · rw [List.get_eq_getElem, List.get_eq_getElem, List.getElem_set]
      split
      · next heq =>
        subst heq
        exact hg.index_eq ▸ hnext
      · exact hg.heads.get hj (hlength ▸ hj)
  · exact hg

/-- Whoever takes the turns, the table stays faithful and everyone stays on the way. -/
lemma Sound.run (hg : g.Sound index values) (schedule : List Nat) :
    (g.run schedule).Sound index values := by
  induction schedule generalizing g with
  | nil => exact hg
  | cons i schedule ih => exact ih (hg.turn i)

/-- The most steps that the worker at a position still takes. -/
def leftAt (g : Meeting α) (i : Nat) : Nat := ((g.workers[i]?).map Worker.left).getD 0

lemma leftAt_turn (g : Meeting α) (i j : Nat) :
    (g.turn j).leftAt i ≤ g.leftAt i - if j = i then 1 else 0 := by
  rw [Meeting.turn]
  split
  · next w hw =>
    rw [leftAt, List.getElem?_set]
    split
    · next heq =>
      subst heq
      obtain ⟨hj, _⟩ := List.getElem?_eq_some_iff.mp hw
      rw [if_pos hj, leftAt, hw]
      exact w.left_step g.memo
    · exact Nat.le_refl _
  · next hnone =>
    split
    · next heq => rw [leftAt, ← heq, hnone, Option.map_none, Option.getD_none]
    · exact Nat.le_refl _

/-- Every turn of a worker brings it nearer to its end, whatever the others do in between. -/
lemma leftAt_run (g : Meeting α) (i : Nat) (schedule : List Nat) :
    (g.run schedule).leftAt i ≤ g.leftAt i - schedule.count i := by
  induction schedule generalizing g with
  | nil => exact Nat.le_refl _
  | cons j schedule ih =>
    have hturn := g.leftAt_turn i j
    have hrest := ih (g.turn j)
    have hrun : g.run (j :: schedule) = (g.turn j).run schedule := rfl
    rw [List.count_cons, hrun]
    by_cases heq : j = i
    · rw [if_pos heq] at hturn
      rw [if_pos (beq_iff_eq.mpr heq)]
      omega
    · rw [if_neg heq] at hturn
      rw [if_neg (mt beq_iff_eq.mp heq)]
      omega

lemma Sound.length_results (hg : g.Sound index values) : g.results.length = values.length := by
  rw [results, List.length_map, hg.heads.length_eq]

/-- A result that is there is the right one. -/
lemma Sound.getElem_results (hg : g.Sound index values) {i : Nat} {found : α}
    (h : g.results[i]? = some (some found)) : values[i]? = some found := by
  rw [results, List.getElem?_map, Option.map_eq_some_iff] at h
  obtain ⟨w, hw, hfound⟩ := h
  obtain ⟨hi, rfl⟩ := List.getElem?_eq_some_iff.mp hw
  have hi' : i < values.length := hg.heads.length_eq ▸ hi
  rw [List.getElem?_eq_getElem hi', (hg.heads.get hi' hi).result?_eq hfound]
  rfl

/-- When no worker has a step left, all results are there. -/
lemma Sound.results_eq (hg : g.Sound index values) (h : ∀ i, g.leftAt i = 0) :
    g.results = values.map some := by
  refine List.ext_getElem (by rw [hg.length_results, List.length_map]) fun i hi hi' => ?_
  rw [results, List.length_map] at hi
  rw [List.length_map] at hi'
  have hleft := h i
  rw [leftAt, List.getElem?_eq_getElem hi] at hleft
  simp only [results, List.getElem_map]
  exact (hg.heads.get hi' hi).result?_of_left hleft

end Meeting

end CodeMigration
