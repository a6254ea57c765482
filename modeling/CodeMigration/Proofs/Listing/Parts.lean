import CodeMigration.Listing
import Mathlib.Data.List.Basic

/-!
# Parts of a text

Expressions and statements are put together from the texts of the nodes right below. Each of these
texts is taken up at most once and as it is (`Listing.Linear`), so when one of them changes, the
text around it stays.
-/

namespace CodeMigration

namespace Listing

/-! ### Texts with one part -/

/-- The part has no effect, or stands between two fixed texts. -/
def Transparent (f : String → String) : Prop :=
  (∃ text, ∀ x, f x = text) ∨ ∃ before after, ∀ x, f x = before ++ x ++ after

lemma transparent_const (text : String) : Transparent fun _ => text := Or.inl ⟨text, fun _ => rfl⟩

lemma transparent_between (before after : String) : Transparent fun x => before ++ x ++ after :=
  Or.inr ⟨before, after, fun _ => rfl⟩

lemma transparent_prepend (before : String) : Transparent fun x => before ++ x :=
  Or.inr ⟨before, "", fun _ => by rw [String.append_empty]⟩

lemma transparent_append (after : String) : Transparent fun x => x ++ after :=
  Or.inr ⟨"", after, fun _ => by rw [String.empty_append]⟩

lemma transparent_id : Transparent id :=
  Or.inr ⟨"", "", fun x => by rw [String.empty_append, String.append_empty, id]⟩

/-- What stands between fixed texts stands between fixed texts again, or has no effect any more. -/
lemma Transparent.surround {f g w : String → String} (hg : Transparent g) {before after : String}
    (hf : ∀ x, f x = before ++ w x ++ after) :
    (∃ text, ∀ x, g (f x) = text) ∨ ∃ before after, ∀ x, g (f x) = before ++ w x ++ after := by
  rcases hg with ⟨text, hg⟩ | ⟨before', after', hg⟩
  · exact Or.inl ⟨text, fun x => hg (f x)⟩
  · exact Or.inr ⟨before' ++ before, after ++ after', fun x => by
      simp only [hg, hf, String.append_assoc]⟩

lemma Transparent.comp {f g : String → String} (hg : Transparent g) (hf : Transparent f) :
    Transparent fun x => g (f x) := by
  rcases hf with ⟨text, hf⟩ | ⟨before, after, hf⟩
  · exact Or.inl ⟨g text, fun x => by simp only [hf]⟩
  · exact hg.surround hf

/-- A line is indented as a whole unless it is empty. -/
lemma Transparent.line {f : String → String} (hf : Transparent f) (hne : ∀ x, f x ≠ "")
    (level : Nat) : Transparent fun x => line level (f x) := by
  have hline : ∀ x, Listing.line level (f x) =
      String.ofList (List.replicate (4 * level) ' ') ++ f x ++ "\n" := fun x => by
    rw [Listing.line, if_neg (hne x)]
  simp only [hline]
  exact (transparent_between _ _).comp hf

/-! ### Texts with a row of parts -/

/-- Every part has no effect, or stands between texts that the other parts determine. -/
def Linear (F : List String → String) : Prop :=
  ∀ front back, Transparent fun x => F (front ++ x :: back)

lemma linear_const (text : String) : Linear fun _ => text := fun _ _ => transparent_const text

lemma Transparent.linear {F : List String → String} {g : String → String} (hg : Transparent g)
    (hF : Linear F) : Linear fun parts => g (F parts) :=
  fun front back => hg.comp (hF front back)

lemma Linear.between {F : List String → String} (hF : Linear F) (before after : String) :
    Linear fun parts => before ++ F parts ++ after :=
  (transparent_between before after).linear hF

/-- One part of a row is read by its number. -/
lemma part_eq_ite (front back : List String) (x : String) (i : Nat) :
    part (front ++ x :: back) i = if i = front.length then x else part (front ++ "" :: back) i := by
  rw [part, part, List.getElem?_append, List.getElem?_append, List.getElem?_cons,
    List.getElem?_cons]
  by_cases hi : i = front.length
  · simp [hi]
  · rw [if_neg hi]
    split
    · rfl
    · next hge => rw [if_neg (by omega), if_neg (by omega)]

lemma linear_part (i : Nat) : Linear fun parts => part parts i := by
  intro front back
  by_cases hi : i = front.length
  · have hpart : ∀ x, part (front ++ x :: back) i = x := fun x => by
      rw [part_eq_ite, if_pos hi]
    simp only [hpart]
    exact transparent_id
  · have hpart : ∀ x, part (front ++ x :: back) i = part (front ++ "" :: back) i := fun x => by
      rw [part_eq_ite, if_neg hi]
    exact Or.inl ⟨_, hpart⟩

/-- Two different parts with a text between them. -/
lemma linear_parts {i j : Nat} (hne : i ≠ j) (between : String) :
    Linear fun parts => part parts i ++ between ++ part parts j := by
  intro front back
  by_cases hi : i = front.length
  · have hj : ∀ x, part (front ++ x :: back) j = part (front ++ "" :: back) j := fun x => by
      rw [part_eq_ite, if_neg fun hj => hne (hi.trans hj.symm)]
    have hfirst := (transparent_append (between ++ part (front ++ "" :: back) j)).comp
      (linear_part i front back)
    simpa only [hj, String.append_assoc] using hfirst
  · have hi : ∀ x, part (front ++ x :: back) i = part (front ++ "" :: back) i := fun x => by
      rw [part_eq_ite, if_neg hi]
    have hsecond := (transparent_prepend (part (front ++ "" :: back) i ++ between)).comp
      (linear_part j front back)
    simpa only [hi] using hsecond

lemma linear_commas : Linear commas := by
  intro front back
  induction front with
  | nil =>
    cases back with
    | nil => exact transparent_id
    | cons y back =>
      refine Or.inr ⟨"", ", " ++ commas (y :: back), fun x => ?_⟩
      simp only [commas, List.nil_append, String.intercalate_cons_cons, String.empty_append,
        String.append_assoc]
  | cons y front ih =>
    have hne : ∀ x, front ++ x :: back ≠ [] := by simp
    have hrest := (transparent_prepend (y ++ ", ")).comp ih
    simpa only [commas, List.cons_append, String.intercalate_cons_of_ne_nil (hne _)] using hrest

/-- A receiver, and the arguments behind it. -/
lemma linear_call (between : String) :
    Linear fun parts => part parts 0 ++ between ++ commas (parts.drop 1) := by
  intro front back
  cases front with
  | nil =>
    refine Or.inr ⟨"", between ++ commas back, fun x => ?_⟩
    rw [String.empty_append, ← String.append_assoc]
    rfl
  | cons y front =>
    exact (transparent_prepend (y ++ between)).comp (linear_commas front back)

lemma linear_join {f : String → String} (hf : Transparent f) :
    Linear fun parts => String.join (parts.map f) := by
  intro front back
  have hrow := (transparent_between (String.join (front.map f)) (String.join (back.map f))).comp hf
  simpa only [List.map_append, List.map_cons, String.join_append, String.join_cons,
    String.append_assoc] using hrow

/-! ### Expressions -/

lemma linear_expressionText (c : Construct) : Linear (expressionText c) := by
  cases c with
  | assignment => exact linear_parts Nat.zero_ne_one " = "
  | instantiation name => exact linear_commas.between ("new " ++ ClassName.absolute name ++ "(") ")"
  | methodCall name =>
    have hcall := (transparent_append ")").linear (linear_call ("->" ++ name ++ "("))
    simp only [← String.append_assoc] at hcall
    exact hcall
  | staticCall className name =>
    exact linear_commas.between (ClassName.absolute className ++ "::" ++ name ++ "(") ")"
  | functionCall name => exact linear_commas.between (name ++ "(") ")"
  | propertyFetch name =>
    have hfirst := (transparent_append ("->" ++ name)).linear (linear_part 0)
    simp only [← String.append_assoc] at hfirst
    exact hfirst
  | array => exact linear_commas.between "[" "]"
  | arrayItem keyed =>
    cases keyed
    · exact linear_part 0
    · exact linear_parts Nat.zero_ne_one " => "
  | bool value => cases value <;> exact linear_const _
  | _ => exact linear_const _

lemma linear_docTagText (name : String) : Linear (docTagText name) :=
  linear_commas.between ("@" ++ ClassName.absolute name ++ "(") ")"

/-! ### Statements -/

lemma linear_docBlock (level : Nat) : Linear (docBlock level) := by
  have htag : Transparent fun tag => line level (" * " ++ tag) :=
    (transparent_prepend " * ").line (fun x h => by simp at h) level
  intro front back
  have hne : ∀ x, (front ++ x :: back).isEmpty = false := fun x => by simp
  simp only [docBlock, hne]
  exact (linear_join htag).between (line level "/**") (line level " */") front back

lemma linear_separated (level : Nat) :
    Linear fun parts => String.join (parts.map (line level "" ++ ·)) :=
  linear_join (transparent_prepend _)

lemma linear_block (level : Nat) :
    Linear fun parts => line level "\x7b" ++ String.join parts ++ line level "\x7d" := by
  have hjoin : Linear String.join := by simpa using linear_join transparent_id
  exact hjoin.between _ _

end Listing

end CodeMigration
