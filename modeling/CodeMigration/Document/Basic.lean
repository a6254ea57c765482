import CodeMigration.Attributes
import CodeMigration.Construct

/-!
# Tree documents

A tree as plain nested data, the form in which trees come in and go out.
-/

namespace CodeMigration

/-- A node with everything below it. `layout` is formatting data that is only passed through. -/
inductive DocNode where
  | node (construct : Construct) (children : List DocNode) (span : Option Span)
      (layout : Option Json)

/-- The tree of one file. -/
structure Document where
  path : Option String := none
  source : Option String := none
  root : DocNode

namespace DocNode

/-- The construct of the node. -/
def construct : DocNode → Construct
  | .node c _ _ _ => c

/-- The nodes right below. -/
def children : DocNode → List DocNode
  | .node _ cs _ _ => cs

/-- The place in the source text. -/
def span : DocNode → Option Span
  | .node _ _ s _ => s

/-- The formatting data. -/
def layout : DocNode → Option Json
  | .node _ _ _ l => l

/-- A node without span and formatting data. -/
def plain (c : Construct) (children : List DocNode) : DocNode := .node c children none none

mutual

/-- Equality of nodes. -/
def beq : DocNode → DocNode → Bool
  | .node c cs s l, .node c' cs' s' l' => c == c' && s == s' && l == l' && beqList cs cs'

/-- Equality of rows of nodes. -/
def beqList : List DocNode → List DocNode → Bool
  | [], [] => true
  | n :: ns, m :: ms => beq n m && beqList ns ms
  | _, _ => false

end

mutual

theorem beq_iff (n m : DocNode) : beq n m = true ↔ n = m := by
  match n, m with
  | .node c cs s l, .node c' cs' s' l' =>
    simp only [beq, Bool.and_eq_true, beq_iff_eq, beqList_iff cs cs', node.injEq]
    exact ⟨fun ⟨⟨⟨h₁, h₂⟩, h₃⟩, h₄⟩ => ⟨h₁, h₄, h₂, h₃⟩,
      fun ⟨h₁, h₄, h₂, h₃⟩ => ⟨⟨⟨h₁, h₂⟩, h₃⟩, h₄⟩⟩

theorem beqList_iff (ns ms : List DocNode) : beqList ns ms = true ↔ ns = ms := by
  match ns, ms with
  | [], [] => simp [beqList]
  | [], _ :: _ | _ :: _, [] => simp [beqList]
  | n :: ns, m :: ms => simp [beqList, beq_iff n m, beqList_iff ns ms]

end

instance : DecidableEq DocNode := fun n m => decidable_of_iff _ (beq_iff n m)

mutual

/-- Number of nodes. -/
def size : DocNode → Nat
  | .node _ cs _ _ => sizeList cs + 1

/-- Number of nodes in a row of nodes. -/
def sizeList : List DocNode → Nat
  | [] => 0
  | n :: ns => size n + sizeList ns

end

mutual

/-- How many levels lie below the node. -/
def height : DocNode → Nat
  | .node _ cs _ _ => heightList cs

/-- How many levels a row of nodes has. -/
def heightList : List DocNode → Nat
  | [] => 0
  | n :: ns => max (height n + 1) (heightList ns)

end

end DocNode

deriving instance DecidableEq for Document

end CodeMigration
