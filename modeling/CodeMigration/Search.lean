/-!
# Breadth-first search

`breadthFirst next bound start` lists what can be reached from `start` in one or more steps, each
once, nearest first. The bound is the number of points to expand; it suffices when it exceeds the
number of points that any step leads to.
-/

namespace CodeMigration

namespace Search

/-- The members of a list that are not known yet, each once. -/
def fresh {α : Type} [BEq α] (known : List α) : List α → List α
  | [] => []
  | x :: xs => if known.contains x then fresh known xs else x :: fresh (x :: known) xs

/-- Expands the points of the queue in order and collects what is found. -/
def expand {α : Type} [BEq α] (next : α → List α) : Nat → List α → List α → List α
  | 0, _, found => found
  | _ + 1, [], found => found
  | n + 1, x :: queue, found =>
    let new := fresh found (next x)
    expand next n (queue ++ new) (found ++ new)

/-- What can be reached from a point in one or more steps, nearest first. -/
def breadthFirst {α : Type} [BEq α] (next : α → List α) (bound : Nat) (start : α) : List α :=
  expand next bound [start] []

end Search

end CodeMigration
