import CodeMigration.Rule.Basic

/-!
# The order of rules

Rules are offered a node in the order of their declaration, except that a rule comes behind the
rules it names; names of rules that are not registered do not count. The rules are released one by
one: each keeps count of what it still waits for, and at every turn the earliest declared rule is
taken among those that wait for nothing.
-/

namespace CodeMigration

namespace Rule

/-- What waits for what: a pair `(i, j)` each time the rule at position `j` names the one at
position `i`. -/
def dependencies (rules : List Rule) : List (Nat × Nat) :=
  rules.zipIdx.flatMap fun (r, j) =>
    r.after.filterMap fun name => (rules.findIdx? (·.id == name)).map (·, j)

/-- The positions that wait for a position, each as often as it does. -/
def successors (edges : List (Nat × Nat)) (i : Nat) : List Nat :=
  edges.filterMap fun (k, j) => if k = i then some j else none

/-- Enters a position into an ascending list. -/
def enter (i : Nat) : List Nat → List Nat
  | [] => [i]
  | j :: rest =>
    if i < j then i :: j :: rest
    else if i = j then j :: rest
    else j :: enter i rest

/-- How far the release has come. -/
structure Release where
  /-- For every position, how many times it still waits. -/
  waits : List Nat
  /-- The positions that wait for nothing and have not had their turn, ascending. -/
  ready : List Nat

namespace Release

/-- Before the first turn. -/
def start (edges : List (Nat × Nat)) (count : Nat) : Release :=
  let waits := (List.range count).map fun j => edges.countP (·.2 == j)
  { waits, ready := (List.range count).filter fun j => waits.getD j 0 == 0 }

/-- The position waits one time less. -/
def meet (s : Release) (j : Nat) : Release :=
  let left := s.waits.getD j 0 - 1
  { waits := s.waits.set j left, ready := if left = 0 then enter j s.ready else s.ready }

/-- The positions in the order of their turns, for a number of turns at most. -/
def order (edges : List (Nat × Nat)) : Nat → Release → List Nat
  | 0, _ => []
  | n + 1, s =>
    match s.ready with
    | [] => []
    | i :: rest => i :: order edges n ((successors edges i).foldl meet { s with ready := rest })

end Release

/-- The rules in the order in which they are offered a node. When some have no turn because they
wait for each other, the first of them is reported. -/
def arrange (rules : List Rule) : Except Error (List Rule) :=
  let edges := dependencies rules
  let order := Release.order edges rules.length (.start edges rules.length)
  if order.length = rules.length then .ok (order.filterMap (rules[·]?))
  else
    let stuck := rules.zipIdx.find? fun (_, i) => !order.contains i
    .error (.ruleCycle ((stuck.map fun (r, _) => r.id).getD ""))

end Rule

end CodeMigration
