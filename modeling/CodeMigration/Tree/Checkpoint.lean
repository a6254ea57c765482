import CodeMigration.Tree.Basic

/-!
# Checkpoints

A checkpoint opens a journal in which every edit enters a slot before its first change, and one for
the attributes. `rollback` puts the old slots and attributes back and drops what was allocated
since, `commit` only gives the journals up. There is at most one checkpoint: a new one takes the
place of an open one.
-/

namespace CodeMigration

/-- The slots at the checkpoint: those allocated since are dropped, those changed since are put
back. -/
def Journal.restore (j : Journal) (slots : Array Slot) : Array Slot :=
  (slots.take j.size).mapIdx fun id s => j.saved[id]?.getD s

namespace Tree

/-- Opens the journals. -/
def checkpoint (t : Tree) : Tree :=
  { t with
    journal := some { size := t.size, root := t.root, revision := t.revision }
    attributes := t.attributes.checkpoint }

/-- Keeps all edits since the checkpoint. -/
def commit (t : Tree) : Tree := { t with journal := none, attributes := t.attributes.commit }

/-- Undoes all edits since the checkpoint; without one nothing happens. -/
def rollback (t : Tree) : Tree :=
  match t.journal with
  | some j =>
    { t with
      slots := j.restore t.slots
      root := j.root
      revision := j.revision
      attributes := t.attributes.rollback
      journal := none }
  | none => t

end Tree

end CodeMigration
