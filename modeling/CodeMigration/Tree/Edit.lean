import CodeMigration.Tree.Basic

/-!
# Editing trees

An edit that can be refused makes its checks and changes one after the other, and a refusal leaves
the tree as the steps before it have made it. An edit links parent and child in both directions, and
a node is only attached when it is live, free, not the root, and not above its new parent. What an
edit takes out for good is discarded with everything below it, and no attribute is left on a
discarded node or pointing at one.
-/

namespace CodeMigration

/-- Enters the slot of a node that was there at the checkpoint, unless it is entered already. -/
def Journal.save (j : Journal) (id : NodeId) (old : Slot) : Journal :=
  if id < j.size ∧ !j.saved.contains id then { j with saved := j.saved.insert id old } else j

namespace Tree

/-! ### Allocation -/

/-- Allocates a free node without children. -/
def add (t : Tree) (c : Construct) : Tree × NodeId :=
  ({ t with slots := t.slots.push { construct := c } }, t.size)

/-! ### Parts of edits -/

/-- Changes the slot of a node, which an open journal has entered before. -/
def modifySlot (t : Tree) (id : NodeId) (f : Slot → Slot) : Tree :=
  match t.slot? id with
  | some old =>
    { t with slots := t.slots.modify id f, journal := t.journal.map (·.save id old) }
  | none => t

/-- Sets the children of a node. -/
def setChildren (t : Tree) (id : NodeId) (children : List NodeId) : Tree :=
  t.modifySlot id ({ · with children })

/-- Sets the parent link of a node. -/
def setParent (t : Tree) (id : NodeId) (parent : Option NodeId) : Tree :=
  t.modifySlot id ({ · with parent })

/-- Sets the parent links of several nodes. -/
def setParents (t : Tree) (ids : List NodeId) (parent : Option NodeId) : Tree :=
  ids.foldl (fun t id => t.setParent id parent) t

/-- Counts an edit. -/
def touch (t : Tree) : Tree := { t with revision := t.revision + 1 }

/-- Discards a node with everything below it. -/
def discard (t : Tree) (id : NodeId) : Tree :=
  let gone := t.descendants id
  (gone.foldl (fun t n => t.modifySlot n ({ · with live := false })) t).mapAttributes
    (·.forget gone)

/-- A refused edit of a node. -/
def refuse {α : Type} (id : NodeId) (reason : Refusal) : Except Error α :=
  .error (.invalidMutation id reason)

/-- The node is live. -/
def checkLive (t : Tree) (id : NodeId) : Except Error Unit :=
  if t.isLive id then .ok () else refuse id .notLive

/-- The child may be attached below the parent. -/
def checkAttachable (t : Tree) (parent child : NodeId) : Except Error Unit := do
  t.checkLive parent
  t.checkLive child
  if child = t.root then refuse child .rootAsChild
  else
    match t.parent? child with
    | some existing => refuse child (.alreadyChild existing)
    | none =>
      if t.isAncestorOrSelf child parent then refuse child (.attachCycle parent) else .ok ()

/-- The position of a live child below its live parent. -/
def checkChild (t : Tree) (parent child : NodeId) : Except Error Nat := do
  t.checkLive parent
  t.checkLive child
  if t.parent? child ≠ some parent then refuse child (.notChild parent)
  else
    match (t.children parent).idxOf? child with
    | some index => .ok index
    | none => .error (.invariantViolation (.missingChild child parent))

/-- Takes all children out of a node as free nodes. -/
def takeChildren (t : Tree) (id : NodeId) : Tree × List NodeId :=
  let children := t.children id
  let t' := (t.setChildren id []).setParents children none
  (if children.isEmpty then t' else t'.touch, children)

/-- Every node of the list is free, not above the parent, and listed once. -/
def checkReplacements (t : Tree) (parent : NodeId) : List NodeId → List NodeId → Except Error Unit
  | _, [] => .ok ()
  | seen, n :: rest => do
    if seen.contains n then refuse n .listedTwice
    t.checkLive n
    if n = t.root ∨ (t.parent? n).isSome ∨ t.isAncestorOrSelf n parent then refuse n .notFree
    t.checkReplacements parent (n :: seen) rest

/-! ### Constructs -/

/-- Changes the construct of a node and drops the type recorded for it. -/
def setConstruct (t : Tree) (id : NodeId) (c : Construct) : Tree :=
  (t.touch.mapAttributes (·.erase id .resolvedType)).modifySlot id ({ · with construct := c })

end Tree

/-! ### Edits that can be refused -/

/-- An edit of a tree that can be refused; what it did before it was refused stays done. -/
abbrev Edit := EStateM Error Tree

namespace Edit

/-- Fails where a check of the tree fails. -/
def check {α : Type} (f : Tree → Except Error α) : Edit α := do
  match f (← get) with
  | .ok a => return a
  | .error e => throw e

/-- Refuses an edit of a node. -/
def refuse (id : NodeId) (reason : Refusal) : Edit Unit := throw (.invalidMutation id reason)

/-- Attaches a free node as the last child. -/
def pushChild (parent child : NodeId) : Edit Unit := do
  check (·.checkAttachable parent child)
  modify fun t => t.setChildren parent (t.children parent ++ [child])
  modify (·.setParent child parent)
  modify Tree.touch

/-- Attaches a free node as the child at a position. -/
def insertChild (parent : NodeId) (index : Nat) (child : NodeId) : Edit Unit := do
  check (·.checkAttachable parent child)
  let siblings := (← get).children parent
  if siblings.length < index then refuse parent (.badPosition index siblings.length)
  else
    modify (·.setChildren parent (siblings.insertIdx index child))
    modify (·.setParent child parent)
    modify Tree.touch

/-- Allocates a node. -/
def add (c : Construct) : Edit NodeId := do
  let (t, id) := (← get).add c
  set t
  return id

/-- Attaches free nodes as last children, one by one. -/
def pushChildren (parent : NodeId) : List NodeId → Edit Unit
  | [] => return ()
  | child :: rest => do
    pushChild parent child
    pushChildren parent rest

/-- Allocates a node and attaches the given free nodes below it. When one is refused, the node and
the earlier children stay. -/
def addWithChildren (c : Construct) (children : List NodeId) : Edit NodeId := do
  let id ← add c
  pushChildren id children
  return id

/-- Takes a child out of its parent as a free node. -/
def detach (parent child : NodeId) : Edit Unit := do
  let index ← check (·.checkChild parent child)
  modify fun t => t.setChildren parent ((t.children parent).eraseIdx index)
  modify (·.setParent child none)
  modify Tree.touch

/-- Takes a child out of its parent and discards it. -/
def removeChild (parent child : NodeId) : Edit Unit := do
  detach parent child
  modify (·.discard child)

/-- Removes a node, attached or free. -/
def remove (id : NodeId) : Edit Unit := do
  check (·.checkLive id)
  let t ← get
  match t.parent? id with
  | some parent => removeChild parent id
  | none =>
    if id = t.root then refuse id .rootRemoval
    else
      modify (·.discard id)
      modify Tree.touch

/-- Puts a free node in the place of a child, which is discarded. -/
def replaceChild (parent old new : NodeId) : Edit Unit := do
  let index ← check (·.checkChild parent old)
  check (·.checkLive new)
  let t ← get
  if new = t.root ∨ (t.parent? new).isSome then refuse new .notFree
  else if t.isAncestorOrSelf new parent ∨ t.isAncestorOrSelf old new then
    refuse new (.replaceCycle old)
  else
    modify fun t => t.setChildren parent ((t.children parent).set index new)
    modify (·.setParent new parent)
    modify (·.setParent old none)
    modify (·.discard old)
    modify Tree.touch

/-- Puts a free node in the place of an attached node or of the root. -/
def replace (old new : NodeId) : Edit Unit := do
  check (·.checkLive old)
  let t ← get
  match t.parent? old with
  | some parent => replaceChild parent old new
  | none =>
    if old = t.root then
      check (·.checkLive new)
      if (t.parent? new).isSome ∨ t.isAncestorOrSelf old new then refuse new .notFree
      else
        modify ({ · with root := new })
        modify (·.discard old)
        modify Tree.touch
    else refuse old .notAttached

/-- Puts a row of free nodes in the place of a child, which is discarded. -/
def replaceWithMany (old : NodeId) (new : List NodeId) : Edit Unit := do
  let t ← get
  match t.parent? old with
  | none => refuse old .notExpandable
  | some parent =>
    let index ← check (·.checkChild parent old)
    check (·.checkReplacements parent [] new)
    modify fun t =>
      let siblings := t.children parent
      t.setChildren parent (siblings.take index ++ new ++ siblings.drop (index + 1))
    modify (·.setParents new parent)
    modify (·.setParent old none)
    modify (·.discard old)
    modify Tree.touch

/-- The tree after an edit, unless it is refused. -/
def result (m : Edit Unit) (t : Tree) : Except Error Tree :=
  match m t with
  | .ok _ t' => .ok t'
  | .error e _ => .error e

end Edit

end CodeMigration
