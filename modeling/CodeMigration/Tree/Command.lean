import CodeMigration.Tree.Checkpoint
import CodeMigration.Tree.Edit
import CodeMigration.Tree.Validate

/-!
# Edits as data

A `Command` is one edit of a tree, with its nodes named by anything that can be resolved to a node
number. Running a command gives the tree afterwards in every case, whether it succeeded or not.
-/

namespace CodeMigration

/-- An edit of a tree. -/
inductive Command (ρ : Type) where
  | add (construct : Construct)
  | addWithChildren (construct : Construct) (children : List ρ)
  | pushChild (parent child : ρ)
  | insertChild (parent : ρ) (index : Nat) (child : ρ)
  | detach (parent child : ρ)
  | removeChild (parent child : ρ)
  | remove (node : ρ)
  | replaceChild (parent old new : ρ)
  | replace (old new : ρ)
  | replaceWithMany (old : ρ) (new : List ρ)
  | takeChildren (node : ρ)
  | setConstruct (node : ρ) (construct : Construct)
  | setAttribute (node : ρ) (key : AttributeKey) (value : AttributeValue)
  | pointAttribute (node : ρ) (key : AttributeKey) (target : ρ)
  | removeAttribute (node : ρ) (key : AttributeKey)
  | clearKey (key : AttributeKey)
  | forget (nodes : List ρ)
  | checkpoint
  | commit
  | rollback

/-- What a command returns. -/
inductive Reply where
  | done
  | node (id : NodeId)
  | nodes (ids : List NodeId)
  | attribute (value : Option AttributeValue)

namespace Command

/-- Resolves the nodes of a command from left to right. -/
def resolve {ρ σ : Type} {m : Type → Type} [Monad m] (f : ρ → m σ) :
    Command ρ → m (Command σ)
  | .add c => return .add c
  | .addWithChildren c children => return .addWithChildren c (← children.mapM f)
  | .pushChild parent child => return .pushChild (← f parent) (← f child)
  | .insertChild parent index child => return .insertChild (← f parent) index (← f child)
  | .detach parent child => return .detach (← f parent) (← f child)
  | .removeChild parent child => return .removeChild (← f parent) (← f child)
  | .remove node => return .remove (← f node)
  | .replaceChild parent old new => return .replaceChild (← f parent) (← f old) (← f new)
  | .replace old new => return .replace (← f old) (← f new)
  | .replaceWithMany old new => return .replaceWithMany (← f old) (← new.mapM f)
  | .takeChildren node => return .takeChildren (← f node)
  | .setConstruct node c => return .setConstruct (← f node) c
  | .setAttribute node key value => return .setAttribute (← f node) key value
  | .pointAttribute node key target => return .pointAttribute (← f node) key (← f target)
  | .removeAttribute node key => return .removeAttribute (← f node) key
  | .clearKey key => return .clearKey key
  | .forget nodes => return .forget (← nodes.mapM f)
  | .checkpoint => return .checkpoint
  | .commit => return .commit
  | .rollback => return .rollback

/-- What an edit that can be refused leaves behind. -/
def settle (t : Tree) (reply : Reply) (m : Edit Unit) : Tree × Except Failure Reply :=
  match m t with
  | .ok _ t' => (t', .ok reply)
  | .error e t' => (t', .error (.error e))

/-- An edit of a node that has to be in the arena. -/
def inside (t : Tree) (id : NodeId) (result : Tree × Except Failure Reply) :
    Tree × Except Failure Reply :=
  if t.contains id then result else (t, .error (.fault (.outsideArena t.size id)))

/-- Runs a command. -/
def run (t : Tree) : Command NodeId → Tree × Except Failure Reply
  | .add c => ((t.add c).1, .ok (.node (t.add c).2))
  | .addWithChildren c children =>
    match Edit.addWithChildren c children t with
    | .ok id t' => (t', .ok (.node id))
    | .error e t' => (t', .error (.error e))
  | .pushChild parent child => settle t .done (Edit.pushChild parent child)
  | .insertChild parent index child => settle t .done (Edit.insertChild parent index child)
  | .detach parent child => settle t (.node child) (Edit.detach parent child)
  | .removeChild parent child => settle t .done (Edit.removeChild parent child)
  | .remove node => settle t .done (Edit.remove node)
  | .replaceChild parent old new => settle t .done (Edit.replaceChild parent old new)
  | .replace old new => settle t .done (Edit.replace old new)
  | .replaceWithMany old new => inside t old (settle t .done (Edit.replaceWithMany old new))
  | .takeChildren node =>
    inside t node ((t.takeChildren node).1, .ok (.nodes (t.takeChildren node).2))
  | .setConstruct node c => inside t node (t.setConstruct node c, .ok .done)
  | .setAttribute node key value => (t.setAttribute node key value, .ok .done)
  | .pointAttribute node key target => (t.setAttribute node key (.node target), .ok .done)
  | .removeAttribute node key =>
    (t.mapAttributes (·.erase node key), .ok (.attribute (t.attribute? node key)))
  | .clearKey key => (t.mapAttributes (·.clearKey key), .ok .done)
  | .forget nodes => (t.mapAttributes (·.forget nodes), .ok .done)
  | .checkpoint => (t.checkpoint, .ok .done)
  | .commit => (t.commit, .ok .done)
  | .rollback => (t.rollback, .ok .done)

end Command

end CodeMigration
