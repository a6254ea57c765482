import CodeMigration.Lowercase
import CodeMigration.Rule.Basic

/-!
# Controls

A control becomes a controller. Its `render` method fills a template and shows it:

```
$this->template->question = $q;
$this->template->render('poll.latte');
```

These statements are gathered into one at the end of the method,
`return $this->render('poll.latte', ['question' => $q]);`. Only the statements right below the
method count, and a control that shows no template file is left alone.
-/

namespace CodeMigration

namespace Catalogue.Controls

/-- The control class. -/
def control : String := "Nette\\Application\\UI\\Control"

/-- The interface of presenters, which are no controls to migrate. -/
def presenter : String := "Nette\\Application\\IPresenter"

/-- The controller class. -/
def controller : String := "Symfony\\Bundle\\FrameworkBundle\\Controller\\AbstractController"

/-- Whether a class with the given parent is a control. -/
def isControl (oracle : Oracle) (parent : String) : Bool :=
  ClassName.same parent control ||
    (oracle.isSubtype (ClassName.normalize parent) control &&
      !oracle.isSubtype (ClassName.normalize parent) presenter)

/-- The ending of control names. -/
def suffix : List Char := "Control".toList

/-- A control name without its ending. -/
def stem (name : String) : List Char :=
  let cs := name.toList
  if suffix.isSuffixOf cs then cs.take (cs.length - suffix.length) else cs

/-- The name of the controller of a control. -/
def controllerName (name : String) : String := String.ofList (stem name) ++ "Controller"

/-- The name of the action of a control: its stem with a small first letter. -/
def actionName (name : String) : String :=
  match stem name with
  | [] => "index"
  | c :: rest => String.ofList (Lowercase.ofChar c ++ rest)

/-! ### Template statements -/

/-- Whether a node is `$this->template`. -/
def isTemplate (t : Tree) (id : NodeId) : Bool :=
  t.construct? id == some (.propertyFetch "template") &&
    (t.child? id 0).bind t.construct? == some (.variableRef "this")

/-- A statement about the template: a variable with its value, or a call that shows a file. -/
inductive TemplateStatement where
  | assign (name : String) (value : NodeId)
  | display (file : Option NodeId)

/-- What a statement says about the template. -/
def templateStatement? (t : Tree) (statement : NodeId) : Option TemplateStatement :=
  if t.hasKind statement .expression then
    match t.child? statement 0 with
    | some expression =>
      match t.construct? expression with
      | some .assignment =>
        match t.child? expression 0, t.child? expression 1 with
        | some target, some value =>
          match t.construct? target with
          | some (.propertyFetch name) =>
            if (t.child? target 0).any (isTemplate t) then some (.assign name value) else none
          | _ => none
        | _, _ => none
      | some (.methodCall name) =>
        if (name = "render" ∨ name = "setFile") ∧ (t.child? expression 0).any (isTemplate t) then
          some (.display (t.child? expression 1))
        else none
      | _ => none
    | none => none
  else none

/-- What a method does with its template. -/
structure TemplateUse where
  file : Option NodeId := none
  assigned : List (String × NodeId) := []
  statements : List NodeId := []

/-- Adds a statement to the use of a template; of several files the last counts. -/
def TemplateUse.add (u : TemplateUse) (t : Tree) (statement : NodeId) : TemplateUse :=
  match templateStatement? t statement with
  | some (.assign name value) =>
    { u with assigned := u.assigned ++ [(name, value)], statements := u.statements ++ [statement] }
  | some (.display file) =>
    { u with file := file.or u.file, statements := u.statements ++ [statement] }
  | none => u

/-- What a method does with its template. -/
def templateUse (t : Tree) (method : NodeId) : TemplateUse :=
  (t.children method).foldl (fun u s => u.add t s) {}

/-- The first method of a class that is called `render`. -/
def renderMethod? (t : Tree) (node : NodeId) : Option NodeId :=
  (t.children node).find? fun m => t.construct? m == some (.method "render")

/-! ### The migration -/

/-- Takes a node out of its parent. -/
def release (node : NodeId) : Action Unit := do
  match (← Action.tree).parent? node with
  | some parent => Action.edit (Edit.detach parent node)
  | none => return ()

/-- The array of template variables, unless there are none. -/
def buildVariables (assigned : List (String × NodeId)) : Action (List NodeId) := do
  if assigned.isEmpty then return []
  else
    let items ← assigned.mapM fun (name, value) => Action.addItem name value
    return [← Action.addWithChildren .array items]

/-- The statement that shows a file with variables. -/
def buildReturn (file : NodeId) (assigned : List (String × NodeId)) : Action NodeId := do
  let this ← Action.add (.variableRef "this")
  let array ← buildVariables assigned
  let call ← Action.addWithChildren (.methodCall "render") ([this, file] ++ array)
  Action.addWithChildren .returnStatement [call]

/-- Gathers the template statements of a method into one. -/
def gather (method : NodeId) (usage : TemplateUse) (file : NodeId) : Action Unit := do
  usage.assigned.forM fun (_, value) => release value
  release file
  usage.statements.forM fun s => Action.edit (Edit.removeChild method s)
  let statement ← buildReturn file usage.assigned
  Action.edit (Edit.pushChild method statement)

/-- Makes a controller of a control. -/
def convert (node method : NodeId) (usage : TemplateUse) (file : NodeId) (name : String)
    (interfaces : List String) : Action Outcome := do
  gather method usage file
  Action.update (·.setConstruct method (.method (actionName name)))
  Action.update (·.setConstruct node
    (.classDecl (controllerName name) (some controller) interfaces))
  return .mutated

/-- Migrates a control. -/
def apply (oracle : Oracle) (_pass : Nat) (node : NodeId) : Action Outcome := do
  Action.require node
  let t ← Action.tree
  match t.construct? node with
  | some (.classDecl name (some parent) interfaces) =>
    if isControl oracle parent then
      match renderMethod? t node with
      | some method =>
        let usage := templateUse t method
        match usage.file with
        | some file => convert node method usage file name interfaces
        | none => return .unchanged
      | none => return .unchanged
    else return .unchanged
  | _ => return .unchanged

/-- The rule for controls. -/
def rule : Rule where
  id := "nette_control_to_symfony_controller"
  description := "Turn Nette UI controls into Symfony controllers"
  kinds := [.classDecl]
  apply := apply

end Catalogue.Controls

end CodeMigration
