import CodeMigration.Rule.Basic

/-!
# Forms

In presenters the form builder takes the place of forms:

* `new Form` becomes `$this->createFormBuilder()`;
* `$form->addText('name', 'Name:')` becomes
  `$form->add('name', TextType::class, ['label' => 'Name:'])`, and likewise for the other fields.
-/

namespace CodeMigration

namespace Catalogue.Forms

/-- The interface of presenters. -/
def presenter : String := "Nette\\Application\\IPresenter"

/-- The form class. -/
def form : String := "Nette\\Application\\UI\\Form"

/-- Where the form types are. -/
def typeNamespace : String := "Symfony\\Component\\Form\\Extension\\Core\\Type"

/-- The form type of each field method. -/
def fieldTypes : List (String × String) :=
  [("addText", "TextType"), ("addPassword", "PasswordType"), ("addTextArea", "TextareaType"),
    ("addEmail", "EmailType"), ("addInteger", "IntegerType"), ("addHidden", "HiddenType"),
    ("addUpload", "FileType"), ("addMultiUpload", "FileType"), ("addSubmit", "SubmitType"),
    ("addButton", "ButtonType"), ("addCheckbox", "CheckboxType"), ("addSelect", "ChoiceType"),
    ("addRadioList", "ChoiceType"), ("addCheckboxList", "ChoiceType"),
    ("addMultiSelect", "ChoiceType")]

/-- The options of a field that offers choices. -/
structure ChoiceOptions where
  expanded : Bool
  multiple : Bool
deriving DecidableEq, Repr

/-- The methods of fields that offer choices. -/
def choiceMethods : List (String × ChoiceOptions) :=
  [("addSelect", ⟨false, false⟩), ("addRadioList", ⟨true, false⟩),
    ("addCheckboxList", ⟨true, true⟩), ("addMultiSelect", ⟨false, true⟩)]

/-- The other methods of fields with several values. -/
def multipleMethods : List String := ["addMultiUpload"]

/-- The form type of a field method. -/
def fieldType? (method : String) : Option String :=
  (fieldTypes.lookup method).map fun type => typeNamespace ++ "\\" ++ type

/-- The options of a choice method. -/
def choiceOptions? (method : String) : Option ChoiceOptions := choiceMethods.lookup method

/-- The options that a field method sets to a fixed value. -/
def fixedOptions (method : String) : List (String × Bool) :=
  (match choiceOptions? method with
    | some c => [("expanded", c.expanded), ("multiple", c.multiple)]
    | none => []) ++
  (if multipleMethods.contains method then [("multiple", true)] else [])

/-- Whether a node stands in a presenter. -/
def inPresenter (oracle : Oracle) (t : Tree) (node : NodeId) : Bool :=
  (t.enclosingClass? node).any (oracle.isInstance t · presenter)

/-- Whether the receiver of a call is a form. -/
def onForm (oracle : Oracle) (t : Tree) (node : NodeId) : Bool :=
  (t.child? node 0).any (oracle.isInstance t · form)

/-- Puts a builder call in the place of a form construction. -/
def replaceConstruction (node : NodeId) : Action Outcome := do
  let this ← Action.add (.variableRef "this")
  let call ← Action.addWithChildren (.methodCall "createFormBuilder") [this]
  Action.mark call .processed
  Action.edit (Edit.replace node call)
  return .replaced call

/-- Takes arguments out of a call; those that are not kept are discarded. -/
def takeArguments (node : NodeId) (kept : List NodeId) : List NodeId → Action Unit
  | [] => return ()
  | argument :: rest => do
    if kept.contains argument then Action.edit (Edit.detach node argument)
    else Action.edit (Edit.removeChild node argument)
    takeArguments node kept rest

/-- Appends an array of options to a call, unless there are none. -/
def pushOptions (node : NodeId) (options : List (String × NodeId)) : Action Unit := do
  if options.isEmpty then return ()
  else
    let items ← options.mapM fun (key, value) => Action.addItem key value
    let array ← Action.addWithChildren .array items
    Action.edit (Edit.pushChild node array)

/-- Folds the arguments of a field call behind the first into a type and an array of options. -/
def foldField (node : NodeId) (method type : String) (arguments : List NodeId) :
    Action Outcome := do
  let label := arguments[1]?
  let items := if (choiceOptions? method).isSome then arguments[2]? else none
  takeArguments node (label.toList ++ items.toList) (arguments.drop 1)
  let fixed ← (fixedOptions method).mapM fun (key, value) => do
    return (key, ← Action.add (.bool value))
  let options := label.toList.map (("label", ·)) ++ items.toList.map (("choices", ·)) ++ fixed
  let typeRef ← Action.add (.classConstant type "class")
  Action.edit (Edit.pushChild node typeRef)
  pushOptions node options
  Action.update (·.setConstruct node (.methodCall "add"))
  Action.mark node .processed
  return .mutated

/-- Migrates a form construction or a field call. -/
def apply (oracle : Oracle) (_pass : Nat) (node : NodeId) : Action Outcome := do
  if (← Action.tree).attributes.flag node .processed then return .unchanged
  else
    Action.require node
    let t ← Action.tree
    if !inPresenter oracle t node then return .unchanged
    else
      match t.construct? node with
      | some (.instantiation name) =>
        if ClassName.same name form then replaceConstruction node else return .unchanged
      | some (.methodCall method) =>
        match fieldType? method with
        | some type =>
          if onForm oracle t node && !(t.arguments node).isEmpty then
            foldField node method type (t.arguments node)
          else return .unchanged
        | none => return .unchanged
      | _ => return .unchanged

/-- The rule for forms. -/
def rule : Rule where
  id := "nette_form_to_symfony_form"
  description := "Migrate Nette forms in presenters to the Symfony form builder"
  kinds := [.instantiation, .methodCall]
  apply := apply

end Catalogue.Forms

end CodeMigration
