/-!
# Class names

Class names are compared as plain text once the namespace separators in front are gone, so
`\App\Form` and `App\Form` name the same class.
-/

namespace CodeMigration

/-- A class name without the separators it starts with. -/
def ClassName.normalize (name : String) : String :=
  String.ofList (name.toList.dropWhile (· == '\\'))

/-- A class name written from the global namespace. -/
def ClassName.absolute (name : String) : String :=
  "\\" ++ ClassName.normalize name

/-- Two spellings of the same class. -/
def ClassName.same (a b : String) : Bool :=
  ClassName.normalize a == ClassName.normalize b

end CodeMigration
