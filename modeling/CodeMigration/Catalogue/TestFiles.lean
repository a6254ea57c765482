import CodeMigration.Listing
import CodeMigration.Path
import CodeMigration.Rule.Basic

/-!
# Test files

For a tester file such as `tests/SomeCase.phpt` a PHPUnit file `tests/SomeCaseTest.php` is asked
for, with the text of the tester file. The tree is left as it is.
-/

namespace CodeMigration

namespace Catalogue.TestFiles

/-- The ending that test file names have before their extension. -/
def suffix : List Char := "Test".toList

/-- The file name for a stem. -/
def fileName (stem : String) : String :=
  stem ++ if suffix.isSuffixOf stem.toList then ".php" else "Test.php"

/-- The path of the PHPUnit file for a tester file. -/
def targetPath? (path : String) : Option String :=
  if Path.extension? path = some "phpt" then
    (Path.stem? path).map fun stem => Path.withFileName path (fileName stem)
  else none

/-- The text of the file a tree was read from, or else the tree as program text. -/
def content (t : Tree) : Except Error String :=
  match t.origin.source with
  | some source => .ok source
  | none => t.listing

/-- Asks for a PHPUnit file, once for a tree. -/
def apply (_oracle : Oracle) (_pass : Nat) (node : NodeId) : Action Outcome := do
  let t ← Action.tree
  if node ≠ t.root ∨ t.attributes.flag node .processed then return .unchanged
  else
    match t.origin.path.bind targetPath? with
    | none => return .unchanged
    | some path =>
      match content t with
      | .error e => Action.refuse e
      | .ok text =>
        Action.addFile ⟨path, text⟩
        Action.mark node .processed
        return .unchanged

/-- The rule for test files. -/
def rule : Rule where
  id := "rename_tester_test_to_phpunit_test_file"
  description := "Create a PHPUnit test file for each Nette Tester .phpt file"
  kinds := [.file]
  apply := apply

end Catalogue.TestFiles

end CodeMigration
