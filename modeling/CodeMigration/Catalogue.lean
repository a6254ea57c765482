import CodeMigration.Catalogue.Assertions
import CodeMigration.Catalogue.Controls
import CodeMigration.Catalogue.Forms
import CodeMigration.Catalogue.RequestParameters
import CodeMigration.Catalogue.Routes
import CodeMigration.Catalogue.TestCases
import CodeMigration.Catalogue.TestFiles

/-!
# The catalogue of migrations

The rules that come with the library, in the order in which they run by default.
-/

namespace CodeMigration

namespace Catalogue

/-- Every rule. -/
def all (routes : List Route) : List Rule :=
  [Forms.rule, Assertions.rule, TestCases.rule, RequestParameters.rule, Controls.rule,
    TestFiles.rule, Routes.rule routes]

/-- The rule with the given identifier. -/
def find (routes : List Route) (id : String) : Except Error Rule :=
  match (all routes).find? (·.id == id) with
  | some r => .ok r
  | none => .error (.unknownRule id)

/-- The named rules in the given order, or every rule when none is named. -/
def select (routes : List Route) (ids : List String) : Except Error (List Rule) :=
  if ids.isEmpty then .ok (all routes) else ids.mapM (find routes)

end Catalogue

end CodeMigration
