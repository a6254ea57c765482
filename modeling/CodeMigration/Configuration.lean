import CodeMigration.Catalogue
import CodeMigration.Json.Reader
import CodeMigration.Json.Record
import CodeMigration.Pipeline

/-!
# Configuration

The settings of a run: limits, the rules to run, the number of workers, and the routes to declare.
-/

namespace CodeMigration

/-- The settings of a run. -/
structure Configuration where
  maxPasses : Nat := 2
  revisitBound : UInt32 := 1
  rules : List String := []
  workers : Nat := 1
  routes : List Route := []
deriving DecidableEq

/-- What is wrong with a configuration. -/
inductive ConfigurationProblem where
  | malformed
  | noPasses
  | noWorkers
deriving DecidableEq

/-- The wording of a configuration problem. -/
def ConfigurationProblem.message : ConfigurationProblem → String
  | .malformed => "invalid configuration"
  | .noPasses => "max_passes must be at least 1"
  | .noWorkers => "workers must be at least 1"

/-- Reads a route in which at most the given number of arrays and objects are nested. -/
def Route.ofDraft? : Nat → Json.Draft → Option Route
  | 0, _ => none
  | n + 1, d => do
    let [className, method, path, httpMethods] ←
      d.record? ["class", "method", "path", "http_methods"] | none
    let text := Json.Draft.whole? n Json.asString?
    return {
      className := ← Json.required? text className
      method := ← Json.required? text method
      path := ← Json.required? text path
      httpMethods := ←
        Json.defaulted? [] (Json.Draft.whole? n (Json.asList? Json.asString?)) httpMethods }

namespace Configuration

/-- Names of the record fields. -/
def fieldNames : List String := ["max_passes", "revisit_bound", "rules", "workers", "routes"]

/-- Reads a configuration, which has no other fields than its own and in which at most the given
number of arrays and objects are nested. -/
def ofDraft? : Nat → Json.Draft → Option Configuration
  | n + 2, d => do
    if !d.isClosed fieldNames then none
    let [maxPasses, revisitBound, rules, workers, routes] ← d.record? fieldNames | none
    let number := fun (bound : Nat) => Json.Draft.whole? (n + 1) (Json.asNatBelow? bound)
    return {
      maxPasses := ← Json.defaulted? 2 (number UInt32.size) maxPasses
      revisitBound := .ofNat (← Json.defaulted? 1 (number UInt32.size) revisitBound)
      rules := ←
        Json.defaulted? [] (Json.Draft.whole? (n + 1) (Json.asList? Json.asString?)) rules
      workers := ← Json.defaulted? 1 (number UInt64.size) workers
      routes := ← Json.defaulted? [] (Json.Draft.asList? (Route.ofDraft? n)) routes }
  | _, _ => none

/-- There is at least one pass and one worker. -/
def check (c : Configuration) : Except ConfigurationProblem Unit :=
  if c.maxPasses = 0 then .error .noPasses
  else if c.workers = 0 then .error .noWorkers
  else .ok ()

/-- Reads the text of a configuration. -/
def parse (text : String) : Except ConfigurationProblem Configuration :=
  match (Json.Draft.parse? text).bind (ofDraft? Json.maxDepth) with
  | none => .error .malformed
  | some c => do
    c.check
    return c

/-- The limits of a run. -/
def limits (c : Configuration) : Limits :=
  { maxPasses := c.maxPasses, revisitBound := c.revisitBound }

/-- The rules to run. -/
def selected (c : Configuration) : Except Error (List Rule) := Catalogue.select c.routes c.rules

end Configuration

end CodeMigration
