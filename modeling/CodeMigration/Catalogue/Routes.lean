import CodeMigration.Rule.Basic

/-!
# Routes

The configured routes are declared as annotations of the methods they lead to, such as
`@Route("/poll", methods={"GET"})`. A method that carries a route annotation is left alone.
-/

namespace CodeMigration

/-- A route that leads to a method of a class. -/
structure Route where
  className : String
  method : String
  path : String
  httpMethods : List String := []
deriving DecidableEq

namespace Catalogue.Routes

/-- The class of the annotation. -/
def routeClass : String := "Symfony\\Component\\Routing\\Annotation\\Route"

/-- Whether a method carries a route annotation. -/
def isAnnotated (t : Tree) (node : NodeId) : Bool :=
  (t.children node).any fun c =>
    match t.construct? c with
    | some (.docTag name) => ClassName.same name routeClass
    | _ => false

/-- The first route that leads to a method. -/
def routeFor? (routes : List Route) (t : Tree) (node : NodeId) : Option Route :=
  match t.name? node, (t.enclosingClass? node).bind t.qualifiedClass? with
  | some name, some className =>
    routes.find? fun r => r.method == name && ClassName.normalize r.className == className
  | _, _ => none

/-- The list of request methods of an annotation, in upper case; none for an empty list. -/
def buildMethods (httpMethods : List String) : Action (List NodeId) := do
  if httpMethods.isEmpty then return []
  else
    let items ← httpMethods.mapM fun m => do
      let value ← Action.add (.string (m.map Char.toUpper))
      Action.addWithChildren (.arrayItem false) [value]
    let key ← Action.add (.string "methods")
    let list ← Action.addWithChildren .array items
    return [← Action.addWithChildren (.arrayItem true) [key, list]]

/-- The annotation of a route. -/
def buildDocTag (route : Route) : Action NodeId := do
  let path ← Action.add (.string route.path)
  let methods ← buildMethods route.httpMethods
  Action.addWithChildren (.docTag routeClass) (path :: methods)

/-- Annotates a method with its route. -/
def apply (routes : List Route) (_oracle : Oracle) (_pass : Nat) (node : NodeId) :
    Action Outcome := do
  if (← Action.tree).attributes.flag node .hasRoute then return .unchanged
  else
    Action.require node
    let t ← Action.tree
    if isAnnotated t node then
      Action.mark node .hasRoute
      return .unchanged
    else
      match routeFor? routes t node with
      | none => return .unchanged
      | some route =>
        let new ← buildDocTag route
        Action.edit (Edit.insertChild node 0 new)
        Action.mark node .hasRoute
        return .mutated

/-- The rule for routes. -/
def rule (routes : List Route) : Rule where
  id := "explicit_route_annotation"
  description := "Declare configured routes as Symfony @Route annotations"
  kinds := [.method]
  apply := apply routes

end Catalogue.Routes

end CodeMigration
