/-!
# Lexical scopes

The namespaces, classes and functions around a piece of code. A scope is the file scope or a frame
inside another scope.
-/

namespace CodeMigration

/-- What a scope is the scope of. -/
inductive ScopeKind where
  | file
  | namespaceDecl
  | classDecl
  | function
deriving DecidableEq, Repr

/-- The name of a scope kind in texts. -/
def ScopeKind.label : ScopeKind → String
  | .file => "File"
  | .namespaceDecl => "Namespace"
  | .classDecl => "Class"
  | .function => "Function"

/-- A named region of code. -/
structure ScopeFrame where
  kind : ScopeKind
  name : String
deriving DecidableEq

/-- The frames around a piece of code below the file scope, innermost first. -/
structure Scope where
  frames : List ScopeFrame
deriving DecidableEq

namespace Scope

/-- The scope of a whole file. -/
def file : Scope := ⟨[]⟩

/-- A scope inside another one. -/
def nest (s : Scope) (kind : ScopeKind) (name : String) : Scope := ⟨⟨kind, name⟩ :: s.frames⟩

/-- The kind of the innermost region. -/
def kind (s : Scope) : ScopeKind := (s.frames.head?.map (·.kind)).getD .file

/-- The name of the innermost region; the file scope has none. -/
def name? (s : Scope) : Option String := s.frames.head?.map (·.name)

/-- The scope around the innermost region. -/
def parent? (s : Scope) : Option Scope :=
  match s.frames with
  | [] => none
  | _ :: rest => some ⟨rest⟩

/-- The nearest scope of a kind, starting with the scope of the given frames. -/
def lookupFrom (kind : ScopeKind) : List ScopeFrame → Option Scope
  | [] => if kind = .file then some file else none
  | f :: rest => if f.kind = kind then some ⟨f :: rest⟩ else lookupFrom kind rest

/-- The nearest scope of a kind, starting with the scope itself. -/
def lookup? (s : Scope) (kind : ScopeKind) : Option Scope := lookupFrom kind s.frames

/-- The name of the nearest namespace. -/
def namespace? (s : Scope) : Option String := (s.lookup? .namespaceDecl).bind name?

/-- The name of the nearest class. -/
def class? (s : Scope) : Option String := (s.lookup? .classDecl).bind name?

/-- The name of the nearest function or method. -/
def function? (s : Scope) : Option String := (s.lookup? .function).bind name?

/-- The nearest class together with the nearest namespace that has a name. -/
def qualifiedClass? (s : Scope) : Option String :=
  s.class?.map fun c =>
    match s.namespace? with
    | some ns => if ns = "" then c else ns ++ "\\" ++ c
    | none => c

/-- A region as text. -/
def frameText (f : ScopeFrame) : String := f.kind.label ++ "(" ++ f.name ++ ")"

/-- The chain of regions from the file inwards. -/
def text (s : Scope) : String :=
  "/".intercalate (ScopeKind.file.label :: (s.frames.map frameText).reverse)

end Scope

end CodeMigration
