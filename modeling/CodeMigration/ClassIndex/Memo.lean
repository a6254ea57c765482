import CodeMigration.ClassIndex

/-!
# Remembered answers

A class index that keeps the answers to the subtype questions it was asked, so that a question asked
again needs no search. Entering a class may change any answer and drops them all.
-/

namespace CodeMigration

/-- A class index and the answers it has given, newest first. A question is a pair of class names
without leading separators. -/
structure MemoIndex where
  index : ClassIndex := {}
  answers : List ((String × String) × Bool) := []

namespace MemoIndex

/-- Enters a class and drops the answers. -/
def insert (m : MemoIndex) (name : String) (entry : ClassEntry) : MemoIndex :=
  { index := m.index.insert name entry }

/-- The answer to a question about two different classes: a remembered one, or else that of a
search, which is remembered. -/
def lookup (m : MemoIndex) (question : String × String) : Bool × MemoIndex :=
  match m.answers.lookup question with
  | some answer => (answer, m)
  | none =>
    let answer := (m.index.supertypes question.1).contains question.2
    (answer, { m with answers := (question, answer) :: m.answers })

/-- Whether a class is the candidate or has it among its supertypes. -/
def isSubtype (m : MemoIndex) (name candidate : String) : Bool × MemoIndex :=
  if ClassName.same name candidate then (true, m)
  else m.lookup (ClassName.normalize name, ClassName.normalize candidate)

end MemoIndex

end CodeMigration
