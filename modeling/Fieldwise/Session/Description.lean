import Fieldwise.Session.Decomposition
import Fieldwise.Source.Parser

/-!
# Sessions as text

The aggregates of a program with their bindings (`describe`), and the program after decomposing
aggregates, with the warnings in front of it if they are wanted (`decomposedText`, `diagnosis`).
-/

namespace Fieldwise

/-- The aggregate with its names and fields. -/
def Aggregate.heading (a : Aggregate) : String :=
  " = ".intercalate a.names ++ " \x7b" ++ ", ".intercalate (a.fields.map Field.name) ++ "\x7d\n"

/-- The binding with its kind, its size if it has one, and the class of its scope. It fails on a
size with too many digits. -/
def Binding.description (b : Binding) : Except Failure String := do
  let size ← match b.size with
    | some z => if Numeral.fits z then pure ("[" ++ toString z ++ "]") else throw .tooManyDigits
    | none => pure ""
  let scope := match b.scope.cls? with
    | some c => c.text
    | none => ""
  return "  " ++ b.name ++ ": " ++ b.kind.text ++ size ++ " in " ++ scope ++ "\n"

namespace Session

/-- The text of the program as it is now. -/
def text (s : Session) : String := s.document.root.text

/-- The descriptions of some aggregates, each with its variables and then its parameters. -/
def describeEach (s : Session) : List Aggregate → Report String
  | [] => return ""
  | a :: rest => do
    let (vars, params) ← s.bindings a
    let lines ← Report.of ((vars ++ params).mapM Binding.description)
    return a.heading ++ String.join lines ++ (← describeEach s rest)

/-- The descriptions of all aggregates. -/
def describe (s : Session) : Report String := s.describeEach s.aggregates

end Session

/-- Decomposes the aggregates with these names, or all if there are no names, and returns the names
of those that were decomposed. -/
def Engine.decomposeChosen (names : List String) : Engine (List String) :=
  match names with
  | [] => decomposeAll
  | _ => do return (← decomposeByNames names).flatten

/-- Finds the aggregates of the program and decomposes those with these names, or all of them. -/
def Engine.decomposeProgram (names : List String) : Engine (List String) := do
  collect
  decomposeChosen names

/-- A warning as a line of text. -/
def Entry.logLine (e : Entry) : String :=
  "[structdecomp." ++ e.notice.component.text ++ "] " ++ e.notice.level.text ++ ": " ++
    e.notice.text ++ "\n"

/-- The program after decomposing the aggregates with these names, with its session. -/
def decomposedText (root : Node) (names : List String) : Except Failure (String × Session) := do
  let (result, s) := (Session.ofProgram root {} none).run (Engine.decomposeProgram names)
  let _ ← result
  return (s.text, s)

/-- The warnings about the program, and the program after decomposing. -/
def diagnosis (root : Node) (names : List String) : Except Failure String := do
  let (text, s) ← decomposedText root names
  return String.join ((s.entries .warning).map Entry.logLine) ++ text

end Fieldwise
