import Fieldwise.Aggregate.Collect
import Fieldwise.Aggregate.SharedDefinition
import Fieldwise.Text.Sorted
import Fieldwise.Tree.Identifiers

/-!
# Sessions

A `Session` is the state of a rewriting: the program being edited, the aggregates found in it, the
bindings that were decomposed so far, the headers that the new code needs, the names that are taken
and the log. An `Engine` computation changes the session; when it fails, what it did before stays.
-/

namespace Fieldwise

/-- A decomposed binding, with the key of the scope that declared it. -/
structure Decomposed where
  scope : Option Nat
  binding : Binding

/-- Whether a decomposed binding is that of a name in a scope. -/
def Decomposed.isFor (e : Decomposed) (scope : Node) (name : String) : Bool :=
  e.scope == scope.key && e.binding.name == name

/-- The state of a rewriting. The decomposed bindings are in the order in which they were first
recorded; the log has the newest entry first. -/
structure Session where
  document : Document
  options : Options
  names : Names
  aggregates : List Aggregate := []
  headers : List String := []
  decomposed : List Decomposed := []
  log : List Entry := []

/-- A computation that changes a session. -/
abbrev Engine := ExceptT Failure (StateM Session)

namespace Session

/-- The session for a program before its aggregates are found, with the names that are taken; those
in the program, if none are given. -/
def ofProgram (root : Node) (options : Options) (taken : Option (List String)) : Session :=
  let names : Names := { taken := taken.getD (sortedSet root.identifiers) }
  let split := ({ document := Document.ofRoot root, names } : Splitting).run
  { document := split.document, options, names := split.names }

/-- The result of a computation on a session, and the session after it. -/
def run {α : Type} (s : Session) (e : Engine α) : Except Failure α × Session :=
  StateT.run (ExceptT.run e) s

variable (s : Session)

/-- The aggregate with a name, or with a tag of that name. -/
def find? (name : String) : Option Aggregate :=
  s.aggregates.find? fun a => a.names.contains name || a.names.contains ("struct " ++ name)

/-- The aggregate that a declared type is based on. -/
def aggregateOf? (type : Node) : Option Aggregate :=
  s.aggregates.find? (·.isBaseOf type)

/-- The decomposed binding of a name in a scope. -/
def decomposedIn? (scope : Node) (name : String) : Option Binding :=
  (s.decomposed.find? (·.isFor scope name)).map fun e => e.binding.refresh s.document

/-- Whether a binding of a name in a scope was decomposed. -/
def isDecomposedIn (scope : Node) (name : String) : Bool := s.decomposed.any (·.isFor scope name)

/-- Puts a binding among decomposed ones, in the place of one of the same scope and name. -/
def recordIn (b : Binding) : List Decomposed → List Decomposed
  | [] => [{ scope := b.scope.key, binding := b }]
  | e :: es =>
    if e.isFor b.scope b.name then { e with binding := b } :: es
    else e :: recordIn b es

/-- The entries of the log in order, from a level up. -/
def entries (level : Level) : List Entry := s.log.reverse.filter (·.reaches level)

end Session

namespace Engine

/-- Looks at the session and reports about it. -/
def report {α : Type} (r : Session → Report α) : Engine α :=
  ExceptT.mk fun s =>
    let (result, log) := (r s).run.run s.log
    (result, { s with log })

/-- Edits the document. -/
def edit (e : Document → Except Failure Document) : Engine Unit :=
  ExceptT.mk fun s =>
    match e s.document with
    | .ok document => (.ok (), { s with document })
    | .error f => (.error f, s)

/-- Finds the aggregates of the program. -/
def collect : Engine Unit := do
  let found ← report fun s => Aggregate.collect s.document.root
  modifyThe Session fun s => { s with aggregates := found }

/-- Reports one thing. -/
def note (notice : Notice) (line : Option Nat) : Engine Unit :=
  report fun _ => Report.note notice line

/-- A fresh name. -/
def freshName (base : String) : Engine String := do
  let s ← getThe Session
  let (name, names) := s.names.get base
  set { s with names }
  return name

/-- Records a binding as decomposed. -/
def record (b : Binding) : Engine Unit :=
  modifyThe Session fun s => { s with decomposed := Session.recordIn b s.decomposed }

/-- Asks for a header. -/
def requireHeader (header : String) : Engine Unit :=
  modifyThe Session fun s => { s with headers := insertSorted header s.headers }

/-- A binding as it is in the document now. -/
def refresh (b : Binding) : Engine Binding := do return b.refresh (← getThe Session).document

end Engine

namespace Session

/-- Whether the session for a program could be built, and the session. -/
def opening (root : Node) (options : Options) (taken : Option (List String)) :
    Except Failure Unit × Session :=
  (ofProgram root options taken).run Engine.collect

/-- The session for a program. It has no aggregates if the search for them failed. -/
def start (root : Node) (options : Options) (taken : Option (List String)) : Session :=
  (opening root options taken).2

end Session

end Fieldwise
