import Fieldwise.CommandLine.Arguments
import Fieldwise.Preprocess.Preparation
import Fieldwise.Session.Description

/-!
# Runs of the program

What a command line does: the input is prepared and read, its structs are decomposed, and the result
is printed or written to a file. Files are reached through a `Host`; everything else is a function
of what they hold.
-/

namespace Fieldwise

/-- The place where the files are. `time` is when a file was last changed, and `write` tells whether
it could be written. -/
structure Host (m : Type → Type) where
  read : String → m (Option String)
  time : String → m (Option Int)
  write : String → String → m Bool

/-- Why a run stops before its end. -/
inductive RunError where
  /-- The input of an output to be made is not there. -/
  | inputMissing (file : String)
  | unreadable (file : String)
  | unwritable (file : String)
  | badDirective (e : DirectiveError)
  /-- The text was refused when it was prepared. -/
  | refused
  | badProgram (e : ParseError)
  | rewriting (f : Failure)

/-- The description of an error, if it has one. -/
def RunError.message? : RunError → Option String
  | inputMissing file => some (file ++ " not found")
  | refused => some "preprocessor error"
  | rewriting f => f.message?
  | unreadable _ | unwritable _ | badDirective _ | badProgram _ => none

/-- What a run leaves besides files: the printed text, and the log, newest entry first. -/
structure Transcript where
  printed : String := ""
  log : List Entry := []

/-- The entries of the log in order, from a level up. -/
def Transcript.entries (t : Transcript) (level : Level) : List Entry :=
  t.log.reverse.filter (·.reaches level)

/-- A computation of a run. -/
abbrev Run (m : Type → Type) := ExceptT RunError (StateT Transcript m)

namespace Run

variable {m : Type → Type} [Monad m]

/-- Adds entries to the log, newest first. -/
def addLog (entries : List Entry) : Run m Unit :=
  modifyThe Transcript fun t => { t with log := entries ++ t.log }

/-- Reports one thing. -/
def note (notice : Notice) : Run m Unit := addLog [{ notice }]

/-- Prints a text. -/
def print (text : String) : Run m Unit :=
  modifyThe Transcript fun t => { t with printed := t.printed ++ text }

/-- Whether the output was changed after the input, which must be there. -/
def isUpToDate (h : Host m) (input output : String) : Run m Bool := do
  match (← h.time input : Option Int) with
  | none => throw (.inputMissing input)
  | some changed =>
    match (← h.time output : Option Int) with
    | none => return false
    | some made => return decide (changed < made)

/-- The prepared text of the input, and the inclusions of files that are not there. -/
def prepare (h : Host m) (c : CommandLine) : Run m (String × List String) := do
  match (← h.read c.input : Option String) with
  | none => throw (.unreadable c.input)
  | some text =>
    let (result, p) ← (Preparation.run h.read c.includeDirs c.defines c.input text :
      m (Except DirectiveError Unit × Preparation))
    addLog p.log
    match result with
    | .error e => throw (.badDirective e)
    | .ok () =>
      if p.refused then throw .refused
      else return (SourceLine.render p.lines.reverse, p.missing)

/-- Decomposes structs of a program. -/
def decompose (c : CommandLine) (root : Node) : Run m Session := do
  let (result, s) := (Session.ofProgram root {} none).run (Engine.decomposeProgram c.structs)
  addLog s.log
  match result with
  | .error f => throw (.rewriting f)
  | .ok names =>
    note (.decomposed c.input names)
    return s

/-- The directives for headers that no inclusion names yet, after the inclusions. -/
def withHeaders (inclusions headers : List String) : List String :=
  headers.foldl (fun lines h =>
    let line := "#include <" ++ h ++ ">"
    if lines.contains line then lines else lines ++ [line]) inclusions

/-- Makes the output: the inclusions, and the program after decomposing. -/
def produce (h : Host m) (c : CommandLine) : Run m Unit := do
  let (text, inclusions) ← prepare h c
  match parse text with
  | .error e => throw (.badProgram e)
  | .ok root =>
    if c.dumpTree then print root.outlineText
    else
      let s ← decompose c root
      let lines := withHeaders inclusions s.headers
      let result := String.join (lines.map (· ++ "\n")) ++ s.text
      match c.output with
      | none => print result
      | some file =>
        if !(← h.write file result : Bool) then throw (.unwritable file)

/-- Does what a command line asks for. An output that is newer than its input stays as it is. -/
def ofCommandLine (h : Host m) (c : CommandLine) : Run m Unit := do
  match c.output with
  | none => produce h c
  | some output =>
    if ← isUpToDate h c.input output then note (.upToDate output) else produce h c

end Run

/-- Does what a command line asks for, from an empty transcript. -/
def CommandLine.run {m : Type → Type} [Monad m] (h : Host m) (c : CommandLine) :
    m (Except RunError Unit × Transcript) :=
  (Run.ofCommandLine h c).run.run {}

end Fieldwise
