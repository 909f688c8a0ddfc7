import Fieldwise.Log
import Fieldwise.Preprocess.Condition
import Fieldwise.Preprocess.Directive
import Fieldwise.Preprocess.SourceLine
import Fieldwise.Text.Path

/-!
# Preparing a text

Carrying out the directives of a file and of those it includes. What remains are lines without
directives, comments and macros. A file that is to be included and is not there is noted instead.

A faulty directive or a call of a macro with wrong arguments does not stop the preparation, but
marks its result as refused.
-/

namespace Fieldwise

/-- What the preparation of a text has found so far. `readOnce` are the files that are not to be
read again, and `missing` the inclusions of files that are not there, each as written. The log and
the lines have the newest first. -/
structure Preparation where
  macros : Macros := []
  readOnce : List String := []
  missing : List String := []
  log : List Entry := []
  refused : Bool := false
  lines : List SourceLine := []

/-- A computation that prepares a text. -/
abbrev Preparing (m : Type → Type) := ExceptT DirectiveError (StateT Preparation m)

/-- Which lines of a file are taken: those where `active` holds. `taken` tells that one of the
alternatives at this level was taken, and `outer` holds both for the levels around, innermost
first. -/
structure Branches where
  active : Bool := true
  taken : Bool := false
  outer : List (Bool × Bool) := []

namespace Branches

variable (b : Branches)

/-- Opens a level with a first alternative. -/
def enter (holds : Bool) : Branches :=
  let outer := (b.active, b.taken) :: b.outer
  if b.active then { active := holds, taken := holds, outer } else { b with outer }

/-- Whether it matters that a further alternative holds. -/
def wantsAlternative : Bool := !b.active && !b.taken && b.outer.head?.any Prod.fst

/-- Goes on to the next alternative of a level. -/
def alternative (holds : Bool) : Option Branches :=
  match b.outer with
  | [] => none
  | (around, _) :: _ =>
    if !around then some b
    else if b.active then some { b with active := false }
    else if !b.taken && holds then some { b with active := true, taken := true }
    else some b

/-- Closes a level. -/
def leave : Option Branches :=
  match b.outer with
  | [] => none
  | (active, taken) :: outer => some { active, taken, outer }

end Branches

/-- The state of reading one file: its name in line marks, the directories of the files it is
included from, the branches, and the taken lines whose macros are still to be replaced. -/
structure Reading where
  file : String
  dirs : List String
  branches : Branches := {}
  pending : List Piece := []

namespace Preparation

/-- The most steps that are taken to replace macros. -/
def maxSteps : Nat := 1000000

/-- The most files that are open at a time. -/
def maxDepth : Nat := 200

section

variable {m : Type → Type} [Monad m]

/-- Marks the text as refused. -/
def refuse : Preparing m Unit := modifyThe Preparation ({ · with refused := true })

/-- Stops where an operand is lacking. -/
def demand {α : Type} (r : Except DirectiveError α) : Preparing m α := ExceptT.mk (pure r)

/-- Goes on with a value if there is one; the text is refused if not. -/
def valueOr {α : Type} (default : α) : Option α → Preparing m α
  | some a => return a
  | none => do
    refuse
    return default

/-- Pieces with their macros replaced. -/
def replaced (ps : List Piece) : Preparing m (List Piece) := do
  let (result, faulty) := (Macro.expand (← getThe Preparation).macros maxSteps ps).run false
  if faulty then refuse
  return result

/-- Adds lines of a file. -/
def emit (file : String) (lines : List (List Piece)) : Preparing m Unit :=
  modifyThe Preparation fun s =>
    { s with lines := (lines.filterMap (SourceLine.ofPieces? file)).reverse ++ s.lines }

/-- Replaces the macros of the pending lines and adds them. -/
def flush (r : Reading) : Preparing m Reading := do
  emit r.file (Piece.linesOf (← replaced r.pending))
  return { r with pending := [] }

/-- Whether a condition holds. One that has no value does not, and the text is refused. -/
def holds (condition : List Piece) : Preparing m Bool := do
  valueOr false (Condition.holds? (← getThe Preparation).macros maxSteps condition)

/-! ### Inclusions -/

/-- A file to include, in quotes or in angle brackets. -/
inductive Inclusion where
  | quoted (name : String)
  | angled (name : String)

namespace Inclusion

/-- The name of the file. -/
def name : Inclusion → String
  | quoted name | angled name => name

/-- The directive for the inclusion. -/
def line : Inclusion → String
  | quoted name => "#include \"" ++ name ++ "\""
  | angled name => "#include <" ++ name ++ ">"

end Inclusion

/-- Notes that a file is not there. -/
def noteMissing (i : Inclusion) : Preparing m Unit :=
  modifyThe Preparation fun s =>
    { s with
      log := { notice := .missingInclude i.name } :: s.log
      missing := if s.missing.contains i.line then s.missing else s.missing ++ [i.line] }

/-- What became of the search for a file. -/
inductive Found where
  | nowhere
  | readBefore
  | text (path content : String)

/-- Looks for a file in directories, in order. -/
def find (read : String → m (Option String)) (readOnce : List String) (name : String) :
    List String → m Found
  | [] => return .nowhere
  | dir :: dirs => do
    let path := Path.normalize (Path.join dir name)
    if readOnce.contains path then return .readBefore
    else
      match ← read path with
      | some content => return .text path content
      | none => find read readOnce name dirs

/-- How to get at other files: `read` gives the text of one, `searchPath` are the directories that
all inclusions are searched in, and `enter` reads the text found at a path into the preparation; it
is also given the directories of the files around. -/
structure Library (m : Type → Type) where
  read : String → m (Option String)
  searchPath : List String
  enter : String → List String → String → Preparing m Unit

/-- Reads a file that is searched for in directories, from a file with directories of its own. -/
def Library.take (l : Library m) (i : Inclusion) (own dirs : List String) : Preparing m Unit := do
  let found : Found ← (find l.read (← getThe Preparation).readOnce i.name dirs : m Found)
  match found with
  | .nowhere => noteMissing i
  | .readBefore => return ()
  | .text path content => l.enter path (Path.directory path :: own) content

/-- Whether a piece begins the name of a file. -/
def beginsFileName (p : Piece) : Bool :=
  p.isMark "<" || (p.kind == .literal && p.text.startsWith "\"")

/-- The operands of an inclusion. Macros in them are replaced unless they name a file as they
are. -/
def inclusionOperands (operands : List Piece) : Preparing m (List Piece) :=
  if operands.head?.any beginsFileName then return operands
  else do return Piece.trim (← replaced operands)

/-- Carries out an inclusion in a file with directories of its own. -/
def Library.carryInclusion (l : Library m) (own : List String) (operands : List Piece) :
    Preparing m Unit := do
  match ← inclusionOperands operands with
  | [] => return ()
  | p :: ps =>
    if p.isMark "<" then
      if ps.any (·.isMark ">") then
        l.take (.angled (Piece.textOf (ps.takeWhile fun q => !q.isMark ">"))) own l.searchPath
      else refuse
    else if beginsFileName p then
      l.take (.quoted (String.ofList (p.text.toList.drop 1).dropLast)) own (own ++ l.searchPath)
    else noteMissing (.quoted p.text)

/-! ### Directives -/

/-- Carries out a directive on a line of a file. -/
def carryOut (l : Library m) (r : Reading) (line : List Piece) : Directive → Preparing m Reading
  | .define operands => do
    if !r.branches.active then return r
    let r ← flush r
    let _ ← demand (Directive.firstOperand operands)
    match Macro.ofLine operands with
    | some (name, macro_) =>
      modifyThe Preparation fun s => { s with macros := s.macros.define name macro_ }
    | none => refuse
    return r
  | .undefine operands => do
    if !r.branches.active then return r
    let r ← flush r
    let name ← demand (Directive.firstOperand operands)
    modifyThe Preparation fun s => { s with macros := s.macros.undefine name }
    return r
  | .includeFile operands => do
    if !r.branches.active then return r
    let r ← flush r
    l.carryInclusion r.dirs operands
    return r
  | .ifHolds condition => do
    let result ← if r.branches.active then holds condition else pure false
    return { r with branches := r.branches.enter result }
  | .ifDefined wanted operands => do
    if !r.branches.active then return { r with branches := r.branches.enter false }
    let name ← demand (Directive.firstOperand operands)
    let defined := (← getThe Preparation).macros.defines name
    return { r with branches := r.branches.enter (defined == wanted) }
  | .elseIf condition => do
    let result ← if r.branches.wantsAlternative then holds condition else pure false
    return { r with branches := ← valueOr r.branches (r.branches.alternative result) }
  | .otherwise => return { r with branches := ← valueOr r.branches (r.branches.alternative true) }
  | .endIf => return { r with branches := ← valueOr r.branches r.branches.leave }
  | .readOnce => do
    if r.branches.active then
      modifyThe Preparation fun s => { s with readOnce := r.file :: s.readOnce }
    return r
  | .refuse => do
    if r.branches.active then refuse
    return r
  | .idle => return r
  | .keep => do
    if !r.branches.active then return r
    let r ← flush r
    emit r.file [line]
    return r

/-- Reads one line of a file. -/
def readLine (l : Library m) (r : Reading) (line : List Piece) : Preparing m Reading :=
  match Directive.ofLine? line with
  | some directive => do carryOut l r line (← demand directive)
  | none =>
    if r.branches.active then
      let lineEnd := { kind := .newline, text := "\n", line := (line.head?.map Piece.line).getD 0 }
      return { r with pending := r.pending ++ line ++ [lineEnd] }
    else return r

/-- Reads a text. Levels that are left open refuse it, and so do more than `depth` nested files. -/
def readText (read : String → m (Option String)) (searchPath : List String) :
    Nat → String → List String → String → Preparing m Unit
  | 0, _, _, _ => refuse
  | depth + 1, file, dirs, text => do
    let library := { read, searchPath, enter := readText read searchPath depth }
    let r ← (Piece.linesOf (Piece.scan text)).foldlM (readLine library) { file, dirs }
    let r ← flush r
    if !r.branches.outer.isEmpty then refuse

/-- Defines a name as an argument `NAME` or `NAME=VALUE` says. Without a value it stands for 1. -/
def defineArgument (argument : String) : Preparing m Unit := do
  let name := argument.toList.takeWhile (· != '=')
  let value := argument.toList.drop (name.length + 1)
  let text := name ++ ' ' :: (if value.isEmpty then ['1'] else value)
  match Macro.ofLine (Piece.scan (String.ofList text)) with
  | some (name, macro_) =>
    modifyThe Preparation fun s => { s with macros := s.macros.define name macro_ }
  | none => refuse

/-- Prepares a text of a file. Inclusions are searched for in the directory of the file and then in
`dirs`, and `defines` are definitions made before. -/
def run (read : String → m (Option String)) (dirs defines : List String) (file text : String) :
    m (Except DirectiveError Unit × Preparation) :=
  let steps : Preparing m Unit := do
    defines.forM defineArgument
    readText read (Path.directory file :: dirs) maxDepth file [] text
  steps.run.run {}

end

end Preparation

end Fieldwise
