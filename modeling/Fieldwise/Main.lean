import Fieldwise.CommandLine.Run

/-!
# The program

Runs the command line on the files of the system. The result goes to standard output, the log and
errors to standard error.
-/

namespace Fieldwise

/-- The files of the system. A file that cannot be read counts as not there. -/
def systemHost : Host IO where
  read := fun path => do
    try return some (← IO.FS.readFile path) catch _ => return none
  time := fun path => do
    try
      let changed := (← ((← IO.currentDir) / path).metadata).modified
      return some (changed.sec * 1000000000 + changed.nsec.toNat)
    catch _ => return none
  write := fun path text => do
    try
      IO.FS.writeFile path text
      return true
    catch _ => return false

/-- What is said of a run that stops. -/
def RunError.text (e : RunError) : String :=
  match e.message?, e with
  | some message, _ => message
  | none, .unreadable file => file ++ " cannot be read"
  | none, .unwritable file => file ++ " cannot be written"
  | none, .badDirective _ => "a directive has no operand"
  | none, .badProgram _ => "the input is not a C program"
  | none, .rewriting f =>
    if f.kind == .value then "a number cannot be converted" else "a node lacks what is needed of it"
  | none, .inputMissing file => file ++ " not found"
  | none, .refused => "the input is refused"

/-- How the program is called. -/
def usage : String :=
  "usage: fieldwise [-h] [-o OUTPUT] [-s STRUCT] [-I DIR] [-D NAME[=VALUE]] [--dump-ast] " ++
    "[-q | -v] input\n"

end Fieldwise

open Fieldwise in
/-- Runs the program. -/
def main (arguments : List String) : IO UInt32 := do
  match CommandLine.ofArguments arguments with
  | .error .help =>
    IO.print usage
    return 0
  | .error .usage =>
    IO.eprint usage
    return 2
  | .ok c =>
    let (result, transcript) ← c.run systemHost
    for e in transcript.entries c.level do IO.eprint e.logLine
    IO.print transcript.printed
    match result with
    | .ok () => return 0
    | .error e =>
      IO.eprintln e.text
      return 1
