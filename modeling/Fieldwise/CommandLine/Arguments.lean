import Fieldwise.Log

/-!
# Arguments of the command line

`CommandLine.ofArguments` reads the words after the name of the program. An option has a short
name of one letter or a long name, which may be cut off where it stays clear. A value follows as the
next word, behind a short name without a blank, or behind `=`; short names without values can be
written together. After `--` no word is an option.
-/

namespace Fieldwise

/-- What the program is asked to do. The structs to decompose are all if none are named. -/
structure CommandLine where
  input : String
  output : Option String := none
  structs : List String := []
  includeDirs : List String := []
  defines : List String := []
  dumpTree : Bool := false
  level : Level := .info

/-- Why there is nothing to do. -/
inductive ArgumentError where
  /-- The arguments are not well formed. -/
  | usage
  /-- They ask for help. -/
  | help
deriving DecidableEq

/-- The options. -/
inductive Flag where
  | help | output | struct | includeDir | define | dumpTree | quiet | verbose
deriving DecidableEq

namespace Flag

/-- All options. -/
def all : List Flag := [help, output, struct, includeDir, define, dumpTree, quiet, verbose]

/-- The names of an option. -/
def names : Flag → List String
  | help => ["-h", "--help"]
  | output => ["-o", "--output"]
  | struct => ["-s", "--struct"]
  | includeDir => ["-I"]
  | define => ["-D"]
  | dumpTree => ["--dump-ast"]
  | quiet => ["-q", "--quiet"]
  | verbose => ["-v", "--verbose"]

/-- Whether an option has a value. -/
def takesValue : Flag → Bool
  | output | struct | includeDir | define => true
  | help | dumpTree | quiet | verbose => false

/-- The option with a name. -/
def ofName? (name : String) : Option Flag := all.find? fun f => f.names.contains name

/-- The options whose long names begin like this. -/
def withLongName (start : String) : List Flag :=
  all.filter fun f => f.names.any fun n => start.isPrefixOf n

end Flag

/-- What a word of the command line is. A `cluster` is a short option without value, with more
characters behind it. -/
inductive Word where
  | plain (text : String)
  | option (flag : Flag)
  | valued (flag : Flag) (value : String)
  | cluster (flag : Flag) (rest : List Char)
  | separator
  | unknown
  | ambiguous
deriving DecidableEq

namespace Word

/-- Whether a word is a negative number. -/
def isNegativeNumber (cs : List Char) : Bool :=
  match cs with
  | '-' :: rest =>
    match rest.dropWhile Char.isDigit with
    | [] => !rest.isEmpty
    | '.' :: fraction => !fraction.isEmpty && fraction.all Char.isDigit
    | _ => false
  | _ => false

/-- The text before and after the first `=`, if there is one. -/
def splitValue (text : String) : String × Option String :=
  let cs := text.toList
  let name := cs.takeWhile (· != '=')
  if name.length < cs.length then
    (String.ofList name, some (String.ofList (cs.drop (name.length + 1))))
  else (text, none)

/-- The word for an option that has or has not got a value written with it. -/
def ofFlag (f : Flag) : Option String → Word
  | some v => valued f v
  | none => option f

/-- The word for a text that begins with two dashes. -/
def ofLong (text : String) : Word :=
  let (name, value) := splitValue text
  match Flag.withLongName name with
  | [f] => ofFlag f value
  | [] => if text.toList.contains ' ' then plain text else unknown
  | _ => ambiguous

/-- The word for a text that begins with a dash and another character. -/
def ofShort (text : String) : Word :=
  let cs := text.toList
  match Flag.ofName? (String.ofList (cs.take 2)) with
  | some f => if f.takesValue then valued f (String.ofList (cs.drop 2)) else cluster f (cs.drop 2)
  | none => if isNegativeNumber cs || cs.contains ' ' then plain text else unknown

/-- What a word is before `--`. -/
def ofText (text : String) : Word :=
  if text == "--" then separator
  else if !text.startsWith "-" || text == "-" then plain text
  else
    match Flag.ofName? text with
    | some f => option f
    | none =>
      match splitValue text with
      | (name, some value) =>
        match Flag.ofName? name with
        | some f => valued f value
        | none => if text.startsWith "--" then ofLong text else ofShort text
      | (_, none) => if text.startsWith "--" then ofLong text else ofShort text

/-- What the words of a command line are. -/
def ofTexts : List String → List Word
  | [] => []
  | text :: rest =>
    match ofText text with
    | separator => separator :: rest.map plain
    | w => w :: ofTexts rest

end Word

/-- The arguments read so far. `misplaced` tells that there is a word too many. -/
structure Arguments where
  input : Option String := none
  output : Option String := none
  structs : List String := []
  includeDirs : List String := []
  defines : List String := []
  dumpTree : Bool := false
  level : Level := .info
  misplaced : Bool := false

namespace Arguments

variable (a : Arguments)

/-- Sets a level, unless there is another one already. -/
def setLevel (level : Level) : Except ArgumentError Arguments :=
  if a.level == .info || a.level == level then .ok { a with level } else .error .usage

/-- Adds an option without value. -/
def addFlag : Flag → Except ArgumentError Arguments
  | .help => .error .help
  | .dumpTree => .ok { a with dumpTree := true }
  | .quiet => a.setLevel .warning
  | .verbose => a.setLevel .debug
  | _ => .error .usage

/-- Adds an option with its value. -/
def addValue (value : String) : Flag → Except ArgumentError Arguments
  | .output => .ok { a with output := some value }
  | .struct => .ok { a with structs := a.structs ++ [value] }
  | .includeDir => .ok { a with includeDirs := a.includeDirs ++ [value] }
  | .define => .ok { a with defines := a.defines ++ [value] }
  | _ => .error .usage

/-- Adds a word that belongs to no option. -/
def addPlain (text : String) : Arguments :=
  match a.input with
  | none => { a with input := some text }
  | some _ => { a with misplaced := true }

/-- Adds short options that are written together. The last one may have a value. -/
def addCluster (a : Arguments) : List Char → Except ArgumentError (Arguments × Option Flag)
  | [] => .ok (a, none)
  | c :: rest =>
    match Flag.ofName? (String.ofList ['-', c]) with
    | none => .error .usage
    | some f =>
      if f.takesValue then
        match rest with
        | [] => .ok (a, some f)
        | '=' :: value => return (← a.addValue (String.ofList value) f, none)
        | _ => return (← a.addValue (String.ofList rest) f, none)
      else do addCluster (← a.addFlag f) rest

/-- Adds words. `awaiting` is the option that the next word is the value of. -/
def addWords (a : Arguments) (awaiting : Option Flag) : List Word → Except ArgumentError Arguments
  | [] => if awaiting.isSome then .error .usage else .ok a
  | w :: ws =>
    match awaiting, w with
    | some f, .plain text => do addWords (← a.addValue text f) none ws
    | some f, .separator => addWords a (some f) ws
    | some _, _ => .error .usage
    | none, .plain text => addWords (a.addPlain text) none ws
    | none, .separator => addWords a none ws
    | none, .option f => do
      if f.takesValue then addWords a (some f) ws else addWords (← a.addFlag f) none ws
    | none, .valued f v => do addWords (← a.addValue v f) none ws
    | none, .cluster f rest => do
      let (a, open_) ← (← a.addFlag f).addCluster rest
      addWords a open_ ws
    | none, .unknown => addWords { a with misplaced := true } none ws
    | none, .ambiguous => .error .usage

/-- The command line that complete arguments are. -/
def complete : Except ArgumentError CommandLine :=
  match a.input with
  | none => .error .usage
  | some input =>
    if a.misplaced then .error .usage
    else
      .ok
        { input
          output := a.output
          structs := a.structs
          includeDirs := a.includeDirs
          defines := a.defines
          dumpTree := a.dumpTree
          level := a.level }

end Arguments

/-- Reads a command line. -/
def CommandLine.ofArguments (texts : List String) : Except ArgumentError CommandLine := do
  let words := Word.ofTexts texts
  if words.contains .ambiguous then throw .usage
  else (← ({} : Arguments).addWords none words).complete

end Fieldwise
