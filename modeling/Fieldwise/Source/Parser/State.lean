import Fieldwise.Source.Token
import Fieldwise.Tree.Identity

/-!
# Reading tokens

A `Parser` consumes lexemes. Besides them it keeps the names declared so far: whether a name is a
type or not decides how the text goes on. Names live in nested scopes, one for each open brace; a
name cannot be both in one scope.
-/

namespace Fieldwise

/-- Why a text is not a program. -/
inductive ParseError where
  /-- A token that cannot stand where it does, or a text that is no token. -/
  | unexpected
  /-- An integer constant whose suffix says twice that it is unsigned. -/
  | repeatedSuffix
deriving DecidableEq

/-- What is left to read, the names in scope, innermost first, and the next unused key. A name is
marked with whether it is a type. `opened` tells that the scope of the next brace is open
already. -/
structure ParserState where
  input : List Lexeme
  scopes : List (List (String × Bool)) := [[]]
  opened : Bool := false
  next : Nat := 1

/-- A reader of tokens. -/
abbrev Parser := StateT ParserState (Except ParseError)

namespace Parser

/-- The text cannot be read this way. -/
def fail {α : Type} : Parser α := throw .unexpected

/-! ### Looking ahead -/

/-- The next token. -/
def peek : Parser (Option Token) := do return (← get).input.head?.map Lexeme.token

/-- The token after the next. -/
def peekSecond : Parser (Option Token) := do return (← get).input[1]?.map Lexeme.token

/-- The line of the next token. -/
def peekLine : Parser (Option Nat) := do return (← get).input.head?.map Lexeme.line

/-- Whether the next token is this punctuator. -/
def at? (text : String) : Parser Bool := do return (← peek) == some (.punctuator text)

/-- Whether the next token is this keyword. -/
def atKeyword? (word : String) : Parser Bool := do return (← peek) == some (.keyword word)

/-! ### Scopes -/

/-- Whether a name is a type, by the innermost scope that declares it. -/
def isTypeIn (scopes : List (List (String × Bool))) (name : String) : Bool :=
  (scopes.findSome? fun scope => scope.lookup name).getD false

/-- Whether a token is the name of a type. -/
def isTypeName (scopes : List (List (String × Bool))) : Option Token → Bool
  | some (.name text) => isTypeIn scopes text
  | _ => false

/-- Declares a name in the innermost scope. -/
def declareName (name : String) (isType : Bool) : Parser Unit := do
  let s ← get
  match s.scopes with
  | [] => fail
  | scope :: outer =>
    if scope.lookup name == some (!isType) then fail
    else set { s with scopes := ((name, isType) :: scope) :: outer }

/-- Opens a scope. -/
def pushScope : Parser Unit := modify fun s => { s with scopes := [] :: s.scopes }

/-! ### Consuming tokens -/

/-- Takes the next token. A brace opens or closes a scope. -/
def advance : Parser Lexeme := do
  let s ← get
  match s.input with
  | [] => fail
  | lexeme :: rest =>
    let s := { s with input := rest }
    if lexeme.token == .punctuator "\x7b" then
      set (if s.opened then { s with opened := false } else { s with scopes := [] :: s.scopes })
      return lexeme
    else if lexeme.token == .punctuator "\x7d" then
      match s.scopes with
      | _ :: outer :: rest => set { s with scopes := outer :: rest }; return lexeme
      | _ => fail
    else set s; return lexeme

/-- Takes the next token if it is this punctuator. -/
def accept (text : String) : Parser Bool := do
  if ← at? text then
    let _ ← advance
    return true
  else return false

/-- Takes this punctuator. -/
def expect (text : String) : Parser Unit := do
  if ← accept text then return () else fail

/-- Takes the next token if it is this keyword. -/
def acceptKeyword (word : String) : Parser Bool := do
  if ← atKeyword? word then
    let _ ← advance
    return true
  else return false

/-- Takes a name that is no type. -/
def plainName : Parser (String × Nat) := do
  let s ← get
  match (← advance).token with
  | .name text =>
    if isTypeIn s.scopes text then fail
    else return (text, (s.input.head?.map Lexeme.line).getD 0)
  | _ => fail

/-- Repeats a step until it has nothing more to do, at most `n` times. -/
def iterate {α : Type} (step : α → Parser (Option α)) : Nat → α → Parser α
  | 0, a => return a
  | n + 1, a => do
    match ← step a with
    | some b => iterate step n b
    | none => return a

/-- Repeats a step that takes a token each time until it has nothing more to do. -/
def loop {α : Type} (step : α → Parser (Option α)) (a : α) : Parser α := do
  iterate step ((← get).input.length + 1) a

/-- Items up to a closing punctuator, which is taken. -/
def itemsUntil (close : String) (item : Parser (List Node)) : Parser (List Node) :=
  loop (fun found => do
    if ← at? close then return none
    else return some (found ++ (← item))) []
  <* expect close

/-- One or more items with commas between them. -/
def separated {α : Type} (item : Parser α) : Parser (List α) := do
  let first ← item
  loop (fun found => do
    if ← accept "," then return some (found ++ [← item]) else return none) [first]

/-- Gives keys to all nodes of a tree, so that it can stand at several places. -/
def identify (n : Node) : Parser Node := do
  let s ← get
  let (n, next) := n.stamp s.next
  set { s with next }
  return n

/-- A node that begins on a line. -/
def nodeAt (line : Option Nat) (form : Form) (parts : List Node) : Node :=
  .mk { key := none, line } form parts

end Parser

end Fieldwise
