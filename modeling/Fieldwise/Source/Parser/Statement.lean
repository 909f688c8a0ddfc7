import Fieldwise.Source.Parser.Declaration

/-!
# Reading statements

Blocks, control flow and labels. In the block of a `switch` the statements after a label belong to
that label, and a label right after another stands beside it (`gatherCases`).
-/

namespace Fieldwise.Parser

/-- A check at compile time. It needs no semicolon of its own. -/
def staticAssert (g : Rules) : Parser Node := do
  let line ← peekLine
  let _ ← advance
  expect "("
  let cond ← g.conditional
  let message ← if ← accept "," then
      match ← peek with
      | some (.string false _) => primary g
      | _ => fail
    else pure .absent
  expect ")"
  return nodeAt line .staticAssert [cond, message]

/-! ### Cases -/

/-- The statements of a case label: one that is a label itself stands beside it instead. -/
def flattenCase : Node → List Node
  | .mk m .caseLabel [expr, stmt] =>
    if stmt.isA .caseLabel || stmt.isA .defaultLabel then
      .mk m .caseLabel [expr] :: flattenCase stmt
    else [.mk m .caseLabel [expr, stmt]]
  | .mk m .defaultLabel [stmt] =>
    if stmt.isA .caseLabel || stmt.isA .defaultLabel then
      .mk m .defaultLabel [] :: flattenCase stmt
    else [.mk m .defaultLabel [stmt]]
  | n => [n]

/-- Adds a statement of a `switch` block to the ones before it: to the last label if there is
one. -/
def addToCases (found : List Node) (stmt : Node) : List Node :=
  if stmt.isA .caseLabel || stmt.isA .defaultLabel then found ++ flattenCase stmt
  else
    match found.getLast? with
    | some last =>
      if last.isA .caseLabel || last.isA .defaultLabel then
        found.dropLast ++ [last.withParts (last.parts ++ [stmt])]
      else found ++ [stmt]
    | none => [stmt]

/-- The body of a `switch` with each statement under its label. -/
def gatherCases : Node → Node
  | .mk m .compound stmts => .mk m .compound (stmts.foldl addToCases [])
  | n => n

/-! ### Statements -/

/-- The pragmas that come next. -/
def pragmas : Parser (List Node) :=
  loop (fun found => do
    let line ← peekLine
    match ← peek with
    | some (.pragma text) =>
      let _ ← advance
      return some (found ++ [nodeAt line (.pragma text) []])
    | _ => return none) []

/-- The lone statement of a branch, a loop or a label; pragmas in front of it make it a block. -/
def body (g : Rules) : Parser Node := do
  let line ← peekLine
  match ← pragmas with
  | [] => g.statement
  | ps => return nodeAt line .compound (ps ++ [← g.statement])

/-- Whether nothing that a label could be in front of comes next. -/
def atLabelEnd : Parser Bool := do
  return (← at? "\x7d") || startsDeclaration (← get).scopes (← peek)

/-- The statement after a label on `line`; nothing, if the block ends there. -/
def labelled (g : Rules) (line : Option Nat) : Parser Node := do
  if ← atLabelEnd then return nodeAt line .emptyStatement [] else body g

/-- An expression up to a token, if there is one before it. -/
def optionalExpression (g : Rules) (close : String) : Parser Node := do
  if ← accept close then return .absent
  else
    let e ← g.expression
    expect close
    return e

/-- A condition in parentheses. -/
def condition (g : Rules) : Parser Node := do
  expect "("
  let e ← g.expression
  expect ")"
  return e

/-- The items of a block that come next: the declarations of one statement, or a statement. -/
def blockItem (g : Rules) : Parser (List Node) := do
  if startsDeclaration (← get).scopes (← peek) then declaration g
  else return [← g.statement]

/-- A block. -/
def compoundStatement (g : Rules) : Parser Node := do
  let line ← peekLine
  expect "\x7b"
  return nodeAt line .compound (← itemsUntil "\x7d" (blockItem g))

/-- A loop with a header of three parts, after its keyword on `line`. -/
def forStatement (g : Rules) (line : Option Nat) : Parser Node := do
  expect "("
  let start ←
    if startsDeclaration (← get).scopes (← peek) then
      pure (nodeAt line .declList (← declaration g))
    else optionalExpression g ";"
  let cond ← optionalExpression g ";"
  let next ← optionalExpression g ")"
  return nodeAt line .forLoop [start, cond, next, ← body g]

/-- A statement that begins with a keyword on `line`. -/
def keywordStatement (g : Rules) (line : Option Nat) (word : String) : Parser Node := do
  if word == "_Static_assert" then staticAssert g
  else if word == "sizeof" || word == "_Alignof" || word == "offsetof" then
    optionalExpression g ";"
  else
    let _ ← advance
    match word with
    | "case" =>
      let value ← g.conditional
      expect ":"
      return nodeAt line .caseLabel [value, ← labelled g line]
    | "default" =>
      expect ":"
      return nodeAt line .defaultLabel [← labelled g line]
    | "if" =>
      let cond ← condition g
      let yes ← body g
      let no ← if ← acceptKeyword "else" then body g else pure .absent
      return nodeAt line .ifStmt [cond, yes, no]
    | "switch" =>
      let cond ← condition g
      return nodeAt line .switch [cond, gatherCases (← body g)]
    | "while" =>
      let cond ← condition g
      return nodeAt line .whileLoop [cond, ← body g]
    | "do" =>
      let stmt ← body g
      if ← acceptKeyword "while" then
        let cond ← condition g
        expect ";"
        return nodeAt line .doWhile [cond, stmt]
      else fail
    | "for" => forStatement g line
    | "goto" =>
      let (text, _) ← plainName
      expect ";"
      return nodeAt line (.goto text) []
    | "break" => expect ";"; return nodeAt line .breakStmt []
    | "continue" => expect ";"; return nodeAt line .continueStmt []
    | "return" => return nodeAt line .returnStmt [← optionalExpression g ";"]
    | _ => fail

/-- Whether a name with a colon comes next. -/
def atLabel : Parser Bool := do
  match ← peek with
  | some (.name _) => return (← peekSecond) == some (.punctuator ":")
  | _ => return false

/-- A statement. -/
def statement (g : Rules) : Parser Node := do
  let line ← peekLine
  if ← atLabel then
    let (text, _) ← plainName
    expect ":"
    return nodeAt line (.label text) [← labelled g line]
  else
    match ← peek with
    | some (.pragma text) =>
      let _ ← advance
      return nodeAt line (.pragma text) []
    | some (.keyword word) => keywordStatement g line word
    | some (.punctuator "\x7b") => compoundStatement g
    | some (.punctuator ";") =>
      expect ";"
      return nodeAt line .emptyStatement []
    | _ => optionalExpression g ";"

end Fieldwise.Parser
