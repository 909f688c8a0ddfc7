import Fieldwise.Source.Parser.Rules

/-!
# Reading expressions

The levels of the expression grammar, from operands to the comma. Binary operators are read as a
flat chain and then grouped by precedence (`groupChain`). A node takes its line from its leftmost
operand, except for operators and brackets that begin with a token of their own.
-/

namespace Fieldwise.Parser

/-! ### Constants -/

/-- The type of an integer constant, from the suffix letters among its last three characters. -/
def integerType (text : String) : Except ParseError String :=
  let tail := text.toList.reverse.take 3
  let us := (tail.filter fun c => c == 'u' || c == 'U').length
  let ls := (tail.filter fun c => c == 'l' || c == 'L').length
  if us > 1 then .error .repeatedSuffix
  else .ok (String.join (List.replicate us "unsigned " ++ List.replicate ls "long ") ++ "int")

/-- Two adjacent strings as one. The second loses its quote, and with an encoding its letter. -/
def joinStrings (wide : Bool) (a b : String) : String :=
  String.ofList (a.toList.dropLast ++ b.toList.drop (if wide then 2 else 1))

/-- The strings that follow a string, joined to it. -/
def stringTail (wide : Bool) (text : String) : Parser String :=
  loop (fun text => do
    match ← peek with
    | some (.string w next) =>
      if w == wide then
        let _ ← advance
        return some (joinStrings wide text next)
      else return none
    | _ => return none) text

/-! ### Types in expressions -/

/-- The keywords that a type name can begin with. -/
def typeKeywords : List String :=
  ["void", "_Bool", "char", "short", "int", "long", "float", "double", "_Complex", "signed",
    "unsigned", "__int128", "struct", "union", "enum", "const", "restrict", "volatile", "_Atomic",
    "_Alignas"]

/-- Whether a token begins a type name. -/
def startsType (scopes : List (List (String × Bool))) : Option Token → Bool
  | some (.keyword word) => typeKeywords.contains word
  | t => isTypeName scopes t

/-- Whether a parenthesis with a type name in it comes next. -/
def atParenthesizedType : Parser Bool := do
  if ← at? "(" then return startsType (← get).scopes (← peekSecond) else return false

/-! ### Operands -/

/-- A member of an object, or an element, in the second argument of `offsetof`. -/
def offsetDesignator (g : Rules) : Parser Node := do
  let (text, line) ← plainName
  loop (fun n => do
    if ← accept "." then
      let (text, line) ← plainName
      return some (nodeAt n.line (.structRef .dot) [n, nodeAt line (.ident text) []])
    else if ← accept "[" then
      let e ← g.expression
      expect "]"
      return some (nodeAt n.line .arrayRef [n, e])
    else return none) (nodeAt line (.ident text) [])

/-- A name, a constant, a string, or an expression in parentheses. -/
def primary (g : Rules) : Parser Node := do
  let line ← peekLine
  match ← peek with
  | some (.name _) =>
    let (text, _) ← plainName
    return nodeAt line (.ident text) []
  | some (.integer text) =>
    let type ← integerType text
    let _ ← advance
    return nodeAt line (.constant type text) []
  | some (.floating type text) =>
    let _ ← advance
    return nodeAt line (.constant type text) []
  | some (.character text) =>
    let _ ← advance
    return nodeAt line (.constant "char" text) []
  | some (.string wide text) =>
    let _ ← advance
    return nodeAt line (.constant "string" (← stringTail wide text)) []
  | some (.keyword "offsetof") =>
    let _ ← advance
    expect "("
    let type ← g.typeName
    expect ","
    let field ← offsetDesignator g
    expect ")"
    return nodeAt line .funcCall
      [nodeAt line (.ident "offsetof") [], nodeAt line .exprList [type, field]]
  | some (.punctuator "(") =>
    let _ ← advance
    let e ← g.expression
    expect ")"
    return e
  | _ => fail

/-- The arguments of a call up to its closing parenthesis. -/
def arguments (g : Rules) : Parser Node := do
  if ← accept ")" then return .absent
  else
    let args ← separated g.assignment
    expect ")"
    return nodeAt (args.head?.bind Node.line) .exprList args

/-- The name of a member, which may be that of a type. -/
def memberName : Parser Node := do
  let line ← peekLine
  match (← advance).token with
  | .name text => return nodeAt line (.ident text) []
  | _ => fail

/-- The subscripts, calls, selections and increments after an operand. -/
def postfixTail (g : Rules) (operand : Node) : Parser Node :=
  loop (fun n => do
    if ← accept "[" then
      let e ← g.expression
      expect "]"
      return some (nodeAt n.line .arrayRef [n, e])
    else if ← accept "(" then
      return some (nodeAt n.line .funcCall [n, ← arguments g])
    else if ← accept "." then
      return some (nodeAt n.line (.structRef .dot) [n, ← memberName])
    else if ← accept "->" then
      return some (nodeAt n.line (.structRef .arrow) [n, ← memberName])
    else if ← accept "++" then
      return some (nodeAt n.line (.unaryOp .postIncrement) [n])
    else if ← accept "--" then
      return some (nodeAt n.line (.unaryOp .postDecrement) [n])
    else return none) operand

/-- The members or indices that say where a value goes, up to the equals sign. -/
def designation (g : Rules) : Parser (List Node) :=
  loop (fun found => do
    if ← accept "[" then
      let e ← g.conditional
      expect "]"
      return some (found ++ [e])
    else if ← accept "." then
      let (text, line) ← plainName
      return some (found ++ [nodeAt line (.ident text) []])
    else return none) []

/-- One entry of a brace list: its value, and the line of that value. -/
def listEntry (g : Rules) : Parser (Node × Option Nat) := do
  match ← designation g with
  | [] =>
    let value ← g.initializer
    return (value, value.line)
  | names =>
    expect "="
    let value ← g.initializer
    return (nodeAt none .namedInitializer (value :: names), value.line)

/-- The entries of a brace list after its first, up to its end. -/
def moreEntries (g : Rules) (first : Node) : Parser (List Node) :=
  loop (fun found => do
    if ← accept "," then
      if ← at? "\x7d" then return none
      else return some (found ++ [(← listEntry g).1])
    else return none) [first]
  <* expect "\x7d"

/-- A brace list with at least one entry, after its opening brace. -/
def nonemptyList (g : Rules) : Parser Node := do
  let (first, line) ← listEntry g
  return nodeAt line .initList (← moreEntries g first)

/-- A brace list. -/
def braceList (g : Rules) : Parser Node := do
  let line ← peekLine
  expect "\x7b"
  if ← accept "\x7d" then return nodeAt line .initList []
  else nonemptyList g

/-- What follows a type in parentheses, if it is the brace list of a literal of that type. -/
def literalTail (g : Rules) (type : Node) : Parser Node := do
  expect "\x7b"
  let init ← nonemptyList g
  postfixTail g (nodeAt none .compoundLiteral [type, init])

/-- The operand of an operator that takes no cast. -/
def uncastOperand (g : Rules) : Parser Node := do
  let (e, uncast) ← g.operand
  if uncast then return e else fail

/-- The size of a type or an expression, after the operator. -/
def sizeOperand (g : Rules) : Parser Node := do
  if ← atParenthesizedType then
    expect "("
    let type ← g.typeName
    expect ")"
    if ← at? "\x7b" then literalTail g type else return type
  else uncastOperand g

/-- An operand with the operators in front of it, but no cast. -/
def unaryExpression (g : Rules) : Parser Node := do
  let line ← peekLine
  match ← peek with
  | some (.keyword "sizeof") =>
    let _ ← advance
    return nodeAt line (.unaryOp .sizeof) [← sizeOperand g]
  | some (.keyword "_Alignof") =>
    let _ ← advance
    expect "("
    let type ← g.typeName
    expect ")"
    return nodeAt line (.unaryOp .alignof) [type]
  | some (.punctuator text) =>
    match UnaryOp.ofLeading? text with
    | some op =>
      let _ ← advance
      let e ← if op == .preIncrement || op == .preDecrement then uncastOperand g
        else Prod.fst <$> g.operand
      return nodeAt e.line (.unaryOp op) [e]
    | none => postfixTail g (← primary g)
  | _ => postfixTail g (← primary g)

/-- An operand, possibly under a cast, and whether it is none. -/
def castExpression (g : Rules) : Parser (Node × Bool) := do
  let line ← peekLine
  if ← atParenthesizedType then
    expect "("
    let type ← g.typeName
    expect ")"
    if ← at? "\x7b" then return (← literalTail g type, true)
    else
      let (e, _) ← g.operand
      return (nodeAt line .cast [type, e], false)
  else return (← unaryExpression g, true)

/-! ### Binary operators -/

/-- Groups the operators of one precedence in a chain of operands, from the left. -/
def groupLevel (level : Nat) : Node → List (BinaryOp × Node) → Node × List (BinaryOp × Node)
  | left, [] => (left, [])
  | left, (op, right) :: rest =>
    if op.precedence == level then
      groupLevel level (nodeAt left.line (.binaryOp op) [left, right]) rest
    else
      let (right, rest) := groupLevel level right rest
      (left, (op, right) :: rest)

/-- Groups a chain of operands, tighter operators first. -/
def groupChain (first : Node) (rest : List (BinaryOp × Node)) : Node :=
  ((List.range 10).foldr (fun level (left, rest) => groupLevel level left rest) (first, rest)).1

/-- The binary operator that comes next. -/
def peekBinary : Parser (Option BinaryOp) := do
  match ← peek with
  | some (.punctuator text) => return BinaryOp.ofText? text
  | _ => return none

/-- The operators and operands that follow an operand. -/
def binaryTail (g : Rules) (first : Node) : Parser Node := do
  let rest ← loop (fun found => do
    match ← peekBinary with
    | some op =>
      let _ ← advance
      return some (found ++ [(op, (← castExpression g).1)])
    | none => return none) []
  return groupChain first rest

/-- What follows an operand of an expression without assignment. -/
def conditionalTail (g : Rules) (first : Node) : Parser Node := do
  let cond ← binaryTail g first
  if ← accept "?" then
    let yes ← g.expression
    expect ":"
    let no ← g.conditional
    return nodeAt cond.line .ternaryOp [cond, yes, no]
  else return cond

/-- An expression without assignment. -/
def conditionalExpression (g : Rules) : Parser Node := do
  conditionalTail g (← castExpression g).1

/-! ### Assignments and the comma -/

/-- The assignment operator that comes next. -/
def peekAssign : Parser (Option AssignOp) := do
  match ← peek with
  | some (.punctuator text) => return AssignOp.ofText? text
  | _ => return none

/-- Whether a block in parentheses comes next. -/
def atStatementExpression : Parser Bool := do
  if ← at? "(" then return (← peekSecond) == some (.punctuator "\x7b") else return false

/-- An expression without comma. -/
def assignmentExpression (g : Rules) : Parser Node := do
  if ← atStatementExpression then
    expect "("
    let block ← g.compound
    expect ")"
    return block
  else
    let (first, uncast) ← castExpression g
    match ← peekAssign with
    | some op =>
      if uncast then
        let _ ← advance
        let value ← g.assignment
        return nodeAt first.line (.assignment op) [first, value]
      else fail
    | none => conditionalTail g first

/-- A list of expressions with one more; a list in parentheses on the left is continued. -/
def appendExpression (left right : Node) : Node :=
  match left with
  | .mk m .exprList es => .mk m .exprList (es ++ [right])
  | _ => nodeAt left.line .exprList [left, right]

/-- An expression. -/
def fullExpression (g : Rules) : Parser Node := do
  let first ← assignmentExpression g
  loop (fun left => do
    if ← accept "," then return some (appendExpression left (← assignmentExpression g))
    else return none) first

/-- The value of a declared object. -/
def initialValue (g : Rules) : Parser Node := do
  if ← at? "\x7b" then braceList g else assignmentExpression g

end Fieldwise.Parser
