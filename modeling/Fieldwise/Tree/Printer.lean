import Fieldwise.Tree.Node

/-!
# Printing syntax trees

`Node.text` writes a node as source text. Parentheses are written only where an operand needs them:
a simple operand never does, and an operand of a binary operator does not where the grouping from
the left gives the same tree.

A declarator is written from the name outwards: `Modifier`s are collected from the declared type,
outermost first, and `declarator` wraps them around the name.
-/

namespace Fieldwise

/-- What one layer of a declared type adds around the name. -/
inductive Modifier where
  | suffix (text : String)
  | pointer (quals : List String)

/-- Words, each followed by a space. -/
def spacedWords (words : List String) : String := String.join (words.map (· ++ " "))

/-- The text of a name under the layers of its type. A suffix after a pointer needs parentheses. -/
def declarator (afterPointer : Bool) (name : String) : List Modifier → String
  | [] => name
  | .suffix t :: ms =>
    declarator false ((if afterPointer then "(" ++ name ++ ")" else name) ++ t) ms
  | .pointer [] :: ms => declarator true ("*" ++ name) ms
  | .pointer quals :: ms =>
    declarator true ("* " ++ " ".intercalate quals ++ (if name.isEmpty then "" else " " ++ name)) ms

/-- How a node is to be written: in full, as the type of a name with the layers met so far, or
without repeating the type of the declaration before it. -/
inductive Style where
  | full
  | type (showName : Bool) (layers : List Modifier)
  | nameOnly

/-- The layers met so far; a type that is written on its own starts with none. -/
def Style.layers : Style → List Modifier
  | .type _ ms => ms
  | _ => []

/-- Whether the declared name is written; not for a type on its own. -/
def Style.showsName : Style → Bool
  | .type s _ => s
  | _ => false

/-- White space at the start of a line. -/
def margin (indent : Nat) : String := String.ofList (List.replicate indent ' ')

namespace Node

/-- Operands that never need parentheses. -/
def isSimple : Node → Bool
  | mk _ (.unaryOp op) _ => op == .sizeof
  | n => n.cls?.any fun c => [Class.constant, .ident, .arrayRef, .structRef, .funcCall].contains c

/-- Statements that are written with a semicolon of their own after them. -/
def takesSemicolon (n : Node) : Bool :=
  n.cls?.any fun c => [Class.decl, .assignment, .cast, .unaryOp, .binaryOp, .ternaryOp, .funcCall,
    .arrayRef, .structRef, .constant, .ident, .typedef, .exprList].contains c

/-- An expression in brackets where its class asks for them. -/
def bracketed (n : Node) (text : String) : String :=
  if n.isA .initList then "\x7b" ++ text ++ "\x7d"
  else if n.isA .exprList || n.isA .compound then "(" ++ text ++ ")"
  else text

/-- Text in parentheses, if a condition holds. -/
def parenthesized (condition : Bool) (text : String) : String :=
  if condition then "(" ++ text ++ ")" else text

/-- An operand, in parentheses unless it is simple. -/
def operandText (n : Node) (text : String) : String :=
  parenthesized (!n.isSimple) (n.bracketed text)

/-- An operand of a binary operator, in parentheses unless it is simple or binds at least as tightly
as `level`. -/
def binaryOperandText (level : Nat) (n : Node) (text : String) : String :=
  let bare := match n with
    | mk _ (.binaryOp op) _ => decide (level ≤ op.precedence)
    | _ => n.isSimple
  parenthesized (!bare) (n.bracketed text)

/-- A statement on lines of its own, the first of them indented by `lead`. -/
def statementText (lead : Nat) (n : Node) (text : String) : String :=
  if n.takesSemicolon then margin lead ++ text ++ ";\n"
  else if n.isA .compound then text
  else if n.isA .ifStmt then margin lead ++ text
  else margin lead ++ text ++ "\n"

/-- A declaration, definition or directive at file scope. -/
def externalText (n : Node) (text : String) : String :=
  if n.isA .funcDef then text
  else if n.isA .pragma then text ++ "\n"
  else text ++ ";\n"

/-- A step of a designator: a member, or an index. -/
def designatorText (n : Node) (text : String) : String :=
  if n.isA .ident then "." ++ text else "[" ++ text ++ "]"

/-- Text with something in front of it, if there is a node to write. -/
def ifPresent (n : Node) (before text : String) : String :=
  if n.isPresent then before ++ text else ""

/-- A tag after its keyword, with the body if the type is complete. -/
def taggedText (keyword : String) (tag : Option String) (indent : Nat) (body : Option String) :
    String :=
  keyword ++ " " ++ tag.getD "" ++
    match body with
    | none => ""
    | some b => "\n" ++ margin indent ++ "\x7b\n" ++ b ++ margin indent ++ "\x7d"

/-- Text without its last two characters, which separate the last enumerator from nothing. -/
def dropSeparator (text : String) : String :=
  String.ofList (text.toList.take (text.toList.length - 2))

mutual

/-- The text of a node, where the lines after its first are indented by `indent`. -/
def write (indent : Nat) (style : Style) : Node → String
  | absent => ""
  | mk _ (.arrayDecl quals) [type, dim] =>
    write indent (.type style.showsName (style.layers ++
      [.suffix ("[" ++ spacedWords quals ++ write indent .full dim ++ "]")])) type
  | mk _ .funcDecl [args, type] =>
    write indent (.type (match style with | .type s _ => s | _ => true) (style.layers ++
      [.suffix ("(" ++ write indent .full args ++ ")")])) type
  | mk _ (.ptrDecl quals) [type] =>
    write indent (.type style.showsName (style.layers ++ [.pointer quals])) type
  | mk _ (.typeDecl name quals) [type] =>
    let base := spacedWords quals ++ write indent .full type
    let named := declarator false (if style.showsName then name.getD "" else "") style.layers
    if named.isEmpty then base else base ++ " " ++ named
  | mk _ (.typename _) [type] =>
    write indent (.type (match style with | .type s _ => s | _ => true) []) type
  | mk _ (.identifierType names) _ =>
    " ".intercalate names ++ match style with | .type _ _ => " " | _ => ""
  | mk _ (.structType tag complete) members =>
    taggedText "struct" tag indent
      (if complete then
        some (String.join (writeAll (indent + 2) (statementText (indent + 2)) members))
       else none)
  | mk _ (.unionType tag complete) members =>
    taggedText "union" tag indent
      (if complete then
        some (String.join (writeAll (indent + 2) (statementText (indent + 2)) members))
       else none)
  | mk _ (.enumType tag) [values] =>
    taggedText "enum" tag indent
      (if values.isPresent then some (dropSeparator (write (indent + 2) .full values) ++ "\n")
       else none)
  | mk _ (.enumerator name) [value] =>
    margin indent ++ name ++ ifPresent value " = " (write indent .full value) ++ ",\n"
  | mk _ (.decl name spec) [type, init, bitsize] =>
    (match style with
      | .nameOnly => name.getD ""
      | _ => spacedWords spec.funcspec ++ spacedWords spec.storage ++
          spacedWords (spec.align.take 1) ++ write indent (.type true []) type) ++
      ifPresent bitsize " : " (write indent .full bitsize) ++
      ifPresent init " = " (init.bracketed (write indent .full init))
  | mk _ (.typedef _ spec) [type] =>
    spacedWords spec.storage ++ write indent (.type true []) type
  | mk _ .declList [] => ""
  | mk _ .declList (decl :: decls) =>
    ", ".intercalate (write indent .full decl :: writeNames indent decls)
  | mk _ .paramList params => ", ".intercalate (writeAll indent (fun _ t => t) params)
  | mk _ .ellipsisParam _ => "..."
  | mk _ (.constant _ value) _ => value
  | mk _ (.ident name) _ => name
  | mk _ .arrayRef [array, subscript] =>
    array.operandText (write indent .full array) ++ "[" ++ write indent .full subscript ++ "]"
  | mk _ (.structRef access) [object, field] =>
    object.operandText (write indent .full object) ++ access.text ++ write indent .full field
  | mk _ .funcCall [callee, args] =>
    callee.operandText (write indent .full callee) ++ "(" ++ write indent .full args ++ ")"
  | mk _ (.unaryOp op) [operand] =>
    match op with
    | .sizeof => "sizeof(" ++ write indent .full operand ++ ")"
    | .postIncrement => operand.operandText (write indent .full operand) ++ "++"
    | .postDecrement => operand.operandText (write indent .full operand) ++ "--"
    | _ => op.text ++ operand.operandText (write indent .full operand)
  | mk _ (.binaryOp op) [left, right] =>
    left.binaryOperandText op.precedence (write indent .full left) ++ " " ++ op.text ++ " " ++
      right.binaryOperandText (op.precedence + 1) (write indent .full right)
  | mk _ (.assignment op) [target, value] =>
    write indent .full target ++ " " ++ op.text ++ " " ++
      parenthesized (value.isA .assignment) (value.bracketed (write indent .full value))
  | mk _ .ternaryOp [cond, yes, no] =>
    "(" ++ cond.bracketed (write indent .full cond) ++ ") ? (" ++
      yes.bracketed (write indent .full yes) ++ ") : (" ++
      no.bracketed (write indent .full no) ++ ")"
  | mk _ .cast [type, expr] =>
    "(" ++ write indent (.type false []) type ++ ") " ++ expr.operandText (write indent .full expr)
  | mk _ .compoundLiteral [type, init] =>
    "(" ++ write indent .full type ++ ")\x7b" ++ write indent .full init ++ "\x7d"
  | mk _ .exprList exprs => ", ".intercalate (writeAll indent bracketed exprs)
  | mk _ .initList exprs => ", ".intercalate (writeAll indent bracketed exprs)
  | mk _ .namedInitializer (expr :: names) =>
    String.join (writeAll indent designatorText names) ++ " = " ++
      expr.bracketed (write indent .full expr)
  | mk _ .compound statements =>
    margin indent ++ "\x7b\n" ++
      String.join (writeAll (indent + 2) (statementText (indent + 2)) statements) ++
      margin indent ++ "\x7d\n"
  | mk _ .ifStmt [cond, yes, no] =>
    "if (" ++ write indent .full cond ++ ")\n" ++
      yes.statementText (indent + 2) (write indent .full yes) ++
      ifPresent no (margin indent ++ "else\n")
        (no.statementText (indent + 2) (write indent .full no))
  | mk _ .forLoop [init, cond, next, stmt] =>
    "for (" ++ write indent .full init ++ ";" ++
      ifPresent cond " " (write indent .full cond) ++ ";" ++
      ifPresent next " " (write indent .full next) ++ ")\n" ++
      stmt.statementText (indent + 2) (write indent .full stmt)
  | mk _ .whileLoop [cond, stmt] =>
    "while (" ++ write indent .full cond ++ ")\n" ++
      stmt.statementText (indent + 2) (write indent .full stmt)
  | mk _ .doWhile [cond, stmt] =>
    "do\n" ++ stmt.statementText (indent + 2) (write indent .full stmt) ++
      margin indent ++ "while (" ++ write indent .full cond ++ ");"
  | mk _ .switch [cond, stmt] =>
    "switch (" ++ write indent .full cond ++ ")\n" ++
      stmt.statementText (indent + 2) (write indent .full stmt)
  | mk _ .caseLabel (expr :: stmts) =>
    "case " ++ write indent .full expr ++ ":\n" ++
      String.join (writeAll indent (statementText (indent + 2)) stmts)
  | mk _ .defaultLabel stmts =>
    "default:\n" ++ String.join (writeAll indent (statementText (indent + 2)) stmts)
  | mk _ (.label name) [stmt] =>
    name ++ ":\n" ++ stmt.statementText indent (write indent .full stmt)
  | mk _ (.goto name) _ => "goto " ++ name ++ ";"
  | mk _ .breakStmt _ => "break;"
  | mk _ .continueStmt _ => "continue;"
  | mk _ .returnStmt [expr] => "return" ++ ifPresent expr " " (write indent .full expr) ++ ";"
  | mk _ .emptyStatement _ => ";"
  | mk _ .staticAssert [cond, message] =>
    "_Static_assert(" ++ write indent .full cond ++
      ifPresent message "," (write indent .full message) ++ ")"
  | mk _ (.pragma text) _ => "#pragma" ++ if text.isEmpty then "" else " " ++ text
  | mk _ .funcDef (decl :: body :: params) =>
    write indent .full decl ++ "\n" ++
      (if params.isEmpty then ""
       else ";\n".intercalate (writeAll indent (fun _ t => t) params) ++ ";\n") ++
      write 0 .full body ++ "\n"
  | mk _ .file items => String.join (writeAll indent externalText items)
  | mk _ _ parts => String.join (writeAll indent (fun _ t => t) parts)

/-- The texts of nodes, each finished by `finish`. -/
def writeAll (indent : Nat) (finish : Node → String → String) : List Node → List String
  | [] => []
  | n :: ns => finish n (write indent .full n) :: writeAll indent finish ns

/-- The texts of further declarations that share the type of the first. -/
def writeNames (indent : Nat) : List Node → List String
  | [] => []
  | n :: ns => write indent .nameOnly n :: writeNames indent ns

end

/-- The text of a node on its own. -/
def text (n : Node) : String := n.write 0 .full

end Node

end Fieldwise
