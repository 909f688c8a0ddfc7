/-!
# Classes of syntax nodes

Each node of a program belongs to a `Class`. The class fixes which single children a node may have,
in which order (`Class.slots`), and whether it carries a list of children after them
(`Class.listSlot`). A `Slot` is one such place. Two groups of slots matter to the rewriting of
statements: a list of statements takes any number of them (`Slot.isStatementList`), and a lone
statement place takes exactly one (`Slot.isStatement`).
-/

namespace Fieldwise

/-- What a node of a program is. -/
inductive Class where
  | arrayDecl | arrayRef | assignment | binaryOp | breakStmt | caseLabel | cast | compound
  | compoundLiteral | constant | continueStmt | decl | declList | defaultLabel | doWhile
  | ellipsisParam | emptyStatement | enumType | enumerator | enumeratorList | exprList | file
  | forLoop | funcCall | funcDecl | funcDef | goto | ident | identifierType | ifStmt | initList
  | label | namedInitializer | paramList | pragma | ptrDecl | returnStmt | staticAssert | structType
  | structRef | switch | ternaryOp | typeDecl | typedef | typename | unaryOp | unionType | whileLoop
deriving DecidableEq

/-- A place for children in a node: for one child, or for a list of them. -/
inductive Slot where
  | args | bitsize | blockItems | body | cond | decl | decls | dim | enumerators | expr
  | exprs | ext | field | ifFalse | ifTrue | init | left | lvalue | message | name | next
  | paramDecls | params | right | rvalue | stmt | stmts | subscript | toType | type | value | values
deriving DecidableEq

namespace Class

/-- All classes. -/
def all : List Class :=
  [arrayDecl, arrayRef, assignment, binaryOp, breakStmt, caseLabel, cast, compound,
    compoundLiteral, constant, continueStmt, decl, declList, defaultLabel, doWhile, ellipsisParam,
    emptyStatement, enumType, enumerator, enumeratorList, exprList, file, forLoop, funcCall,
    funcDecl, funcDef, goto, ident, identifierType, ifStmt, initList, label, namedInitializer,
    paramList, pragma, ptrDecl, returnStmt, staticAssert, structType, structRef, switch, ternaryOp,
    typeDecl, typedef, typename, unaryOp, unionType, whileLoop]

theorem mem_all (c : Class) : c ∈ all := by cases c <;> decide

/-- The name of a class in outlines and messages. -/
def text : Class → String
  | arrayDecl => "ArrayDecl"
  | arrayRef => "ArrayRef"
  | assignment => "Assignment"
  | binaryOp => "BinaryOp"
  | breakStmt => "Break"
  | caseLabel => "Case"
  | cast => "Cast"
  | compound => "Compound"
  | compoundLiteral => "CompoundLiteral"
  | constant => "Constant"
  | continueStmt => "Continue"
  | decl => "Decl"
  | declList => "DeclList"
  | defaultLabel => "Default"
  | doWhile => "DoWhile"
  | ellipsisParam => "EllipsisParam"
  | emptyStatement => "EmptyStatement"
  | enumType => "Enum"
  | enumerator => "Enumerator"
  | enumeratorList => "EnumeratorList"
  | exprList => "ExprList"
  | file => "FileAST"
  | forLoop => "For"
  | funcCall => "FuncCall"
  | funcDecl => "FuncDecl"
  | funcDef => "FuncDef"
  | goto => "Goto"
  | ident => "ID"
  | identifierType => "IdentifierType"
  | ifStmt => "If"
  | initList => "InitList"
  | label => "Label"
  | namedInitializer => "NamedInitializer"
  | paramList => "ParamList"
  | pragma => "Pragma"
  | ptrDecl => "PtrDecl"
  | returnStmt => "Return"
  | staticAssert => "StaticAssert"
  | structType => "Struct"
  | structRef => "StructRef"
  | switch => "Switch"
  | ternaryOp => "TernaryOp"
  | typeDecl => "TypeDecl"
  | typedef => "Typedef"
  | typename => "Typename"
  | unaryOp => "UnaryOp"
  | unionType => "Union"
  | whileLoop => "While"

/-- The class with a given name. -/
def ofText? (s : String) : Option Class := all.find? (·.text == s)

/-- The places for single children, in the order in which they are visited. -/
def slots : Class → List Slot
  | arrayDecl => [.type, .dim]
  | arrayRef => [.name, .subscript]
  | assignment => [.lvalue, .rvalue]
  | binaryOp => [.left, .right]
  | caseLabel => [.expr]
  | cast => [.toType, .expr]
  | compoundLiteral => [.type, .init]
  | decl => [.type, .init, .bitsize]
  | doWhile => [.cond, .stmt]
  | enumType => [.values]
  | enumerator => [.value]
  | forLoop => [.init, .cond, .next, .stmt]
  | funcCall => [.name, .args]
  | funcDecl => [.args, .type]
  | funcDef => [.decl, .body]
  | ifStmt => [.cond, .ifTrue, .ifFalse]
  | label => [.stmt]
  | namedInitializer => [.expr]
  | ptrDecl => [.type]
  | returnStmt => [.expr]
  | staticAssert => [.cond, .message]
  | structRef => [.name, .field]
  | switch => [.cond, .stmt]
  | ternaryOp => [.cond, .ifTrue, .ifFalse]
  | typeDecl => [.type]
  | typedef => [.type]
  | typename => [.type]
  | unaryOp => [.expr]
  | whileLoop => [.cond, .stmt]
  | breakStmt | compound | constant | continueStmt | declList | defaultLabel | ellipsisParam
  | emptyStatement | enumeratorList | exprList | file | goto | ident | identifierType | initList
  | paramList | pragma | structType | unionType => []

/-- The place for a list of children, visited after the single ones. -/
def listSlot : Class → Option Slot
  | caseLabel | defaultLabel => some .stmts
  | compound => some .blockItems
  | declList | structType | unionType => some .decls
  | enumeratorList => some .enumerators
  | exprList | initList => some .exprs
  | file => some .ext
  | funcDef => some .paramDecls
  | namedInitializer => some .name
  | paramList => some .params
  | _ => none

/-- A place in a node of this class: a single slot, or an index into the list. -/
def slotAt (c : Class) (i : Nat) : Option (Slot × Option Nat) :=
  match c.slots[i]? with
  | some s => some (s, none)
  | none => c.listSlot.map fun s => (s, some (i - c.slots.length))

/-- Blocks that declarations can be items of. -/
def isBlock : Class → Bool
  | compound | file | caseLabel | defaultLabel => true
  | _ => false

end Class

/-- A place that holds one statement, and needs one: a branch or a loop body. -/
def Slot.isStatement : Slot → Bool
  | ifTrue | ifFalse | stmt => true
  | _ => false

/-- A list of statements or declarations in which any number of them may stand. -/
def Slot.isStatementList : Slot → Bool
  | blockItems | ext | stmts => true
  | _ => false

end Fieldwise
