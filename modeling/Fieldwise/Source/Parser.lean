import Fieldwise.Source.Parser.Statement

/-!
# Reading programs

`parse` reads a source text as a file of declarations and function definitions. The grammar is that
of C, with blocks as expressions. Comments and directives other than pragmas and line marks are
refused.
-/

namespace Fieldwise

namespace Parser

/-- The rules of the grammar, given those for what is nested. -/
def Rules.step (g : Rules) : Rules where
  expression := fullExpression g
  assignment := assignmentExpression g
  conditional := conditionalExpression g
  operand := castExpression g
  typeName := typeNameRule g
  initializer := initialValue g
  specifiers := specifiers g
  declarator := fullDeclarator g
  compound := compoundStatement g
  statement := statement g

/-- The rules for texts with at most `depth` nested levels. -/
def rules (depth : Nat) : Rules := Nat.repeat Rules.step depth Rules.none

/-- The declarations of parameters between a function declarator and its body. -/
def parameterDeclarations (g : Rules) : Parser (List Node) :=
  loop (fun found => do
    if startsDeclaration (← get).scopes (← peek) then return some (found ++ (← declaration g))
    else return none) []

/-- The definition of a function with this declarator. Its name is in scope after it. -/
def functionDefinition (g : Rules) (s : TypeSpecifiers) (d : Declarator) : Parser (List Node) := do
  if s.types.isEmpty || TypeSpecifiers.isTypedef s then fail
  else
    let params ← parameterDeclarations g
    let body ← compoundStatement g
    let decl ← declare s d .absent .absent
    declareAll s [decl]
    return [nodeAt d.line .funcDef (decl :: body :: params)]

/-- The declarations after the first declarator of a statement, up to the semicolon. -/
def moreDeclarations (g : Rules) (s : TypeSpecifiers) (first : Node) : Parser (List Node) := do
  let decls ← loop (fun found => do
    if ← accept "," then return some (found ++ [← initDeclarator g s]) else return none) [first]
  expect ";"
  declareAll s decls
  return decls

/-- What a declaration or definition at file scope makes. A stray semicolon makes nothing. -/
def externalDeclaration (g : Rules) : Parser (List Node) := do
  let line ← peekLine
  match ← peek with
  | some (.pragma text) =>
    let _ ← advance
    return [nodeAt line (.pragma text) []]
  | some (.keyword "_Static_assert") => return [← staticAssert g]
  | _ =>
    if ← accept ";" then return []
    else
      let s ← specifiers g true
      if s.isEmpty then
        let d ← fullDeclarator g .named
        functionDefinition g { s with types := [nodeAt line (.identifierType ["int"]) []] } d
      else if ← accept ";" then declaredTypeOnly s
      else
        let d ← fullDeclarator g .named
        if ← accept "=" then
          moreDeclarations g s (← declare s d (← initialValue g) .absent)
        else if (← at? ",") || (← at? ";") then
          moreDeclarations g s (← declare s d .absent .absent)
        else functionDefinition g s d

/-- A whole file. -/
def file (g : Rules) : Parser Node := do
  let items ← loop (fun found => do
    match ← peek with
    | none => return none
    | some _ => return some (found ++ (← externalDeclaration g))) []
  return nodeAt none .file items

end Parser

/-- The program that a source text stands for. -/
def parse (source : String) : Except ParseError Node := do
  match tokenize source with
  | none => throw .unexpected
  | some input =>
    let (root, _) ← (Parser.file (Parser.rules (input.length + 1))).run { input }
    return root

end Fieldwise
