import Fieldwise.Source.Parser.Expression
import Fieldwise.Tree.Printer

/-!
# Reading declarations

Specifiers, declarators and the declarations made of them. A declarator is read outwards from its
name: what follows the name is closer to the base type than what stands around it. All declarators
of one declaration share the node of a struct, union or enumeration type.
-/

namespace Fieldwise.Parser

/-! ### Words -/

/-- The words for the storage of what is declared. -/
def storageWords : List String :=
  ["auto", "register", "static", "extern", "typedef", "_Thread_local"]

/-- The words that qualify a type. -/
def qualifierWords : List String := ["const", "restrict", "volatile", "_Atomic"]

/-- The words for functions. -/
def functionWords : List String := ["inline", "_Noreturn"]

/-- The words that make up the basic types. -/
def basicTypeWords : List String :=
  ["void", "_Bool", "char", "short", "int", "long", "float", "double", "_Complex", "signed",
    "unsigned", "__int128"]

/-- Whether a token begins a declaration. -/
def startsDeclaration (scopes : List (List (String × Bool))) : Option Token → Bool
  | some (.keyword word) =>
    typeKeywords.contains word || storageWords.contains word || functionWords.contains word
  | t => isTypeName scopes t

/-- Qualifiers, as many as there are. -/
def qualifiers : Parser (List String) :=
  loop (fun found => do
    match ← peek with
    | some (.keyword word) =>
      if qualifierWords.contains word then
        let _ ← advance
        return some (found ++ [word])
      else return none
    | _ => return none) []

/-! ### Declarations from their pieces -/

/-- The base type that the words of a declaration give. Basic types may be several words; a struct,
union or enumeration stands alone. -/
def baseType (types : List Node) : Parser Node :=
  match types with
  | [] => fail
  | [type] => return type
  | first :: _ => do
    let names ← types.mapM fun t =>
      match t with
      | .mk _ (.identifierType names) _ => return names
      | _ => fail
    return nodeAt first.line (.identifierType names.flatten) []

/-- The declared type of a declarator. A function without a type gives an `int`. -/
def declaredType (s : TypeSpecifiers) (d : Declarator) : Parser Node := do
  let wrap := fun base : Node => d.layers.foldr (fun layer inner => layer inner)
    (nodeAt d.nameLine (.typeDecl d.name s.spec.quals) [base])
  if s.types.isEmpty then
    let type := wrap (nodeAt d.line (.identifierType ["int"]) [])
    if type.isA .funcDecl then return type else fail
  else return wrap (← baseType s.types)

/-- Whether a declaration makes type names. -/
def TypeSpecifiers.isTypedef (s : TypeSpecifiers) : Bool := s.spec.storage.contains "typedef"

/-- The declaration of one declarator. -/
def declare (s : TypeSpecifiers) (d : Declarator) (init bitsize : Node) : Parser Node := do
  let type ← declaredType s d
  if TypeSpecifiers.isTypedef s then return nodeAt d.line (.typedef d.name s.spec) [type]
  else return nodeAt d.line (.decl d.name s.spec) [type, init, bitsize]

/-- Puts the names of declarations into scope. -/
def declareAll (s : TypeSpecifiers) (decls : List Node) : Parser Unit :=
  decls.forM fun d =>
    match d.name? with
    | some name => declareName name (TypeSpecifiers.isTypedef s)
    | none => pure ()

/-- The declaration of a type alone. -/
def bareDeclaration (s : TypeSpecifiers) (type : Node) : Node :=
  nodeAt type.line (.decl none s.spec) [type, .absent, .absent]

/-! ### Declarators -/

/-- The pointers in front of a declarator: their lines and layers, outermost layer first. -/
def pointers : Parser (List (Option Nat × (Node → Node))) :=
  loop (fun found => do
    let line ← peekLine
    if ← accept "*" then
      let quals ← qualifiers
      return some ((line, fun inner => nodeAt line (.ptrDecl quals) [inner]) :: found)
    else return none) []

/-- A declarator with one more layer next to its base type. -/
def Declarator.extend (d : Declarator) (line : Option Nat) (layer : Option Nat → Node → Node) :
    Declarator :=
  if d.layers.isEmpty && d.name.isNone then { d with line, layers := [layer line] }
  else { d with layers := d.layers ++ [layer d.line] }

/-- Whether a star that is the whole dimension comes next. -/
def atStarDimension : Parser Bool := do
  if ← at? "*" then return (← peekSecond) == some (.punctuator "]") else return false

/-- The qualifiers and the dimension of an array, up to its closing bracket. -/
def dimension (g : Rules) : Parser (List String × Node) := do
  if ← acceptKeyword "static" then
    let quals ← qualifiers
    let dim ← assignmentExpression g
    expect "]"
    return ("static" :: quals, dim)
  else
    let quals ← qualifiers
    if !quals.isEmpty && (← atKeyword? "static") then
      let _ ← advance
      let dim ← assignmentExpression g
      expect "]"
      return (quals ++ ["static"], dim)
    else if ← accept "]" then return (quals, .absent)
    else
      let line ← peekLine
      if ← atStarDimension then
        expect "*"
        expect "]"
        return (quals, nodeAt line (.ident "*") [])
      else
        let dim ← assignmentExpression g
        expect "]"
        return (quals, dim)

/-- One parameter: a declaration, or a type alone. -/
def parameter (g : Rules) : Parser Node := do
  let s ← g.specifiers true
  if s.types.isEmpty then fail
  else
    let d ← g.declarator .either
    match d.name with
    | some _ => declare s d .absent .absent
    | none => return nodeAt d.line (.typename s.spec.quals) [← declaredType s d]

/-- Parameters after the first, up to the closing parenthesis. -/
def moreParameters (g : Rules) (first : Node) : Parser Node := do
  let params ← loop (fun found => do
    match found.getLast? with
    | some (.mk _ .ellipsisParam _) => return none
    | _ =>
      if ← accept "," then
        let line ← peekLine
        if ← accept "..." then return some (found ++ [nodeAt line .ellipsisParam []])
        else return some (found ++ [← parameter g])
      else return none) [first]
  expect ")"
  return nodeAt first.line .paramList params

/-- The names of parameters that are declared later, up to the closing parenthesis. -/
def parameterNames : Parser Node := do
  let names ← separated do
    let (text, line) ← plainName
    return nodeAt line (.ident text) []
  expect ")"
  return nodeAt (names.head?.bind Node.line) .paramList names

/-- What stands between the parentheses of a function declarator. -/
def parameters (g : Rules) (named : Bool) : Parser Node := do
  if ← accept ")" then return .absent
  else
    match ← peek with
    | some (.name text) =>
      if named && !isTypeIn (← get).scopes text then parameterNames
      else moreParameters g (← parameter g)
    | _ => moreParameters g (← parameter g)

/-- Opens the scope of a function body that comes next, with the parameters in it. -/
def enterBody (params : Node) : Parser Unit := do
  if ← at? "\x7b" then
    pushScope
    (params.parts.takeWhile fun p => !p.isA .ellipsisParam).forM fun p =>
      match p.name? with
      | some name => declareName name false
      | none => pure ()
    modify fun s => { s with opened := true }

/-- The arrays and parameter lists after a declarator. -/
def declaratorTail (g : Rules) (d : Declarator) : Parser Declarator :=
  loop (fun d => do
    let line ← peekLine
    if ← accept "[" then
      let (quals, dim) ← dimension g
      return some (Declarator.extend d line fun l inner => nodeAt l (.arrayDecl quals) [inner, dim])
    else if ← accept "(" then
      let params ← parameters g d.name.isSome
      if d.name.isSome then enterBody params
      return some (Declarator.extend d line fun l inner => nodeAt l .funcDecl [params, inner])
    else return none) d

/-- Whether a parenthesis that comes next is around a declarator, and not around parameters. -/
def atParenthesizedDeclarator (naming : Naming) : Parser Bool := do
  if ← at? "(" then
    match naming with
    | .named => return true
    | _ =>
      let next ← peekSecond
      return next != some (.punctuator ")") && !startsDeclaration (← get).scopes next
  else return false

/-- A declarator without the pointers in front of it. -/
def directDeclarator (g : Rules) (naming : Naming) : Parser Declarator := do
  if ← atParenthesizedDeclarator naming then
    expect "("
    let d ← g.declarator naming
    expect ")"
    declaratorTail g d
  else
    let line ← peekLine
    match naming, ← peek with
    | .named, some (.name text) | .either, some (.name text) =>
      let _ ← advance
      declaratorTail g { name := text, nameLine := line, line }
    | .named, _ => fail
    | _, _ => declaratorTail g {}

/-- A declarator. -/
def fullDeclarator (g : Rules) (naming : Naming) : Parser Declarator := do
  let ptrs ← pointers
  let d ← directDeclarator g naming
  let line := match d.layers, ptrs with
    | [], (line, _) :: _ => line
    | _, _ => d.line
  return { d with line, layers := d.layers ++ ptrs.map Prod.snd }

/-! ### Types with members -/

/-- The tag of a type, if there is one. -/
def optionalTag : Parser (Option String) := do
  match ← peek with
  | some (.name text) =>
    let _ ← advance
    return some text
  | _ => return none

/-- A member of a struct or union: a declarator with or without a width, or a width alone. -/
def memberDeclarator (g : Rules) (s : TypeSpecifiers) : Parser Node := do
  if ← accept ":" then declare s {} .absent (← conditionalExpression g)
  else
    let d ← g.declarator .named
    if ← accept ":" then declare s d .absent (← conditionalExpression g)
    else declare s d .absent .absent

/-- The members that one declaration in a struct or union makes. -/
def memberDeclaration (g : Rules) : Parser (List Node) := do
  let line ← peekLine
  match ← peek with
  | some (.pragma text) =>
    let _ ← advance
    return [nodeAt line (.pragma text) []]
  | _ =>
    if ← accept ";" then return []
    else
      let s ← g.specifiers false
      if s.types.isEmpty then fail
      else if ← accept ";" then
        match s.types with
        | [type] => return [bareDeclaration s type]
        | _ => fail
      else
        let decls ← separated (memberDeclarator g s)
        expect ";"
        return decls

/-- A struct or union type after its keyword. -/
def structure? (g : Rules) (form : Option String → Bool → Form) : Parser Node := do
  let line ← peekLine
  let tag ← optionalTag
  if ← accept "\x7b" then
    return nodeAt line (form tag true) (← itemsUntil "\x7d" (memberDeclaration g))
  else if tag.isSome then return nodeAt line (form tag false) []
  else fail

/-- A named constant of an enumeration, with its name. -/
def enumerator (g : Rules) : Parser Node := do
  let line ← peekLine
  let (text, _) ← plainName
  if ← accept "=" then return nodeAt line (.enumerator text) [← conditionalExpression g]
  else return nodeAt line (.enumerator text) [.absent]

/-- The constants of an enumeration up to its closing brace. All but the last belong to the scope
of the braces. -/
def enumerators (g : Rules) : Parser Node := do
  let line ← peekLine
  let entry := do
    let e ← enumerator g
    match e with
    | .mk _ (.enumerator name) _ =>
      unless ← at? "\x7d" do declareName name false
      return e
    | _ => return e
  let first ← entry
  let all ← loop (fun found => do
    if ← accept "," then
      if (← at? "\x7d") || (← at? ",") then return some found
      else return some (found ++ [← entry])
    else return none) [first]
  expect "\x7d"
  match all.getLast? with
  | some (.mk _ (.enumerator name) _) => declareName name false
  | _ => pure ()
  return nodeAt line .enumeratorList all

/-- An enumeration type after its keyword, which stands on `line`. -/
def enumeration (g : Rules) (line : Option Nat) : Parser Node := do
  let tag ← optionalTag
  if ← accept "\x7b" then return nodeAt line (.enumType tag) [← enumerators g]
  else if tag.isSome then return nodeAt line (.enumType tag) [.absent]
  else fail

/-! ### Specifiers -/

/-- The alignment in parentheses, as text. -/
def alignment (g : Rules) : Parser String := do
  if ← atParenthesizedType then
    expect "("
    let type ← g.typeName
    expect ")"
    return "_Alignas(" ++ type.text ++ ")"
  else
    expect "("
    let e ← g.conditional
    expect ")"
    return "_Alignas(" ++ e.text ++ ")"

/-- The specifiers with one more word of the type. -/
def TypeSpecifiers.addType (s : TypeSpecifiers) (type : Node) : TypeSpecifiers :=
  { s with types := s.types ++ [type], isEmpty := false }

/-- The next specifier, if one comes next. Without `storage` only those of a type are allowed. A
tagged type or a type name must come before all other words of the type. -/
def specifier (g : Rules) (storage : Bool) (s : TypeSpecifiers) :
    Parser (Option TypeSpecifiers) := do
  let line ← peekLine
  let spec := s.spec
  match ← peek with
  | some (.keyword word) =>
    if storage && storageWords.contains word then
      let _ ← advance
      return some
        { s with spec := { spec with storage := spec.storage ++ [word] }, isEmpty := false }
    else if qualifierWords.contains word then
      let _ ← advance
      return some { s with spec := { spec with quals := spec.quals ++ [word] }, isEmpty := false }
    else if storage && functionWords.contains word then
      let _ ← advance
      return some
        { s with spec := { spec with funcspec := spec.funcspec ++ [word] }, isEmpty := false }
    else if word == "_Alignas" then
      let _ ← advance
      let text ← alignment g
      return some { s with spec := { spec with align := spec.align ++ [text] }, isEmpty := false }
    else if basicTypeWords.contains word then
      let _ ← advance
      return some (TypeSpecifiers.addType s (nodeAt line (.identifierType [word]) []))
    else if !s.types.isEmpty then return none
    else if word == "struct" then
      let _ ← advance
      return some (TypeSpecifiers.addType s (← identify (← structure? g .structType)))
    else if word == "union" then
      let _ ← advance
      return some (TypeSpecifiers.addType s (← identify (← structure? g .unionType)))
    else if word == "enum" then
      let _ ← advance
      return some (TypeSpecifiers.addType s (← identify (← enumeration g line)))
    else return none
  | some (.name text) =>
    if s.types.isEmpty && isTypeIn (← get).scopes text then
      let _ ← advance
      return some (TypeSpecifiers.addType s (nodeAt line (.identifierType [text]) []))
    else return none
  | _ => return none

/-- The specifiers at the start of a declaration, as many as there are. -/
def specifiers (g : Rules) (storage : Bool) : Parser TypeSpecifiers :=
  loop (specifier g storage) {}

/-- The name of a type. -/
def typeNameRule (g : Rules) : Parser Node := do
  let s ← specifiers g false
  if s.types.isEmpty then fail
  else
    let d ← fullDeclarator g .unnamed
    return nodeAt d.line (.typename s.spec.quals) [← declaredType s d]

/-! ### Declarations -/

/-- A declarator with its initial value, if it has one. -/
def initDeclarator (g : Rules) (s : TypeSpecifiers) : Parser Node := do
  let d ← fullDeclarator g .named
  if ← accept "=" then declare s d (← initialValue g) .absent
  else declare s d .absent .absent

/-- The declarations that specifiers without declarators make. -/
def declaredTypeOnly (s : TypeSpecifiers) : Parser (List Node) :=
  match s.types with
  | [type] =>
    if type.isA .structType || type.isA .unionType || type.isA .enumType then
      return [bareDeclaration s type]
    else fail
  | _ => fail

/-- The declarations of one statement, up to its semicolon. The names are in scope after it. -/
def declaration (g : Rules) : Parser (List Node) := do
  let s ← specifiers g true
  if ← accept ";" then declaredTypeOnly s
  else
    let decls ← separated (initDeclarator g s)
    expect ";"
    declareAll s decls
    return decls

end Fieldwise.Parser
