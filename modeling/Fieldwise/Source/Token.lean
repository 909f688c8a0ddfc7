/-!
# Tokens

The words of a C source text. `tokenize` splits a text into `Lexeme`s, tokens with the number of the
line they stand on; a text with a character or a literal that no token allows has none.

Blanks, tabs and line ends separate tokens. A line mark `# N` gives the next line the number `N`,
and a `#pragma` takes the rest of its line as one token. Comments are not recognised.
-/

namespace Fieldwise

/-- A word of the source text. -/
inductive Token where
  | keyword (word : String)
  | name (text : String)
  /-- An integer, or several characters between single quotes. -/
  | integer (text : String)
  | floating (type text : String)
  | character (text : String)
  | string (wide : Bool) (text : String)
  | punctuator (text : String)
  | pragma (text : String)
deriving DecidableEq

/-- A token and its line. -/
structure Lexeme where
  token : Token
  line : Nat

/-- The words that are no names. -/
def keywords : List String :=
  ["auto", "break", "case", "char", "const", "continue", "default", "do", "double", "else", "enum",
    "extern", "float", "for", "goto", "if", "inline", "int", "long", "register", "offsetof",
    "restrict", "return", "short", "signed", "sizeof", "static", "struct", "switch", "typedef",
    "union", "unsigned", "void", "volatile", "while", "__int128", "_Bool", "_Complex", "_Noreturn",
    "_Thread_local", "_Static_assert", "_Atomic", "_Alignof", "_Alignas", "_Pragma"]

/-- The operators and separators, each before those it begins with. -/
def punctuators : List String :=
  ["<<=", ">>=", "...",
    "||", "&&", "<<", ">>", "<=", ">=", "==", "!=", "*=", "/=", "%=", "+=", "-=", "&=", "|=", "^=",
    "++", "--", "->",
    "+", "-", "*", "/", "%", "|", "&", "~", "^", "!", "<", ">", "=", "?", "(", ")", "[", "]", ",",
    ".", ";", ":", "\x7b", "\x7d"]

namespace Scan

/-! ### Characters -/

/-- The letters that a name can begin with. -/
def startsName (c : Char) : Bool := c.isAlpha || c == '_' || c == '$'

/-- The characters that a name is made of. -/
def continuesName (c : Char) : Bool := startsName c || c.isDigit

/-- A digit of base sixteen. -/
def isHexDigit (c : Char) : Bool :=
  c.isDigit || ('a' ≤ c && c ≤ 'f') || ('A' ≤ c && c ≤ 'F')

/-- A digit of base eight. -/
def isOctalDigit (c : Char) : Bool := '0' ≤ c && c ≤ '7'

/-- A digit of base two. -/
def isBinaryDigit (c : Char) : Bool := c == '0' || c == '1'

/-! ### Numbers -/

/-- The suffix of an integer: at most one `u`, and `l` or twice the same `l`, in either order. -/
def integerSuffix (cs : List Char) : List Char :=
  let isU := fun c : Char => c == 'u' || c == 'U'
  let isL := fun c : Char => c == 'l' || c == 'L'
  match cs with
  | a :: b :: c :: _ =>
    if isU a && isL b && b == c then [a, b, c]
    else if isL a && a == b then (if isU c then [a, b, c] else [a, b])
    else if (isU a && isL b) || (isL a && isU b) then [a, b]
    else if isL a || isU a then [a] else []
  | [a, b] =>
    if isL a && a == b || isU a && isL b || isL a && isU b then [a, b]
    else if isL a || isU a then [a] else []
  | [a] => if isL a || isU a then [a] else []
  | [] => []

/-- An exponent with one of two letters, or nothing. -/
def exponent (lower upper : Char) : List Char → List Char
  | e :: cs =>
    if e == lower || e == upper then
      match cs with
      | s :: rest =>
        if s == '+' || s == '-' then
          match rest.takeWhile Char.isDigit with
          | [] => []
          | ds => e :: s :: ds
        else
          match cs.takeWhile Char.isDigit with
          | [] => []
          | ds => e :: ds
      | [] => []
    else []
  | [] => []

/-- The suffix of a floating constant. -/
def floatSuffix : List Char → List Char
  | c :: _ => if c == 'f' || c == 'F' || c == 'l' || c == 'L' then [c] else []
  | [] => []

/-- The type that the last character of a decimal floating constant gives. -/
def floatType (suffix : List Char) : String :=
  match suffix with
  | [c] => if c == 'f' || c == 'F' then "float" else "long double"
  | _ => "double"

/-- A decimal floating constant: a fraction with or without exponent, or digits with one. -/
def decimalFloat (cs : List Char) : Option (Token × List Char) :=
  let whole := cs.takeWhile Char.isDigit
  let body := match cs.drop whole.length with
    | '.' :: rest =>
      let fraction := rest.takeWhile Char.isDigit
      if whole.isEmpty && fraction.isEmpty then []
      else
        let mantissa := whole ++ '.' :: fraction
        mantissa ++ exponent 'e' 'E' (cs.drop mantissa.length)
    | rest =>
      match whole, exponent 'e' 'E' rest with
      | [], _ | _, [] => []
      | _, e => whole ++ e
  if body.isEmpty then none
  else
    let suffix := floatSuffix (cs.drop body.length)
    let text := body ++ suffix
    some (.floating (floatType suffix) (String.ofList text), cs.drop text.length)

/-- A hexadecimal floating constant after its first two characters; the exponent is needed. -/
def hexFloat (start rest : List Char) : Option (Token × List Char) :=
  let whole := rest.takeWhile isHexDigit
  let mantissa := match rest.drop whole.length with
    | '.' :: after => whole ++ '.' :: after.takeWhile isHexDigit
    | _ => whole
  match exponent 'p' 'P' (rest.drop mantissa.length) with
  | [] => none
  | e =>
    if mantissa.any isHexDigit then
      let body := mantissa ++ e
      let text := body ++ floatSuffix (rest.drop body.length)
      some (.floating "float" (String.ofList (start ++ text)), rest.drop text.length)
    else none

/-- An integer with these first characters and digits. -/
def integer (start digits rest : List Char) : Option (Token × List Char) :=
  let text := digits ++ integerSuffix (rest.drop digits.length)
  some (.integer (String.ofList (start ++ text)), rest.drop text.length)

/-- A number. Octal constants with the digits eight or nine are refused. -/
def number (cs : List Char) : Option (Token × List Char) :=
  match decimalFloat cs with
  | some r => some r
  | none =>
    match cs with
    | '0' :: x :: rest =>
      if x == 'x' || x == 'X' then
        match hexFloat ['0', x] rest with
        | some r => some r
        | none =>
          match rest.takeWhile isHexDigit with
          | [] => integer [] ['0'] cs
          | ds => integer ['0', x] ds rest
      else if x == 'b' || x == 'B' then
        match rest.takeWhile isBinaryDigit with
        | [] => integer [] ['0'] cs
        | ds => integer ['0', x] ds rest
      else
        let ds := (x :: rest).takeWhile isOctalDigit
        match (x :: rest).drop ds.length with
        | c :: _ => if c == '8' || c == '9' then none else integer ['0'] ds (x :: rest)
        | [] => integer ['0'] ds (x :: rest)
    | _ => integer [] (cs.takeWhile Char.isDigit) cs

/-! ### Characters and strings -/

/-- The characters that a backslash can stand before, apart from digits and `x`. -/
def isSimpleEscape (c : Char) : Bool :=
  (c.isAlpha && c != 'x') || "._~!=&^-\\?'\"".toList.contains c

/-- How many characters after a backslash belong to it. -/
def escapeLength : List Char → Option Nat
  | 'x' :: rest => some (1 + (rest.takeWhile isHexDigit).length)
  | c :: rest =>
    if c.isDigit then some (1 + (rest.takeWhile Char.isDigit).length)
    else if isSimpleEscape c then some 1
    else none
  | [] => none

/-- The characters up to a single quote: how many there are, their text, and what follows. -/
def characterBody : Nat → List Char → Option (Nat × List Char × List Char)
  | 0, _ | _, [] => none
  | fuel + 1, c :: rest =>
    if c == '\x27' then some (0, [c], rest)
    else if c == '\n' then none
    else
      let more := if c == '\\' then escapeLength rest else some 0
      match more with
      | none => none
      | some n =>
        match characterBody fuel (rest.drop n) with
        | some (count, text, after) => some (count + 1, c :: rest.take n ++ text, after)
        | none => none

/-- A constant of one character between single quotes, or an integer of two to four. -/
def character (start rest : List Char) : Option (Token × List Char) :=
  match characterBody rest.length rest with
  | some (count, text, after) =>
    let whole := String.ofList (start ++ '\x27' :: text)
    if count == 1 then some (.character whole, after)
    else if 2 ≤ count && count ≤ 4 && start.isEmpty then some (.integer whole, after)
    else none
  | none => none

/-- The text of a string up to its closing quote, and what follows. -/
def stringBody : List Char → Option (List Char × List Char)
  | [] => none
  | '"' :: rest => some (['"'], rest)
  | '\\' :: c :: rest =>
    if isSimpleEscape c || c.isDigit || c == 'x' then
      (stringBody rest).map fun (text, after) => ('\\' :: c :: text, after)
    else none
  | c :: rest =>
    if c == '\n' || c == '\\' then none
    else (stringBody rest).map fun (text, after) => (c :: text, after)

/-- A string after its opening quote. -/
def string (start rest : List Char) : Option (Token × List Char) :=
  (stringBody rest).map fun (text, after) =>
    (.string (!start.isEmpty) (String.ofList (start ++ '"' :: text)), after)

/-- The letters that mark the characters and strings of wider encodings. -/
def encodings : List (List Char) := [['L'], ['u', '8'], ['u'], ['U']]

/-- A character or string with an encoding in front of its quote. -/
def encoded (cs : List Char) : Option (Token × List Char) :=
  encodings.findSome? fun e =>
    if e.isPrefixOf cs then
      match cs.drop e.length with
      | '\x27' :: rest => character e rest
      | '"' :: rest => string e rest
      | _ => none
    else none

/-! ### Tokens -/

/-- A name or keyword. -/
def word (cs : List Char) : Token × List Char :=
  let text := cs.takeWhile continuesName
  let s := String.ofList text
  (if keywords.contains s then .keyword s else .name s, cs.drop text.length)

/-- The longest operator or separator at the start of a text. -/
def punctuator (cs : List Char) : Option (Token × List Char) :=
  (punctuators.find? fun p => p.toList.isPrefixOf cs).map fun p =>
    (.punctuator p, cs.drop p.toList.length)

/-- The token at the start of a text that begins with no blank. -/
def token : List Char → Option (Token × List Char)
  | [] => none
  | c :: cs =>
    if c.isDigit then number (c :: cs)
    else if c == '.' then
      match decimalFloat (c :: cs) with
      | some r => some r
      | none => punctuator (c :: cs)
    else if c == '\x27' then character [] cs
    else if c == '"' then string [] cs
    else if startsName c then
      match encoded (c :: cs) with
      | some r => some r
      | none => some (word (c :: cs))
    else punctuator (c :: cs)

/-- What a directive does. -/
inductive Directive where
  | line (number : Nat)
  | pragma (text : String)

/-- The value of decimal digits. -/
def decimal (digits : List Char) : Nat :=
  digits.foldl (fun n c => 10 * n + (c.toNat - '0'.toNat)) 0

/-- The text without a word at its start that another character follows. -/
def afterWord (w : String) (cs : List Char) : Option (List Char) :=
  if w.toList.isPrefixOf cs then
    match cs.drop w.length with
    | c :: rest => if continuesName c && c != '$' then none else some (c :: rest)
    | [] => none
  else none

/-- The directive on the rest of a line after its `#`. -/
def directive (cs : List Char) : Option Directive :=
  let skipBlanks := List.dropWhile fun c : Char => c == ' ' || c == '\t'
  let cs := skipBlanks cs
  match afterWord "pragma" cs with
  | some rest => some (.pragma (String.ofList ((skipBlanks rest).takeWhile (· != '\n'))))
  | none =>
    let cs := skipBlanks ((afterWord "line" cs).getD cs)
    match cs.takeWhile Char.isDigit with
    | [] => none
    | ds => some (.line (decimal ds))

/-- The lexemes of a text that starts on a line. -/
def lexemes : Nat → Nat → List Char → Option (List Lexeme)
  | 0, _, _ => some []
  | _, _, [] => some []
  | fuel + 1, line, c :: cs =>
    if c == ' ' || c == '\t' then lexemes fuel line cs
    else if c == '\n' then lexemes fuel (line + 1) cs
    else if c == '#' then
      let rest := cs.dropWhile (· != '\n')
      match directive cs with
      | none => none
      | some (.line n) => lexemes fuel n (rest.drop 1)
      | some (.pragma text) => (lexemes fuel line rest).map (⟨.pragma text, line⟩ :: ·)
    else
      match token (c :: cs) with
      | none => none
      | some (t, rest) => (lexemes fuel line rest).map (⟨t, line⟩ :: ·)

end Scan

/-- The tokens of a source text, unless something in it is no token. -/
def tokenize (source : String) : Option (List Lexeme) :=
  let cs := source.toList
  Scan.lexemes (cs.length + 1) 1 cs

end Fieldwise
