import Fieldwise.Source.Token

/-!
# Pieces of text

Before it is read as a program, a text is cut into `Piece`s: names and numbers, literals, blanks,
line ends, operators and separators, and single characters for all else. A comment is a blank. A
backslash at the end of a line joins it to the next one, and blanks at the end of a line do not
count.
-/

namespace Fieldwise

/-- What a piece of text is. -/
inductive PieceKind where
  | name | number | literal | blank | newline | mark
deriving DecidableEq

/-- A piece of text on a line. `hidden` are the names that it was made from by replacement, which
are not replaced in it again. -/
structure Piece where
  kind : PieceKind
  text : String
  line : Nat
  hidden : List String := []

namespace Piece

/-- Whether the piece is white space. -/
def isBlank (p : Piece) : Bool := p.kind == .blank || p.kind == .newline

/-- Whether the piece is this character. -/
def isMark (p : Piece) (text : String) : Bool := p.kind == .mark && p.text == text

/-- The text of pieces in a row. -/
def textOf (ps : List Piece) : String := String.join (ps.map Piece.text)

/-- The pieces after white space at the start. -/
def dropBlanks (ps : List Piece) : List Piece := ps.dropWhile isBlank

/-- The pieces without white space at the start and the end. -/
def trim (ps : List Piece) : List Piece := (dropBlanks (dropBlanks ps).reverse).reverse

/-- The number of line ends in a comment, and what follows its end, if it has one. -/
def skipComment (lines : Nat) : List Char → Option (Nat × List Char)
  | [] => none
  | '*' :: '/' :: rest => some (lines, rest)
  | c :: rest => skipComment (if c == '\n' then lines + 1 else lines) rest

/-- The length of a literal after its opening quote, with the closing one, if it ends on its
line. -/
def literalLength (quote : Char) : Nat → List Char → Option Nat
  | n, c :: rest =>
    if c == quote then some (n + 1)
    else if c == '\n' then none
    else
      match c, rest with
      | '\\', _ :: rest => literalLength quote (n + 2) rest
      | _, rest => literalLength quote (n + 1) rest
  | _, [] => none

/-- The length of a number after its first character. -/
def numberLength : Nat → List Char → Nat
  | n, e :: c :: rest =>
    if (e == 'e' || e == 'E' || e == 'p' || e == 'P') && (c == '+' || c == '-') then
      numberLength (n + 2) rest
    else if Scan.continuesName e || e == '.' then numberLength (n + 1) (c :: rest)
    else n
  | n, [c] => if Scan.continuesName c || c == '.' then n + 1 else n
  | n, [] => n

/-- The kind and the length of the piece that a text begins with. -/
def measure : List Char → PieceKind × Nat
  | [] => (.mark, 0)
  | c :: rest =>
    if c == '\n' then (.newline, 1)
    else if c == ' ' || c == '\t' then
      (.blank, 1 + (rest.takeWhile fun d => d == ' ' || d == '\t').length)
    else if Scan.startsName c then (.name, 1 + (rest.takeWhile Scan.continuesName).length)
    else if c.isDigit || (c == '.' && (rest.head?.any Char.isDigit)) then
      (.number, 1 + numberLength 0 rest)
    else if c == '"' || c == '\x27' then
      match literalLength c 0 rest with
      | some n => (.literal, n + 1)
      | none => (.mark, 1)
    else if c == '#' && rest.head? == some '#' then (.mark, 2)
    else
      match punctuators.find? fun p => p.toList.isPrefixOf (c :: rest) with
      | some p => (.mark, p.length)
      | none => (.mark, 1)

/-- The pieces of a text that starts on a line. -/
def scanFrom : Nat → Nat → List Char → List Piece
  | 0, _, _ => []
  | _, _, [] => []
  | fuel + 1, line, '\\' :: '\n' :: rest => scanFrom fuel (line + 1) rest
  | fuel + 1, line, '/' :: '*' :: rest =>
    match skipComment 0 rest with
    | some (lines, after) =>
      { kind := .blank, text := " ", line } :: scanFrom fuel (line + lines) after
    | none => { kind := .mark, text := "/", line } :: scanFrom fuel line ('*' :: rest)
  | fuel + 1, line, '/' :: '/' :: rest =>
    { kind := .blank, text := " ", line } :: scanFrom fuel line (rest.dropWhile (· != '\n'))
  | fuel + 1, line, cs =>
    let (kind, n) := measure cs
    { kind, text := String.ofList (cs.take n), line } ::
      scanFrom fuel (if kind == .newline then line + 1 else line) (cs.drop n)

/-- Whether a character is white space within a line. -/
def isLineBlank (c : Char) : Bool :=
  c == ' ' || c == '\t' || c == '\r' || c == '\x0b' || c == '\x0c'

/-- A text without the blanks at the ends of its lines. -/
def trimLines (text : String) : String :=
  "\n".intercalate ((text.splitOn "\n").map fun line =>
    String.ofList (line.toList.reverse.dropWhile isLineBlank).reverse)

/-- The pieces of a text. -/
def scan (text : String) : List Piece :=
  let cs := (trimLines text).toList
  scanFrom (cs.length + 1) 1 cs

/-- Pieces cut into lines, each without the line end. -/
def linesOf : List Piece → List (List Piece)
  | [] => []
  | p :: ps =>
    if p.kind == .newline then [] :: linesOf ps
    else
      match linesOf ps with
      | [] => [[p]]
      | line :: rest => (p :: line) :: rest

end Piece

end Fieldwise
