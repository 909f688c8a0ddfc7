import Fieldwise.Preprocess.Piece

/-!
# Lines of several files

The lines that remain of a text after its directives are carried out, each with the file and the
number it had there. `SourceLine.render` writes them as one text that shows these numbers: by empty
lines for small gaps, and by line marks for large ones and where another file begins.
-/

namespace Fieldwise

/-- A line of a file. -/
structure SourceLine where
  file : String
  number : Nat
  text : String

namespace SourceLine

/-- The pieces of a line after its first one that is not blank. Of blanks in a row the last one
stays, and none stays at the end. -/
def tighten : List Piece → List Piece
  | [] => []
  | p :: ps =>
    match tighten ps with
    | [] => if p.isBlank then [] else [p]
    | q :: rest => if p.isBlank && q.isBlank then q :: rest else p :: q :: rest

/-- The line that pieces in a row make; none if they are blank. -/
def ofPieces? (file : String) (ps : List Piece) : Option SourceLine :=
  match ps with
  | [] => none
  | first :: _ =>
    match Piece.dropBlanks ps with
    | [] => none
    | content =>
      some
        { file
          number := first.line
          text := Piece.textOf (ps.takeWhile Piece.isBlank ++ tighten content) }

/-- The number of lines that may be left empty without a line mark. -/
def maxGap : Nat := 6

/-- What comes before a line, given the one before it: a line mark, or empty lines. -/
def lead (previous : Option SourceLine) (l : SourceLine) : String :=
  let mark := "#line " ++ toString l.number ++ " \"" ++ l.file ++ "\"\n"
  match previous with
  | none => mark
  | some p =>
    let gap := l.number - p.number - 1
    if p.file != l.file || maxGap < gap then mark else String.ofList (List.replicate gap '\n')

/-- Lines after a line, as text. -/
def renderAfter (previous : Option SourceLine) : List SourceLine → String
  | [] => ""
  | l :: rest => lead previous l ++ l.text ++ "\n" ++ renderAfter (some l) rest

/-- Lines as one text. -/
def render (lines : List SourceLine) : String := renderAfter none lines

end SourceLine

end Fieldwise
