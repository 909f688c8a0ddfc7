import Fieldwise.Preprocess.Piece

/-!
# Directives

The lines of a text that say how it is to be read. A directive begins with `#` and a word; what
follows the word are its operands. Lines with other words are no directives of this library and
stay in the text.
-/

namespace Fieldwise

/-- Why the reading of a text stops. -/
inductive DirectiveError where
  /-- A directive lacks an operand that it cannot do without. -/
  | missingOperand
deriving DecidableEq

/-- What a line asks for. -/
inductive Directive where
  | define (operands : List Piece)
  | undefine (operands : List Piece)
  | includeFile (operands : List Piece)
  | ifHolds (condition : List Piece)
  /-- Takes what follows if a name is defined, or if it is not. -/
  | ifDefined (wanted : Bool) (operands : List Piece)
  | elseIf (condition : List Piece)
  | otherwise
  | endIf
  /-- The file is not to be read again. -/
  | readOnce
  /-- The text is not fit for use. -/
  | refuse
  /-- Nothing to do. -/
  | idle
  /-- The line is to be kept. -/
  | keep

namespace Directive

/-- The directive of a word and its operands. -/
def ofWord (word : String) (operands : List Piece) : Except DirectiveError Directive :=
  match word with
  | "define" => .ok (.define operands)
  | "undef" => .ok (.undefine operands)
  | "include" => .ok (.includeFile operands)
  | "if" => .ok (.ifHolds operands)
  | "ifdef" => .ok (.ifDefined true operands)
  | "ifndef" => .ok (.ifDefined false operands)
  | "elif" => .ok (.elseIf operands)
  | "else" => .ok .otherwise
  | "endif" => .ok .endIf
  | "error" => .ok .refuse
  | "warning" => .ok .idle
  | "pragma" =>
    match operands with
    | [] => .error .missingOperand
    | p :: _ => .ok (if p.text == "once" then .readOnce else .keep)
  | _ => .ok .keep

/-- The directive on a line, if it is one. -/
def ofLine? (line : List Piece) : Option (Except DirectiveError Directive) :=
  match Piece.dropBlanks line with
  | [] => none
  | p :: rest =>
    if p.isMark "#" then
      match Piece.trim rest with
      | [] => some (.ok .idle)
      | word :: operands => some (ofWord word.text (Piece.dropBlanks operands))
    else none

/-- The first operand of a directive that needs one. -/
def firstOperand : List Piece → Except DirectiveError String
  | [] => .error .missingOperand
  | p :: _ => .ok p.text

end Directive

end Fieldwise
