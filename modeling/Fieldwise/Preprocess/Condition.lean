import Fieldwise.Preprocess.Macro
import Fieldwise.Source.Parser
import Fieldwise.Text.Numeral

/-!
# Conditions

The integer expressions that decide which lines of a text are taken. `Condition.holds?` replaces the
tests for defined names and the macros in one, reads it as an expression, and computes it in 64
bits: a name that is left stands for zero, and an operation on an unsigned number gives an unsigned
one.
-/

namespace Fieldwise

namespace Condition

/-- An integer in 64 bits. -/
structure Value where
  bits : BitVec 64
  unsigned : Bool := false

/-- Whether a value counts as true. -/
def Value.isTrue (v : Value) : Bool := v.bits != 0

/-- The value of a comparison. -/
def ofBool (b : Bool) : Value := { bits := if b then 1 else 0 }

/-- The value of a shift, to the left or else to the right. -/
def shift (left : Bool) (a : Value) (amount : BitVec 64) : Value :=
  if 64 ≤ amount.toNat then
    { a with bits := if !left && !a.unsigned && a.bits.msb then BitVec.allOnes 64 else 0 }
  else if left then { a with bits := a.bits <<< amount.toNat }
  else if a.unsigned then { a with bits := a.bits >>> amount.toNat }
  else { a with bits := a.bits.sshiftRight amount.toNat }

/-- The value of an operation; none for a division by zero. -/
def binary (op : BinaryOp) (a b : Value) : Option Value :=
  let unsigned := a.unsigned || b.unsigned
  let x := a.bits
  let y := b.bits
  let less := fun x y : BitVec 64 => if unsigned then x.ult y else x.slt y
  match op with
  | .logicalOr => some (ofBool (a.isTrue || b.isTrue))
  | .logicalAnd => some (ofBool (a.isTrue && b.isTrue))
  | .bitOr => some { bits := x ||| y, unsigned }
  | .bitXor => some { bits := x ^^^ y, unsigned }
  | .bitAnd => some { bits := x &&& y, unsigned }
  | .equal => some (ofBool (x == y))
  | .notEqual => some (ofBool (x != y))
  | .less => some (ofBool (less x y))
  | .greater => some (ofBool (less y x))
  | .lessEqual => some (ofBool !(less y x))
  | .greaterEqual => some (ofBool !(less x y))
  | .shiftLeft => some (shift true a y)
  | .shiftRight => some (shift false a y)
  | .add => some { bits := x + y, unsigned }
  | .sub => some { bits := x - y, unsigned }
  | .mul => some { bits := x * y, unsigned }
  | .div =>
    if y == 0 then none else some { bits := if unsigned then x.udiv y else x.sdiv y, unsigned }
  | .mod =>
    if y == 0 then none else some { bits := if unsigned then x.umod y else x.srem y, unsigned }

/-- The value of an operation on one operand that has one. -/
def unary (op : UnaryOp) (a : Value) : Option Value :=
  match op with
  | .plus => some a
  | .minus => some { a with bits := -a.bits }
  | .complement => some { a with bits := ~~~a.bits }
  | .not => some (ofBool !a.isTrue)
  | _ => none

/-- The code of the character that a backslash and a letter stand for. -/
def escapeCode? : Char → Option Nat
  | 'n' => some 10
  | 't' => some 9
  | 'r' => some 13
  | '0' => some 0
  | 'a' => some 7
  | 'b' => some 8
  | 'f' => some 12
  | 'v' => some 11
  | c => if c == '\\' || c == '\x27' || c == '"' || c == '?' then some c.toNat else none

/-- The first number that is too large for 64 bits with a sign. -/
def signedBound : Int := 0x8000000000000000

/-- The value of a constant. -/
def constant? (type text : String) : Option Value :=
  if type == "char" then
    match (text.toList.drop 1).dropLast with
    | ['\\', c] => (escapeCode? c).map fun n => { bits := BitVec.ofNat 64 n }
    | [c] => some { bits := BitVec.ofNat 64 c.toNat }
    | _ => none
  else if type.endsWith "int" then
    (Numeral.value? text).map fun z =>
      { bits := BitVec.ofInt 64 z
        unsigned := type.startsWith "unsigned" || decide (signedBound ≤ z) }
  else none

/-- The value of an expression; none if it has no value. What an operator does not need to know is
not computed. -/
def ofNode? : Node → Option Value
  | .mk _ (.constant type text) _ => constant? type text
  | .mk _ (.ident _) _ => some (ofBool false)
  | .mk _ .funcCall [.mk _ (.ident _) _, _] => some (ofBool false)
  | .mk _ (.unaryOp op) [e] => do unary op (← ofNode? e)
  | .mk _ (.binaryOp op) [l, r] => do
    let a ← ofNode? l
    if op == .logicalAnd && !a.isTrue then return ofBool false
    else if op == .logicalOr && a.isTrue then return ofBool true
    else binary op a (← ofNode? r)
  | .mk _ .ternaryOp [c, t, e] => do if (← ofNode? c).isTrue then ofNode? t else ofNode? e
  | _ => none

/-! ### Reading -/

/-- A truth value as a piece of text. -/
def truthPiece (line : Nat) (b : Bool) : Piece :=
  { kind := .number, text := if b then "1" else "0", line }

/-- Replaces the tests whether a name is defined, in pieces without blanks. A test is the word
`defined` and a name, which can stand in parentheses. -/
def resolveDefined (ms : Macros) : List Piece → List Piece
  | [] => []
  | p :: ps =>
    if p.kind == .name && p.text == "defined" then
      match ps with
      | [] => [p]
      | q :: rest =>
        if q.kind == .name then truthPiece p.line (ms.defines q.text) :: resolveDefined ms rest
        else
          match rest with
          | r :: s :: after =>
            if q.isMark "(" && r.kind == .name && s.isMark ")" then
              truthPiece p.line (ms.defines r.text) :: resolveDefined ms after
            else p :: resolveDefined ms (q :: r :: s :: after)
          | _ => p :: rest
    else p :: resolveDefined ms ps

/-- The expression that a text is. -/
def parse? (text : String) : Option Node := do
  let input ← tokenize text
  match (Parser.conditionalExpression (Parser.rules (input.length + 1))).run { input } with
  | .ok (e, s) => if s.input.isEmpty then some e else none
  | .error _ => none

/-- Whether a condition holds; none if it cannot be computed. A condition without text does not
hold. `fuel` bounds the steps of replacing macros. -/
def holds? (ms : Macros) (fuel : Nat) (ps : List Piece) : Option Bool := do
  let significant := List.filter fun p : Piece => !p.isBlank
  let (expanded, missing) := (Macro.expand ms fuel (resolveDefined ms (significant ps))).run false
  if missing then none
  else
    match resolveDefined ms (significant expanded) with
    | [] => return false
    | ps => return (← ofNode? (← parse? (" ".intercalate (ps.map Piece.text)))).isTrue

end Condition

end Fieldwise
