/-!
# Operators

The operators that occur in expressions, with their spelling and, for binary operators, how
tightly they bind. A larger `BinaryOp.precedence` binds tighter; operators of one level group from
the left.
-/

namespace Fieldwise

/-- Operators with one operand. The increments and decrements come before or after it. -/
inductive UnaryOp where
  | plus | minus | deref | address | not | complement
  | preIncrement | preDecrement | postIncrement | postDecrement
  | sizeof | alignof
deriving DecidableEq

/-- Operators with two operands, except assignments and the comma. -/
inductive BinaryOp where
  | logicalOr | logicalAnd | bitOr | bitXor | bitAnd
  | equal | notEqual | less | greater | lessEqual | greaterEqual
  | shiftLeft | shiftRight | add | sub | mul | div | mod
deriving DecidableEq

/-- Assignment, plain or combined with an operation. -/
inductive AssignOp where
  | plain
  | compound (op : BinaryOp)
deriving DecidableEq

/-- How a member is selected: from an object, or through a pointer to it. -/
inductive Access where
  | dot | arrow
deriving DecidableEq

namespace UnaryOp

/-- The name of the operator; the ones written after their operand are marked with `p`. -/
def text : UnaryOp → String
  | plus => "+"
  | minus => "-"
  | deref => "*"
  | address => "&"
  | not => "!"
  | complement => "~"
  | preIncrement => "++"
  | preDecrement => "--"
  | postIncrement => "p++"
  | postDecrement => "p--"
  | sizeof => "sizeof"
  | alignof => "_Alignof"

/-- The operators that one token in front of an operand stands for. -/
def ofLeading? : String → Option UnaryOp
  | "+" => some plus
  | "-" => some minus
  | "*" => some deref
  | "&" => some address
  | "!" => some not
  | "~" => some complement
  | "++" => some preIncrement
  | "--" => some preDecrement
  | _ => none

end UnaryOp

namespace BinaryOp

/-- The spelling of the operator. -/
def text : BinaryOp → String
  | logicalOr => "||"
  | logicalAnd => "&&"
  | bitOr => "|"
  | bitXor => "^"
  | bitAnd => "&"
  | equal => "=="
  | notEqual => "!="
  | less => "<"
  | greater => ">"
  | lessEqual => "<="
  | greaterEqual => ">="
  | shiftLeft => "<<"
  | shiftRight => ">>"
  | add => "+"
  | sub => "-"
  | mul => "*"
  | div => "/"
  | mod => "%"

/-- How tightly the operator binds, weakest first. -/
def precedence : BinaryOp → Nat
  | logicalOr => 0
  | logicalAnd => 1
  | bitOr => 2
  | bitXor => 3
  | bitAnd => 4
  | equal | notEqual => 5
  | less | greater | lessEqual | greaterEqual => 6
  | shiftLeft | shiftRight => 7
  | add | sub => 8
  | mul | div | mod => 9

/-- All binary operators. -/
def all : List BinaryOp :=
  [logicalOr, logicalAnd, bitOr, bitXor, bitAnd, equal, notEqual, less, greater, lessEqual,
    greaterEqual, shiftLeft, shiftRight, add, sub, mul, div, mod]

/-- The operator with a given spelling. -/
def ofText? (s : String) : Option BinaryOp := all.find? (·.text == s)

theorem ofText?_text (op : BinaryOp) : ofText? op.text = some op := by
  cases op <;> decide +kernel

end BinaryOp

namespace AssignOp

/-- The spelling of the assignment. -/
def text : AssignOp → String
  | plain => "="
  | compound op => op.text ++ "="

/-- The operations that an assignment can be combined with. -/
def combinable : List BinaryOp :=
  [.mul, .div, .mod, .add, .sub, .shiftLeft, .shiftRight, .bitAnd, .bitXor, .bitOr]

/-- The assignment with a given spelling. -/
def ofText? (s : String) : Option AssignOp :=
  (plain :: combinable.map compound).find? (·.text == s)

end AssignOp

/-- The spelling of a member selection. -/
def Access.text : Access → String
  | dot => "."
  | arrow => "->"

end Fieldwise
