import Fieldwise.Failure
import Fieldwise.Text.Numeral
import Fieldwise.Tree.Node

/-!
# Looking at expressions

What an expression is, apart from the declarations of its names: the value of a constant, and the
constant with a value, a null pointer, the function that a call names, and the symbol that an
operand is made of.
-/

namespace Fieldwise

/-- How a symbol is wrapped in an operand: `*s`, `&s`, `s[i]` or `&s[i]`. -/
inductive Wrapper where
  | deref | address | element | elementAddress
deriving DecidableEq

/-- An operand taken apart: the wrapper, the subscript if it has one, and what is wrapped. -/
structure Unwrapped where
  wrap : Option Wrapper := none
  subscript : Node := .absent
  symbol : Node

namespace Node

/-- The value of an integer constant; none for other expressions. It fails on a constant of integer
type that is no numeral, as one of several characters, and on one with too many digits. -/
def intValue : Node → Except Failure (Option Int)
  | mk _ (.constant type text) _ =>
    if Numeral.integerTypes.contains type then
      match Numeral.value? text with
      | some z => .ok (some z)
      | none => .error (.badNumeral text)
    else .ok none
  | _ => .ok none

/-- The constant for a number. It fails on a number with too many digits. -/
def integer (z : Int) : Except Failure Node :=
  if Numeral.fits z then .ok (.intLiteral z) else .error .tooManyDigits

/-- The number of elements that an array is declared with. -/
def arraySize : Node → Except Failure (Option Int)
  | mk _ (.arrayDecl _) [_, dim] => dim.intValue
  | _ => .ok none

/-- An expression without the casts around it. -/
def stripCast : Node → Node
  | mk _ .cast [_, e] => e.stripCast
  | n => n

/-- Whether an expression is a null pointer: zero, or one of these names, with or without casts. -/
def isNull (nullNames : List String) (n : Node) : Except Failure Bool :=
  match n.stripCast with
  | mk _ (.ident name) _ => .ok (nullNames.contains name)
  | e => return (← e.intValue) == some 0

/-- The name of the function that a call calls. -/
def callName? : Node → Option String
  | mk _ .funcCall (mk _ (.ident name) _ :: _) => some name
  | _ => none

/-- The arguments of a call; none where the parentheses are empty. -/
def callArgs? : Node → Option (List Node)
  | mk _ .funcCall [_, mk _ .exprList args] => some args
  | _ => none

theorem exists_of_callArgs? {n : Node} {args : List Node} (h : n.callArgs? = some args) :
    ∃ m callee m', n = mk m .funcCall [callee, mk m' .exprList args] := by
  unfold callArgs? at h
  split at h
  · rename_i m callee m' args'
    cases h
    exact ⟨m, callee, m', rfl⟩
  · cases h

/-- The list of the arguments is a part of the call. -/
theorem exists_mem_parts_of_callArgs? {n : Node} {args : List Node} (h : n.callArgs? = some args) :
    ∃ m, mk m .exprList args ∈ n.parts := by
  obtain ⟨_, _, m, rfl⟩ := exists_of_callArgs? h
  exact ⟨m, List.mem_cons_of_mem _ List.mem_cons_self⟩

/-- Whether an expression is a string. -/
def isString : Node → Bool
  | mk _ (.constant type _) _ => type == "string"
  | _ => false

/-- The symbol of an operand, and how it is wrapped. -/
def unwrap : Node → Unwrapped
  | mk _ (.unaryOp .address) [mk _ .arrayRef [array, subscript]] =>
    { wrap := some .elementAddress, subscript, symbol := array }
  | mk _ (.unaryOp .deref) [e] => { wrap := some .deref, symbol := e }
  | mk _ (.unaryOp .address) [e] => { wrap := some .address, symbol := e }
  | mk _ .arrayRef [array, subscript] => { wrap := some .element, subscript, symbol := array }
  | e => { symbol := e }

/-- How many elements the entries of a brace list reach, where the next one would go to `cursor` and
those before reach `length`; none if an entry is not placed by a constant index. -/
def lengthFrom (length cursor : Int) : List Node → Except Failure (Option Int)
  | [] => .ok (some length)
  | mk _ .namedInitializer (_ :: name :: _) :: rest => do
    match ← name.intValue with
    | none => return none
    | some z => lengthFrom (max length (z + 1)) (z + 1) rest
  | _ :: rest => lengthFrom (max length (cursor + 1)) (cursor + 1) rest

/-- How many elements the entries of a brace list need. -/
def listLength (list : Node) : Except Failure (Option Int) := lengthFrom 0 0 list.items

end Node

end Fieldwise
