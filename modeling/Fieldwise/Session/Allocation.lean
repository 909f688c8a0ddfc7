import Fieldwise.Session.Scope
import Fieldwise.Aggregate.Operand
import Fieldwise.Tree.Printer

/-!
# Allocations

The allocation of memory for objects of an aggregate, taken apart into one allocation for each field
(`Session.allocation`). The size must be that of the aggregate, possibly times a constant, or a
constant alone. The new calls keep the function, its other arguments and the factor, and each asks
for the size of one field.
-/

namespace Fieldwise

open Report

/-- The number of objects that an allocation asks for, apart from its leading arguments. -/
inductive Quantity where
  | one
  | times (factor : Node)

/-- The size of one field times what the allocation asks for. -/
def Quantity.size (q : Quantity) (f : Field) : Node :=
  let unit := Node.sizeOfNode f.type.typenameOf
  match q with
  | one => unit
  | times factor => .binary .mul unit factor.copy

/-- The call that allocates one field, cast to a pointer to it. -/
def Field.allocation (f : Field) (callee : Node) (leading : List Node) (q : Quantity) : Node :=
  .build .cast [f.type.pointerTo.typenameOf,
    .callOf callee.copy (leading.map Node.copy ++ [q.size f])]

namespace Session

variable (s : Session)

/-- Whether an expression is the size of the aggregate of a binding: of its type, or of an operand
that is an object of it. -/
def isAggregateSize (b : Binding) (n : Node) : Report Bool :=
  match n with
  | .mk _ (.unaryOp .sizeof) [e] =>
    match e with
    | .mk _ (.typename _) [type] =>
      return type.layers == some [] && (s.aggregateOf? type).any b.aggregate.same
    | _ =>
      let u := e.unwrap
      match u.symbol with
      | .mk _ (.ident name) _ => do
        match ← s.lookup n name with
        | none => return false
        | some target =>
          return target.aggregate.same b.aggregate &&
            (target.operand u.wrap .absent).denotes == some .object
      | _ => return false
  | _ => return false

/-- The factor in a product with the size of the aggregate of a binding. -/
def sizeFactor (b : Binding) (left right : Node) : Report (Option Node) := do
  if ← s.isAggregateSize b left then return some right
  else if ← s.isAggregateSize b right then return some left
  else return none

/-- How many objects an allocation asks for, given its last argument. `line` is that of the
allocation, and `lone` tells that the size is its only argument. -/
def quantity (b : Binding) (line : Option Nat) (lone : Bool) (size : Node) :
    Report (Option Quantity) :=
  match size with
  | .mk _ (.binaryOp .mul) [left, right] => do
    match ← s.sizeFactor b left right with
    | none => return none
    | some factor =>
      if (← Report.of factor.intValue).isSome then return some (.times factor)
      else
        note (.scaledAllocation b.name) line
        return none
  | _ => do
    if (← Report.of size.intValue).isSome && lone then
      note (.literalAllocation b.name size.text b.aggregate.name) line
      return some .one
    else if ← s.isAggregateSize b size then return some .one
    else return none

/-- One allocation for each field, in order, for an expression that allocates objects of the
aggregate of a binding; none for other expressions. -/
def allocation (b : Binding) (e : Node) : Report (Option (List Node)) :=
  let call := e.stripCast
  match call.callName?, call.callArgs? with
  | some name, some args =>
    if s.options.allocators.contains name then do
      match ← s.quantity b e.line (args.length == 1) (args.getLastD .absent) with
      | some q =>
        return some (b.aggregate.fields.map fun f =>
          f.allocation (call.child .name) args.dropLast q)
      | none => return none
    else return none
  | _, _ => return none

end Session

end Fieldwise
