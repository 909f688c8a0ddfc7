import Fieldwise.Aggregate.Operand
import Fieldwise.Log

/-!
# Brace lists

What the entries of a brace list initialize. An entry goes to the place that its designator names,
or else to the one after the entry before it. For an aggregate the places are its fields
(`fieldValues`), for an array of aggregates the indices (`elementValues`). Of two entries for one
place the later counts. `assignElement` writes the list of an array out as assignments.
-/

namespace Fieldwise

/-- A list of keys with values, where a later value takes the place of an earlier one. -/
def put {α β : Type} [BEq α] (key : α) (value : β) : List (α × β) → List (α × β)
  | [] => [(key, value)]
  | (k, v) :: rest => if k == key then (k, value) :: rest else (k, v) :: put key value rest

/-- The index that an entry of a list goes to, where the next one would go to `cursor`. -/
def entryIndex (cursor : Int) : Node → Except Failure (Option Int)
  | .mk _ .namedInitializer [_, name] => name.intValue
  | .mk _ .namedInitializer _ => .ok none
  | _ => .ok (some cursor)

/-- The value of an entry of a list. -/
def entryValue : Node → Node
  | .mk _ .namedInitializer (value :: _) => value
  | value => value

namespace Aggregate

/-- The position that a list of designators names: that of a field, if it is a single name. -/
def designatedField (a : Aggregate) : List Node → Option Nat
  | [.mk _ (.ident name) _] => a.index? name
  | _ => none

/-- Whether a value can initialize a field. An array field needs a list or a string of its own. -/
def accepts (f : Field) (value : Node) : Bool :=
  !f.isArray || value.isA .initList || value.isString

/-- The values of fields that entries give, where the next one would go to `cursor`, added to those
found so far. -/
def fieldValuesFrom (a : Aggregate) (found : List (Nat × Node)) (cursor : Nat) :
    List Node → Option (List (Nat × Node))
  | [] => some found
  | entry :: rest =>
    let placed := match entry with
      | .mk _ .namedInitializer (value :: names) =>
        (a.designatedField names).map fun i => (i, value)
      | value => some (cursor, value)
    match placed with
    | none => none
    | some (i, value) =>
      match a.fields[i]? with
      | none => none
      | some f =>
        if accepts f value then fieldValuesFrom a (put i value found) (i + 1) rest else none

/-- The values of fields that a brace list gives, by their positions in the order in which they are
reached; none if an entry goes to no field, or gives an array field a single value. -/
def fieldValues (a : Aggregate) (list : Node) : Option (List (Nat × Node)) :=
  a.fieldValuesFrom [] 0 list.items

/-- The fields of elements that entries give, where the next one would go to `cursor`, added to
those found so far. -/
def elementValuesFrom (a : Aggregate) (found : List (Int × List (Nat × Node))) (cursor : Int) :
    List Node → Except Failure (Option (List (Int × List (Nat × Node))))
  | [] => .ok (some found)
  | entry :: rest => do
    match ← entryIndex cursor entry with
    | none => return none
    | some i =>
      let value := entryValue entry
      if value.isA .initList then
        match a.fieldValues value with
        | none => return none
        | some values => elementValuesFrom a (put i values found) (i + 1) rest
      else return none

/-- The fields of elements that a brace list gives, by their indices; none if an entry is not placed
by a constant index, or is no brace list of fields. -/
def elementValues (a : Aggregate) (list : Node) :
    Except Failure (Option (List (Int × List (Nat × Node)))) :=
  a.elementValuesFrom [] 0 list.items

end Aggregate

/-- Puts a number at its place in a sorted list. -/
def insertInt (z : Int) : List Int → List Int
  | [] => [z]
  | y :: ys => if z ≤ y then z :: y :: ys else y :: insertInt z ys

/-- Numbers in order. -/
def sortedInts (zs : List Int) : List Int := zs.foldl (fun found z => insertInt z found) []

/-! ### Lists as assignments -/

mutual

/-- Assignments that give a target a value; for a brace list, those of its elements. -/
def assignElement (name : String) (target : Node) : Node → Report (List Node)
  | .mk _ .initList items => assignElements name target 0 items
  | value =>
    if value.isString then do
      Report.note (.stringElement name) value.line
      return []
    else return [.assign target value.copy]

/-- Assignments that give the elements of a target the values of entries, from `cursor` on. -/
def assignElements (name : String) (target : Node) (cursor : Int) : List Node → Report (List Node)
  | [] => return []
  | .mk m .namedInitializer (value :: names) :: rest => do
    match ← Report.of (entryIndex cursor (.mk m .namedInitializer (value :: names))) with
    | none =>
      Report.note (.elementDesignator name) m.line
      return []
    | some i =>
      let subscript ← Report.of (Node.integer i)
      let first ← assignElement name (.arrayRef target subscript) value
      return first ++ (← assignElements name target (i + 1) rest)
  | value :: rest => do
    let subscript ← Report.of (Node.integer cursor)
    let first ← assignElement name (.arrayRef target subscript) value
    return first ++ (← assignElements name target (cursor + 1) rest)

end

end Fieldwise
