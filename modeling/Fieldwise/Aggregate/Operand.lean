import Fieldwise.Aggregate.Basic
import Fieldwise.Tree.Expression

/-!
# Operands

An `Operand` is a binding as it is written in an expression: bare, dereferenced, indexed, or with
its address taken. It denotes an object of the aggregate or the address of one, and for each field
`Operand.expression` is the object or address of that field.

A pointer to objects becomes one pointer for each field. For an array field that is a pointer to its
elements, where the arrays of successive objects follow each other.
-/

namespace Fieldwise

/-- A binding in an expression, how it is wrapped, and the subscript if it is indexed. -/
structure Operand where
  binding : Binding
  wrap : Option Wrapper := none
  subscript : Node := .absent

/-- What an operand stands for. -/
inductive Denotation where
  | object | address
deriving DecidableEq

/-- The mark of a wrapper. -/
def Wrapper.text : Wrapper → String
  | deref => "*"
  | address => "&"
  | element => "[]"
  | elementAddress => "&[]"

/-- The word for what an operand stands for. -/
def Denotation.text : Denotation → String
  | object => "object"
  | address => "address"

/-- The operand of a binding under a wrapper. A dereferenced array is its first element. -/
def Binding.operand (b : Binding) (wrap : Option Wrapper) (subscript : Node) : Operand :=
  if b.kind == .array && wrap == some .deref then
    { binding := b, wrap := some .element, subscript := .intLiteral 0 }
  else { binding := b, wrap, subscript }

/-- The binding on its own as an operand. -/
def Binding.bare (b : Binding) : Operand := b.operand none .absent

namespace Operand

/-- The kind of the binding and how it is wrapped. -/
def shape (o : Operand) : Kind × Option Wrapper := (o.binding.kind, o.wrap)

/-- What the operand stands for; nothing, if it makes no sense for its kind. -/
def denotes (o : Operand) : Option Denotation :=
  match o.shape with
  | (.value, none) | (.pointer, some .deref) | (.pointer, some .element)
  | (.array, some .element) => some .object
  | (.pointer, none) | (.array, none) | (.value, some .address)
  | (.pointer, some .elementAddress) | (.array, some .elementAddress) => some .address
  | _ => none

/-- The variable for a field. -/
def fieldIdent (o : Operand) (f : Field) : Node := .ident (o.binding.fieldName f)

/-- An element of the variable for a field. The arrays that a pointer to an array field points to
are reached by their length. -/
def element (o : Operand) (f : Field) : Node :=
  if o.binding.kind == .pointer && f.isArray then
    .binary .add (o.fieldIdent f) (.binary .mul o.subscript.copy f.type.dimension.copy)
  else .arrayRef (o.fieldIdent f) o.subscript.copy

/-- The field of the object that the operand stands for. -/
def object (o : Operand) (f : Field) : Node :=
  match o.wrap with
  | none => o.fieldIdent f
  | some .deref => if f.isArray then o.fieldIdent f else .unary .deref (o.fieldIdent f)
  | _ => o.element f

/-- The address of the field of the object whose address the operand stands for; for an array
field, that of its first element. -/
def address (o : Operand) (f : Field) : Node :=
  if o.wrap == some .elementAddress then
    if f.isArray then o.element f else .unary .address (o.element f)
  else
    match o.binding.kind with
    | .pointer => o.fieldIdent f
    | .array => if f.isArray then .arrayRef (o.fieldIdent f) (.intLiteral 0) else o.fieldIdent f
    | .value => if f.isArray then o.fieldIdent f else .unary .address (o.fieldIdent f)

/-- What the operand stands for, for one field. -/
def expression (o : Operand) (f : Field) : Node :=
  if o.denotes == some .object then o.object f else o.address f

end Operand

end Fieldwise
