import Fieldwise.Tree.Declarator
import Fieldwise.Tree.Document

/-!
# Aggregates and their bindings

An `Aggregate` is a struct type whose variables can be replaced by one variable for each field, with
all names it goes by. A `Binding` is the declaration of a variable or parameter of such a type: an
object (`value`), a pointer to one, or an array of them.

The nodes in these values are as they were when they were looked up. `refresh` brings them up to
date with a document that has been edited since.
-/

namespace Fieldwise

/-- Which functions and names have a meaning for the rewriting. -/
structure Options where
  /-- Functions that allocate memory, with the size as last argument. -/
  allocators : List String := ["malloc", "calloc"]
  /-- Functions that release the memory a pointer points to. -/
  deallocators : List String := ["free"]
  /-- The function that copies bytes, given the target, the source and the number of bytes. -/
  copyFunction : String := "memcpy"
  /-- The header that declares it. -/
  copyHeader : String := "string.h"
  /-- Names of the null pointer. -/
  nullNames : List String := ["NULL", "nullptr"]

/-- A member of an aggregate. -/
structure Field where
  name : String
  type : Node

/-- Whether the member is an array. -/
def Field.isArray (f : Field) : Bool := f.type.isArray

/-- A struct type with its names: its tag, and the aliases for it. -/
structure Aggregate where
  name : String
  names : List String
  struct : Node
  fields : List Field

namespace Aggregate

/-- Whether two aggregates are the same struct. -/
def same (a b : Aggregate) : Bool := a.struct.same b.struct

/-- Whether a declared type is based on an aggregate: on its struct, or on one of its names. -/
def isBaseOf (a : Aggregate) (type : Node) : Bool :=
  type.baseType.same a.struct || type.typeName?.any a.names.contains

/-- The position of a field. -/
def index? (a : Aggregate) (name : String) : Option Nat := a.fields.findIdx? (·.name == name)

/-- The field with a name. -/
def field? (a : Aggregate) (name : String) : Option Field := a.fields.find? (·.name == name)

/-- The aggregate as it is in a document now. -/
def refresh (a : Aggregate) (d : Document) : Aggregate :=
  { a with fields := a.fields.map fun f => { f with type := d.current f.type } }

end Aggregate

/-- What a binding declares: an object, a pointer to objects, or an array of them. -/
inductive Kind where
  | value | pointer | array
deriving DecidableEq

/-- The word for a kind. -/
def Kind.text : Kind → String
  | value => "value"
  | pointer => "pointer"
  | array => "array"

/-- A variable or parameter of an aggregate type, in the scope that declares it. -/
structure Binding where
  decl : Node
  aggregate : Aggregate
  kind : Kind
  scope : Node
  size : Option Int := none

namespace Binding

/-- The declared name. -/
def name (b : Binding) : String := b.decl.name?.getD ""

/-- The declared type. -/
def type (b : Binding) : Node := b.decl.child .type

/-- The initializer, if there is one. -/
def init (b : Binding) : Node := b.decl.child .init

/-- The words for the storage of the variable. -/
def storage (b : Binding) : List String :=
  match b.decl.form? with
  | some (.decl _ spec) => spec.storage
  | _ => []

/-- Whether the binding is a parameter. -/
def isParam (b : Binding) : Bool := b.scope.isA .funcDef

/-- Whether the binding is declared at file scope. -/
def isGlobal (b : Binding) : Bool := b.scope.isA .file

/-- The name of the variable that holds a field. -/
def fieldName (b : Binding) (f : Field) : String := b.name ++ "_" ++ f.name

/-- The binding as it is in a document now. -/
def refresh (b : Binding) (d : Document) : Binding :=
  { b with
    decl := d.current b.decl
    aggregate := b.aggregate.refresh d
    scope := d.current b.scope }

end Binding

end Fieldwise
