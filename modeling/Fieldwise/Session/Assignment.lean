import Fieldwise.Session.Initializer

/-!
# Assignments of whole aggregates

An assignment between two operands becomes one statement for each field. `CopyRule` lists the shapes
of operands that can be assigned, in the order in which they are tried; each either copies objects
or makes pointers point elsewhere.
-/

namespace Fieldwise

/-- The shapes of assignments. -/
inductive CopyRule where
  | scalarToScalar | elementToElement | derefToScalar | pointerToPointer | addressOfToPointer
  | structToArrayPosition | arrayPositionToStruct | structToDeref
deriving DecidableEq

namespace CopyRule

/-- All rules, in the order in which they are tried. -/
def all : List CopyRule :=
  [scalarToScalar, elementToElement, derefToScalar, pointerToPointer, addressOfToPointer,
    structToArrayPosition, arrayPositionToStruct, structToDeref]

/-- The name of a rule. -/
def text : CopyRule → String
  | scalarToScalar => "ScalarToScalar"
  | elementToElement => "ElementToElement"
  | derefToScalar => "DerefToScalar"
  | pointerToPointer => "PointerToPointer"
  | addressOfToPointer => "AddressOfToPointer"
  | structToArrayPosition => "StructToArrayPosition"
  | arrayPositionToStruct => "ArrayPositionToStruct"
  | structToDeref => "StructToDeref"

/-- The shapes of elements. -/
def elements : List (Kind × Option Wrapper) :=
  [(.array, some .element), (.pointer, some .element)]

/-- The shapes of targets. -/
def targets : CopyRule → List (Kind × Option Wrapper)
  | scalarToScalar | derefToScalar => [(.value, none)]
  | elementToElement | structToArrayPosition => elements
  | pointerToPointer | addressOfToPointer => [(.pointer, none)]
  | arrayPositionToStruct => [(.value, none), (.pointer, some .deref)]
  | structToDeref => [(.pointer, some .deref)]

/-- The shapes of sources. -/
def sources : CopyRule → List (Kind × Option Wrapper)
  | scalarToScalar => [(.value, none)]
  | elementToElement | arrayPositionToStruct => elements
  | derefToScalar => [(.pointer, some .deref)]
  | pointerToPointer =>
    [(.pointer, none), (.array, none), (.pointer, some .elementAddress),
      (.array, some .elementAddress)]
  | addressOfToPointer => [(.value, some .address)]
  | structToArrayPosition | structToDeref => [(.value, none), (.pointer, some .deref)]

/-- Whether the rule makes pointers point elsewhere, and does not copy objects. -/
def movesPointers : CopyRule → Bool
  | pointerToPointer | addressOfToPointer => true
  | _ => false

/-- Whether the rule is for these operands. -/
def applies (target source : Operand) (r : CopyRule) : Bool :=
  r.targets.contains target.shape && r.sources.contains source.shape

/-- The statement for one field. -/
def statement (r : CopyRule) (options : Options) (target source : Operand) (f : Field) : Node :=
  if r.movesPointers then .assign (target.address f) (source.address f)
  else options.copyStatement f (target.object f) (source.object f)

/-- The statements for all fields, in order. -/
def statements (r : CopyRule) (options : Options) (target source : Operand) : List Node :=
  target.binding.aggregate.fields.map (r.statement options target source)

/-- Whether the statements call the function that copies bytes. -/
def copiesBytes (r : CopyRule) (target : Operand) : Bool :=
  !r.movesPointers && target.binding.aggregate.fields.any Field.isArray

/-- The rule for two operands, if there is one. -/
def find? (target source : Operand) : Option CopyRule := all.find? (applies target source)

end CopyRule

/-- The statements that assign each field of one operand to that of another; none if there is no
rule for them. -/
def Engine.assign (target source : Operand) : Engine (Option (List Node)) := do
  if target.binding.aggregate.same source.binding.aggregate then
    match CopyRule.find? target source with
    | none => return none
    | some r =>
      Engine.note (.assigned target.binding.name source.binding.name r.text) none
      let options := (← getThe Session).options
      if r.copiesBytes target then Engine.requireHeader options.copyHeader
      return some (r.statements options target source)
  else throw .differentAggregates

end Fieldwise
