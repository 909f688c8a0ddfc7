import Fieldwise.Aggregate.BraceList
import Fieldwise.Aggregate.Synthesis
import Fieldwise.Session.Allocation

/-!
# Initializers

How the initializer of a binding is given to its field variables. A `Strategy` recognises one shape
of initializer, and the first of them that does decides (`Session.plan?`). `Engine.initialValues`
carries the plan out.
-/

namespace Fieldwise

open Report

/-- The shapes of initializers, in the order in which they are tried. -/
inductive Strategy where
  | directList | pointerList | heapAllocation | aggregateCopy | arrayOfAggregates
deriving DecidableEq

/-- The name of a strategy. -/
def Strategy.text : Strategy → String
  | directList => "DirectList"
  | pointerList => "PointerList"
  | heapAllocation => "HeapAllocation"
  | aggregateCopy => "AggregateCopy"
  | arrayOfAggregates => "ArrayOfAggregates"

/-- What a strategy found in an initializer. -/
inductive Plan where
  /-- The values of the fields, by their positions. -/
  | directList (values : List (Nat × Node))
  /-- The values of the fields of an object that the pointer is to point to. -/
  | pointerList (values : List (Nat × Node))
  /-- One allocation for each field. -/
  | heapAllocation (calls : List Node)
  /-- The operand whose fields are copied. -/
  | aggregateCopy (source : Operand)
  /-- The values of the fields of elements, by their indices. -/
  | arrayOfAggregates (elements : List (Int × List (Nat × Node)))

/-- The strategy of a plan. -/
def Plan.strategy : Plan → Strategy
  | directList _ => .directList
  | pointerList _ => .pointerList
  | heapAllocation _ => .heapAllocation
  | aggregateCopy _ => .aggregateCopy
  | arrayOfAggregates _ => .arrayOfAggregates

/-- The declarations that replace one, and what goes before and after them. -/
structure Expansion where
  before : List Node := []
  decls : List Node
  after : List Node := []

/-- Which operands can initialize which bindings: the kind of the target, the wrapper and the kind
of the source. -/
def canCopy (target : Kind) (wrap : Option Wrapper) (source : Kind) : Bool :=
  match target, wrap, source with
  | .value, none, .value | .value, some .deref, .pointer | .value, some .element, .array
  | .value, some .element, .pointer => true
  | .pointer, none, .pointer | .pointer, none, .array | .pointer, some .address, .value
  | .pointer, some .elementAddress, .array | .pointer, some .elementAddress, .pointer => true
  | _, _, _ => false

namespace Node

/-- A declaration with another initializer. -/
def withInit (decl init : Node) : Node :=
  match decl with
  | mk m (.decl name spec) [type, _, bitsize] => mk m (.decl name spec) [type, init, bitsize]
  | n => n

/-- The type and the brace list of the literal that a pointer is set to the address of. -/
def addressedLiteral? : Node → Option (Node × Node)
  | mk _ (.unaryOp .address)
      [mk _ .compoundLiteral [mk _ (.typename _) [type], mk m .initList items]] =>
    some (type, mk m .initList items)
  | _ => none

end Node

namespace Session

variable (s : Session)

/-- The plan that one strategy makes for a binding, if the initializer has its shape. -/
def planFor (b : Binding) : Strategy → Report (Option Plan)
  | .directList =>
    if b.kind == .value && b.init.isA .initList then
      return (b.aggregate.fieldValues b.init).map .directList
    else return none
  | .pointerList =>
    match b.kind, b.init.addressedLiteral? with
    | .pointer, some (type, list) =>
      if type.layers == some [] && (s.aggregateOf? type).any b.aggregate.same then
        return (b.aggregate.fieldValues list).map .pointerList
      else return none
    | _, _ => return none
  | .heapAllocation =>
    if b.kind == .pointer then do
      return (← s.allocation b b.init).map .heapAllocation
    else return none
  | .aggregateCopy =>
    let u := b.init.unwrap
    match u.symbol with
    | .mk m (.ident name) ps => do
      match ← s.lookup (.mk m (.ident name) ps) name with
      | none => return none
      | some source =>
        if source.aggregate.same b.aggregate && canCopy b.kind u.wrap source.kind then
          return some (.aggregateCopy (source.operand u.wrap u.subscript))
        else return none
    | _ => return none
  | .arrayOfAggregates =>
    if b.kind == .array && b.init.isA .initList then do
      return (← Report.of (b.aggregate.elementValues b.init)).map .arrayOfAggregates
    else return none

/-- The plan of the first of some strategies that makes one. -/
def planAmong (b : Binding) : List Strategy → Report (Option Plan)
  | [] => return none
  | strategy :: rest => do
    match ← s.planFor b strategy with
    | some plan => return some plan
    | none => planAmong b rest

/-- The plan for the initializer of a binding. -/
def plan? (b : Binding) : Report (Option Plan) :=
  s.planAmong b [.directList, .pointerList, .heapAllocation, .aggregateCopy, .arrayOfAggregates]

end Session

/-! ### Carrying out a plan -/

/-- The declarations, each with the value of its position, if it has one. -/
def directInits (values : List (Nat × Node)) (decls : List Node) : List Node :=
  decls.mapIdx fun i decl =>
    match values.lookup i with
    | some value => decl.withInit value.copy
    | none => decl

/-- Fails if the index of an element with values has too many digits. -/
def checkIndices (elements : List (Int × List (Nat × Node))) : Except Failure Unit :=
  if elements.all fun (z, values) => values.isEmpty || Numeral.fits z then .ok ()
  else .error .tooManyDigits

/-- The brace list of the variable for a field of an array: its values by their indices. -/
def indexedList (elements : List (Int × List (Nat × Node))) (indices : List Int) (i : Nat) : Node :=
  let entries := indices.filterMap fun z =>
    ((elements.lookup z).bind (List.lookup i)).map fun value =>
      Node.build .namedInitializer [value.copy, .intLiteral z]
  if entries.isEmpty then .absent else .build .initList entries

/-- A statement that copies one field. Arrays are copied as bytes. -/
def Options.copyStatement (options : Options) (f : Field) (target source : Node) : Node :=
  if f.isArray then
    .call options.copyFunction [target, source, .sizeOfNode f.type.typenameOf]
  else .assign target source

/-- Assignments that give an element of the field variables its values, in the order of fields. -/
def assignFields (b : Binding) (z : Int) (values : List (Nat × Node)) :
    Nat → List Field → Report (List Node)
  | _, [] => return []
  | i, f :: fs =>
    match values.lookup i with
    | some value => do
      let subscript ← Report.of (Node.integer z)
      let first ← assignElement b.name (.arrayRef (.ident (b.fieldName f)) subscript) value
      return first ++ (← assignFields b z values (i + 1) fs)
    | none => assignFields b z values (i + 1) fs

/-- Assignments that give elements of the field variables their values, in the order of indices. -/
def assignAll (b : Binding) (elements : List (Int × List (Nat × Node))) :
    List Int → Report (List Node)
  | [] => return []
  | z :: zs => do
    let first ← assignFields b z ((elements.lookup z).getD []) 0 b.aggregate.fields
    return first ++ (← assignAll b elements zs)

/-- How one field variable is initialized from a copied operand: by a value, by a statement after
the declarations, or not at all. -/
inductive FieldCopy where
  | init (value : Node)
  | statement (stmt : Node)
  | unsupported

/-- How a field variable is initialized from an operand. Arrays are copied by a statement, which
cannot stand at file scope. -/
def fieldCopy (options : Options) (b : Binding) (source : Operand) (f : Field) : FieldCopy :=
  if b.kind == .pointer then .init (source.address f)
  else if !f.isArray then .init (source.object f)
  else if b.isGlobal then .unsupported
  else .statement (options.copyStatement f (.ident (b.fieldName f)) (source.object f))

namespace Engine

/-- The field variables of an object that a pointer is set to point to, with names of their own. -/
def holders (b : Binding) (values : List (Nat × Node)) :
    Nat → List Field → List Node → Engine (List Node × List Node)
  | i, f :: fs, decl :: decls =>
    match values.lookup i with
    | some value => do
      let name ← freshName (b.fieldName f ++ "_init")
      let holder := Node.declare name f.type value.copy b.storage
      let decl := decl.withInit (if f.isArray then .ident name else .unary .address (.ident name))
      let (before, decls) ← holders b values (i + 1) fs decls
      return (holder :: before, decl :: decls)
    | none => do
      let (before, decls) ← holders b values (i + 1) fs decls
      return (before, decl :: decls)
  | _, _, decls => return ([], decls)

/-- The field variables with copies of the fields of an operand. -/
def copies (b : Binding) (source : Operand) :
    List Field → List Node → Engine (List Node × List Node)
  | f :: fs, decl :: decls => do
    let options := (← getThe Session).options
    let (decl, first) ←
      match fieldCopy options b source f with
      | .init value => pure (decl.withInit value, [])
      | .statement stmt => do
        requireHeader options.copyHeader
        pure (decl, [stmt])
      | .unsupported => do
        note (.globalArrayCopy f.name b.name) b.decl.line
        pure (decl, [])
    let (decls, after) ← copies b source fs decls
    return (decl :: decls, first ++ after)
  | _, decls => return (decls, [])

/-- Carries out a plan for the declarations of the field variables. -/
def applyPlan (b : Binding) (decls : List Node) : Plan → Engine Expansion
  | .directList values => return { decls := directInits values decls }
  | .pointerList values => do
    let (before, decls) ← holders b values 0 b.aggregate.fields decls
    return { before, decls }
  | .heapAllocation calls => return { decls := decls.zipWith (fun d c => d.withInit c) calls }
  | .aggregateCopy source => do
    let (decls, after) ← copies b source b.aggregate.fields decls
    return { decls, after }
  | .arrayOfAggregates elements => do
    let indices := sortedInts (elements.map Prod.fst)
    if b.isGlobal || b.storage.contains "static" then
      report fun _ => Report.of (checkIndices elements)
      return { decls := decls.mapIdx fun i d => d.withInit (indexedList elements indices i) }
    else
      let after ← report fun _ => assignAll b elements indices
      return { decls, after }

/-- The field variables of a binding with their initial values, and the statements around them. -/
def initialValues (b : Binding) (decls : List Node) : Engine Expansion := do
  if b.init.isPresent then
    match ← report fun s => s.plan? b with
    | some plan =>
      note (.initialized b.name plan.strategy.text) b.decl.line
      applyPlan b decls plan
    | none =>
      note (.unsupportedInit b.name) b.decl.line
      return { decls }
  else return { decls }

end Engine

end Fieldwise
