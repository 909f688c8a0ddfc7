import Fieldwise.Aggregate.Basic
import Fieldwise.Log

/-!
# Collecting aggregates

`collect` finds the structs of a program that can be taken apart. A struct goes by its tag and by
all aliases declared for it or for one of its names; one without any name, or with a name that an
earlier struct has, is passed over. Its members must have names and must not be structs themselves.
A pragma among the members ends the search, since it cannot have a name.
-/

namespace Fieldwise

open Report

namespace Aggregate

/-- The members of a struct as fields, or what keeps them from being fields. `known` are the names
of all structs. It fails on a member that is no declaration. -/
def fieldsOf (known : List String) :
    List Node → ExceptT StructProblem (Except Failure) (List Field)
  | [] => return []
  | member :: rest =>
    match member with
    | .mk _ (.decl (some name) _) (type :: _) =>
      if type.baseType.isA .structType || type.typeName?.any known.contains then
        throw (.aggregateField name)
      else if type.isArray && !type.dimension.isPresent then throw (.flexibleMember name)
      else do return { name, type } :: (← fieldsOf known rest)
    | .mk _ (.decl ..) _ => throw .unnamedMember
    | _ => throwThe Failure .noName

/-- The fields of a struct with at least one member. -/
def structFields (known : List String) (struct : Node) :
    ExceptT StructProblem (Except Failure) (List Field) := do
  match ← fieldsOf known struct.items with
  | [] => throw .noFields
  | fields => return fields

/-- Whether an alias is for a struct, as its node or by one of its names. -/
def isAliasOf (struct : Node) (names : List String) (type : Node) : Bool :=
  type.baseType.same struct || type.typeName?.any names.contains

/-- The names of a struct: its tag, and then its aliases in the order of their declarations. An
alias of an alias counts if it comes after that. -/
def namesOf (aliases : List Node) (struct : Node) : List String :=
  let tags := match struct.name? with
    | some tag => ["struct " ++ tag]
    | none => []
  aliases.foldl (fun names d =>
    match d with
    | .mk _ (.typedef (some name) _) [type] =>
      if isAliasOf struct names type then names ++ [name] else names
    | _ => names) tags

/-- The type aliases of a program that add no declarator to a type. -/
def plainAliases (root : Node) : List Node :=
  (root.ofClass .typedef).filter fun d => (d.child .type).isA .typeDecl

/-- The structs of a program that have members. -/
def definitions (root : Node) : List Node :=
  root.preorder.filter fun n =>
    match n.form? with
    | some (.structType _ complete) => complete
    | _ => false

/-- The structs with the names they have, leaving out those that have none. -/
def namedStructs (aliases : List Node) : List Node → Report (List (Node × List String))
  | [] => return []
  | struct :: rest =>
    match namesOf aliases struct with
    | [] => do
      note .anonymousStruct struct.line
      namedStructs aliases rest
    | names => do return (struct, names) :: (← namedStructs aliases rest)

/-- The aggregates among structs with names, where `claimed` are names that are taken. -/
def ofStructs (known claimed : List String) :
    List (Node × List String) → Report (List Aggregate)
  | [] => return []
  | (struct, names) :: rest =>
    let name := names.headD ""
    if names.any claimed.contains then do
      note (.redefinition name) struct.line
      ofStructs known claimed rest
    else do
      match ← Report.of (structFields known struct).run with
      | .error problem =>
        note (.structSkipped name problem) struct.line
        ofStructs known (claimed ++ names) rest
      | .ok fields =>
        note (.found name (fields.map Field.name)) none
        return { name, names, struct, fields } :: (← ofStructs known (claimed ++ names) rest)

/-- The aggregates of a program, in the order of their definitions. -/
def collect (root : Node) : Report (List Aggregate) := do
  let found ← namedStructs (plainAliases root) (definitions root)
  ofStructs (found.flatMap Prod.snd) [] found

end Aggregate

end Fieldwise
