import Fieldwise.Session.Signature

/-!
# Decompositions

Replacing bindings by their field variables: one binding, all bindings of an aggregate, or those of
several aggregates. Of an aggregate the variables come first and then the parameters. Every binding
is settled before the next: its field variables are declared after it, its uses are rewritten, and
at last its declaration is taken out. A declaration that also defines a type leaves the definition.
-/

namespace Fieldwise

namespace Engine

/-- Takes out the declaration of a binding, except for the type that it defines. -/
def removeDeclaration (b : Binding) : Engine Unit :=
  match b.decl.definedType? with
  | some type => edit fun d => d.replace b.decl (.build (.decl none {}) [type, .absent, .absent])
  | none => edit fun d => d.detach b.decl

/-- Decomposes a variable. -/
def decomposeVariable (b : Binding) : Engine Unit := do
  let b ← refresh b
  let decls ← synthesize b
  let x ← initialValues b decls
  edit fun d => d.insertAfter b.decl (x.decls ++ x.after)
  edit fun d => d.insertBefore b.decl x.before
  record b
  rewrite b
  removeDeclaration (← refresh b)

/-- Decomposes a variable or a parameter. -/
def decomposeBinding (b : Binding) : Engine Unit :=
  if b.isParam then decomposeParam b else decomposeVariable b

/-- Decomposes those of some bindings that are still in the program, and returns their names. -/
def decomposeAttached : List Binding → Engine (List String)
  | [] => return []
  | b :: bs => do
    if (← getThe Session).document.attached b.decl then
      decomposeBinding b
      return b.name :: (← decomposeAttached bs)
    else decomposeAttached bs

/-- Decomposes all bindings of an aggregate, variables first, and returns their names. -/
def decompose (a : Aggregate) : Engine (List String) := do
  let (vars, params) ← report fun s => s.bindings a
  note (.bindings a.name vars.length params.length) none
  return (← decomposeAttached vars) ++ (← decomposeAttached params)

/-- Decomposes several aggregates, and returns their names. -/
def decomposeEach : List Aggregate → Engine (List String)
  | [] => return []
  | a :: rest => do
    let _ ← decompose a
    return a.name :: (← decomposeEach rest)

/-- Decomposes all aggregates of the program, and returns their names. -/
def decomposeAll : Engine (List String) := do decomposeEach (← getThe Session).aggregates

/-- Decomposes the aggregate that a struct is, and returns its name. -/
def decomposeStruct (struct : Node) : Engine (List String) := do
  match (← getThe Session).aggregates.find? fun a => a.struct.same struct with
  | some a => decomposeEach [a]
  | none =>
    note (.notDecomposable struct.name?) struct.line
    return []

/-- Decomposes the aggregate with a name, and returns its own name. -/
def decomposeByName (name : String) : Engine (List String) := do
  match (← getThe Session).find? name with
  | some a => decomposeEach [a]
  | none =>
    note (.unknownStruct name) none
    return []

/-- Decomposes the aggregates with some names, and returns the names for each. -/
def decomposeByNames : List String → Engine (List (List String))
  | [] => return []
  | name :: rest => do
    let found ← decomposeByName name
    return found :: (← decomposeByNames rest)

end Engine

end Fieldwise
