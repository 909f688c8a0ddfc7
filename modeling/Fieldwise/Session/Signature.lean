import Fieldwise.Session.Occurrence

/-!
# Parameters and signatures

A parameter is replaced by one parameter for each field, at its place in the list. After that every
other declaration of a function with that name is given the new type of the definition.
-/

namespace Fieldwise

/-- The other declarations of functions with the name of a definition. -/
def Session.prototypes (s : Session) (funcDef : Node) : List Node :=
  let own := funcDef.child .decl
  (s.document.root.ofClass .decl).filter fun d =>
    d.name? == own.name? && !d.same own && (d.child .type).isA .funcDecl

/-- Gives a declaration another type. -/
def Document.setType (d : Document) (decl type : Node) : Document :=
  let old := (d.current decl).child .type
  let (type, d) := d.withKeys [type]
  (d.setAside old).modifyParts decl fun parts => type ++ parts.drop 1

namespace Engine

/-- Gives declarations of a function the type that its definition has now, one after the other. -/
def updateAll (funcDef : Node) : List Node → Engine Unit
  | [] => return ()
  | d :: ds => do
    let s ← getThe Session
    let own := (s.document.current funcDef).child .decl
    set { s with document := s.document.setType d (own.child .type).copy }
    note (.prototype (own.name?.getD "")) d.line
    updateAll funcDef ds

/-- Gives all declarations of a function the type of its definition. -/
def updatePrototypes (funcDef : Node) : Engine Unit := do
  let s ← getThe Session
  updateAll funcDef (s.prototypes (s.document.current funcDef))

/-- The declarations of the field variables of a binding. -/
def synthesize (b : Binding) : Engine (List Node) := do
  report fun _ => Report.of (b.aggregate.fields.forM b.checkField)
  note (.synthesized b.name b.fieldNames) b.decl.line
  return b.fieldDecls

/-- Decomposes a parameter. -/
def decomposeParam (b : Binding) : Engine Unit := do
  let b ← refresh b
  let decls ← synthesize b
  edit fun d => d.splice b.decl decls
  record b
  note (.parameter b.name ((b.scope.child .decl).name?.getD "")) b.decl.line
  rewrite b
  updatePrototypes b.scope

end Engine

end Fieldwise
