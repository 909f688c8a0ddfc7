import Fieldwise.Aggregate.Basic
import Fieldwise.Tree.Expression

/-!
# Field variables

The declarations that replace a binding: one for each field, named after the binding and the field.
A field of an object has the type of the member, a pointer gives pointers to the members, and an
array gives arrays of them of the same length. Qualifiers of the aggregate go to each member, those
of a pointer to each new pointer.

Not every field has such a variable (`checkField`): a member that is a function cannot have
qualifiers, and the length of an array must have a text.
-/

namespace Fieldwise

/-- The qualifiers with those of a list that are missing. -/
def mergeQuals (quals more : List String) : List String :=
  quals ++ more.filter fun q => !quals.contains q

namespace Node

/-- Adds qualifiers to a type; for an array to its elements. -/
def addQuals (more : List String) : Node → Node
  | mk m (.arrayDecl quals) [type, dim] => mk m (.arrayDecl quals) [type.addQuals more, dim]
  | mk m (.ptrDecl quals) ps => mk m (.ptrDecl (mergeQuals quals more)) ps
  | mk m (.typeDecl name quals) ps => mk m (.typeDecl name (mergeQuals quals more)) ps
  | n => n

/-- Whether a type can have qualifiers; for an array its elements. A function cannot. -/
def takesQuals : Node → Bool
  | mk _ (.arrayDecl _) [type, _] => type.takesQuals
  | n => !n.isA .funcDecl

/-- The qualifiers of a pointer. -/
def pointerQuals : Node → List String
  | mk _ (.ptrDecl quals) _ => quals
  | _ => []

end Node

namespace Binding

/-- Fails if there is no type for the variable of a field. -/
def checkField (b : Binding) (f : Field) : Except Failure Unit :=
  if !f.type.takesQuals then .error .noQualifiers
  else if b.kind == .array && !b.type.dimension.isPresent then
    discard (Node.integer (b.size.getD 0))
  else .ok ()

/-- The type of the variable for a field. Pointers to arrays become pointers to their elements. -/
def fieldType (b : Binding) (f : Field) : Node :=
  let member := (f.type.rename (some (b.fieldName f))).addQuals b.type.baseQuals
  match b.kind with
  | .value => member
  | .pointer => .build (.ptrDecl b.type.pointerQuals) [member.elementType]
  | .array =>
    let dim := b.type.dimension
    .build (.arrayDecl [])
      [member, if dim.isPresent then dim.copy else .intLiteral (b.size.getD 0)]

/-- The declaration of the variable for a field. -/
def fieldDecl (b : Binding) (f : Field) : Node :=
  .build (.decl (some (b.fieldName f)) { storage := if b.isParam then [] else b.storage })
    [b.fieldType f, .absent, .absent]

/-- The declarations of the variables for all fields, in order. -/
def fieldDecls (b : Binding) : List Node := b.aggregate.fields.map b.fieldDecl

/-- The names of the variables for all fields, in order. -/
def fieldNames (b : Binding) : List String := b.aggregate.fields.map b.fieldName

theorem length_fieldDecls (b : Binding) : b.fieldDecls.length = b.aggregate.fields.length := by
  simp [fieldDecls]

theorem name?_fieldDecls (b : Binding) :
    b.fieldDecls.map Node.name? = b.fieldNames.map some := by
  simp [fieldDecls, fieldNames, fieldDecl, Node.name?, Function.comp_def]

end Binding

end Fieldwise
