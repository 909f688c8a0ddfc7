import Fieldwise.Tree.Node

/-!
# Declared types

A declared type is a chain of declarators, outermost first, that ends in a `typeDecl` with the
declared name and the base type. `Node.layers` are the declarators of a chain, `Node.typeName?`
names the base type, and `Node.rename` copies a chain under another name.
-/

namespace Fieldwise

/-- A declarator between a name and its base type, other than a function. -/
inductive Layer where
  | pointer | array
deriving DecidableEq

/-- The name of the class of a declarator. -/
def Layer.cls : Layer → Class
  | pointer => .ptrDecl
  | array => .arrayDecl

namespace Node

/-- The end of a chain of declarators. -/
def typeDecl : Node → Node
  | mk m (.typeDecl name quals) ps => mk m (.typeDecl name quals) ps
  | mk _ (.arrayDecl _) [type, _] => type.typeDecl
  | mk _ .funcDecl [_, type] => type.typeDecl
  | mk _ (.ptrDecl _) [type] => type.typeDecl
  | mk _ (.typename _) [type] => type.typeDecl
  | _ => absent

/-- The base type of a chain of declarators. -/
def baseType (type : Node) : Node := type.typeDecl.child .type

/-- The qualifiers of the base type. -/
def baseQuals (type : Node) : List String :=
  match type.typeDecl.form? with
  | some (.typeDecl _ quals) => quals
  | _ => []

/-- The declarators of a chain, outermost first; none if a function is among them. -/
def layers : Node → Option (List Layer)
  | mk _ (.arrayDecl _) [type, _] => type.layers.map (.array :: ·)
  | mk _ (.ptrDecl _) [type] => type.layers.map (.pointer :: ·)
  | mk _ .funcDecl _ => none
  | _ => some []

/-- The name of a base type: a struct with its tag, or the words of a basic type or alias. -/
def baseName? : Node → Option String
  | mk _ (.structType (some tag) _) _ => some ("struct " ++ tag)
  | mk _ (.identifierType names) _ => some (" ".intercalate names)
  | _ => none

/-- The name of the base type of a chain. -/
def typeName? (type : Node) : Option String := type.baseType.baseName?

/-- Puts another name at the end of a chain. -/
def setName (name : Option String) : Node → Node
  | mk m (.typeDecl _ quals) ps => mk m (.typeDecl name quals) ps
  | mk m (.arrayDecl quals) [type, dim] => mk m (.arrayDecl quals) [type.setName name, dim]
  | mk m .funcDecl [args, type] => mk m .funcDecl [args, type.setName name]
  | mk m (.ptrDecl quals) [type] => mk m (.ptrDecl quals) [type.setName name]
  | n => n

/-- A copy of a chain for another name. -/
def rename (type : Node) (name : Option String) : Node := type.copy.setName name

/-- The declaration of a name with the type of a chain. -/
def declare (name : String) (type init : Node) (storage : List String) : Node :=
  build (.decl (some name) { storage }) [type.rename (some name), init, absent]

/-- The type of a chain, as it is written without a name. -/
def typenameOf (type : Node) : Node := build (.typename []) [type.rename none]

/-- The type of a pointer to a chain, or to the elements of an array. -/
def pointerTo (type : Node) : Node :=
  match type with
  | mk _ (.arrayDecl _) [element, _] => build (.ptrDecl []) [element.copy]
  | _ => build (.ptrDecl []) [type.copy]

/-- Whether a chain begins with an array. -/
def isArray (type : Node) : Bool := type.isA .arrayDecl

/-- The dimension of an array. -/
def dimension : Node → Node
  | mk _ (.arrayDecl _) [_, dim] => dim
  | _ => absent

/-- The type of the elements of an array, or the type itself. -/
def elementType : Node → Node
  | mk _ (.arrayDecl _) [element, _] => element
  | n => n

end Node

end Fieldwise
