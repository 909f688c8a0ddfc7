import Fieldwise.Tree.Search

/-!
# The names in a program

`Node.identifiers` are the names that a program uses for variables, functions, types, members and
the tags of structs.
-/

namespace Fieldwise.Node

/-- The name that a node itself uses or declares. -/
def ownName? : Node → Option String
  | mk _ (.ident name) _ => some name
  | mk _ (.decl name _) _ | mk _ (.typedef name _) _ | mk _ (.typeDecl name _) _ => name
  | mk _ (.structType tag _) _ => tag
  | _ => none

/-- The names in a tree, as often as they occur. -/
def identifiers (n : Node) : List String := n.preorder.filterMap ownName?

end Fieldwise.Node
