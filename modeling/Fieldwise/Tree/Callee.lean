import Fieldwise.Tree.Node

/-!
# Calls that stand for assignments

A call of the function named `operator=` is taken for the assignment of its second argument to its
first. `Node.asOperator` turns the calls of another function into such calls.
-/

namespace Fieldwise.Node

/-- The callee, or the name of the assignment operator in place of this function. -/
def operatorCallee (function : String) : Node → Node
  | mk m (.ident name) ps =>
    if name == function then mk { m with line := none } (.ident "operator=") ps
    else mk m (.ident name) ps
  | n => n

mutual

/-- The tree with all calls of a function as calls of the assignment operator. -/
def asOperator (function : String) : Node → Node
  | absent => absent
  | mk m .funcCall (callee :: ps) =>
    mk m .funcCall (operatorCallee function (asOperator function callee) ::
      asOperatorAll function ps)
  | mk m f ps => mk m f (asOperatorAll function ps)

/-- The trees with all calls of a function as calls of the assignment operator. -/
def asOperatorAll (function : String) : List Node → List Node
  | [] => []
  | p :: ps => asOperator function p :: asOperatorAll function ps

end

end Fieldwise.Node
