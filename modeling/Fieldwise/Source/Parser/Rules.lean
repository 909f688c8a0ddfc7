import Fieldwise.Source.Parser.State

/-!
# The recursive rules of the grammar

The rules of the grammar refer to each other in circles. `Rules` holds those that a circle passes
through. Each rule is written as a plain function of the `Rules` for what it contains, and takes at
least one token before it uses them; so as many nested levels as there are tokens are enough.
-/

namespace Fieldwise

/-- The declared name with the layers of type around it, outermost first. `line` is where the
outermost layer, or else the name, was read. -/
structure Declarator where
  name : Option String := none
  nameLine : Option Nat := none
  line : Option Nat := none
  layers : List (Node → Node) := []

/-- Which declarators can stand at a place: with a name, without one, or both. -/
inductive Naming where
  | named | unnamed | either
deriving DecidableEq

/-- What a declaration says before its declarators: the specifiers, and the words of the type. -/
structure TypeSpecifiers where
  spec : Specifiers := {}
  types : List Node := []
  isEmpty : Bool := true

/-- The rules that circles of the grammar pass through. `operand` also tells whether the operand is
something other than a cast, which an assignment needs. -/
structure Rules where
  expression : Parser Node
  assignment : Parser Node
  conditional : Parser Node
  operand : Parser (Node × Bool)
  typeName : Parser Node
  initializer : Parser Node
  specifiers : Bool → Parser TypeSpecifiers
  declarator : Naming → Parser Declarator
  compound : Parser Node
  statement : Parser Node

/-- No rule: nothing can be nested any deeper. -/
def Rules.none : Rules where
  expression := Parser.fail
  assignment := Parser.fail
  conditional := Parser.fail
  operand := Parser.fail
  typeName := Parser.fail
  initializer := Parser.fail
  specifiers := fun _ => Parser.fail
  declarator := fun _ => Parser.fail
  compound := Parser.fail
  statement := Parser.fail

end Fieldwise
