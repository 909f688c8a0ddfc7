import Fieldwise.Tree.Node

/-!
# Outlines of syntax trees

`Node.outline` lists the nodes of a tree, one line each, parents before their children. A line
holds the class of the node and its plain attributes, indented by the depth of the node.
-/

namespace Fieldwise

/-- A list of words in square brackets, each word in single quotes. -/
def quotedList (words : List String) : String :=
  "[" ++ ", ".intercalate (words.map fun w => "'" ++ w ++ "'") ++ "]"

/-- A name, or the word for a missing one. -/
def nameOrNone (name : Option String) : String := name.getD "None"

/-- The plain attributes of a form, in order. -/
def Form.attributes : Form → List String
  | .arrayDecl quals | .ptrDecl quals => [quotedList quals]
  | .assignment op => [op.text]
  | .binaryOp op => [op.text]
  | .constant type value => [type, value]
  | .decl name spec => [nameOrNone name, quotedList spec.quals, quotedList spec.align,
      quotedList spec.storage, quotedList spec.funcspec]
  | .enumType tag => [nameOrNone tag]
  | .enumerator name | .goto name | .ident name | .label name | .pragma name => [name]
  | .identifierType names => [quotedList names]
  | .structType tag _ | .unionType tag _ => [nameOrNone tag]
  | .structRef access => [access.text]
  | .typeDecl name quals => [nameOrNone name, quotedList quals, "None"]
  | .typedef name spec => [nameOrNone name, quotedList spec.quals, quotedList spec.storage]
  | .typename quals => ["None", quotedList quals, "None"]
  | .unaryOp op => [op.text]
  | _ => []

/-- The line of a form at a depth. -/
def Form.outlineLine (depth : Nat) (f : Form) : String :=
  String.ofList (List.replicate (2 * depth) ' ') ++ f.cls.text ++ ": " ++
    ", ".intercalate f.attributes

/-- The characters that end a line of an outline, if nothing else follows them. -/
def isBlank (c : Char) : Bool :=
  c == ' ' || c == '\t' || c == '\n' || c == '\r' || c == '\x0b' || c == '\x0c'

/-- Text without the blanks at its end. -/
def dropTrailingBlanks (s : String) : String :=
  String.ofList (s.toList.reverse.dropWhile isBlank).reverse

namespace Node

mutual

/-- The lines of a node and all nodes below it. -/
def outline (depth : Nat) : Node → List String
  | absent => []
  | mk _ f parts => dropTrailingBlanks (f.outlineLine depth) :: outlineAll (depth + 1) parts

/-- The lines of several nodes of one depth. -/
def outlineAll (depth : Nat) : List Node → List String
  | [] => []
  | n :: ns => outline depth n ++ outlineAll depth ns

end

/-- The outline as text, each line ended. -/
def outlineText (n : Node) : String := String.join ((n.outline 0).map (· ++ "\n"))

end Node

end Fieldwise
