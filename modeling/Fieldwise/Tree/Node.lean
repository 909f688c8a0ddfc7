import Fieldwise.Tree.Class
import Fieldwise.Tree.Operator

/-!
# Syntax nodes

A program is a tree of `Node`s. A node has a `Form`, which is its class together with the plain
attributes of that class, and its parts: one entry for each single child the class allows (`absent`
where there is none), then the entries of its list of children.

A `Mark` says which node of a document this is, and on which line of the text it was read. Nodes
that the program builds have an empty mark until they are placed into a document. One node may occur
at several places of a tree: a type definition that several declarators share has one key.
-/

namespace Fieldwise

/-- What a declaration says besides its name and type. Alignments are kept as text. -/
structure Specifiers where
  quals : List String := []
  align : List String := []
  storage : List String := []
  funcspec : List String := []
deriving DecidableEq

/-- The identity of a node within a document, and the line it was read from. -/
structure Mark where
  key : Option Nat := none
  line : Option Nat := none
deriving DecidableEq

/-- A class of nodes with the values of its plain attributes. A struct or union type is `complete`
where its members are given, and a mere reference to it is not. -/
inductive Form where
  | arrayDecl (dimQuals : List String)
  | arrayRef
  | assignment (op : AssignOp)
  | binaryOp (op : BinaryOp)
  | breakStmt
  | caseLabel
  | cast
  | compound
  | compoundLiteral
  | constant (type value : String)
  | continueStmt
  | decl (name : Option String) (spec : Specifiers)
  | declList
  | defaultLabel
  | doWhile
  | ellipsisParam
  | emptyStatement
  | enumType (tag : Option String)
  | enumerator (name : String)
  | enumeratorList
  | exprList
  | file
  | forLoop
  | funcCall
  | funcDecl
  | funcDef
  | goto (label : String)
  | ident (name : String)
  | identifierType (names : List String)
  | ifStmt
  | initList
  | label (name : String)
  | namedInitializer
  | paramList
  | pragma (text : String)
  | ptrDecl (quals : List String)
  | returnStmt
  | staticAssert
  | structType (tag : Option String) (complete : Bool)
  | structRef (access : Access)
  | switch
  | ternaryOp
  | typeDecl (name : Option String) (quals : List String)
  | typedef (name : Option String) (spec : Specifiers)
  | typename (quals : List String)
  | unaryOp (op : UnaryOp)
  | unionType (tag : Option String) (complete : Bool)
  | whileLoop
deriving DecidableEq

/-- The class of a form. -/
def Form.cls : Form → Class
  | arrayDecl _ => .arrayDecl
  | arrayRef => .arrayRef
  | assignment _ => .assignment
  | binaryOp _ => .binaryOp
  | breakStmt => .breakStmt
  | caseLabel => .caseLabel
  | cast => .cast
  | compound => .compound
  | compoundLiteral => .compoundLiteral
  | constant _ _ => .constant
  | continueStmt => .continueStmt
  | decl _ _ => .decl
  | declList => .declList
  | defaultLabel => .defaultLabel
  | doWhile => .doWhile
  | ellipsisParam => .ellipsisParam
  | emptyStatement => .emptyStatement
  | enumType _ => .enumType
  | enumerator _ => .enumerator
  | enumeratorList => .enumeratorList
  | exprList => .exprList
  | file => .file
  | forLoop => .forLoop
  | funcCall => .funcCall
  | funcDecl => .funcDecl
  | funcDef => .funcDef
  | goto _ => .goto
  | ident _ => .ident
  | identifierType _ => .identifierType
  | ifStmt => .ifStmt
  | initList => .initList
  | label _ => .label
  | namedInitializer => .namedInitializer
  | paramList => .paramList
  | pragma _ => .pragma
  | ptrDecl _ => .ptrDecl
  | returnStmt => .returnStmt
  | staticAssert => .staticAssert
  | structType _ _ => .structType
  | structRef _ => .structRef
  | switch => .switch
  | ternaryOp => .ternaryOp
  | typeDecl _ _ => .typeDecl
  | typedef _ _ => .typedef
  | typename _ => .typename
  | unaryOp _ => .unaryOp
  | unionType _ _ => .unionType
  | whileLoop => .whileLoop

/-- A node of a program, or the `absent` child of a place that is left empty. -/
inductive Node where
  | absent
  | mk (mark : Mark) (form : Form) (parts : List Node)

namespace Node

instance : Inhabited Node := ⟨absent⟩

/-- A node that is in no document yet. -/
abbrev build (form : Form) (parts : List Node) : Node := .mk {} form parts

/-- Whether there is a node. -/
def isPresent : Node → Bool
  | absent => false
  | mk _ _ _ => true

/-- The mark of a node. -/
def mark : Node → Mark
  | absent => {}
  | mk m _ _ => m

/-- The key of a node. -/
def key (n : Node) : Option Nat := n.mark.key

/-- The line that a node was read from. -/
def line (n : Node) : Option Nat := n.mark.line

/-- The form of a node. -/
def form? : Node → Option Form
  | absent => none
  | mk _ f _ => some f

/-- The class of a node. -/
def cls? (n : Node) : Option Class := n.form?.map Form.cls

/-- The parts of a node: its single children, and then the entries of its list. -/
def parts : Node → List Node
  | absent => []
  | mk _ _ ps => ps

/-- Whether the node is of a class. -/
def isA (n : Node) (c : Class) : Bool := n.cls? == some c

/-- Whether the node is the one with this key. -/
def hasKey (n : Node) (k : Nat) : Bool := n.key == some k

/-- Whether two nodes are one and the same node of a document. -/
def same (n o : Node) : Bool := n.key.isSome && n.key == o.key

/-- The entries of the list of children. -/
def items : Node → List Node
  | absent => []
  | mk _ f ps => ps.drop f.cls.slots.length

theorem mem_parts_of_mem_items {n p : Node} (h : p ∈ n.items) : p ∈ n.parts := by
  cases n with
  | absent => cases h
  | mk => exact List.mem_of_mem_drop h

/-- The child in a single slot, `absent` where there is none. -/
def child (n : Node) (s : Slot) : Node :=
  match n with
  | absent => absent
  | mk _ f ps => ps.getD (f.cls.slots.idxOf s) absent

/-- The node with other parts. -/
def withParts : Node → List Node → Node
  | absent, _ => absent
  | mk m f _, ps => mk m f ps

/-- Whether declarations can be items of the node. -/
def isBlock (n : Node) : Bool := n.cls?.any Class.isBlock

/-- The name of a declaration, a type alias, a tag or an identifier. -/
def name? : Node → Option String
  | mk _ (.ident name) _ => some name
  | mk _ (.decl name _) _ | mk _ (.typedef name _) _ | mk _ (.typeDecl name _) _ => name
  | mk _ (.structType tag _) _ | mk _ (.unionType tag _) _ | mk _ (.enumType tag) _ => tag
  | _ => none

/-! ### Building nodes -/

/-- The use of a name. -/
def ident (name : String) : Node := build (.ident name) []

/-- The decimal constant of an integer. -/
def intLiteral (z : Int) : Node := build (.constant "int" (toString z)) []

/-- An operator applied to its operand. -/
def unary (op : UnaryOp) (operand : Node) : Node := build (.unaryOp op) [operand]

/-- An operator between its operands. -/
def binary (op : BinaryOp) (left right : Node) : Node := build (.binaryOp op) [left, right]

/-- The size of a type or an expression. -/
def sizeOfNode (operand : Node) : Node := unary .sizeof operand

/-- An array indexed by a subscript. -/
def arrayRef (array subscript : Node) : Node := build .arrayRef [array, subscript]

/-- The plain assignment of a value to a target. -/
def assign (target value : Node) : Node := build (.assignment .plain) [target, value]

/-- A call of an expression with arguments. -/
def callOf (callee : Node) (args : List Node) : Node :=
  build .funcCall [callee, build .exprList args]

/-- A call of a named function with arguments. -/
def call (name : String) (args : List Node) : Node := callOf (ident name) args

/-- A block of statements. -/
def compound (statements : List Node) : Node := build .compound statements

/-- The statement that does nothing. -/
def emptyStatement : Node := build .emptyStatement []

/-! ### Copies -/

mutual

/-- The same text as a new tree: every line is kept and no node is one of the old ones. -/
def copy : Node → Node
  | absent => absent
  | mk m f ps => mk { m with key := none } f (copyAll ps)

/-- Copies of a list of nodes. -/
def copyAll : List Node → List Node
  | [] => []
  | p :: ps => p.copy :: copyAll ps

end

theorem copyAll_eq_map (ps : List Node) : copyAll ps = ps.map copy := by
  induction ps with
  | nil => rfl
  | cons p ps ih => simp [copyAll, ih]

end Node

end Fieldwise
