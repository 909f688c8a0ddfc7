import Fieldwise.Failure
import Fieldwise.Tree.Identity
import Fieldwise.Tree.Search

/-!
# Documents

A `Document` is a program that is being edited. Its nodes are told apart by their keys, so an edit
names the node it is about and every place where that node stands follows. Nodes that an edit cuts
out are kept aside (`loose`): they are not attached any more, but can still be looked at.

The primitives are `replace`, `insertBefore`, `insertAfter`, `splice` and `detach`. A place for a
single statement that gets several becomes a block, and one that loses its statement gets the empty
statement, so such a place is never left without one. An edit fails only if the node has no place to
edit.
-/

namespace Fieldwise

/-- A program with the nodes that were cut out of it, and a key above all keys in use. -/
structure Document where
  root : Node
  loose : List Node := []
  next : Nat

/-- Where a node stands: in which parent, and which of its parts it is. -/
structure Place where
  parent : Node
  index : Nat

namespace Place

/-- The slot of the place, with the index if it is in a list. -/
def slot? (p : Place) : Option (Slot × Option Nat) :=
  p.parent.cls?.bind fun c => c.slotAt p.index

/-- Whether the place is an entry of a list. -/
def isInList (p : Place) : Bool := p.slot?.any fun (_, i) => i.isSome

/-- Whether the place holds a statement: a lone one, or an item of a block. -/
def isStatement (p : Place) : Bool :=
  p.slot?.any fun (s, i) => s.isStatement || (s.isStatementList && i.isSome)

/-- Whether the name at the place is that of a member: one that is selected, or one that a
designator steps to. -/
def isLabel (p : Place) : Bool :=
  match p.parent.cls?, p.slot? with
  | some .structRef, some (s, _) => s == .field
  | some .namedInitializer, some (s, _) => s != .expr
  | _, _ => false

end Place

namespace Document

/-- The document of a program. -/
def ofRoot (root : Node) : Document :=
  let (root, next) := root.stamp (root.keyBound 1)
  { root, next }

variable (d : Document)

/-! ### Looking up -/

/-- The node with a key, attached or not. -/
def find? (k : Nat) : Option Node := (d.root.find? k).orElse fun _ => Node.findAll? k d.loose

/-- The present state of a node. -/
def current (n : Node) : Node := (n.key.bind d.find?).getD n

/-- The nodes above a node, nearest first; none for a node that is not attached. -/
def ancestors (n : Node) : List Node := (n.key.bind d.root.ancestors?).getD []

/-- The node above a node. -/
def parent? (n : Node) : Option Node := (d.ancestors n).head?

/-- Whether a node stands somewhere in the program. -/
def attached (n : Node) : Bool := (n.key.bind d.root.find?).isSome

/-- Where a node stands. -/
def place? (n : Node) : Option Place := do
  let k ← n.key
  let parent ← d.parent? n
  let index ← parent.parts.findIdx? (·.hasKey k)
  return { parent, index }

/-- Where a node stands, or the error that it stands nowhere. -/
def place (n : Node) : Except Failure Place :=
  match d.place? n with
  | some p => .ok p
  | none => .error (.notAttached (n.cls?.getD .emptyStatement))

/-- Whether a node is the name of a member. -/
def isLabel (n : Node) : Bool := (d.place? n).any Place.isLabel

/-- Whether a node stands where a statement does. -/
def isStatement (n : Node) : Except Failure Bool := do return (← d.place n).isStatement

/-- The innermost statement that a node is or is in; none for the root. -/
def statement? (n : Node) : Except Failure (Option Node) := do
  if n.same d.root then return none
  else
    let _ ← d.place n
    return (n :: d.ancestors n).find? fun above => (d.place? above).any Place.isStatement

/-- The uses of a name below a node, without the names of members and what `prune` leaves out. -/
def references (root : Node) (name : String) (prune : Node → Node → Bool) : List Node :=
  (root.search prune).filter fun n =>
    n.form? == some (.ident name) && !d.isLabel n

/-! ### Editing -/

/-- Changes a node wherever it stands. -/
def modify (n : Node) (change : Node → Node) : Document :=
  match n.key with
  | none => d
  | some k => { d with
      root := d.root.modifyAt k change
      loose := Node.modifyAllAt k change d.loose }

/-- Changes the parts of a node wherever it stands. -/
def modifyParts (n : Node) (change : List Node → List Node) : Document :=
  d.modify n fun n => n.withParts (change n.parts)

/-- New nodes with keys of their own. -/
def withKeys (new : List Node) : List Node × Document :=
  let (new, next) := Node.stampAll d.next new
  (new, { d with next })

/-- A tree that joins the document: a copy with new keys, which shares no node with it. -/
def adopt (n : Node) : Node × Document :=
  (n.shiftKeys d.next, { d with next := d.next + n.keyBound 0 })

/-- Keeps a node that was cut out. -/
def setAside (n : Node) : Document := { d with loose := n :: d.loose }

/-- Puts a new node in the place of a node. -/
def replace (n new : Node) : Except Failure Document := do
  let p ← d.place n
  let (new, d) := d.withKeys [new]
  return (d.setAside (d.current n)).modifyParts p.parent fun ps =>
    ps.take p.index ++ new ++ ps.drop (p.index + 1)

/-- Puts new nodes right before or after a node. A lone node and the new ones become a block. -/
def insert (n : Node) (new : List Node) (after : Bool) : Except Failure Document := do
  if new.isEmpty then return d
  else
    let p ← d.place n
    let n := d.current n
    if p.isInList then
      let (new, d) := d.withKeys new
      return d.modifyParts p.parent fun ps =>
        let i := if after then p.index + 1 else p.index
        ps.take i ++ new ++ ps.drop i
    else
      let (block, d) := d.withKeys [Node.compound (if after then n :: new else new ++ [n])]
      return d.modifyParts p.parent fun ps =>
        ps.take p.index ++ block ++ ps.drop (p.index + 1)

/-- Puts new nodes right before a node. -/
def insertBefore (n : Node) (new : List Node) : Except Failure Document := d.insert n new false

/-- Puts new nodes right after a node. -/
def insertAfter (n : Node) (new : List Node) : Except Failure Document := d.insert n new true

/-- Puts any number of new nodes in the place of an entry of a list. -/
def splice (n : Node) (new : List Node) : Except Failure Document := do
  let p ← d.place n
  if p.isInList then
    let (new, d) := d.withKeys new
    return (d.setAside (d.current n)).modifyParts p.parent fun ps =>
      ps.take p.index ++ new ++ ps.drop (p.index + 1)
  else .error (.notInList (n.cls?.getD .emptyStatement))

/-- Takes a node out. A place for a lone statement gets the empty statement. -/
def detach (n : Node) : Except Failure Document := do
  let p ← d.place n
  let left :=
    if p.isInList then []
    else if p.isStatement then [Node.emptyStatement]
    else [.absent]
  let (left, d) := d.withKeys left
  return (d.setAside (d.current n)).modifyParts p.parent fun ps =>
    ps.take p.index ++ left ++ ps.drop (p.index + 1)

end Document

end Fieldwise
