import Fieldwise.Tree.Document

/-!
# Walks over a document

Loops that visit a program step by step. A search and the index of parents work through a stack of
nodes that are still to be visited: a search has the first child of a node on top of it, the index
the last one. A node is found in its parent by looking through the attributes of that, which are not
always in the order in which children are visited. An `IndexedDocument` keeps the index of parents
from the first question to the next edit.

`Node.search`, `Document.parent?` and `Document.place` say what these loops find, without a stack or
an index.
-/

namespace Fieldwise

/-- The attributes with children of a node of a class, in the order in which a class has them. -/
def Class.attributes : Class → List Slot
  | .funcDef => [.decl, .paramDecls, .body]
  | .namedInitializer => [.name, .expr]
  | c => c.slots ++ c.listSlot.toList

namespace Node

/-- The children of a node, in the order in which they are visited. -/
def children (n : Node) : List Node := n.parts.filter isPresent

/-- The number of nodes that are left to visit, where a place that is empty counts as one. -/
def load : List Node → Nat
  | [] => 0
  | absent :: stack => load stack + 1
  | mk _ _ ps :: stack => (preorderAll ps).length + 1 + load stack

theorem load_append (ns stack : List Node) : load (ns ++ stack) = load ns + load stack := by
  induction ns with
  | nil => rw [List.nil_append, load, Nat.zero_add]
  | cons n ns ih =>
    cases n <;> simp only [List.cons_append, load, ih] <;> omega

theorem load_reverse (ns : List Node) : load ns.reverse = load ns := by
  induction ns with
  | nil => rfl
  | cons n ns ih =>
    rw [List.reverse_cons, load_append, ih, Nat.add_comm, ← load_append, List.singleton_append]

theorem load_filter (ps : List Node) : load (ps.filter isPresent) = (preorderAll ps).length := by
  induction ps with
  | nil => rfl
  | cons p ps ih =>
    cases p with
    | absent => exact ih
    | mk =>
      rw [List.filter_cons_of_pos rfl, load, ih, preorderAll, preorder, List.length_append,
        List.length_cons]

theorem load_lt_cons (n : Node) (stack : List Node) : load stack < load (n :: stack) := by
  cases n <;> simp only [load] <;> omega

/-- There is less to visit below a node than from it on. -/
theorem load_children_lt (n : Node) (stack : List Node) :
    load (n.children ++ stack) < load (n :: stack) := by
  rw [load_append, children, load_filter]
  cases n <;> simp only [parts, preorderAll, List.length_nil, load] <;> omega

/-- Visits the nodes of a stack, the first one next, and below each its children before the rest. A
node that is to be skipped is left out with what is below it. -/
def searchStack (skip keep : Node → Bool) (found : List Node) : List Node → List Node
  | [] => found
  | n :: stack =>
    if skip n then searchStack skip keep found stack
    else searchStack skip keep (found ++ [n].filter keep) (n.children ++ stack)
termination_by stack => load stack
decreasing_by
  · exact load_lt_cons n stack
  · exact load_children_lt n stack

/-- Searches from a node, which is not left out itself. -/
def searchFrom (root : Node) (keep prune : Node → Bool) : List Node :=
  searchStack (fun n => !n.same root && prune n) keep [] [root]

/-- Writes the parents of the nodes below those of a stack before an index, the last child first. -/
def indexStack (index : List (Nat × Node)) : List Node → List (Nat × Node)
  | [] => index
  | n :: stack =>
    let entries := n.children.filterMap fun c => c.key.map fun k => (k, n)
    indexStack (entries.reverse ++ index) (n.children.reverse ++ stack)
termination_by stack => load stack
decreasing_by
  rw [load_append, load_reverse, ← load_append]
  exact load_children_lt n stack

/-- The first attribute of a node in which a test holds of a child, with the index if it is in a
list. -/
def scan? (test : Node → Bool) (P : Node) : Option (Slot × Option Nat) :=
  P.cls?.bind fun c => c.attributes.findSome? fun s =>
    if c.listSlot = some s then (P.items.findIdx? test).map fun i => (s, some i)
    else if test (P.child s) then some (s, none)
    else none

end Node

/-- The parents of the nodes of the program by their keys. -/
def Document.parentIndex (d : Document) : List (Nat × Node) := Node.indexStack [] [d.root]

/-- A document with the index of parents, if that has been asked for since the last edit. -/
structure IndexedDocument where
  document : Document
  index? : Option (List (Nat × Node)) := none

namespace IndexedDocument

variable (d : IndexedDocument)

/-- The index of parents, which is kept. -/
def parents : List (Nat × Node) × IndexedDocument :=
  match d.index? with
  | some index => (index, d)
  | none => (d.document.parentIndex, { d with index? := some d.document.parentIndex })

/-- The node above a node. -/
def parent? (n : Node) : Option Node × IndexedDocument :=
  (n.key.bind (List.lookup · d.parents.1), d.parents.2)

/-- Whether a node is the root or has a parent. -/
def attached (n : Node) : Bool × IndexedDocument :=
  if n.same d.document.root then (true, d)
  else ((d.parent? n).1.isSome, (d.parent? n).2)

/-- The node above a node, and the slot of it that the node is in. -/
def slot? (n : Node) : Option (Node × Slot × Option Nat) × IndexedDocument :=
  let found := (d.parent? n).1.bind fun P => (P.scan? (·.same n)).map fun (s, i) => (P, s, i)
  (found, (d.parent? n).2)

/-- Edits the document, and forgets the index. -/
def edit (e : Document → Except Failure Document) : Except Failure IndexedDocument :=
  match e d.document with
  | .ok document => .ok { document }
  | .error f => .error f

end IndexedDocument

end Fieldwise
