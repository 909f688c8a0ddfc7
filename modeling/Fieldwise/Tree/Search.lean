import Fieldwise.Tree.Node

/-!
# Searching trees

Nodes are visited parents first and children in order. `Node.search` leaves out every subtree that a
test prunes; the root of the search is never pruned. `Node.ancestors?` is the path from a node up to
the root. Where one node stands at several places, a search meets it at each, and its parent is the
one that is met first.
-/

namespace Fieldwise.Node

mutual

/-- The nodes of a tree, parents first. -/
def preorder : Node → List Node
  | absent => []
  | mk m f ps => mk m f ps :: preorderAll ps

/-- The nodes of several trees. -/
def preorderAll : List Node → List Node
  | [] => []
  | p :: ps => preorder p ++ preorderAll ps

end

mutual

/-- The nodes of a tree, without the subtrees below its root that `prune` leaves out. The test is
given the parent and the node. -/
def search (prune : Node → Node → Bool) : Node → List Node
  | absent => []
  | mk m f ps => mk m f ps :: searchAll prune (mk m f ps) ps

/-- The nodes of the children of `parent` that are not left out. -/
def searchAll (prune : Node → Node → Bool) (parent : Node) : List Node → List Node
  | [] => []
  | p :: ps => (if prune parent p then [] else search prune p) ++ searchAll prune parent ps

end

/-- The nodes of a class, parents first. -/
def ofClass (n : Node) (c : Class) : List Node := n.preorder.filter (·.isA c)

mutual

/-- The first node with a key. -/
def find? (k : Nat) : Node → Option Node
  | absent => none
  | mk m f ps => if m.key == some k then some (mk m f ps) else findAll? k ps

/-- The first node with a key in several trees. -/
def findAll? (k : Nat) : List Node → Option Node
  | [] => none
  | p :: ps =>
    match find? k p with
    | some n => some n
    | none => findAll? k ps

end

mutual

/-- The nodes above the first node with a key, nearest first. -/
def ancestors? (k : Nat) : Node → Option (List Node)
  | absent => none
  | mk m f ps =>
    if m.key == some k then some []
    else (ancestorsAll? k ps).map fun above => above ++ [mk m f ps]

/-- The nodes above the first node with a key within one of several trees. -/
def ancestorsAll? (k : Nat) : List Node → Option (List Node)
  | [] => none
  | p :: ps =>
    match ancestors? k p with
    | some above => some above
    | none => ancestorsAll? k ps

end

mutual

/-- Changes the nodes with a key, and nothing below them. -/
def modifyAt (k : Nat) (change : Node → Node) : Node → Node
  | absent => absent
  | mk m f ps =>
    if m.key == some k then change (mk m f ps) else mk m f (modifyAllAt k change ps)

/-- Changes the nodes with a key in several trees. -/
def modifyAllAt (k : Nat) (change : Node → Node) : List Node → List Node
  | [] => []
  | p :: ps => modifyAt k change p :: modifyAllAt k change ps

end

theorem preorderAll_eq_flatMap (ps : List Node) : preorderAll ps = ps.flatMap preorder := by
  induction ps with
  | nil => rfl
  | cons p ps ih => simp [preorderAll, ih]

theorem modifyAllAt_eq_map (k : Nat) (change : Node → Node) (ps : List Node) :
    modifyAllAt k change ps = ps.map (modifyAt k change) := by
  induction ps with
  | nil => rfl
  | cons p ps ih => simp [modifyAllAt, ih]

/-- A search that prunes nothing visits every node. -/
theorem searchAll_false (parent : Node) (ps : List Node) :
    searchAll (fun _ _ => false) parent ps = ps.flatMap (search fun _ _ => false) := by
  induction ps with
  | nil => rfl
  | cons p ps ih => simp [searchAll, ih]

end Fieldwise.Node
