import Fieldwise.Tree.Node

/-!
# Identities of nodes

A node is told from others by its key. `Node.stamp` gives a key to every node of a tree that has
none yet, counting upwards, and leaves the others alone: a node that stands at several places keeps
one key. `Node.keyBound` is above all keys of a tree, and `Node.shiftKeys` makes room below them, so
that a tree can join another one without sharing nodes with it.
-/

namespace Fieldwise.Node

mutual

/-- A number above all keys of the tree and not below `least`. -/
def keyBound (least : Nat) : Node → Nat
  | absent => least
  | mk m _ ps => keyBoundAll (match m.key with | some k => max least (k + 1) | none => least) ps

/-- A number above all keys of the trees and not below `least`. -/
def keyBoundAll (least : Nat) : List Node → Nat
  | [] => least
  | p :: ps => keyBoundAll (keyBound least p) ps

end

mutual

/-- Gives keys from `next` on to the nodes without one, parents first, and returns the next key. -/
def stamp (next : Nat) : Node → Node × Nat
  | absent => (absent, next)
  | mk m f ps =>
    let (key, next) := match m.key with
      | some k => (k, next)
      | none => (next, next + 1)
    let (ps, next) := stampAll next ps
    (mk { m with key := some key } f ps, next)

/-- Gives keys to the nodes of several trees. -/
def stampAll (next : Nat) : List Node → List Node × Nat
  | [] => ([], next)
  | p :: ps =>
    let (p, next) := stamp next p
    let (ps, next) := stampAll next ps
    (p :: ps, next)

end

mutual

/-- The tree with all keys raised by a number. -/
def shiftKeys (offset : Nat) : Node → Node
  | absent => absent
  | mk m f ps => mk { m with key := m.key.map (offset + ·) } f (shiftAllKeys offset ps)

/-- The trees with all keys raised by a number. -/
def shiftAllKeys (offset : Nat) : List Node → List Node
  | [] => []
  | p :: ps => shiftKeys offset p :: shiftAllKeys offset ps

end

end Fieldwise.Node
