import Fieldwise.Proofs.Tree.Nesting
import Fieldwise.Proofs.Tree.Regular
import Mathlib.Logic.Function.Basic

/-!
# Trees with other tags and base types

`Node.relabel tags refs` is what splitting shared definitions makes of a tree: types get tags, and
some nodes get a reference for their only part. Giving one more tag (`Node.modifyAt_relabel_tag`) or
one more reference (`Node.modifyAt_relabel_reference`) leads to a tree of the same kind, so where a
node of the tree stands, and what it has become, can be read off from the node as it was.
-/

namespace Fieldwise

/-- The form of a type with another tag, if there is one. -/
def Form.tagged (tag : Option String) : Form → Form
  | .structType old complete => .structType (tag.or old) complete
  | .unionType old complete => .unionType (tag.or old) complete
  | .enumType old => .enumType (tag.or old)
  | f => f

namespace Node

open Relation

variable {tags : Nat → Option String} {refs : Nat → Option Node} {t n p c x r : Node} {k : Nat}

mutual

/-- The tree in which types have the tags for their keys, and nodes the references for their keys
instead of their parts. -/
def relabel (tags : Nat → Option String) (refs : Nat → Option Node) : Node → Node
  | absent => absent
  | mk m f ps =>
    mk m (f.tagged (m.key.bind tags))
      (match m.key.bind refs with
      | some r => [r]
      | none => relabelAll tags refs ps)

/-- Several such trees. -/
def relabelAll (tags : Nat → Option String) (refs : Nat → Option Node) : List Node → List Node
  | [] => []
  | p :: ps => relabel tags refs p :: relabelAll tags refs ps

end

/-- The tag of a type when tags were given. -/
def tagIn (tags : Nat → Option String) (n : Node) : Option String := (n.key.bind tags).or n.name?

theorem relabelAll_eq_map (ps : List Node) : relabelAll tags refs ps = ps.map (relabel tags refs) := by
  induction ps with
  | nil => rfl
  | cons p ps ih => simp [relabelAll, ih]

@[simp] theorem key_relabel (n : Node) : (n.relabel tags refs).key = n.key := by
  cases n <;> rfl

@[simp] theorem isPresent_relabel (n : Node) :
    (n.relabel tags refs).isPresent = n.isPresent := by
  cases n <;> rfl

theorem parts_relabel (h : n.key.bind refs = none) :
    (n.relabel tags refs).parts = n.parts.map (relabel tags refs) := by
  cases n with
  | absent => rfl
  | mk m f ps =>
    have h : m.key.bind refs = none := h
    rw [relabel, h, parts, relabelAll_eq_map]
    rfl

@[simp] theorem cls_tagged (tag : Option String) (f : Form) : (f.tagged tag).cls = f.cls := by
  cases f <;> rfl

theorem tagged_none (f : Form) : f.tagged none = f := by
  cases f <;> rfl

theorem tagged_tagged (f : Form) (tag : Option String) (name : String) :
    (f.tagged tag).tagged (some name) = f.tagged (some name) := by
  cases f <;> rfl

theorem withTag_mk (name : String) (m : Mark) (f : Form) (ps : List Node) :
    (mk m f ps).withTag (some name) = mk m (f.tagged (some name)) ps := by
  cases f <;> rfl

theorem child_relabel (tags : Nat → Option String) (h : n.key.bind refs = none) (s : Slot) :
    (n.relabel tags refs).child s = (n.child s).relabel tags refs := by
  cases n with
  | absent => rfl
  | mk m f ps =>
    have h : m.key.bind refs = none := h
    rw [relabel, h, child_mk, child_mk, cls_tagged, relabelAll_eq_map, List.getElem?_map]
    cases ps[f.cls.slots.idxOf s]? <;> rfl

/-- A struct has the tag that it was given, or else its own. -/
theorem form?_relabel_struct {tag : Option String} {complete : Bool}
    (h : n.form? = some (.structType tag complete)) :
    (n.relabel tags refs).form? = some (.structType (n.tagIn tags) complete) := by
  cases n with
  | absent => cases h
  | mk m f ps =>
    obtain rfl := Option.some.inj h
    rfl

theorem name?_relabel (h : n.isSole = false) : (n.relabel tags refs).name? = n.tagIn tags := by
  cases n with
  | absent => rfl
  | mk m f ps =>
    cases f with
    | structType | unionType | enumType => rfl
    | _ => cases h

/-- Without tags and references the tree is as it was. -/
theorem relabel_none (t : Node) : t.relabel (fun _ => none) (fun _ => none) = t := by
  induction t using induction with
  | h₀ => rfl
  | h m f ps ih =>
    have hnone : ∀ {α : Type}, m.key.bind (fun _ => (none : Option α)) = none := fun {α} => by
      cases m.key <;> rfl
    rw [relabel, hnone, hnone, tagged_none, relabelAll_eq_map]
    congr 1
    exact (List.map_congr_left fun p hp => ih p hp).trans (List.map_id ps)

/-! ### One more tag or reference -/

/-- Only the tags for nodes in the tree count. -/
theorem relabel_congr {tags' : Nat → Option String}
    (h : ∀ x ∈ t.preorder, x.key.bind tags = x.key.bind tags') :
    t.relabel tags refs = t.relabel tags' refs := by
  induction t using induction with
  | h₀ => rfl
  | h m f ps ih =>
    have hparts : ps.map (relabel tags refs) = ps.map (relabel tags' refs) :=
      List.map_congr_left fun p hp => ih p hp fun x hx =>
        h x (mem_preorder_mk.mpr (.inr ⟨p, hp, hx⟩))
    have hself : m.key.bind tags = m.key.bind tags' := h _ (self_mem_preorder rfl)
    rw [relabel, relabel, hself, relabelAll_eq_map, relabelAll_eq_map, hparts]

/-- One more entry in a table does not count for other keys. -/
theorem bind_update_of_ne {α : Type} {f : Nat → Option α} {v : Option α} {key : Option Nat}
    (h : key ≠ some k) : key.bind (Function.update f k v) = key.bind f := by
  cases key with
  | none => rfl
  | some j =>
    have hj : j ≠ k := fun hj => h (congrArg some hj)
    simp [hj]

/-- What is found in a table with one more entry is that entry, or was there before. -/
theorem update_eq_some {α : Type} {f : Nat → Option α} {v w : α} {j : Nat}
    (h : Function.update f k (some v) j = some w) : j = k ∧ w = v ∨ f j = some w := by
  by_cases hj : j = k
  · subst hj
    exact .inl ⟨rfl, by simpa using h.symm⟩
  · exact .inr (by simpa [hj] using h)

theorem tagIn_update {name : String} (h : n.key ≠ some k) :
    n.tagIn (Function.update tags k (some name)) = n.tagIn tags := by
  rw [tagIn, bind_update_of_ne h, tagIn]

/-- The node of a key does not stand below itself. -/
def Topmost (k : Nat) (t : Node) : Prop :=
  ∀ x ∈ t.preorder, x.key = some k → ∀ y ∈ preorderAll x.parts, y.key ≠ some k

/-- References have no part in a key. -/
def Spares (k : Nat) (refs : Nat → Option Node) : Prop :=
  ∀ j r, refs j = some r → ∀ y ∈ r.preorder, y.key ≠ some k

/-- A change to a node of another key happens in its parts. -/
theorem modifyAt_relabel_of_ne {change : Node → Node} {m : Mark} {f : Form} {ps : List Node}
    (hm : m.key ≠ some k) (hr : Spares k refs) :
    modifyAt k change ((mk m f ps).relabel tags refs) =
      mk m (f.tagged (m.key.bind tags)) (match m.key.bind refs with
        | some r => [r]
        | none => ps.map fun p => modifyAt k change (p.relabel tags refs)) := by
  rw [relabel, relabelAll_eq_map, modifyAt, if_neg (by simpa using hm), modifyAllAt_eq_map]
  congr 1
  cases href : m.key.bind refs with
  | none => simp
  | some r =>
    obtain ⟨j, -, hj⟩ := Option.bind_eq_some_iff.mp href
    simp [modifyAt_of_not_occurs (hr j r hj)]

theorem modifyAt_relabel_tag (name : String) (ht : t.Topmost k) (hr : Spares k refs)
    (hk : refs k = none) :
    modifyAt k (withTag (some name)) (t.relabel tags refs) =
      t.relabel (Function.update tags k (some name)) refs := by
  induction t using induction with
  | h₀ => rfl
  | h m f ps ih =>
    have hbelow : ∀ p ∈ ps, p.Topmost k := fun p hp x hx =>
      ht x (mem_preorder_mk.mpr (.inr ⟨p, hp, hx⟩))
    by_cases hm : m.key = some k
    · rw [relabel, relabel, modifyAt, if_pos (by simpa using hm), withTag_mk, tagged_tagged]
      have hparts : ps.map (relabel tags refs) =
          ps.map (relabel (Function.update tags k (some name)) refs) := by
        refine List.map_congr_left fun p hp => relabel_congr fun x hx => ?_
        exact (bind_update_of_ne (ht _ (self_mem_preorder rfl) hm x
          (mem_preorderAll.mpr ⟨p, hp, hx⟩))).symm
      simp [hm, hk, relabelAll_eq_map, hparts]
    · rw [modifyAt_relabel_of_ne hm hr, relabel, relabelAll_eq_map, bind_update_of_ne hm,
        List.map_congr_left fun p hp => ih p hp (hbelow p hp)]

theorem modifyAt_relabel_reference (r : Node) (hr : Spares k refs) :
    modifyAt k (withParts · [r]) (t.relabel tags refs) =
      t.relabel tags (Function.update refs k (some r)) := by
  induction t using induction with
  | h₀ => rfl
  | h m f ps ih =>
    by_cases hm : m.key = some k
    · rw [relabel, relabel, modifyAt, if_pos (by simpa using hm)]
      simp [hm, withParts]
    · rw [modifyAt_relabel_of_ne hm hr, relabel, relabelAll_eq_map, bind_update_of_ne hm,
        List.map_congr_left fun p hp => ih p hp]

/-! ### What can still be seen -/

/-- Steps downwards, other than to the base type of a declaration. -/
def Holds (p c : Node) : Prop := c ∈ p.parts ∧ p.isA .typeDecl = false

/-- Only the ends of chains of declarators have references. -/
def EndsOnly (refs : Nat → Option Node) (t : Node) : Prop :=
  ∀ x ∈ t.preorder, x.isA .typeDecl = false → x.key.bind refs = none

/-- The end of a chain that has a reference has it for its type. -/
theorem child_relabel_of_ref (hn : n.isA .typeDecl) (h : n.key.bind refs = some r) :
    (n.relabel tags refs).child .type = r := by
  cases n with
  | absent => cases h
  | mk m f ps =>
    cases f with
    | typeDecl =>
      have h : m.key.bind refs = some r := h
      rw [relabel, h]
      rfl
    | _ => cases hn

/-- A node that is reached without a step to a base type is still there. -/
theorem mem_relabel_of_steps (tags : Nat → Option String) (he : EndsOnly refs t) (ht : t.isPresent)
    (h : ReflTransGen Holds t x) (hx : x.isPresent) :
    x ∈ t.preorder ∧ x.relabel tags refs ∈ (t.relabel tags refs).preorder := by
  induction h with
  | refl => exact ⟨self_mem_preorder ht, self_mem_preorder (by simpa using ht)⟩
  | @tail p c _ hc ih =>
    obtain ⟨hp, hpr⟩ := ih (isPresent_of_mem_parts hc.1)
    refine ⟨mem_preorder_of_part hp hc.1 hx, mem_preorder_of_part hpr ?_ (by simpa using hx)⟩
    rw [parts_relabel (he p hp hc.2)]
    exact List.mem_map_of_mem hc.1

end Node

end Fieldwise
