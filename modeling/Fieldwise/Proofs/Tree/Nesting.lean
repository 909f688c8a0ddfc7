import Fieldwise.Aggregate.SharedDefinition
import Fieldwise.Proofs.Tree.Knit
import Mathlib.Logic.Relation

/-!
# Declarations within statements

Where the declarations stand that `Node.declarationLists` goes through: in the list of a node that
is reached from the root through statements only (`Node.IsItemOf`, `Node.mem_declarationLists_iff`).

In a woven tree no declaration is met twice (`Node.Woven.pairwise_declarations`). It follows from
what a sole node determines: going up from it, there is one way (`Node.Woven.comparable`).
-/

namespace Fieldwise.Node

open Relation

/-- The statements that stand directly in a node, the start of a `for` loop among them. -/
def statements : Node → List Node
  | mk _ .file items | mk _ .compound items | mk _ .defaultLabel items => items
  | mk _ .caseLabel (_ :: items) => items
  | mk _ .funcDef (_ :: body :: _) => [body]
  | mk _ .ifStmt [_, yes, no] => [yes, no]
  | mk _ .switch [_, stmt] | mk _ .whileLoop [_, stmt] | mk _ .doWhile [_, stmt] => [stmt]
  | mk _ (.label _) [stmt] => [stmt]
  | mk _ .forLoop [start, _, _, stmt] => [start, stmt]
  | _ => []

/-- The items of a file, a block, a case or the start of a `for` loop. -/
def listed : Node → List Node
  | mk _ .file items | mk _ .compound items | mk _ .defaultLabel items | mk _ .declList items =>
    items
  | mk _ .caseLabel (_ :: items) => items
  | _ => []

/-- A node is reached from another through statements. -/
def Nests : Node → Node → Prop := ReflTransGen fun p c => c ∈ p.statements

/-- A node is an item of a file, a block, a case or the start of a `for` loop, at any nesting of
statements. -/
def IsItemOf (n t : Node) : Prop := ∃ list, Nests t list ∧ n ∈ list.listed

theorem flatten_declarationListsIn (ns : List Node) :
    (declarationListsIn ns).flatten = ns.flatMap fun n => n.declarationLists.flatten := by
  induction ns with
  | nil => rfl
  | cons n ns ih => rw [declarationListsIn, List.flatten_append, ih, List.flatMap_cons]

/-- The declarations that are met in a node: its own items, and those met in its statements. -/
theorem flatten_declarationLists (n : Node) : n.declarationLists.flatten =
    n.listed ++ n.statements.flatMap fun c => c.declarationLists.flatten := by
  conv =>
    lhs
    unfold declarationLists
  split <;> simp [listed, statements, flatten_declarationListsIn]

variable {ts : List Node} {t n m p c i j x y : Node}

theorem sublist_statements (p : Node) : p.statements.Sublist p.parts := by
  unfold statements
  split
  all_goals simp [parts]

theorem mem_parts_of_statements (h : c ∈ p.statements) : c ∈ p.parts ∧ p.isSole := by
  refine ⟨(sublist_statements p).subset h, ?_⟩
  unfold statements at h
  split at h
  all_goals first | rfl | exact absurd h List.not_mem_nil

theorem sublist_listed (p : Node) : p.listed.Sublist p.parts := by
  unfold listed
  split
  all_goals simp [parts]

theorem isSole_of_listed (h : c ∈ p.listed) : p.isSole := by
  unfold listed at h
  split at h
  all_goals first | rfl | exact absurd h List.not_mem_nil

/-- The declarations that are met in a node are the items at any nesting of statements. -/
theorem mem_declarationLists_iff : x ∈ n.declarationLists.flatten ↔ x.IsItemOf n := by
  constructor
  · intro h
    induction n using induction with
    | h₀ => cases h
    | h m f ps ih =>
      rw [flatten_declarationLists, List.mem_append, List.mem_flatMap] at h
      rcases h with h | ⟨c, hc, h⟩
      · exact ⟨_, .refl, h⟩
      · obtain ⟨list, hlist, hx⟩ := ih c (mem_parts_of_statements hc).1 h
        exact ⟨list, .head hc hlist, hx⟩
  · rintro ⟨list, hlist, hx⟩
    induction hlist using ReflTransGen.head_induction_on with
    | refl =>
      rw [flatten_declarationLists]
      exact List.mem_append_left _ hx
    | head hc _ ih =>
      rw [flatten_declarationLists]
      exact List.mem_append_right _ (List.mem_flatMap.mpr ⟨_, hc, ih⟩)

/-! ### The way up from a node -/

section Steps

variable {R : Node → Node → Prop}

/-- What is reached through parts is in the tree. -/
theorem mem_preorder_of_steps (hR : ∀ {p c}, R p c → c ∈ p.parts) (h : ReflTransGen R i x)
    (hx : x.isPresent) : x ∈ i.preorder := by
  induction h with
  | refl => exact self_mem_preorder hx
  | tail _ hc ih => exact mem_preorder_of_part (ih (isPresent_of_mem_parts (hR hc))) (hR hc) hx

/-- Where sole nodes only have steps, what a sole node is reached from is one. -/
theorem isSole_of_steps (hR : ∀ {p c}, R p c → p.isSole) (h : ReflTransGen R i x)
    (hx : x.isSole) : i.isSole := by
  cases h using ReflTransGen.head_induction_on with
  | refl => exact hx
  | head hc _ => exact hR hc

/-- There is one way up from a sole node, so of two nodes from which it is reached through sole
nodes, one is reached from the other. -/
theorem Woven.comparable (h : Woven ts) (hR : ∀ {p c}, R p c → c ∈ p.parts ∧ p.isSole)
    (hi : i ∈ preorderAll ts) (hj : j ∈ preorderAll ts) (hix : ReflTransGen R i x)
    (hjy : ReflTransGen R j y) (hx : x.isSole) (hk : x.key = y.key) :
    ReflTransGen R i j ∨ ReflTransGen R j i := by
  have hmem : ∀ {i x}, i ∈ preorderAll ts → ReflTransGen R i x → x.isPresent →
      x ∈ preorderAll ts := fun hi hix hx =>
    mem_preorderAll_trans (mem_preorder_of_steps (fun hc => (hR hc).1) hix hx) hi
  induction hix generalizing y with
  | refl =>
    obtain ⟨k, hik⟩ := h.exists_key hi
    obtain rfl := h.eq_of_key hi (hmem hj hjy (isPresent_of_key (hk ▸ hik))) hk
    exact .inr hjy
  | @tail p x hip hpx ih =>
    cases hjy with
    | refl =>
      obtain rfl := h.eq_of_key (hmem hi (hip.tail hpx) (isPresent_of_isSole hx)) hj hk
      exact .inl (hip.tail hpx)
    | @tail q _ hjq hqy =>
      have hp := hmem hi hip (isPresent_of_isSole (hR hpx).2)
      have hq := hmem hj hjq (isPresent_of_isSole (hR hqy).2)
      exact ih hjq (hR hpx).2 (h.sole p hp q hq x (hR hpx).1 y (hR hqy).1 hx hk)

/-- The node above a sole node. -/
theorem Woven.parent_eq {q : Node} (h : Woven ts) (hp : p ∈ preorderAll ts) (hq : q ∈ preorderAll ts)
    (hx : x ∈ p.parts) (hy : y ∈ q.parts) (hs : x.isSole ∨ y.isSole) (hk : x.key = y.key) :
    p = q := by
  refine h.eq_of_key hp hq ?_
  rcases hs with hs | hs
  · exact h.sole p hp q hq x hx y hy hs hk
  · exact (h.sole q hq p hp y hy x hx hs hk.symm).symm

/-- No part of a node that can stand at one place only is reached from another part of it. -/
theorem Woven.eq_of_steps (h : Woven ts) (hR : ∀ {p c}, R p c → c ∈ p.parts)
    (hp : p ∈ preorderAll ts) (hi : i ∈ p.parts) (hj : j ∈ p.parts) (hs : j.isSole)
    (hij : ReflTransGen R i j) : i = j := by
  cases hij with
  | refl => rfl
  | @tail q _ hiq hqj =>
    have hq : q ∈ i.preorder := mem_preorder_of_steps hR hiq (isPresent_of_mem_parts (hR hqj))
    have hqt : q ∈ preorderAll ts :=
      mem_preorderAll_trans (mem_preorder_of_mem_parts hi hq) hp
    obtain rfl := h.eq_of_key hqt hp (h.sole q hqt p hp j (hR hqj) j hj hs rfl)
    exact (not_mem_preorderAll_parts (mem_preorderAll.mpr ⟨i, hi, hq⟩)
      (self_mem_preorder (isPresent_of_mem_preorder hq))).elim

end Steps

/-! ### No declaration is met twice -/

/-- An item that is met in a statement stands in the list of a node that the statement nests, and
both of these stand at one place only. -/
theorem IsItemOf.exists_list (h : y.IsItemOf c) : ∃ list, Nests c list ∧ y ∈ list.parts ∧
    c.isSole ∧ list.isSole ∧ list ∈ c.preorder := by
  obtain ⟨list, hlist, hy⟩ := h
  have hs := isSole_of_listed hy
  exact ⟨list, hlist, (sublist_listed list).subset hy,
    isSole_of_steps (fun hc => (mem_parts_of_statements hc).2) hlist hs, hs,
    mem_preorder_of_steps (fun hc => (mem_parts_of_statements hc).1) hlist
      (isPresent_of_isSole hs)⟩

theorem mem_preorderAll_of_statements (hp : p ∈ preorderAll ts) (hc : c ∈ p.statements)
    (hs : c.isSole) : c ∈ preorderAll ts :=
  mem_preorderAll_trans (mem_preorder_of_mem_parts (mem_parts_of_statements hc).1
    (self_mem_preorder (isPresent_of_isSole hs))) hp

/-- An item of a node is met in none of its statements. -/
theorem Woven.key_ne_of_isItemOf (h : Woven ts) (hp : p ∈ preorderAll ts) (hx : x ∈ p.listed)
    (hc : c ∈ p.statements) (hy : y.IsItemOf c) (hs : x.isSole ∨ y.isSole) : x.key ≠ y.key := by
  intro hk
  obtain ⟨list, -, hyl, hcs, -, hlm⟩ := hy.exists_list
  obtain rfl := h.parent_eq hp
    (mem_preorderAll_trans hlm (mem_preorderAll_of_statements hp hc hcs))
    ((sublist_listed p).subset hx) hyl hs hk
  exact not_mem_preorderAll_parts (mem_preorderAll.mpr ⟨c, (mem_parts_of_statements hc).1, hlm⟩)
    (self_mem_preorder (isPresent_of_isSole (isSole_of_listed hx)))

/-- Two statements of a node in which one item is met are one statement. -/
theorem Woven.statement_eq {c' y' : Node} (h : Woven ts) (hp : p ∈ preorderAll ts)
    (hc : c ∈ p.statements) (hc' : c' ∈ p.statements) (hy : y.IsItemOf c) (hy' : y'.IsItemOf c')
    (hs : y.isSole ∨ y'.isSole) (hk : y.key = y'.key) : c = c' ∧ c.isSole := by
  obtain ⟨list, hlist, hyl, hcs, hls, hlm⟩ := hy.exists_list
  obtain ⟨list', hlist', hyl', hcs', -, hlm'⟩ := hy'.exists_list
  have hct := mem_preorderAll_of_statements hp hc hcs
  have hct' := mem_preorderAll_of_statements hp hc' hcs'
  obtain rfl := h.parent_eq (mem_preorderAll_trans hlm hct) (mem_preorderAll_trans hlm' hct') hyl
    hyl' hs hk
  have hR : ∀ {p c : Node}, c ∈ p.statements → c ∈ p.parts := fun hc =>
    (mem_parts_of_statements hc).1
  refine ⟨?_, hcs⟩
  rcases h.comparable mem_parts_of_statements hct hct' hlist hlist' hls rfl with hreach | hreach
  · exact h.eq_of_steps hR hp (hR hc) (hR hc') hcs' hreach
  · exact (h.eq_of_steps hR hp (hR hc') (hR hc) hcs hreach).symm

/-- **Each declaration is met once** in a woven tree. -/
theorem Woven.pairwise_declarations (h : Woven ts) (ht : t.isPresent → t ∈ preorderAll ts) :
    t.declarationLists.flatten.Pairwise Apart := by
  induction t using induction with
  | h₀ => exact .nil
  | h m f ps ih =>
    have hP : Node.mk m f ps ∈ preorderAll ts := ht rfl
    have hsiblings : ps.Pairwise Apart := h.siblings _ hP
    rw [flatten_declarationLists]
    generalize hp : Node.mk m f ps = p at hP ⊢
    obtain rfl : ps = p.parts := by rw [← hp]; rfl
    refine List.pairwise_append.mpr ⟨hsiblings.sublist (sublist_listed p),
      List.pairwise_flatMap.mpr ⟨fun c hc => ?_, ?_⟩, fun x hx y hy hs hk => ?_⟩
    · have hc := (sublist_statements p).subset hc
      exact ih c hc fun hcp =>
        mem_preorderAll_trans (mem_preorder_of_mem_parts hc (self_mem_preorder hcp)) hP
    · refine (hsiblings.sublist (sublist_statements p)).imp_of_mem ?_
      intro c c' hc hc' hapart y hy y' hy' hs hk
      obtain ⟨rfl, hcs⟩ := h.statement_eq hP hc hc' (mem_declarationLists_iff.mp hy)
        (mem_declarationLists_iff.mp hy') hs hk
      exact hapart (.inl hcs) rfl
    · obtain ⟨c, hc, hy⟩ := List.mem_flatMap.mp hy
      exact h.key_ne_of_isItemOf hP hx hc (mem_declarationLists_iff.mp hy) hs hk

end Fieldwise.Node
