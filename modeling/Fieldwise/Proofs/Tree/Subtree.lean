import Fieldwise.Tree.Search
import Fieldwise.Tree.Identity

/-!
# Subtrees

The nodes of a tree as a set: `x ∈ t.preorder` says that `x` is `t` or stands somewhere below it.
A subtree is never below itself (`Node.eq_of_mem_preorder`), and what can be looked up by a key is
what occurs with that key (`Node.find?_isSome`, `Node.ancestors?_isSome`).

In a `Consistent` tree all nodes of one key are the same.
-/

namespace Fieldwise.Node

/-- Induction over a tree, where the parts of a node are taken together. -/
theorem induction {P : Node → Prop} (h₀ : P absent)
    (h : ∀ m f ps, (∀ p ∈ ps, P p) → P (mk m f ps)) (t : Node) : P t := by
  refine Node.rec (motive_1 := P) (motive_2 := fun ps => ∀ p ∈ ps, P p) h₀ h ?_ ?_ t
  · intro p hp
    cases hp
  · intro p ps hp hps q hq
    rcases List.mem_cons.mp hq with rfl | hq
    · exact hp
    · exact hps q hq

theorem mem_preorderAll {x : Node} {ps : List Node} :
    x ∈ preorderAll ps ↔ ∃ p ∈ ps, x ∈ p.preorder := by
  rw [preorderAll_eq_flatMap, List.mem_flatMap]

theorem mem_preorder_mk {x : Node} {m : Mark} {f : Form} {ps : List Node} :
    x ∈ (mk m f ps).preorder ↔ x = mk m f ps ∨ ∃ p ∈ ps, x ∈ p.preorder := by
  rw [preorder, List.mem_cons, mem_preorderAll]

theorem not_mem_preorder_absent {x : Node} : x ∉ absent.preorder := by
  simp [preorder]

/-- What is below a node is the node or below one of its parts. -/
theorem mem_preorder_iff {x t : Node} (ht : t.isPresent) :
    x ∈ t.preorder ↔ x = t ∨ x ∈ preorderAll t.parts := by
  cases t with
  | absent => cases ht
  | mk m f ps => rw [mem_preorder_mk, parts, mem_preorderAll]

theorem isPresent_of_mem_preorder {x t : Node} (h : x ∈ t.preorder) : x.isPresent := by
  induction t using induction with
  | h₀ => exact absurd h not_mem_preorder_absent
  | h m f ps ih =>
    rcases mem_preorder_mk.mp h with rfl | ⟨p, hp, h⟩
    · rfl
    · exact ih p hp h

theorem self_mem_preorder {t : Node} (ht : t.isPresent) : t ∈ t.preorder :=
  (mem_preorder_iff ht).mpr (.inl rfl)

theorem mem_preorder_of_mem_parts {x c t : Node} (hc : c ∈ t.parts) (hx : x ∈ c.preorder) :
    x ∈ t.preorder := by
  cases t with
  | absent => cases hc
  | mk m f ps => exact mem_preorder_mk.mpr (.inr ⟨c, hc, hx⟩)

theorem mem_preorder_trans {x y t : Node} (hx : x ∈ y.preorder) (hy : y ∈ t.preorder) :
    x ∈ t.preorder := by
  induction t using induction with
  | h₀ => exact absurd hy not_mem_preorder_absent
  | h m f ps ih =>
    rcases mem_preorder_mk.mp hy with rfl | ⟨p, hp, hy⟩
    · exact hx
    · exact mem_preorder_mk.mpr (.inr ⟨p, hp, ih p hp hy⟩)

theorem mem_preorder_of_part {c x t : Node} (hx : x ∈ t.preorder) (hc : c ∈ x.parts)
    (hp : c.isPresent) : c ∈ t.preorder :=
  mem_preorder_trans (mem_preorder_of_mem_parts hc (self_mem_preorder hp)) hx

theorem mem_preorder_of_mem_preorderAll {c x t : Node} (hx : x ∈ t.preorder)
    (hc : c ∈ preorderAll x.parts) : c ∈ t.preorder := by
  obtain ⟨p, hp, hc⟩ := mem_preorderAll.mp hc
  exact mem_preorder_trans (mem_preorder_of_mem_parts hp hc) hx

theorem isPresent_of_preorder {x t : Node} (h : x ∈ t.preorder) : t.isPresent := by
  cases t with
  | absent => exact absurd h not_mem_preorder_absent
  | mk => rfl

theorem child_mem_parts {n : Node} {s : Slot} (h : (n.child s).isPresent) :
    n.child s ∈ n.parts := by
  cases n with
  | absent => cases h
  | mk m f ps =>
    rw [child, List.getD_eq_getElem?_getD] at h ⊢
    cases hc : ps[f.cls.slots.idxOf s]? with
    | none =>
      rw [hc] at h
      cases h
    | some c => exact List.mem_of_getElem? hc

theorem child_mem_preorder {n : Node} {s : Slot} (h : (n.child s).isPresent) :
    n.child s ∈ n.preorder :=
  mem_preorder_of_mem_parts (child_mem_parts h) (self_mem_preorder h)

theorem isPresent_of_isA {n : Node} {c : Class} (h : n.isA c) : n.isPresent := by
  cases n with
  | absent => cases h
  | mk => rfl

/-- A node is of one class. -/
theorem isA_of_ne {n : Node} {c c' : Class} (h : n.isA c) (hc : c ≠ c') : n.isA c' = false := by
  rw [isA, beq_iff_eq] at h
  rw [isA, h]
  exact beq_false_of_ne fun he => hc (Option.some.inj he)

theorem isBlock_of_isA {n : Node} {c : Class} (h : n.isA c) : n.isBlock = c.isBlock := by
  have hc : n.cls? = some c := by simpa [isA] using h
  simp [isBlock, hc]

theorem isPresent_of_mem_parts {c t : Node} (h : c ∈ t.parts) : t.isPresent := by
  cases t with
  | absent => cases h
  | mk => rfl

theorem isPresent_of_child {n : Node} {s : Slot} (h : (n.child s).isPresent) : n.isPresent := by
  cases n with
  | absent => cases h
  | mk => rfl

theorem sizeOf_lt_of_mem_parts {c t : Node} (hc : c ∈ t.parts) : sizeOf c < sizeOf t := by
  cases t with
  | absent => cases hc
  | mk m f ps =>
    have := List.sizeOf_lt_of_mem hc
    simp only [parts, mk.sizeOf_spec] at this ⊢
    omega

theorem sizeOf_le_of_mem_preorder {x t : Node} (h : x ∈ t.preorder) : sizeOf x ≤ sizeOf t := by
  induction t using induction with
  | h₀ => exact absurd h not_mem_preorder_absent
  | h m f ps ih =>
    rcases mem_preorder_mk.mp h with rfl | ⟨p, hp, h⟩
    · exact Nat.le_refl _
    · exact Nat.le_of_lt (Nat.lt_of_le_of_lt (ih p hp h) (sizeOf_lt_of_mem_parts hp))

/-- A node is not below its own parts. -/
theorem not_mem_preorderAll_parts {t x : Node} (hx : x ∈ preorderAll t.parts)
    (h : t ∈ x.preorder) : False := by
  obtain ⟨p, hp, hx⟩ := mem_preorderAll.mp hx
  have h1 := sizeOf_le_of_mem_preorder (mem_preorder_trans h hx)
  have h2 := sizeOf_lt_of_mem_parts hp
  omega

/-- What is below the parts of a node is a part of a node there, or of the node. -/
theorem exists_parent_of_mem {x t : Node} (h : x ∈ preorderAll t.parts) :
    ∃ q ∈ t.preorder, x ∈ q.parts := by
  induction t using induction with
  | h₀ => cases h
  | h m f ps ih =>
    obtain ⟨p, hp, hx⟩ := mem_preorderAll.mp h
    rcases (mem_preorder_iff (isPresent_of_preorder hx)).mp hx with rfl | hx
    · exact ⟨_, self_mem_preorder rfl, hp⟩
    · obtain ⟨q, hq, hxq⟩ := ih p hp hx
      exact ⟨q, mem_preorder_mk.mpr (.inr ⟨p, hp, hq⟩), hxq⟩

/-- Two nodes below each other are one. -/
theorem eq_of_mem_preorder {x y : Node} (hx : x ∈ y.preorder) (hy : y ∈ x.preorder) : x = y := by
  rcases (mem_preorder_iff (isPresent_of_mem_preorder hy)).mp hx with h | h
  · exact h
  · exact (not_mem_preorderAll_parts h hy).elim

/-! ### Looking up keys -/

theorem findAll?_eq_findSome? (k : Nat) (ps : List Node) :
    findAll? k ps = ps.findSome? (find? k) := by
  induction ps with
  | nil => rfl
  | cons p ps ih =>
    rw [findAll?, List.findSome?_cons, ih]
    cases find? k p <;> rfl

theorem ancestorsAll?_eq_findSome? (k : Nat) (ps : List Node) :
    ancestorsAll? k ps = ps.findSome? (ancestors? k) := by
  induction ps with
  | nil => rfl
  | cons p ps ih =>
    rw [ancestorsAll?, List.findSome?_cons, ih]
    cases ancestors? k p <;> rfl

theorem find?_eq_some {k : Nat} {t x : Node} (h : t.find? k = some x) :
    x ∈ t.preorder ∧ x.key = some k := by
  induction t using induction with
  | h₀ => cases h
  | h m f ps ih =>
    rw [find?, findAll?_eq_findSome?] at h
    split at h
    case isTrue hm =>
      cases h
      exact ⟨self_mem_preorder rfl, by simpa [key, mark] using hm⟩
    case isFalse =>
      obtain ⟨p, hp, h⟩ := List.exists_of_findSome?_eq_some h
      exact ⟨mem_preorder_mk.mpr (.inr ⟨p, hp, (ih p hp h).1⟩), (ih p hp h).2⟩

/-- What occurs is found. -/
theorem find?_isSome {k : Nat} {t : Node} :
    (t.find? k).isSome ↔ ∃ x ∈ t.preorder, x.key = some k := by
  constructor
  · intro h
    obtain ⟨x, hx⟩ := Option.isSome_iff_exists.mp h
    exact ⟨x, find?_eq_some hx⟩
  · rintro ⟨x, hx, hk⟩
    induction t using induction with
    | h₀ => exact absurd hx not_mem_preorder_absent
    | h m f ps ih =>
      rw [find?, findAll?_eq_findSome?]
      split
      case isTrue => rfl
      case isFalse hm =>
        rcases mem_preorder_mk.mp hx with rfl | ⟨p, hp, hx⟩
        · exact absurd (by simpa [key, mark] using hk) hm
        · exact List.findSome?_isSome_iff.mpr ⟨p, hp, ih p hp hx⟩

/-- What is found has nodes above it. -/
theorem ancestors?_isSome (k : Nat) (t : Node) :
    (t.ancestors? k).isSome = (t.find? k).isSome := by
  induction t using induction with
  | h₀ => rfl
  | h m f ps ih =>
    rw [ancestors?, find?, findAll?_eq_findSome?, ancestorsAll?_eq_findSome?]
    split
    case isTrue => rfl
    case isFalse =>
      rw [Option.isSome_map, Bool.eq_iff_iff, List.findSome?_isSome_iff, List.findSome?_isSome_iff]
      constructor
      · rintro ⟨p, hp, h⟩
        exact ⟨p, hp, ih p hp ▸ h⟩
      · rintro ⟨p, hp, h⟩
        exact ⟨p, hp, (ih p hp).symm ▸ h⟩

/-- The nodes above a node are in the tree. -/
theorem mem_of_ancestors? {k : Nat} {t x : Node} {above : List Node}
    (h : t.ancestors? k = some above) (hx : x ∈ above) : x ∈ t.preorder := by
  induction t using induction generalizing above with
  | h₀ => cases h
  | h m f ps ih =>
    rw [ancestors?] at h
    split at h
    case isTrue =>
      obtain rfl : above = [] := by simpa using h.symm
      cases hx
    case isFalse =>
      rw [ancestorsAll?_eq_findSome?] at h
      obtain ⟨above', ha, rfl⟩ := Option.map_eq_some_iff.mp h
      obtain ⟨p, hp, ha⟩ := List.exists_of_findSome?_eq_some ha
      rcases List.mem_append.mp hx with hx | hx
      · exact mem_preorder_mk.mpr (.inr ⟨p, hp, ih p hp ha hx⟩)
      · rw [List.mem_singleton.mp hx]
        exact self_mem_preorder rfl

/-- Only the root has no node above it. -/
theorem ancestors?_eq_nil {k : Nat} {t : Node} (h : t.ancestors? k = some []) :
    t.key = some k := by
  cases t with
  | absent => cases h
  | mk m f ps =>
    rw [ancestors?] at h
    split at h
    case isTrue hk => simpa [key, mark] using hk
    case isFalse =>
      obtain ⟨above, -, h⟩ := Option.map_eq_some_iff.mp h
      simp at h

/-- The nearest node above one is its parent. -/
theorem ancestors?_eq_cons {k : Nat} {t p : Node} {rest : List Node}
    (h : t.ancestors? k = some (p :: rest)) :
    p ∈ t.preorder ∧ ∃ c ∈ p.parts, c.key = some k := by
  induction t using induction generalizing rest with
  | h₀ => cases h
  | h m f ps ih =>
    rw [ancestors?, ancestorsAll?_eq_findSome?] at h
    split at h
    case isTrue => cases h
    case isFalse =>
      obtain ⟨above, ha, h⟩ := Option.map_eq_some_iff.mp h
      obtain ⟨q, hq, ha⟩ := List.exists_of_findSome?_eq_some ha
      cases above with
      | nil =>
        obtain ⟨rfl, rfl⟩ : p = mk m f ps ∧ rest = [] := by simpa using h.symm
        exact ⟨self_mem_preorder rfl, q, hq, ancestors?_eq_nil ha⟩
      | cons p' above =>
        obtain ⟨rfl, -⟩ : p' = p ∧ above ++ [mk m f ps] = rest := by simpa using h
        obtain ⟨hp, hc⟩ := ih q hq ha
        exact ⟨mem_preorder_mk.mpr (.inr ⟨q, hq, hp⟩), hc⟩

/-! ### Trees in which a key stands for one node -/

/-- All nodes of one key are the same. -/
def Consistent (ts : List Node) : Prop :=
  ∀ x ∈ preorderAll ts, ∀ y ∈ preorderAll ts, x.key.isSome → x.key = y.key → x = y

theorem Consistent.subset {ts us : List Node} (h : Consistent ts)
    (hs : ∀ x ∈ preorderAll us, x ∈ preorderAll ts) : Consistent us :=
  fun x hx y hy => h x (hs x hx) y (hs y hy)

theorem mem_preorderAll_singleton {x t : Node} : x ∈ preorderAll [t] ↔ x ∈ t.preorder := by
  simp [mem_preorderAll]

theorem isPresent_of_key {x : Node} {k : Nat} (h : x.key = some k) : x.isPresent := by
  cases x with
  | absent => cases h
  | mk => rfl

end Fieldwise.Node
