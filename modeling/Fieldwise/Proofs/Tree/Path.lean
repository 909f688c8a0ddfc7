import Fieldwise.Proofs.Tree.Subtree

/-!
# Searches and paths

A search visits the root, and the parts of what it visits that are not left out
(`Node.mem_search_of_part`, `Node.search_induction`). The nodes above the first occurrence of a key
are a path on which each node is the first part with the key of the next one (`Node.IsPath`,
`Node.isPath_of_ancestors?`), and without its first node they are those above that one
(`Node.ancestors?_parent`).
-/

namespace Fieldwise.Node

/-! ### Searches -/

variable {prune : Node → Node → Bool} {x t p c parent : Node} {ps : List Node}

/-- A search visits what is below the parts that are not left out. -/
theorem mem_searchAll : x ∈ searchAll prune parent ps ↔
    ∃ p ∈ ps, prune parent p = false ∧ x ∈ p.search prune := by
  induction ps with
  | nil => simp [searchAll]
  | cons p ps ih =>
    rw [searchAll, List.mem_append, ih]
    cases hp : prune parent p <;> simp [hp]

theorem mem_search_mk {m : Mark} {f : Form} : x ∈ (mk m f ps).search prune ↔
    x = mk m f ps ∨ ∃ p ∈ ps, prune (mk m f ps) p = false ∧ x ∈ p.search prune := by
  rw [search, List.mem_cons, mem_searchAll]

theorem self_mem_search (h : t.isPresent) : t ∈ t.search prune := by
  cases t with
  | absent => cases h
  | mk m f ps => exact mem_search_mk.mpr (.inl rfl)

/-- A search visits the parts of what it visits. -/
theorem mem_search_of_part (hp : p ∈ t.search prune) (hc : c ∈ p.parts) (hcp : c.isPresent)
    (h : prune p c = false) : c ∈ t.search prune := by
  induction t using induction with
  | h₀ => cases hp
  | h m f ps ih =>
    rcases mem_search_mk.mp hp with rfl | ⟨q, hq, hqp, hp⟩
    · exact mem_search_mk.mpr (.inr ⟨c, hc, h, self_mem_search hcp⟩)
    · exact mem_search_mk.mpr (.inr ⟨q, hq, hqp, ih q hq hp⟩)

/-- **What is true of the root, and of each part of a node visited that is not left out, is true of
all nodes that a search visits.** -/
theorem search_induction {motive : Node → Prop} (hroot : motive t)
    (hpart : ∀ p ∈ t.search prune, motive p → ∀ c ∈ p.parts, c.isPresent → prune p c = false →
      motive c) : ∀ x ∈ t.search prune, motive x := by
  induction t using induction with
  | h₀ => exact fun x hx => nomatch hx
  | h m f ps ih =>
    intro x hx
    rcases mem_search_mk.mp hx with rfl | ⟨q, hq, hqp, hx⟩
    · exact hroot
    · have hqpres : q.isPresent := by
        cases q with
        | absent => cases hx
        | mk => rfl
      have hself : mk m f ps ∈ (mk m f ps).search prune := self_mem_search rfl
      exact ih q hq (hpart _ hself hroot q hq hqpres hqp)
        (fun p hp => hpart p (mem_search_mk.mpr (.inr ⟨q, hq, hqp, hp⟩))) x hx

/-- A search visits nodes of the tree only. -/
theorem mem_preorder_of_mem_search (h : x ∈ t.search prune) : x ∈ t.preorder := by
  refine search_induction (motive := (· ∈ t.preorder)) ?_ (fun p _ hp c hc hcp _ => ?_) x h
  · cases t with
    | absent => cases h
    | mk => exact self_mem_preorder rfl
  · exact mem_preorder_of_part hp hc hcp

/-! ### Paths -/

/-- Each node is the first part of the next one in which the key occurs. -/
def IsPath (k : Nat) (c : Node) : List Node → Prop
  | [] => True
  | p :: above => p.parts.find? (fun q => (q.ancestors? k).isSome) = some c ∧ IsPath k p above

namespace IsPath

variable {k : Nat} {above : List Node}

theorem append (h : IsPath k c above) (ht : t.parts.find? (fun q => (q.ancestors? k).isSome) =
    some ((c :: above).getLast (by simp))) : IsPath k c (above ++ [t]) := by
  induction above generalizing c with
  | nil => exact ⟨ht, trivial⟩
  | cons p above ih => exact ⟨h.1, ih h.2 (by simpa using ht)⟩

theorem mem_parts (h : IsPath k c (p :: above)) : c ∈ p.parts := List.mem_of_find?_eq_some h.1

/-- The key occurs in the first node. -/
theorem isSome (h : IsPath k c (p :: above)) : (c.ancestors? k).isSome := by
  have hfound := List.find?_some h.1
  exact hfound

/-- A part in which the key occurs, and which no other part comes before, is on the path. -/
theorem eq_first {q : Node} {rest : List Node} (h : IsPath k c (p :: above))
    (hp : p.parts = q :: rest) (hk : (q.ancestors? k).isSome) : c = q := by
  have hfind := h.1
  rw [hp, List.find?_cons, hk] at hfind
  exact (Option.some.inj hfind).symm

/-- A node is below all nodes above it. -/
theorem below (h : IsPath k c above) (hc : c.isPresent) : ∀ x ∈ c :: above, c ∈ x.preorder := by
  induction above generalizing c with
  | nil =>
    intro x hx
    rw [List.mem_singleton.mp hx]
    exact self_mem_preorder hc
  | cons p above ih =>
    intro x hx
    rcases List.mem_cons.mp hx with rfl | hx
    · exact self_mem_preorder hc
    · exact mem_preorder_of_part (ih h.2 (isPresent_of_mem_parts h.mem_parts) x hx) h.mem_parts hc

end IsPath

/-- **The nodes above the first occurrence of a key are a path** from there to the root. -/
theorem isPath_of_ancestors? {k : Nat} {above : List Node} (h : t.ancestors? k = some above) :
    ∃ x, x.key = some k ∧ IsPath k x above ∧ (x :: above).getLast (by simp) = t := by
  induction t using induction generalizing above with
  | h₀ => cases h
  | h m f ps ih =>
    rw [ancestors?] at h
    split at h
    case isTrue hk =>
      obtain rfl : [] = above := by simpa using h
      exact ⟨mk m f ps, by simpa [key, mark] using hk, trivial, rfl⟩
    case isFalse =>
      rw [ancestorsAll?_eq_findSome?] at h
      obtain ⟨lower, hl, rfl⟩ := Option.map_eq_some_iff.mp h
      obtain ⟨us, q, vs, hps, hq, hus⟩ := List.findSome?_eq_some_iff.mp hl
      obtain ⟨x, hxk, hpath, hlast⟩ := ih q (by simp [hps]) hq
      refine ⟨x, hxk, hpath.append ?_, ?_⟩
      · rw [hlast]
        refine List.find?_eq_some_iff_append.mpr ⟨by simp [hq], us, vs, hps, fun u hu => ?_⟩
        simp [hus u hu]
      · simp only [← List.cons_append, List.getLast_concat]

/-- The nodes above a node that one is a part of, where no other has its key. -/
theorem ancestors?_parent {k j : Nat} {t p : Node} {rest : List Node}
    (h : t.ancestors? k = some (p :: rest)) (hp : p.key = some j)
    (hall : ∀ x ∈ t.preorder, x.key = some j → x = p) : t.ancestors? j = some rest := by
  induction t using induction generalizing rest with
  | h₀ => cases h
  | h m f ps ih =>
    obtain ⟨-, c, hc, hck⟩ := ancestors?_eq_cons h
    rw [ancestors?, ancestorsAll?_eq_findSome?] at h ⊢
    split at h
    case isTrue => cases h
    case isFalse =>
      obtain ⟨above, ha, h⟩ := Option.map_eq_some_iff.mp h
      obtain ⟨before, q, after, rfl, hq, hbefore⟩ := List.findSome?_eq_some_iff.mp ha
      have hqp : q ∈ before ++ q :: after := by simp
      cases above with
      | nil =>
        obtain ⟨rfl, rfl⟩ : p = mk m f (before ++ q :: after) ∧ rest = [] := by simpa using h.symm
        rw [if_pos (by simpa [key, mark] using hp)]
      | cons p' above =>
        obtain ⟨rfl, rfl⟩ : p' = p ∧ above ++ [mk m f (before ++ q :: after)] = rest := by
          simpa using h
        -- the node itself is not the one above
        have hm : ¬ m.key == some j := fun hm => by
          have heq := hall _ (self_mem_preorder rfl) (by simpa [key, mark] using hm)
          obtain ⟨hmem, -⟩ := ancestors?_eq_cons hq
          have hq : q ∈ preorderAll (before ++ q :: after) :=
            mem_preorderAll.mpr ⟨q, hqp, self_mem_preorder (isPresent_of_preorder (heq ▸ hmem))⟩
          exact not_mem_preorderAll_parts hq (heq ▸ hmem)
        rw [if_neg hm, Option.map_eq_some_iff]
        refine ⟨above, List.findSome?_eq_some_iff.mpr ⟨before, q, after, rfl, ?_, ?_⟩, rfl⟩
        · exact ih q hqp hq fun x hx => hall x (mem_preorder_mk.mpr (.inr ⟨q, hqp, hx⟩))
        · intro x hx
          refine Option.eq_none_iff_forall_ne_some.mpr fun _ hx' => ?_
          have hfound : (x.find? j).isSome := by rw [← ancestors?_isSome, hx']; rfl
          obtain ⟨y, hy, hyj⟩ := find?_isSome.mp hfound
          have hxm : x ∈ before ++ q :: after := List.mem_append_left _ hx
          obtain rfl := hall y (mem_preorder_mk.mpr (.inr ⟨x, hxm, hy⟩)) hyj
          have hc' := mem_preorder_of_part hy hc (isPresent_of_key hck)
          have := find?_isSome.mpr ⟨c, hc', hck⟩
          rw [← ancestors?_isSome, hbefore x hx] at this
          cases this

end Fieldwise.Node
