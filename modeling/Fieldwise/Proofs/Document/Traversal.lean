import Fieldwise.Proofs.Document.Lookup
import Fieldwise.Tree.Traversal

/-!
# What the walks over a document find

The search with a stack finds what `Node.search` does (`Document.Unshared.searchFrom_eq`). The index
of parents has the entry of a node for each of its children and no other one
(`Node.mem_indexStack`), and looking through the attributes of a node finds the one slot that a
child is in (`Document.Unshared.scan?_eq`). So in a program without shared nodes an index that is up
to date gives the parent of each node, and with it where the node stands
(`IndexedDocument.IsCurrent.answers`) and the nodes above it (`Document.Unshared.ancestors_unfold`).
The index is up to date, whatever was asked and edited before (`IndexedDocument.Leads.isCurrent`).
-/

namespace Fieldwise

open Node

theorem Class.mem_attributes {c : Class} {s : Slot} :
    s ∈ c.attributes ↔ s ∈ c.slots ∨ c.listSlot = some s := by
  unfold Class.attributes
  split
  · simp [Class.slots, Class.listSlot, eq_comm, or_comm, or_left_comm]
  · simp [Class.slots, Class.listSlot, eq_comm, or_comm]
  · rw [List.mem_append, Option.mem_toList]

/-- No list is in the place of a single child. -/
theorem Class.not_mem_slots {c : Class} {s : Slot} (h : c.listSlot = some s) : s ∉ c.slots := by
  cases c <;> first | cases h; decide | cases h

namespace Node

variable {prune prune' : Node → Node → Bool} {skip keep test : Node → Bool} {t P c : Node}
  {ps stack found : List Node} {k : Nat} {s : Slot} {i : Option Nat}

/-! ### The stack of a search -/

theorem searchAll_eq_flatMap (prune : Node → Node → Bool) (parent : Node) (ps : List Node) :
    searchAll prune parent ps =
      ps.flatMap fun p => if prune parent p then [] else p.search prune := by
  induction ps with
  | nil => rfl
  | cons p ps ih => rw [searchAll, ih, List.flatMap_cons]

theorem search_congr (h : ∀ P ∈ t.preorder, ∀ c ∈ P.parts, c.isPresent → prune P c = prune' P c) :
    t.search prune = t.search prune' := by
  induction t using induction with
  | h₀ => rfl
  | h m f ps ih =>
    rw [search, search, searchAll_eq_flatMap, searchAll_eq_flatMap]
    refine congrArg _ (List.flatMap_congr fun p hp => ?_)
    cases p with
    | absent => simp [search]
    | mk =>
      rw [h _ (self_mem_preorder rfl) _ hp rfl, ih _ hp fun P hP =>
        h P (mem_preorder_of_mem_parts hp hP)]

theorem isPresent_of_mem_children (h : c ∈ t.children) : c.isPresent := (List.mem_filter.mp h).2

theorem mem_children : c ∈ t.children ↔ c ∈ t.parts ∧ c.isPresent := List.mem_filter

/-- A search goes on below the children of a node. -/
theorem flatMap_children (skip : Node → Bool) (n : Node) :
    (n.children.flatMap fun c => if skip c then [] else c.search fun _ => skip) =
      searchAll (fun _ => skip) n n.parts := by
  rw [searchAll_eq_flatMap, children]
  generalize n.parts = ps
  induction ps with
  | nil => rfl
  | cons p ps ih =>
    cases p with
    | absent => simpa [isPresent, search] using ih
    | mk => rw [List.filter_cons_of_pos rfl, List.flatMap_cons, List.flatMap_cons, ih]

/-- What is left to find is what a search from each node of the stack finds. -/
theorem searchStack_eq (h : ∀ n ∈ stack, n.isPresent) : searchStack skip keep found stack = found ++
    (stack.flatMap fun n => if skip n then [] else n.search fun _ => skip).filter keep := by
  fun_induction searchStack skip keep found stack with
  | case1 => simp
  | case2 found n stack hskip ih =>
    rw [ih fun x hx => h x (List.mem_cons_of_mem _ hx)]
    simp [hskip]
  | case3 found n stack hskip ih =>
    rw [ih fun x hx => (List.mem_append.mp hx).elim isPresent_of_mem_children fun hx =>
      h x (List.mem_cons_of_mem _ hx), List.flatMap_append, flatMap_children, List.flatMap_cons,
      if_neg hskip]
    cases n with
    | absent => exact absurd (h absent List.mem_cons_self) (by simp [isPresent])
    | mk m f ps =>
      simp only [search, parts, List.cons_append, List.filter_cons, List.filter_append]
      split <;> simp

/-! ### The index of parents -/

/-- **The index has the entry of a node for each of its children.** -/
theorem mem_indexStack {index : List (Nat × Node)} : (k, P) ∈ indexStack index stack ↔
    (k, P) ∈ index ∨ P ∈ preorderAll stack ∧ ∃ c ∈ P.children, c.key = some k := by
  fun_induction indexStack index stack with
  | case1 => simp [preorderAll]
  | case2 index n stack entries ih =>
    have hentry : (k, P) ∈ entries ↔ P = n ∧ ∃ c ∈ P.children, c.key = some k := by
      simp only [entries, List.mem_filterMap, Option.map_eq_some_iff, Prod.mk.injEq]
      constructor
      · rintro ⟨c, hc, _, hk, rfl, rfl⟩
        exact ⟨rfl, c, hc, hk⟩
      · rintro ⟨rfl, c, hc, hk⟩
        exact ⟨c, hc, k, hk, rfl, rfl⟩
    have hmem : P ∈ preorderAll (n.children.reverse ++ stack) ↔
        P ∈ preorderAll n.parts ∨ P ∈ preorderAll stack := by
      rw [preorderAll_append, List.mem_append]
      refine or_congr_left ?_
      simp only [mem_preorderAll, List.mem_reverse, mem_children]
      exact exists_congr fun p => ⟨fun h => ⟨h.1.1, h.2⟩, fun h =>
        ⟨⟨h.1, isPresent_of_preorder h.2⟩, h.2⟩⟩
    rw [ih, List.mem_append, List.mem_reverse, hentry, hmem, preorderAll, List.mem_append]
    cases n with
    | absent =>
      have hnone : ¬ (P = absent ∧ ∃ c ∈ P.children, c.key = some k) := by
        rintro ⟨rfl, c, hc, -⟩
        cases hc
      rw [or_iff_right hnone]
      simp [parts, preorder, preorderAll]
    | mk m f ps =>
      rw [mem_preorder_iff rfl]
      by_cases hchild : ∃ c ∈ P.children, c.key = some k
      · simp only [hchild, and_true, parts]
        rw [or_right_comm, or_comm, or_assoc]
      · simp only [hchild, and_false, or_false, false_or]

/-! ### The scan of a parent -/

/-- The scan finds a place of a child that the test holds of. -/
theorem content?_of_scan? (h : P.scan? test = some (s, i)) :
    ∃ c, P.content? s i = some c ∧ test c := by
  obtain ⟨cls, hcls, hscan⟩ := Option.bind_eq_some_iff.mp h
  obtain ⟨s', hs', hfound⟩ := List.exists_of_findSome?_eq_some hscan
  split at hfound
  · rename_i hlist
    obtain ⟨j, hj, he⟩ := Option.map_eq_some_iff.mp hfound
    obtain ⟨rfl, rfl⟩ := Prod.mk.inj he
    obtain ⟨hlt, htest, -⟩ := List.findIdx?_eq_some_iff_getElem.mp hj
    exact ⟨P.items[j], by simp [content?, hcls, hlist, hlt], htest⟩
  · rename_i hlist
    split at hfound
    · rename_i htest
      cases hfound
      have hmem := (Class.mem_attributes.mp hs').resolve_right hlist
      exact ⟨P.child s, by simp [content?, hcls, hmem], htest⟩
    · cases hfound

theorem mem_parts_of_content? (h : P.content? s i = some c) (hc : c.isPresent) : c ∈ P.parts := by
  cases P with
  | absent => cases i <;> simp [content?, cls?, form?] at h
  | mk m f ps =>
    obtain ⟨j, hj, -⟩ := exists_of_content? h hc
    exact List.mem_of_getElem? hj

/-- The scan finds a place if there is one. -/
theorem isSome_scan? (h : P.content? s i = some c) (hc : test c) : (P.scan? test).isSome := by
  unfold scan?
  cases hcls : P.cls? with
  | none => cases i <;> simp [content?, hcls] at h
  | some cls =>
    rw [Option.bind_some, List.findSome?_isSome_iff]
    cases i with
    | none =>
      by_cases hs : s ∈ cls.slots
      · have hlist : cls.listSlot ≠ some s := fun hl => Class.not_mem_slots hl hs
        obtain rfl : P.child s = c := by simpa [content?, hcls, hs] using h
        exact ⟨s, Class.mem_attributes.mpr (.inl hs), by simp [hlist, hc]⟩
      · simp [content?, hcls, hs] at h
    | some i =>
      by_cases hs : cls.listSlot = some s
      · have hitem : P.items[i]? = some c := by simpa [content?, hcls, hs] using h
        refine ⟨s, Class.mem_attributes.mpr (.inr hs), ?_⟩
        rw [if_pos hs, Option.isSome_map, List.findIdx?_isSome, List.any_eq_true]
        exact ⟨c, List.mem_of_getElem? hitem, hc⟩
      · simp [content?, hcls, hs] at h

end Node

namespace Document

variable {d : Document} {n r : Node} {prune : Node → Node → Bool} {skip keep : Node → Bool}

theorem place?_congr {c : Node} (hk : n.key = c.key) : d.place? n = d.place? c := by
  simp only [place?, parent?, ancestors, hk]

theorem place?_eq_some {p : Place} : d.place? n = some p ↔ d.place n = .ok p := by
  unfold place
  cases d.place? n <;> simp

namespace Unshared

variable (h : d.Unshared)
include h

/-- **The search with a stack finds what a search finds**, if it leaves out the same nodes. -/
theorem searchFrom_eq (hr : r ∈ d.root.preorder)
    (hskip : ∀ P ∈ r.preorder, ∀ c ∈ P.parts, c.isPresent → skip c = prune P c) :
    r.searchFrom keep skip = (r.search prune).filter keep := by
  obtain ⟨k, hk, -⟩ := h.bound r hr
  have hroot : r.same r := by simp [same, hk]
  unfold searchFrom
  rw [searchStack_eq fun n hn => List.mem_singleton.mp hn ▸ isPresent_of_mem_preorder hr]
  simp only [List.nil_append, List.flatMap_singleton, hroot, Bool.not_true, Bool.false_and,
    Bool.false_eq_true, if_false]
  refine congrArg _ (search_congr fun P hP c hc hcp => ?_)
  rw [← hskip P hP c hc hcp]
  -- The root is not below itself.
  suffices hne : c.same r = false by simp [hne]
  refine Bool.eq_false_iff.mpr fun hsame => ?_
  have hcm := mem_preorder_of_part hP hc hcp
  obtain ⟨-, hck⟩ : c.key.isSome ∧ c.key = r.key := by simpa [same] using hsame
  obtain rfl := h.eq_of_key (mem_preorder_trans hcm hr) hr hck
  exact not_mem_preorderAll_parts (mem_preorderAll_of_mem hc hcp) hP

/-- What is left out may depend on the parent, as that can be looked up. -/
theorem searchFrom_parent? (hr : r ∈ d.root.preorder) :
    r.searchFrom keep (fun c => (d.parent? c).any (prune · c)) = (r.search prune).filter keep := by
  refine h.searchFrom_eq hr fun P hP c hc hcp => ?_
  obtain ⟨j, hj⟩ := List.mem_iff_getElem?.mp hc
  rw [(h.lookup (mem_preorder_trans hP hr) hj hcp).2.1, Option.any_some]

/-- **The index has the parent of each node.** -/
theorem lookup_parentIndex (n : Node) :
    n.key.bind (List.lookup · d.parentIndex) = d.parent? n := by
  cases hk : n.key with
  | none => simp [parent?, ancestors, hk]
  | some k =>
    rw [Option.bind_some]
    have hparent : ∀ P, (k, P) ∈ d.parentIndex → d.parent? n = some P := by
      intro P hP
      obtain ⟨hPm, c, hc, hck⟩ := (mem_indexStack.mp hP).resolve_left List.not_mem_nil
      obtain ⟨hc, hcp⟩ := mem_children.mp hc
      obtain ⟨j, hj⟩ := List.mem_iff_getElem?.mp hc
      have := (h.lookup (mem_preorderAll_singleton.mp hPm) hj hcp).2.1
      rwa [parent?, ancestors, hck, ← hk, ← ancestors, ← parent?] at this
    cases hl : d.parentIndex.lookup k with
    | some P =>
      obtain ⟨before, after, hindex, -⟩ := List.lookup_eq_some_iff.mp hl
      exact (hparent P (hindex ▸ by simp)).symm
    | none =>
      cases hp : d.parent? n with
      | none => rfl
      | some P =>
        obtain ⟨hP, c, hc, hck, -⟩ := of_parent? hp
        have hmem : (k, P) ∈ d.parentIndex := mem_indexStack.mpr (.inr
          ⟨mem_preorderAll_singleton.mpr hP, c,
            mem_children.mpr ⟨hc, isPresent_of_key (hck.trans hk)⟩, hck.trans hk⟩)
        simpa using List.lookup_eq_none_iff.mp hl _ hmem

/-- The nodes above a node are found by asking for parents until there is none. -/
theorem ancestors_unfold (n : Node) : d.ancestors n =
    (d.parent? n).elim [] fun P => P :: d.ancestors P := by
  cases hp : d.parent? n with
  | none => exact List.head?_eq_none_iff.mp hp
  | some P =>
    obtain ⟨hP, -⟩ := of_parent? hp
    obtain ⟨k, hk, -⟩ := h.bound P hP
    exact ancestors_eq_cons hp hk fun x hx hxk => h.eq_of_key hx hP (hxk.trans hk.symm)

/-- What is attached is the root, or has a parent. -/
theorem attached_iff_parent? (n : Node) :
    d.attached n ↔ n.same d.root ∨ (d.parent? n).isSome := by
  rw [attached_iff, same, Bool.and_eq_true, beq_iff_eq]
  constructor
  · rintro ⟨x, hx, hk, hn⟩
    rcases (mem_preorder_iff (isPresent_of_preorder hx)).mp hx with rfl | hbelow
    · exact .inl ⟨hn, hk.symm⟩
    · obtain ⟨P, hP, hxP⟩ := exists_parent_of_mem hbelow
      obtain ⟨j, hj⟩ := List.mem_iff_getElem?.mp hxP
      have hparent := (h.lookup hP hj (isPresent_of_mem_preorder hx)).2.1
      rw [parent?, ancestors, hk, ← ancestors, ← parent?] at hparent
      exact .inr (by rw [hparent]; rfl)
  · rintro (⟨hn, hk⟩ | hp)
    · obtain ⟨k, hnk⟩ := Option.isSome_iff_exists.mp hn
      exact ⟨d.root, self_mem_preorder (isPresent_of_key (hk.symm.trans hnk)), hk.symm, hn⟩
    · obtain ⟨P, hp⟩ := Option.isSome_iff_exists.mp hp
      obtain ⟨hP, c, hc, hck, hn⟩ := of_parent? hp
      obtain ⟨k, hnk⟩ := Option.isSome_iff_exists.mp hn
      exact ⟨c, mem_preorder_of_part hP hc (isPresent_of_key (hck.trans hnk)), hck, hn⟩

/-- **The scan of its parent finds the slot of a node.** -/
theorem scan?_eq {P : Node} (hfit : ∀ x ∈ d.root.preorder, x.fits) (hp : d.parent? n = some P) :
    ∃ j, d.place? n = some { parent := P, index := j } ∧
      P.scan? (·.same n) = Place.slot? { parent := P, index := j } := by
  obtain ⟨hP, c, hc, hck, hn⟩ := of_parent? hp
  obtain ⟨k, hnk⟩ := Option.isSome_iff_exists.mp hn
  have hcp := isPresent_of_key (hck.trans hnk)
  obtain ⟨j, hj⟩ := List.mem_iff_getElem?.mp hc
  obtain ⟨hplace, s, i, hslot, hall⟩ := h.place_slot hP (hfit P hP) hj hcp
  have hfound : (P.scan? (·.same n)).isSome :=
    isSome_scan? ((hall s i).mpr ⟨rfl, rfl⟩) (by simp [same, hck, hnk])
  obtain ⟨⟨s', i'⟩, hscan⟩ := Option.isSome_iff_exists.mp hfound
  obtain ⟨c', hc', htest⟩ := content?_of_scan? hscan
  -- No other part of the parent has the key.
  have hck' : c'.key = c.key := by
    have : c'.key.isSome ∧ c'.key = n.key := by simpa [same] using htest
    exact this.2.trans hck.symm
  have hcp' := isPresent_of_key (hck'.trans (hck.trans hnk))
  obtain rfl := h.eq_of_key (mem_preorder_of_part hP (mem_parts_of_content? hc' hcp') hcp')
    (mem_preorder_of_part hP hc hcp) hck'
  obtain ⟨rfl, rfl⟩ := (hall s' i').mp hc'
  exact ⟨j, (place?_congr hck.symm).trans (place?_eq_some.mpr hplace), hscan.trans hslot.symm⟩

end Unshared

end Document

namespace IndexedDocument

variable {c d : IndexedDocument} {n : Node}

/-- The index, if there is one, is that of the document. -/
def IsCurrent (d : IndexedDocument) : Prop :=
  ∀ index, d.index? = some index → index = d.document.parentIndex

/-- What questions and edits make of a document. -/
inductive Leads (c : IndexedDocument) : IndexedDocument → Prop where
  | refl : Leads c c
  | ask {d : IndexedDocument} : Leads c d → Leads c d.parents.2
  | edit {d d' : IndexedDocument} {e : Document → Except Failure Document} : Leads c d →
    d.edit e = .ok d' → Leads c d'

theorem isCurrent_of_document (d : Document) : IsCurrent { document := d } := fun _ h => nomatch h

namespace IsCurrent

variable (h : d.IsCurrent)
include h

/-- The index that is given and the one that is kept are up to date, and nothing else changes. -/
theorem parents : d.parents.1 = d.document.parentIndex ∧ d.parents.2.IsCurrent ∧
    d.parents.2.document = d.document := by
  unfold IndexedDocument.parents
  split
  · rename_i index hindex
    exact ⟨h index hindex, h, rfl⟩
  · exact ⟨rfl, fun index hindex => (Option.some.inj hindex).symm, rfl⟩

/-- **An index that is up to date gives the parent of each node**, whether it is attached, and where
it stands. -/
theorem answers (hu : d.document.Unshared) (hfit : ∀ x ∈ d.document.root.preorder, x.fits)
    (n : Node) : (d.parent? n).1 = d.document.parent? n ∧
      (d.attached n).1 = d.document.attached n ∧
      (d.slot? n).1 = (d.document.place? n).bind fun p =>
        p.slot?.map fun (s, i) => (p.parent, s, i) := by
  have hparent : (d.parent? n).1 = d.document.parent? n := by
    rw [parent?, h.parents.1, hu.lookup_parentIndex]
  refine ⟨hparent, ?_, ?_⟩
  · rw [Bool.eq_iff_iff, hu.attached_iff_parent?, attached]
    split <;> simp_all
  · unfold slot?
    rw [hparent]
    cases hp : d.document.parent? n with
    | none =>
      have hplace : d.document.place? n = none := by
        cases hk : n.key <;> simp [Document.place?, hk, hp]
      rw [hplace]
      rfl
    | some P =>
      obtain ⟨j, hplace, hscan⟩ := hu.scan?_eq hfit hp
      rw [hplace, Option.bind_some, Option.bind_some, hscan]

end IsCurrent

/-- **The index stays up to date**, whatever is asked and edited. -/
theorem Leads.isCurrent (h : Leads c d) (hc : c.IsCurrent) : d.IsCurrent := by
  induction h with
  | refl => exact hc
  | ask _ ih => exact ih.parents.2.1
  | edit _ he =>
    unfold IndexedDocument.edit at he
    split at he
    · cases he
      exact isCurrent_of_document _
    · cases he

end IndexedDocument

end Fieldwise
