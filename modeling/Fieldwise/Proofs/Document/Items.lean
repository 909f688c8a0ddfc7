import Fieldwise.Proofs.Document.Rewrite

/-!
# Edits at the place of an item

A node that is an item of a list stands between other items (`Document.Between`). What is put next
to it stands between it and them (`Document.Between.insert`), and what comes in its place is between
the same items (`Document.Between.detach`, `Document.Between.bare`). While uses of a name are
rewritten each item of a block stays, or new expressions come in its place, at least one, if it is
an expression made of such a use (`Document.Becomes`), all in order (`Document.Between.rewrite`).
-/

namespace Fieldwise

open Node

/-- Nodes of the same forms are of the same class. -/
theorem Node.isA_of_map_form? {xs ys : List Node} {c : Class} (h : xs.map form? = ys.map form?)
    (hy : ∀ y ∈ ys, y.isA c) : ∀ x ∈ xs, x.isA c := fun x hx => by
  obtain ⟨y, hym, hform⟩ := List.mem_map.mp (h ▸ List.mem_map_of_mem hx)
  rw [isA, cls?_congr hform.symm, ← isA]
  exact hy y hym

/-- Nodes of the same forms have the same names. -/
theorem Node.map_name?_of_map_form? {xs ys : List Node} (h : xs.map form? = ys.map form?) :
    xs.map name? = ys.map name? := by
  rw [← List.forall₂_eq_eq_eq, List.forall₂_map_left_iff, List.forall₂_map_right_iff] at h ⊢
  exact h.imp fun _ _ hform => name?_congr hform

namespace Document

variable {d d' : Document} {n x D L T : Node} {p : Place} {us vs ws new ns : List Node}
  {name : String}

/-- A node stands in a list of `L` between other items, and looks like `D` now. -/
structure Between (d : Document) (n L : Node) (us : List Node) (D : Node) (vs : List Node) :
    Prop where
  mem : L ∈ d.root.preorder
  parts : L.parts = us ++ D :: vs
  key : D.key = n.key

/-- What became of an item of a block while the uses of a name were rewritten: it stayed, and is the
same if the name is not used in it, or new expressions, at least one, came in the place of an
expression that was made of a use. -/
inductive Becomes (d : Document) (name : String) (c : Node) : List Node → Prop where
  | kept {c' : Node} : c'.key = c.key → c'.form? = c.form? →
    ((∀ x ∈ c.preorder, x.form? ≠ some (.ident name)) → c' = c) → Becomes d name c [c']
  | rewritten {row : List Node} : c.isLink → (∃ x ∈ c.preorder, x.form? = some (.ident name)) →
    row ≠ [] → (∀ y ∈ row, y.isProduct ∧ ¬ IsOld d.next y) → Becomes d name c row

theorem Becomes.self (c : Node) : Becomes d name c [c] := .kept rfl rfl fun _ => rfl

/-- What is no expression stays. -/
theorem Becomes.of_not_isLink {c : Node} {row : List Node} (h : Becomes d name c row)
    (hl : c.isLink = false) : ∃ c', row = [c'] ∧ c'.key = c.key ∧ c'.form? = c.form? := by
  cases h with
  | kept hk hf _ => exact ⟨_, rfl, hk, hf⟩
  | rewritten h _ _ _ =>
    rw [hl] at h
    cases h

/-- Where all items are no expressions, they keep their forms. -/
theorem map_form?_of_rows {cs cs' : List Node} (h : Rows (Becomes d name) cs cs')
    (hl : ∀ c ∈ cs, c.isLink = false) : cs'.map form? = cs.map form? :=
  h.map_eq fun c hc _ hrow =>
    have ⟨c', hrow, _, hf⟩ := hrow.of_not_isLink (hl c hc)
    ⟨c', hrow, hf⟩

theorem Becomes.mono {c : Node} {row : List Node} (h : Becomes d' name c row)
    (hn : d.next ≤ d'.next) : Becomes d name c row := by
  cases h with
  | kept hk hf hsame => exact .kept hk hf hsame
  | rewritten hl hx hne hnew =>
    exact .rewritten hl hx hne fun y hy =>
      ⟨(hnew y hy).1, fun ho => (hnew y hy).2 (isOld_mono ho hn)⟩

/-- What became of new nodes after they were put into the program. -/
def Placed (d : Document) (name : String) (new row : List Node) : Prop :=
  ∃ put : List Node, put.map copy = new.map copy ∧ Rows (Becomes d name) put row

/-- New declarations keep their forms. -/
theorem Placed.map_form? {row : List Node} (h : d.Placed name new row)
    (hd : ∀ c ∈ new, c.isA .decl) : row.map form? = new.map form? := by
  obtain ⟨put, hput, hrows⟩ := h
  have hcopy : form? ∘ copy = form? := funext form?_copy
  have hforms := congrArg (List.map form?) hput
  rw [List.map_map, List.map_map, hcopy] at hforms
  refine (map_form?_of_rows hrows fun c hc => Bool.eq_false_iff.mpr fun hl => ?_).trans hforms
  have hdecl := isA_of_map_form? hforms hd c hc
  rw [(isLoose_of_isLink hl).decl] at hdecl
  cases hdecl

namespace RewritesAt

/-- **The items of a block stay in order**, with rows of new expressions in the place of some. -/
theorem rows (h : RewritesAt d d' ns) (ht : d.Tidy)
    (hns : ∀ m ∈ ns, m ∈ preorderAll d.trees ∧ m.form? = some (.ident name)) {L' : Node}
    (hL : L ∈ d.root.preorder) (hblock : L.isBlock) (hL' : L' ∈ d'.root.preorder)
    (hk : L'.key = L.key) : Rows (Becomes d name) L.parts L'.parts := by
  refine (Renews.items h L hL hblock L' hL' hk).imp fun c hc row hrow hyields => ?_
  have huse : ∀ m ∈ ns, m.occursIn c → ∃ x ∈ c.preorder, x.form? = some (.ident name) := by
    intro m hm hocc
    obtain ⟨x, hx, hxk⟩ := List.any_eq_true.mp hocc
    have hxm := mem_trees_of_root (mem_preorder_trans hx
      (mem_preorder_of_part hL hc (isPresent_of_preorder hx)))
    obtain rfl := ht.eq_of_key hxm (hns m hm).1 (beq_iff_eq.mp hxk)
    exact ⟨x, hx, (hns x hm).2⟩
  rcases hyields with ⟨c', rfl, hck, hcf⟩ |
    ⟨⟨⟨⟨y, hy, hyk, hyl⟩, -⟩, z, hz, hzk, m, hm, hocc⟩, hne, hnew⟩
  · refine .kept hck hcf fun hno => ?_
    cases c with
    | absent =>
      cases c' with
      | absent => rfl
      | mk => cases hcf
    | mk f m ps =>
      have hcm := mem_preorder_of_part hL hc rfl
      obtain ⟨k, hkey⟩ := ht.woven.exists_key (mem_trees_of_root hcm)
      have hcm' := mem_preorder_of_part hL' (hrow c' (List.mem_singleton_self _))
        (isPresent_of_key (hck.trans hkey))
      refine h.eq_of_not_occurs ht hcm (fun m hm => Bool.eq_false_iff.mpr fun hocc => ?_) hcm' hck
      obtain ⟨x, hx, hxf⟩ := huse m hm hocc
      exact hno x hx hxf
  · -- What was lost is the item itself.
    obtain ⟨k, hkey⟩ := ht.woven.exists_key (mem_trees_of_root hy)
    have hcm := mem_preorder_of_part hL hc (isPresent_of_key (hyk.symm.trans hkey))
    obtain rfl := ht.eq_of_key (mem_trees_of_root hy) (mem_trees_of_root hcm) hyk
    obtain rfl := ht.eq_of_key (mem_trees_of_root hz) (mem_trees_of_root hcm) hzk
    exact .rewritten hyl (huse m hm hocc) hne hnew

end RewritesAt

namespace Stands

variable (hs : d.Stands n p x) (ht : d.Tidy)
include hs ht

/-- The node above one is there after an edit of its parts. -/
theorem exists_puts (hput : Puts d d' p.parent
      (p.parent.parts.take p.index ++ ws ++ p.parent.parts.drop (p.index + 1))) :
    ∃ Q ∈ d'.root.preorder, Q.key = p.parent.key ∧ Q.form? = p.parent.form? ∧
      Q.parts = p.parent.parts.take p.index ++ ws ++ p.parent.parts.drop (p.index + 1) := by
  obtain ⟨hk, hf⟩ := hput.form?_grafted ht p.parent
  refine ⟨_, (hput.mem_root ht (r := x) (fun c hc hcp => ?_) hs.parent).resolve_right ?_, hk, hf,
    ?_⟩
  · refine (hs.mem_or_eq hc).imp_left fun hc => mem_preorderAll_of_mem ?_ hcp
    simp only [List.mem_append] at hc ⊢
    exact hc.elim (fun hc => .inl (.inl hc)) .inr
  · exact not_mem_preorderAll_parts (mem_preorderAll_of_mem hs.mem_parts hs.isPresent)
  · rw [hput.grafted_self ht, parts_withParts (isPresent_of_mem_preorder hs.parent)]

end Stands

namespace Between

variable (h : d.Between n L us D vs) (hD : D.isA .decl)

theorem of_stands (hs : d.Stands n p x) :
    d.Between n p.parent (p.parent.parts.take p.index) x (p.parent.parts.drop (p.index + 1)) :=
  ⟨hs.parent, hs.split, hs.key⟩

include h hD

theorem declared_mem : D ∈ d.root.preorder :=
  mem_preorder_of_part h.mem (by simp [h.parts]) (isPresent_of_isA hD)

/-- **While uses are rewritten a declaration stays**, and what was before it and after it stays
there. -/
theorem rewrite (hblock : L.isBlock) (ht : d.Tidy) (hr : RewritesAt d d' ns)
    (hns : ∀ m ∈ ns, m ∈ preorderAll d.trees ∧ m.form? = some (.ident name))
    (ha : d'.attached n) : ∃ L' us' D' vs', d'.Between n L' us' D' vs' ∧ L'.key = L.key ∧
      L'.form? = L.form? ∧ D'.form? = D.form? ∧ Rows (Becomes d name) us us' ∧
      Rows (Becomes d name) vs vs' := by
  obtain ⟨y, hy, hyk, -⟩ := attached_iff.mp ha
  obtain ⟨L', hL', -, hk, hf⟩ := hr.rewrites.exists_parent ht h.mem (by simp [h.parts])
    (isSole_of_isA hD rfl) hy (hyk.trans h.key.symm)
  obtain ⟨us', rest, hparts, hus, hrest⟩ :=
    (h.parts ▸ hr.rows ht hns h.mem hblock hL' hk).exists_append
  cases hrest with
  | cons hrow hvs =>
    have hlink : D.isLink = false := Bool.eq_false_iff.mpr fun hl => by
      rw [(isLoose_of_isLink hl).decl] at hD
      cases hD
    obtain ⟨D', rfl, hDk, hDf⟩ := hrow.of_not_isLink hlink
    exact ⟨L', us', D', _, ⟨hL', hparts, hDk.trans h.key⟩, hk, hf, hDf, hus, hvs⟩

variable (hs : d.Stands n p x) (ht : d.Tidy)
include hs ht

theorem eq_of_stands : p.parent = L ∧ x = D ∧ p.parent.parts.take p.index = us ∧
    p.parent.parts.drop (p.index + 1) = vs :=
  hs.eq_of_split ht h.mem h.parts (isSole_of_isA hD rfl) h.key

/-- What is put next to an item stands between it and the others. -/
theorem insert (hl : p.isInList) (hk : Keyless new) {after : Bool}
    (hd : d.insert n new after = .ok d') : d'.Tidy ∧ ∃ L' ∈ d'.root.preorder,
      L'.key = L.key ∧ L'.form? = L.form? ∧ L'.parts = us ++
        (if after then D :: (stampAll d.next new).1 else (stampAll d.next new).1 ++ [D]) ++ vs := by
  obtain ⟨rfl, rfl, rfl, rfl⟩ := h.eq_of_stands hD hs ht
  rcases hs.puts_insert ht (.inl hl) hk hd with ⟨rfl, rfl⟩ | ⟨-, j, rfl, hput⟩ | ⟨hno, -⟩
  · refine ⟨ht, _, hs.parent, rfl, rfl, ?_⟩
    cases after <;> exact hs.split_list
  · rw [hs.insert_eq] at hput
    exact ⟨hput.tidy ht, hs.exists_puts ht hput⟩
  · exact absurd hl hno

/-- Unless it is in no list, nothing is left of an item that is taken out. -/
theorem detach (hl : p.isInList) (hd : d.detach n = .ok d') :
    (∃ L' ∈ d'.root.preorder, L'.key = L.key ∧ L'.form? = L.form? ∧ L'.parts = us ++ vs) ∧
      d'.attached n = false := by
  obtain ⟨rfl, rfl, rfl, rfl⟩ := h.eq_of_stands hD hs ht
  refine ⟨?_, hs.not_attached (hs.swaps_detach ht (isSole_of_isA hD rfl) hd).2⟩
  obtain ⟨left, ⟨rfl, -⟩ | ⟨hno, -⟩, hput⟩ := hs.puts_detach ht hd
  · obtain ⟨Q, hQ, hk, hf, hparts⟩ := hs.exists_puts ht hput
    exact ⟨Q, hQ, hk, hf, by simpa [stampAll] using hparts⟩
  · exact absurd hl hno

/-- **The definition of a type that a declaration leaves is in its place.** -/
theorem bare (hT : T ∈ D.preorder) (hTs : T.isSole = false)
    (hd : d.replace n (.build (.decl none {}) [T, .absent, .absent]) = .ok d') :
    (∃ L' ∈ d'.root.preorder, L'.key = L.key ∧ L'.form? = L.form? ∧ L'.parts = us ++
      [.mk ⟨some d.next, none⟩ (.decl none {}) [T, .absent, .absent]] ++ vs) ∧
      d'.attached n = false := by
  obtain ⟨rfl, rfl, rfl, rfl⟩ := h.eq_of_stands hD hs ht
  have hput := hs.puts_bare ht hT hTs hd
  exact ⟨hs.exists_puts ht hput,
    hs.not_attached (hs.gone_bare ht (isSole_of_isA hD rfl) hT hTs hput)⟩

end Between

end Document

end Fieldwise
