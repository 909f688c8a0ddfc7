import Fieldwise.Proofs.Document.Swap

/-!
# What comes in the place of an item

While uses are rewritten, an item of a block stays, or new expressions come in its place, at least
one (`Document.Renews`). It is so for each edit: another expression in the place of one
(`Document.Stands.renews_replace`), arguments, which are no items of a block
(`Document.Stands.renews_splice`), and statements in the place of one, which are put next to it
before it is taken out (`Document.Stands.renews_exchange`). It composes (`Document.Renews.trans`).
-/

namespace Fieldwise

open Node

/-- The classes of what a use of a binding gives way to: expressions for fields, and assignments and
calls that are made of them. -/
def Class.isProduct : Class → Bool
  | .arrayRef | .assignment | .binaryOp | .funcCall | .ident | .unaryOp => true
  | _ => false

namespace Node

/-- Whether a node can be what a use of a binding gives way to. -/
def isProduct (n : Node) : Bool := n.cls?.any Class.isProduct

variable {x y : Node} {new : List Node}

theorem isProduct_congr (h : x.form? = y.form?) : x.isProduct = y.isProduct := by
  rw [isProduct, isProduct, cls?_congr h]

theorem isProduct_stampAll (h : ∀ y ∈ new, y.isProduct) (k : Nat) :
    ∀ y ∈ (stampAll k new).1, y.isProduct := fun y hy => by
  obtain ⟨c, hc, hform⟩ :=
    List.mem_map.mp (map_stampAll form?_stamp k new ▸ List.mem_map_of_mem hy)
  rw [isProduct_congr hform.symm]
  exact h c hc

end Node

namespace Document

variable {d d' d'' : Document} {n x c P : Node} {p : Place} {qs new row row' : List Node}
  {R R' R'' : Option Nat → Prop} {next next' : Nat}

/-- What comes in the place of an item: itself, or new expressions, at least one, if its key is in
`R`. -/
def Yields (next : Nat) (R : Option Nat → Prop) (c : Node) (row : List Node) : Prop :=
  (∃ c', row = [c'] ∧ c'.key = c.key ∧ c'.form? = c.form?) ∨
    R c.key ∧ row ≠ [] ∧ ∀ y ∈ row, y.isProduct ∧ ¬ IsOld next y

theorem Yields.self (c : Node) : Yields next R c [c] := .inl ⟨c, rfl, rfl, rfl⟩

theorem Yields.mono (h : Yields next R c row) (hR : R c.key → R' c.key) : Yields next R' c row :=
  h.imp_right fun h => ⟨hR h.1, h.2⟩

theorem Yields.ne_nil (h : Yields next R c row) : row ≠ [] := by
  rcases h with ⟨c', rfl, -⟩ | ⟨-, hne, -⟩
  · exact List.cons_ne_nil c' []
  · exact hne

/-- New expressions come in the place of an item. -/
theorem Yields.stampAll (c : Node) (hk : Keyless new) (hne : new ≠ [])
    (hnew : ∀ y ∈ new, y.isProduct) : Yields next (· = c.key) c (Node.stampAll next new).1 := by
  refine .inr ⟨rfl, fun hnil => hne ?_,
    fun y hy => ⟨isProduct_stampAll hnew next y hy, fun ho => ?_⟩⟩
  · have hlength := congrArg List.length (map_stampAll form?_stamp next new)
    rw [hnil] at hlength
    simpa using hlength.symm
  · exact not_isOld_stampAll hk (mem_preorderAll_of_mem hy (isPresent_of_isOld ho)) ho

/-- What has come in the place of an item stays, or gives way to what is yet newer. -/
theorem Yields.trans (h : Yields next R c row) (h' : Rows (Yields next' R') row row')
    (hle : next ≤ next') (hR : R c.key → R'' c.key) (hR' : R' c.key → R'' c.key) :
    Yields next R'' c row' := by
  rcases h with ⟨c', rfl, hk, hf⟩ | ⟨hr, hne, hnew⟩
  · rcases h'.of_single with ⟨c'', rfl, hk', hf'⟩ | ⟨hr', hne', hnew'⟩
    · exact .inl ⟨c'', rfl, hk'.trans hk, hf'.trans hf⟩
    · exact .inr ⟨hR' (hk ▸ hr'), hne', fun y hy =>
        ⟨(hnew' y hy).1, fun ho => (hnew' y hy).2 (isOld_mono ho hle)⟩⟩
  · refine .inr ⟨hR hr, fun hnil => ?_, fun z hz => ?_⟩
    · cases h' with
      | nil => exact hne rfl
      | cons hrow _ => exact hrow.ne_nil (List.append_eq_nil_iff.mp hnil).1
    · obtain ⟨y, hy, ws, hws, hz⟩ := h'.exists_of_mem hz
      rcases hws with ⟨y', rfl, hk, hf⟩ | ⟨-, -, hnew'⟩
      · obtain rfl := List.mem_singleton.mp hz
        obtain ⟨hproduct, hold⟩ := hnew y hy
        exact ⟨(isProduct_congr hf).trans hproduct, fun ho => hold (isOld_of_key ho hk)⟩
      · exact ⟨(hnew' z hz).1, fun ho => (hnew' z hz).2 (isOld_mono ho hle)⟩

/-- A document after edits that put new nodes in the place of nodes with keys in `R`, and new
expressions where these were items of a block. -/
structure Renews (d d' : Document) (R : Option Nat → Prop) : Prop extends Swaps d d' R where
  items : ∀ q ∈ d.root.preorder, q.isBlock → ∀ q' ∈ d'.root.preorder, q'.key = q.key →
    Rows (Yields d.next R) q.parts q'.parts

namespace Renews

theorem refl (ht : d.Tidy) : Renews d d R where
  toSwaps := .refl ht
  items q hq _ q' hq' hk := by
    rw [ht.eq_of_key (mem_trees_of_root hq') (mem_trees_of_root hq) hk]
    exact .refl fun c _ => .self c

theorem mono (h : Renews d d' R) (hR : ∀ k, R k → R' k) : Renews d d' R' where
  toSwaps := h.toSwaps.mono hR
  items q hq hblock q' hq' hk := (h.items q hq hblock q' hq' hk).imp
    fun _ _ _ _ hc => hc.mono (hR _)

/-- Edits after edits. -/
theorem trans (h : Renews d d' R) (h' : Renews d' d'' R') (ht : d.Tidy)
    (hR : ∀ k, R k → R'' k) (hR' : ∀ k, (∃ j, k = some j ∧ j < d.next) → R' k → R'' k)
    (hnone : ¬ R' none) : Renews d d'' R'' where
  toSwaps := h.toSwaps.trans h'.toSwaps ht hR hR' hnone
  items q hq hblock q'' hq'' hk := by
    obtain ⟨q', hq', hk', hk''⟩ := h.exists_between h'.toSwaps ht hq hq'' hk
    obtain ⟨q₀, hq₀, hk₀, hf₀, -⟩ := h.node q' hq'
      (isOld_of_key (ht.bound q (mem_trees_of_root hq)) hk'.symm)
    obtain rfl := ht.eq_of_key (mem_trees_of_root hq₀) (mem_trees_of_root hq) (hk₀.trans hk')
    have hblock' : q'.isBlock := by rwa [isBlock, ← cls?_congr hf₀]
    exact (h.items q₀ hq hblock q' hq' hk').trans (h'.items q' hq' hblock' q'' hq'' hk'')
      fun c hc row row' hrow hrow' => hrow.trans hrow' h.next (hR _)
        (ht.imp_key_of_part hq hc hR' hnone)

end Renews

/-- What became of the parts of another node than the one that was edited. -/
theorem Puts.parts_of_ne (h : Puts d d' P qs) (ht : d.Tidy) {q q' : Node} (hq : q ∈ d.root.preorder)
    (hne : q ≠ P) (hq' : q' ∈ d'.root.preorder) (hk : q'.key = q.key) :
    q'.parts = q.parts.map (grafted P qs) := by
  rw [h.eq_grafted ht hq hq' hk, h.parts_grafted ht (mem_trees_of_root hq) hne]

/-- An edit of what is no block, or of a block in which items give way to new expressions. -/
theorem Swaps.renews (hswaps : Swaps d d' R) (h : Puts d d' P qs) (ht : d.Tidy)
    (hrows : P.isBlock → Rows (Yields d.next R) P.parts qs) : Renews d d' R where
  toSwaps := hswaps
  items q hq hblock q' hq' hk := by
    by_cases hne : q = P
    · subst hne
      rw [h.eq_grafted ht hq hq' hk, h.grafted_self ht,
        parts_withParts (isPresent_of_mem_preorder hq)]
      exact hrows hblock
    · rw [h.parts_of_ne ht hq hne hq' hk]
      exact .map fun c _ => .inl ⟨_, rfl, h.form?_grafted ht c⟩

namespace Stands

theorem isStatement_eq (hs : d.Stands n p x) : d.isStatement n = .ok p.isStatement := by
  rw [Document.isStatement, hs.place]
  rfl

/-- An item of a block that is a statement is in its list. -/
theorem isInList_of_isStatement (hst : p.isStatement) (hblock : p.parent.isBlock) :
    p.isInList := by
  obtain ⟨c, hc, hcb⟩ := (Option.any_eq_true _ _).mp hblock
  rw [Place.isInList, Place.slot?, hc]
  rw [Place.isStatement, Place.slot?, hc] at hst
  cases c with
  | compound | file | defaultLabel => rfl
  | caseLabel =>
    -- The expression of the label is no statement.
    cases hi : p.index with
    | zero =>
      rw [hi] at hst
      cases hst
    | succ i => rfl
  | _ => cases hcb

variable (hs : d.Stands n p x) (ht : d.Tidy)
include hs ht

/-- Another expression is put in the place of one. -/
theorem renews_replace (hsole : x.isSole) {y : Node} (hk : Keyless [y])
    (hy : p.parent.isBlock → y.isProduct) (hd : d.replace n y = .ok d') :
    Renews d d' (· = x.key) :=
  (hs.swaps_replace ht hsole hk hd).1.renews (hs.puts_replace ht hk hd) ht fun hblock =>
    hs.rows .self (.stampAll x hk (by simp) (by simpa using hy hblock))

/-- Arguments are put in the place of one. -/
theorem renews_splice (hsole : x.isSole) (hk : Keyless new) (hblock : p.parent.isBlock = false)
    (hd : d.splice n new = .ok d') : Renews d d' (· = x.key) :=
  (hs.swaps_splice ht hsole hk hd).1.renews (hs.puts_splice ht hk hd).2 ht fun hb => by
    rw [hblock] at hb
    cases hb

/-- Statements come in the place of one, which is taken out after they were put next to it. -/
theorem renews_exchange (hsole : x.isSole) (hx : x.isA .decl = false)
    (hlist : p.parent.isBlock → p.isInList) (hk : Keyless new) (hne : new ≠ [])
    (hnew : ∀ y ∈ new, y.isProduct) (hd : d.insertAfter n new = .ok d')
    (hd' : d'.detach n = .ok d'') : Renews d d'' (· = x.key) := by
  obtain ⟨p', hp⟩ := exists_place_of_detach hd'
  obtain ⟨qs, hput, hqs⟩ : ∃ qs, Puts d d' p.parent qs ∧ (p.isInList →
      qs = p.parent.parts.take p.index ++ (x :: (stampAll d.next new).1) ++
        p.parent.parts.drop (p.index + 1)) := by
    rcases hs.puts_insert ht (.inr hx) hk hd with ⟨-, hnil⟩ | ⟨-, j, rfl, hput⟩ | ⟨hl, bs, -, hput⟩
    · exact absurd hnil hne
    · exact ⟨_, hput, fun _ => hs.insert_eq true _⟩
    · exact ⟨_, hput, fun hl' => absurd hl' hl⟩
  have ht' := hput.tidy ht
  have hs' := hs.of_puts ht hput hp
  obtain ⟨left, hleft, hput'⟩ := hs'.puts_detach ht' hd'
  refine ⟨(hs.swaps_exchange ht hsole hx hk hd hd').1, fun q hq hblock q'' hq'' hk'' => ?_⟩
  -- The block was there in between.
  obtain ⟨q', hq', hk'⟩ : ∃ q' ∈ d'.root.preorder, q'.key = q.key ∧ q''.key = q'.key := by
    rcases hput'.of_mem_root ht' hq'' with ⟨q', hq', rfl⟩ | ⟨-, hnew⟩
    · have hkey := (hput'.form?_grafted ht' q').1
      exact ⟨q', hq', hkey.symm.trans hk'', hkey⟩
    · exact absurd (isOld_mono (isOld_of_key (ht.bound q (mem_trees_of_root hq)) hk''.symm)
        hput.next) hnew
  by_cases hqP : q = p.parent
  · subst hqP
    have hl := hlist hblock
    have hparts : q'.parts = p.parent.parts.take p.index ++ x :: ((stampAll d.next new).1 ++
        p.parent.parts.drop (p.index + 1)) := by
      rw [hput.eq_grafted ht hq hq' hk'.1, hput.grafted_self ht,
        parts_withParts (isPresent_of_mem_preorder hq), hqs hl, List.append_assoc, List.cons_append]
    obtain ⟨hP, -, hus, hvs⟩ := hs'.eq_of_split ht' hq' hparts hsole hs.key
    -- It is taken out of the list that it was in.
    have hindex : p'.index = p.index := by
      rw [← hs'.length_take, ← hs.length_take, hus]
    have hl' : p'.isInList := by
      rw [Place.isInList, Place.slot?, hP, hindex, cls?_congr (hput.eq_grafted ht hq hq' hk'.1 ▸
        (hput.form?_grafted ht p.parent).2)]
      exact hl
    obtain ⟨rfl, -⟩ := hleft.resolve_right fun h => h.1 hl'
    rw [hput'.eq_grafted ht' hq' hq'' hk'.2, ← hP, hput'.grafted_self ht',
      parts_withParts (isPresent_of_mem_preorder hs'.parent), hus, hvs]
    simpa [stampAll] using hs.rows .self (.stampAll x hk hne hnew)
  · have hparts := hput.parts_of_ne ht hq hqP hq' hk'.1
    -- What is taken out is a part of no other node.
    have hqP' : q' ≠ p'.parent := fun hq'P => hqP <| by
      obtain ⟨c, hc, hcx⟩ := List.mem_map.mp (hparts ▸ hq'P ▸ hs'.mem_parts)
      have hck : c.key = x.key := hcx ▸ (hput.form?_grafted ht c).1.symm
      exact ht.eq_of_key (mem_trees_of_root hq) (mem_trees_of_root hs.parent)
        (ht.woven.sole _ (mem_trees_of_root hs.parent) _ (mem_trees_of_root hq) x hs.mem_parts c hc
          hsole hck.symm).symm
    rw [hput'.parts_of_ne ht' hq' hqP' hq'' hk'.2, hparts, List.map_map]
    refine .map fun c _ => .inl ⟨_, rfl, ?_⟩
    obtain ⟨hkey, hform⟩ := hput.form?_grafted ht c
    obtain ⟨hkey', hform'⟩ := hput'.form?_grafted ht' (grafted p.parent qs c)
    exact ⟨hkey'.trans hkey, hform'.trans hform⟩

end Stands

end Document

end Fieldwise
