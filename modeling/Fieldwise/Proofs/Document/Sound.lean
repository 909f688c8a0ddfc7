import Fieldwise.Proofs.Tree.Change
import Fieldwise.Tree.Document

/-!
# Sound documents

A document is `Document.Sound` if the nodes in it and those that were cut out of it are woven and
regular, all their keys are in use, and its root is a file. In a sound document a node that is
attached and is not the root has a place (`Document.Sound.place_ok`).

`Document.Evolves d d'` says how a document that was edited is related to what it was: a node that
was there before is of the same class and has no more old nodes below it than then. An edit keeps
what it takes out (`Document.Continues`), and changes nothing but what is around one node
(`Document.Alters`); it takes out only what is below one node (`Document.Follows`).
-/

namespace Fieldwise

open Node

/-- Whether the node with the key of `x` is in a tree. -/
def Node.occursIn (x t : Node) : Bool := t.preorder.any (·.key == x.key)

namespace Document

variable {d d' d'' : Document} {n x y c P r : Node} {k : Nat}

/-- The program and what was cut out of it. -/
def trees (d : Document) : List Node := d.root :: d.loose

/-! ### Looking up -/

theorem mem_trees_of_root (h : x ∈ d.root.preorder) : x ∈ preorderAll d.trees :=
  mem_preorderAll.mpr ⟨d.root, List.mem_cons_self, h⟩

theorem attached_iff : d.attached n ↔ ∃ x ∈ d.root.preorder, x.key = n.key ∧ n.key.isSome := by
  unfold attached
  cases hk : n.key with
  | none => simp
  | some k => simp [find?_isSome]

/-- The node above a node. -/
theorem of_parent? (hp : d.parent? n = some P) :
    P ∈ d.root.preorder ∧ ∃ c ∈ P.parts, c.key = n.key ∧ n.key.isSome := by
  unfold parent? ancestors at hp
  cases hk : n.key with
  | none => simp [hk] at hp
  | some k =>
    cases ha : d.root.ancestors? k with
    | none => simp [hk, ha] at hp
    | some above =>
      cases above with
      | nil => simp [hk, ha] at hp
      | cons p rest =>
        obtain rfl : p = P := by simpa [hk, ha] using hp
        obtain ⟨hp, c, hc, hck⟩ := ancestors?_eq_cons ha
        exact ⟨hp, c, hc, hck, rfl⟩

theorem mem_of_ancestors (hx : x ∈ d.ancestors n) : x ∈ d.root.preorder := by
  unfold ancestors at hx
  cases hk : n.key with
  | none => simp [hk] at hx
  | some k =>
    cases ha : d.root.ancestors? k with
    | none => simp [hk, ha] at hx
    | some above => exact mem_of_ancestors? ha (by simpa [hk, ha] using hx)

/-- What is found is a node of the trees with the key. -/
theorem find?_mem (h : d.find? k = some x) : x ∈ preorderAll d.trees ∧ x.key = some k := by
  unfold find? at h
  cases hr : d.root.find? k with
  | some y =>
    rw [hr] at h
    obtain rfl : y = x := by simpa using h
    obtain ⟨hy, hk⟩ := find?_eq_some hr
    exact ⟨mem_trees_of_root hy, hk⟩
  | none =>
    rw [hr] at h
    have h : Node.findAll? k d.loose = some x := by simpa using h
    rw [findAll?_eq_findSome?] at h
    obtain ⟨t, ht, h⟩ := List.exists_of_findSome?_eq_some h
    obtain ⟨hx, hk⟩ := find?_eq_some h
    exact ⟨mem_preorderAll.mpr ⟨t, List.mem_cons_of_mem _ ht, hx⟩, hk⟩

/-- The present state of a node is one of the trees' nodes, or the node as it was. -/
theorem current_mem (d : Document) (n : Node) :
    d.current n = n ∨ d.current n ∈ preorderAll d.trees ∧ (d.current n).key = n.key := by
  unfold current
  cases hk : n.key with
  | none => exact .inl rfl
  | some k =>
    cases hf : d.find? k with
    | none => exact .inl (by simp [hf])
    | some x =>
      obtain ⟨hx, hxk⟩ := find?_mem hf
      exact .inr ⟨by simpa [hf] using hx, by simpa [hf] using hxk⟩

theorem key_current (d : Document) (n : Node) : (d.current n).key = n.key := by
  rcases current_mem d n with hc | ⟨-, hk⟩
  · rw [hc]
  · exact hk

/-- Where a node stands. -/
theorem of_place {p : Place} (hp : d.place n = .ok p) :
    d.parent? n = some p.parent ∧
      ∃ c, p.parent.parts[p.index]? = some c ∧ c.key = n.key ∧ n.key.isSome := by
  unfold place at hp
  split at hp
  · rename_i q hq
    obtain rfl : q = p := by simpa using hp
    unfold place? at hq
    cases hk : n.key with
    | none => simp [hk] at hq
    | some k =>
      cases hP : d.parent? n with
      | none => simp [hk, hP] at hq
      | some P =>
        simp only [hk, hP, Option.bind_eq_bind, Option.bind_some] at hq
        cases hi : P.parts.findIdx? (·.hasKey k) with
        | none => simp [hi] at hq
        | some i =>
          obtain rfl : ({ parent := P, index := i } : Place) = q := by simpa [hi] using hq
          obtain ⟨hlt, hkey, -⟩ := List.findIdx?_eq_some_iff_getElem.mp hi
          refine ⟨rfl, P.parts[i], List.getElem?_eq_getElem hlt, ?_, rfl⟩
          simpa [hasKey] using hkey
  · cases hp

theorem occursIn_congr {y t : Node} (h : x.key = y.key) : x.occursIn t = y.occursIn t := by
  rw [Node.occursIn, Node.occursIn, h]

/-! ### Tidy documents -/

/-- The trees of a document hang together, and all their keys are in use. -/
structure Tidy (d : Document) : Prop where
  woven : Woven d.trees
  bound : ∀ x ∈ preorderAll d.trees, IsOld d.next x

namespace Tidy

variable (h : d.Tidy)
include h

theorem eq_of_key (hx : x ∈ preorderAll d.trees) (hy : y ∈ preorderAll d.trees)
    (hk : x.key = y.key) : x = y := h.woven.eq_of_key hx hy hk

/-- What is below parts of a node is old. -/
theorem isOld_of_parts (hP : P ∈ d.root.preorder) {ts : List Node} (hs : ts.Sublist P.parts)
    (hy : y ∈ preorderAll ts) : IsOld d.next y := by
  obtain ⟨t, htm, hyt⟩ := mem_preorderAll.mp hy
  exact h.bound y (mem_trees_of_root (mem_preorder_of_mem_preorderAll hP
    (mem_preorderAll.mpr ⟨t, hs.subset htm, hyt⟩)))

theorem current_eq (hx : x ∈ preorderAll d.trees) (hk : x.key = n.key) : d.current n = x := by
  rcases d.current_mem n with hc | ⟨hm, hc⟩
  · -- The node is found, as its key is in the trees.
    obtain ⟨k, hxk⟩ := h.woven.exists_key hx
    rw [current, ← hk, hxk, Option.bind_some]
    cases hf : d.find? k with
    | some z =>
      obtain ⟨hz, hzk⟩ := find?_mem hf
      exact h.eq_of_key hz hx (hzk.trans hxk.symm)
    | none =>
      have hnone : d.root.find? k = none ∧ Node.findAll? k d.loose = none := by
        simpa [Document.find?] using hf
      obtain ⟨t, ht, hxt⟩ := mem_preorderAll.mp hx
      have hfound : (t.find? k).isSome := Node.find?_isSome.mpr ⟨x, hxt, hxk⟩
      rcases List.mem_cons.mp ht with rfl | ht
      · rw [hnone.1] at hfound
        cases hfound
      · rw [findAll?_eq_findSome?, List.findSome?_eq_none_iff] at hnone
        rw [hnone.2 t ht] at hfound
        cases hfound
  · exact h.eq_of_key hm hx (hc.trans hk.symm)

/-- What a node has as a part where it can stand at one place only is above it everywhere. -/
theorem eq_or_mem_of_part {Q : Node} (hP : P ∈ preorderAll d.trees) (hc : c ∈ P.parts)
    (hs : c.isSole) (hQ : Q ∈ preorderAll d.trees) (hm : c ∈ Q.preorder) :
    c = Q ∨ P ∈ Q.preorder := by
  rcases (mem_preorder_iff (isPresent_of_preorder hm)).mp hm with rfl | hm
  · exact .inl rfl
  · obtain ⟨q, hq, hcq⟩ := exists_parent_of_mem hm
    have hqm := mem_preorderAll_trans hq hQ
    have hk := h.woven.sole P hP q hqm c hc c hcq hs rfl
    exact .inr (h.eq_of_key hP hqm hk ▸ hq)

end Tidy

/-! ### Sound documents -/

variable [Discipline]

/-- Nothing is wrong with a document. -/
structure Sound (d : Document) : Prop where
  woven : Woven d.trees
  bound : ∀ x ∈ preorderAll d.trees, IsOld d.next x
  file : d.root.isA .file
  regular : Regular d.trees

namespace Sound

theorem tidy (h : d.Sound) : d.Tidy := ⟨h.woven, h.bound⟩

theorem root_mem (h : d.Sound) : d.root ∈ d.root.preorder :=
  self_mem_preorder (isPresent_of_isA h.file)

theorem eq_of_key (h : d.Sound) {x y : Node} (hx : x ∈ d.root.preorder) (hy : y ∈ d.root.preorder)
    (hk : x.key = y.key) : x = y :=
  h.woven.eq_of_key (mem_trees_of_root hx) (mem_trees_of_root hy) hk

theorem exists_key (h : d.Sound) (hx : x ∈ d.root.preorder) : ∃ k, x.key = some k :=
  h.woven.exists_key (mem_trees_of_root hx)

/-- The present state of a node is what is in the trees with its key. -/
theorem current_eq (h : d.Sound) (hx : x ∈ preorderAll d.trees) (hk : x.key = n.key) :
    d.current n = x := h.tidy.current_eq hx hk

theorem current_current (h : d.Sound) (n : Node) : d.current (d.current n) = d.current n := by
  rcases current_mem d n with hc | ⟨hm, -⟩
  · rw [hc, hc]
  · exact h.current_eq hm rfl

/-- A node that is attached and is not the root has a node above it. -/
theorem exists_parent? (h : d.Sound) (hx : x ∈ d.root.preorder) (hk : x.key = n.key)
    (hr : n.key ≠ d.root.key) : ∃ P, d.parent? n = some P := by
  obtain ⟨k, hxk⟩ := h.exists_key hx
  have hnk : n.key = some k := hk ▸ hxk
  have hsome : (d.root.ancestors? k).isSome := by
    rw [ancestors?_isSome]
    exact find?_isSome.mpr ⟨x, hx, hxk⟩
  obtain ⟨above, ha⟩ := Option.isSome_iff_exists.mp hsome
  cases above with
  | nil => exact (hr (hnk.trans (ancestors?_eq_nil ha).symm)).elim
  | cons p rest => exact ⟨p, by simp [parent?, ancestors, hnk, ha]⟩

/-- **A node that is attached and is not the root has a place.** -/
theorem place_ok (h : d.Sound) (hx : x ∈ d.root.preorder) (hk : x.key = n.key)
    (hr : n.key ≠ d.root.key) : ∃ p, d.place n = .ok p := by
  obtain ⟨k, hxk⟩ := h.exists_key hx
  have hnk : n.key = some k := hk ▸ hxk
  obtain ⟨P, hP⟩ := h.exists_parent? hx hk hr
  obtain ⟨-, c, hc, hck, -⟩ := of_parent? hP
  have hi : (P.parts.findIdx? (·.hasKey k)).isSome := by
    rw [List.findIdx?_isSome, List.any_eq_true]
    exact ⟨c, hc, by simp [hasKey, hck, hnk]⟩
  obtain ⟨i, hi⟩ := Option.isSome_iff_exists.mp hi
  exact ⟨{ parent := P, index := i }, by simp [place, place?, hnk, hP, hi]⟩

/-- The root is no part of a node. -/
theorem root_key_ne (h : d.Sound) (hP : P ∈ d.root.preorder) (hx : x ∈ P.parts) :
    x.key ≠ d.root.key := by
  intro hk
  obtain ⟨k, hrk⟩ := h.exists_key h.root_mem
  have hp := isPresent_of_key (hk.trans hrk)
  have hm := mem_preorder_of_part hP hx hp
  have := h.eq_of_key hm h.root_mem hk
  subst this
  exact not_mem_preorderAll_parts (mem_preorderAll_of_mem hx hp) hP

/-- The node above a node that can stand at one place only. -/
theorem parent_eq (h : d.Sound) {p q c c' : Node} (hp : p ∈ d.root.preorder)
    (hq : q ∈ d.root.preorder) (hc : c ∈ p.parts) (hc' : c' ∈ q.parts) (hs : c.isSole)
    (hk : c.key = c'.key) : p = q :=
  h.eq_of_key hp hq
    (h.woven.sole p (mem_trees_of_root hp) q (mem_trees_of_root hq) c hc c' hc' hs hk)

theorem parent?_of_part {q : Node} (h : d.Sound) (hP : P ∈ d.root.preorder) (hx : x ∈ P.parts)
    (hs : x.isSole) (hq : d.parent? x = some q) : q = P := by
  obtain ⟨hqm, c, hc, hck, -⟩ := of_parent? hq
  exact (h.parent_eq hP hqm hx hc hs hck.symm).symm

end Sound

/-! ### Edits -/

/-- How a document that was edited is related to what it was. -/
structure Evolves (d d' : Document) : Prop where
  next : d.next ≤ d'.next
  root : d'.root.key = d.root.key
  node : ∀ x' ∈ d'.root.preorder, IsOld d.next x' → ∃ x ∈ d.root.preorder, x.key = x'.key ∧
    x.cls? = x'.cls? ∧ (x'.declaresFunction → x.declaresFunction) ∧
    (∀ c' ∈ x'.parts, IsOld d.next c' → ∃ c ∈ x.parts, c.key = c'.key) ∧
    ∀ y' ∈ x'.preorder, IsOld d.next y' → ∃ y ∈ x.preorder, y.key = y'.key
  kinds : ∀ x' ∈ preorderAll d'.trees, IsOld d.next x' → ∃ x ∈ preorderAll d.trees,
    x.key = x'.key ∧ x.cls? = x'.cls? ∧ (x'.declaresFunction → x.declaresFunction)
  fresh : ∀ x' ∈ d'.root.preorder, ¬ IsOld d.next x' → ∀ c' ∈ x'.parts, IsOld d.next c' →
    (x'.isA .compound ∨ x'.isA .decl) ∧ c'.isA .decl = false

namespace Evolves

theorem refl (d : Document) (h : d.Sound) : Evolves d d where
  next := Nat.le_refl _
  root := rfl
  node x hx _ := ⟨x, hx, rfl, rfl, id, fun c hc _ => ⟨c, hc, rfl⟩, fun y hy _ => ⟨y, hy, rfl⟩⟩
  kinds x hx _ := ⟨x, hx, rfl, rfl, id⟩
  fresh x hx hn := (hn (h.bound x (mem_trees_of_root hx))).elim

theorem trans (h : Evolves d d') (h' : Evolves d' d'') (hs : d'.Sound) : Evolves d d'' where
  next := Nat.le_trans h.next h'.next
  root := h'.root.trans h.root
  node x'' hx'' ho := by
    obtain ⟨x', hx', hk', hc', hl', hp', hb'⟩ := h'.node x'' hx'' (isOld_mono ho h.next)
    obtain ⟨x, hx, hk, hc, hl, hp, hb⟩ := h.node x' hx' (isOld_of_key ho hk'.symm)
    refine ⟨x, hx, hk.trans hk', hc.trans hc', hl ∘ hl', fun c'' hm ho => ?_,
      fun y'' hm ho => ?_⟩
    · obtain ⟨c', hcm, hck⟩ := hp' c'' hm (isOld_mono ho h.next)
      obtain ⟨c, hcm, hck'⟩ := hp c' hcm (isOld_of_key ho hck.symm)
      exact ⟨c, hcm, hck'.trans hck⟩
    · obtain ⟨y', hym, hyk⟩ := hb' y'' hm (isOld_mono ho h.next)
      obtain ⟨y, hym, hyk'⟩ := hb y' hym (isOld_of_key ho hyk.symm)
      exact ⟨y, hym, hyk'.trans hyk⟩
  kinds x'' hx'' ho := by
    obtain ⟨x', hx', hk', hc', hl'⟩ := h'.kinds x'' hx'' (isOld_mono ho h.next)
    obtain ⟨x, hx, hk, hc, hl⟩ := h.kinds x' hx' (isOld_of_key ho hk'.symm)
    exact ⟨x, hx, hk.trans hk', hc.trans hc', hl ∘ hl'⟩
  fresh x'' hx'' hn c'' hc'' ho := by
    by_cases hx' : IsOld d'.next x''
    · -- The new node was there in between, with an old part already.
      obtain ⟨x', hxm, hxk, hcls, -, hp, -⟩ := h'.node x'' hx'' hx'
      obtain ⟨c', hcm, hck⟩ := hp c'' hc'' (isOld_mono ho h.next)
      have hco := isOld_of_key ho hck.symm
      obtain ⟨hcl, hcd⟩ := h.fresh x' hxm (fun ho => hn (isOld_of_key ho hxk)) c' hcm hco
      have hcm'' := mem_preorder_of_part hx'' hc'' (isPresent_of_isOld ho)
      obtain ⟨c₂, hc₂, hck₂, hcls₂, -⟩ := h'.node c'' hcm'' (isOld_mono ho h.next)
      have hcc := hs.eq_of_key hc₂ (mem_preorder_of_part hxm hcm (isPresent_of_isOld hco))
        (hck₂.trans hck.symm)
      rw [isA, isA, ← hcls, isA, ← hcls₂, hcc]
      exact ⟨hcl, hcd⟩
    · exact h'.fresh x'' hx'' hx' c'' hc'' (isOld_mono ho h.next)

end Evolves

/-- A document after edits that keep all nodes and their forms, though they may not be attached any
more. -/
structure Continues (d d' : Document) : Prop extends Evolves d d' where
  alive : ∀ x ∈ preorderAll d.trees, ∃ x' ∈ preorderAll d'.trees, x'.key = x.key
  forms : ∀ x' ∈ preorderAll d'.trees, IsOld d.next x' → ∃ x ∈ preorderAll d.trees,
    x.key = x'.key ∧ x.form? = x'.form? ∧ x.head? = x'.head?

namespace Continues

theorem refl (d : Document) (h : d.Sound) : Continues d d where
  toEvolves := .refl d h
  alive x hx := ⟨x, hx, rfl⟩
  forms x hx _ := ⟨x, hx, rfl, rfl, rfl⟩

theorem trans (h : Continues d d') (h' : Continues d' d'') (hs : d'.Sound) : Continues d d'' where
  toEvolves := h.toEvolves.trans h'.toEvolves hs
  alive x hx := by
    obtain ⟨x', hx', hk⟩ := h.alive x hx
    obtain ⟨x'', hx'', hk'⟩ := h'.alive x' hx'
    exact ⟨x'', hx'', hk'.trans hk⟩
  forms x'' hx'' ho := by
    obtain ⟨x', hx', hk', hf', hn'⟩ := h'.forms x'' hx'' (isOld_mono ho h.next)
    obtain ⟨x, hx, hk, hf, hn⟩ := h.forms x' hx' (isOld_of_key ho hk'.symm)
    exact ⟨x, hx, hk.trans hk', hf.trans hf', hn.trans hn'⟩

end Continues

/-- A document after an edit around a node `x`: a node that `x` does not occur in is the same as
before, any other than `x` has kept such parts in order, and all but `x` are among its parts still.
There are new parts only in `x` and what `x` is a part of. -/
structure Alters (d d' : Document) (x : Node) : Prop where
  same : ∀ q ∈ d.root.preorder, x.occursIn q = false → ∀ q' ∈ d'.root.preorder, q'.key = q.key →
    q' = q
  spared : ∀ q ∈ d.root.preorder, q.key ≠ x.key → ∀ q' ∈ d'.root.preorder, q'.key = q.key →
    (q.parts.filter fun c => !x.occursIn c).Sublist q'.parts
  parts : ∀ q ∈ d.root.preorder, q.key ≠ x.key → ∀ q' ∈ d'.root.preorder, q'.key = q.key →
    ∀ c ∈ q.parts, c.isPresent → c.key ≠ x.key → ∃ c' ∈ q'.parts, c'.key = c.key
  old : ∀ q ∈ d.root.preorder, q.key ≠ x.key → (∀ c ∈ q.parts, c.key ≠ x.key) →
    ∀ q' ∈ d'.root.preorder, q'.key = q.key → ∀ c' ∈ q'.parts, ∃ c ∈ q.parts, c.key = c'.key

theorem Alters.refl (h : d.Sound) : Alters d d x where
  same q hq _ q' hq' hk := h.eq_of_key hq' hq hk
  spared q hq _ q' hq' hk := by
    rw [h.eq_of_key hq' hq hk]
    exact List.filter_sublist
  parts q hq _ q' hq' hk c hc _ _ := ⟨c, h.eq_of_key hq' hq hk ▸ hc, rfl⟩
  old q hq _ _ q' hq' hk c' hc' := ⟨c', h.eq_of_key hq' hq hk ▸ hc', rfl⟩

/-- One edit around a node after another. -/
theorem Alters.trans {y : Node} (h : Alters d d' x) (h' : Alters d' d'' y) (hs : d.Sound)
    (he : Evolves d' d'') (hk : y.key = x.key) (hle : d.next ≤ d'.next) : Alters d d'' x := by
  -- A node that is there before and after was there in between.
  have hmid : ∀ q ∈ d.root.preorder, ∀ q'' ∈ d''.root.preorder, q''.key = q.key →
      ∃ q' ∈ d'.root.preorder, q'.key = q.key := fun q hq q'' hq'' hqk => by
    obtain ⟨q', hq', hk', -⟩ := he.node q'' hq''
      (isOld_mono (isOld_of_key (hs.bound q (mem_trees_of_root hq)) hqk.symm) hle)
    exact ⟨q', hq', hk'.trans hqk⟩
  refine ⟨fun q hq hx q'' hq'' hqk => ?_, fun q hq hqx q'' hq'' hqk => ?_,
    fun q hq hqx q'' hq'' hqk c hc hcp hcx => ?_, fun q hq hqx hqc q'' hq'' hqk c'' hc'' => ?_⟩
  · obtain ⟨q', hq', hk'⟩ := hmid q hq q'' hq'' hqk
    obtain rfl := h.same q hq hx q' hq' hk'
    exact h'.same q' hq' (occursIn_congr hk ▸ hx) q'' hq'' hqk
  · obtain ⟨q', hq', hk'⟩ := hmid q hq q'' hq'' hqk
    have hsub := (h.spared q hq hqx q' hq' hk').filter fun c => !x.occursIn c
    rw [List.filter_filter] at hsub
    simp only [Bool.and_self] at hsub
    refine hsub.trans ?_
    simp only [← occursIn_congr hk]
    exact h'.spared q' hq' (by rw [hk', hk]; exact hqx) q'' hq'' (hqk.trans hk'.symm)
  · obtain ⟨q', hq', hk'⟩ := hmid q hq q'' hq'' hqk
    obtain ⟨c', hc', hck⟩ := h.parts q hq hqx q' hq' hk' c hc hcp hcx
    obtain ⟨k, hck'⟩ := hs.exists_key (mem_preorder_of_part hq hc hcp)
    obtain ⟨c'', hc'', hck''⟩ := h'.parts q' hq' (by rw [hk', hk]; exact hqx) q'' hq''
      (hqk.trans hk'.symm) c' hc' (isPresent_of_key (hck.trans hck')) (by rw [hck, hk]; exact hcx)
    exact ⟨c'', hc'', hck''.trans hck⟩
  · obtain ⟨q', hq', hk'⟩ := hmid q hq q'' hq'' hqk
    have hold := h.old q hq hqx hqc q' hq' hk'
    obtain ⟨c', hc', hck'⟩ := h'.old q' hq' (by rw [hk', hk]; exact hqx) (fun c' hc' => by
      obtain ⟨c, hc, hck⟩ := hold c' hc'
      rw [← hck, hk]
      exact hqc c hc) q'' hq'' (hqk.trans hk'.symm) c'' hc''
    obtain ⟨c, hc, hck⟩ := hold c' hc'
    exact ⟨c, hc, hck.trans hck'⟩

/-- A document after an edit around `x` in which only what is below `r` was taken out. -/
structure Follows (d d' : Document) (r x : Node) : Prop where
  sound : d'.Sound
  continues : Continues d d'
  kept : ∀ y ∈ d.root.preorder, (∃ y' ∈ d'.root.preorder, y'.key = y.key) ∨ y ∈ r.preorder
  alters : Alters d d' x

/-- What stands next to new nodes is taken out. -/
theorem Follows.take_out {y : Node} (h : Follows d d' .absent x) (h' : Follows d' d'' y y)
    (hs : d.Sound) (hx : x ∈ d.root.preorder) (hy : y ∈ d'.root.preorder) (hk : y.key = x.key) :
    Follows d d'' x x where
  sound := h'.sound
  continues := h.continues.trans h'.continues h.sound
  kept z hz := by
    obtain ⟨z', hz', hzk⟩ := (h.kept z hz).resolve_right not_mem_preorder_absent
    rcases h'.kept z' hz' with ⟨z'', hz'', hzk'⟩ | hzy
    · exact .inl ⟨z'', hz'', hzk'.trans hzk⟩
    · obtain ⟨x', hx', hxk, -, -, -, hbelow⟩ := h.continues.node y hy
        (isOld_of_key (hs.bound x (mem_trees_of_root hx)) hk.symm)
      obtain rfl : x' = x := hs.eq_of_key hx' hx (hxk.trans hk)
      obtain ⟨z₀, hz₀, hzk₀⟩ := hbelow z' hzy
        (isOld_of_key (hs.bound z (mem_trees_of_root hz)) hzk.symm)
      exact .inr (hs.eq_of_key (mem_preorder_trans hz₀ hx) hz (hzk₀.trans hzk) ▸ hz₀)
  alters := h.alters.trans h'.alters hs h'.continues.toEvolves hk h.continues.next

end Document

end Fieldwise
