import Fieldwise.Proofs.Document.Edit
import Fieldwise.Proofs.Document.Start
import Fieldwise.Proofs.Tree.Surround
import Mathlib.Data.List.Pairwise

/-!
# Exchanging a node for several

In a program without shared nodes (`Document.Unshared`) every node stands at exactly one place, and
looking it up gives that place (`Document.Unshared.lookup`). Putting new nodes after a node and
taking the node out then leaves everything around it as it was and the new nodes where it stood,
in a block of their own unless that is in a list (`Document.Unshared.insertAfter_detach`).
-/

namespace Fieldwise

open Node

namespace Document

variable {d d' : Document} {n c x : Node} {new us vs ts : List Node} {s : Surround} {k : Nat}
  {m : Mark} {f : Form}

/-- No node stands at two places of the program, and all its nodes have keys in use. -/
structure Unshared (d : Document) : Prop where
  distinct : (keys [d.root]).Nodup
  bound : ∀ x ∈ d.root.preorder, IsOld d.next x

/-- Trees that can be put into the program: their nodes are new or were cut out of it, and none of
them stands at two places. -/
structure Detached (d : Document) (new : List Node) : Prop where
  distinct : (keys new).Nodup
  bound : ∀ k ∈ keys new, k < d.next
  apart : ∀ k ∈ keys new, k ∉ keys [d.root]

/-- A node is attached if its key is one of the program's. -/
theorem attached_iff_mem_keys : d.attached n ↔ ∃ k ∈ keys [d.root], n.key = some k := by
  rw [attached_iff]
  constructor
  · rintro ⟨x, hx, hk, hn⟩
    obtain ⟨k, hnk⟩ := Option.isSome_iff_exists.mp hn
    exact ⟨k, mem_keys.mpr ⟨x, mem_preorderAll_singleton.mpr hx, hk.trans hnk⟩, hnk⟩
  · rintro ⟨k, hk, hnk⟩
    obtain ⟨x, hx, hxk⟩ := mem_keys.mp hk
    exact ⟨x, mem_preorderAll_singleton.mp hx, hxk.trans hnk.symm, by simp [hnk]⟩

/-- The document of a tree without shared nodes. -/
theorem unshared_ofRoot {root : Node} (h : (keys [root]).Nodup) : (ofRoot root).Unshared where
  distinct := nodup_keys_stamp _ root (fun _ hk => lt_keyBound root 1 (mem_keys.mp hk)) h
  bound x hx := by
    have hxs : x ∈ preorderAll (stampAll (root.keyBound 1) [root]).1 :=
      mem_preorderAll_singleton.mpr hx
    obtain ⟨k, hk, ho | hlt⟩ := key_stampAll _ [root] x hxs
    · exact ⟨k, hk, Nat.lt_of_lt_of_le (lt_keyBound root 1 ho) (le_stamp _ root)⟩
    · exact ⟨k, hk, hlt.2⟩

/-! ### A node among the parts of another one -/

/-- A node stands between other parts of a node in its surroundings, and neither of the two occurs
elsewhere. -/
structure Among (d : Document) (n : Node) (s : Surround) (m : Mark) (f : Form) (us : List Node)
    (c : Node) (vs : List Node) : Prop where
  fill : s.fill [.mk m f (us ++ c :: vs)] = [d.root]
  part : ∃ k, n.key = some k ∧ c.key = some k ∧ k ∉ (s.within m f us vs).keys
  parent : ∃ j, m.key = some j ∧ j ∉ s.keys

/-- A change to a node that occurs nowhere else leaves its surroundings as they are. -/
theorem modifyParts_fill {P : Node} (hs : s.fill [P] = [d.root]) (hk : P.key = some k)
    (ha : k ∉ s.keys) (change : List Node → List Node) :
    (d.modifyParts P change).next = d.next ∧
      s.fill [P.withParts (change P.parts)] = [(d.modifyParts P change).root] := by
  have hP : modifyAllAt k (fun n => n.withParts (change n.parts)) [P] =
      [P.withParts (change P.parts)] := by
    rw [modifyAllAt_eq_map, List.map_singleton, modifyAt_of_key hk]
  have hroot := modifyAllAt_fill (fun n => n.withParts (change n.parts)) ha [P]
  rw [hP, hs, modifyAllAt_eq_map, List.map_singleton] at hroot
  simp only [modifyParts, Document.modify, hk]
  exact ⟨trivial, hroot.symm⟩

namespace Among

variable (h : d.Among n s m f us c vs)
include h

theorem fill_part : (s.within m f us vs).fill [c] = [d.root] := by
  rw [Surround.fill_within, List.append_assoc, List.singleton_append, h.fill]

theorem mem_preorder : c ∈ d.root.preorder := by
  obtain ⟨k, -, hc, -⟩ := h.part
  rw [← mem_preorderAll_singleton, ← h.fill_part]
  exact mem_preorderAll_fill (mem_preorderAll_singleton.mpr
    (self_mem_preorder (isPresent_of_key hc)))

/-- **A node is looked up where it stands.** -/
theorem lookup : d.parent? n = some (.mk m f (us ++ c :: vs)) ∧
    d.place n = .ok { parent := .mk m f (us ++ c :: vs), index := us.length } := by
  obtain ⟨k, hn, hc, ha⟩ := h.part
  rw [mem_keys_within] at ha
  simp only [not_or] at ha
  obtain ⟨hak, hm, hu, hv⟩ := ha
  have hparent : d.parent? n = some (.mk m f (us ++ c :: vs)) := by
    have hself : ancestorsAll? k [c] = some [] := by
      cases c with
      | absent => cases hc
      | mk m' f' ps => rw [ancestorsAll?, ancestors?, if_pos (by simpa [key, mark] using hc)]
    have hin : k ∉ (Surround.inside m f us .hole vs).keys := by
      rw [mem_keys_inside]
      exact not_or.mpr ⟨hm, not_or.mpr ⟨hu, not_or.mpr ⟨List.not_mem_nil, hv⟩⟩⟩
    have hnode : ancestorsAll? k [.mk m f (us ++ c :: vs)] = some [.mk m f (us ++ c :: vs)] := by
      simpa [Surround.fill, Surround.above, hself] using ancestorsAll?_fill hin [c]
    have hroot : ancestors? k d.root =
        some (.mk m f (us ++ c :: vs) :: s.above [.mk m f (us ++ c :: vs)]) := by
      rw [← ancestorsAll?_singleton, ← h.fill, ancestorsAll?_fill hak, hnode]
      rfl
    simp [parent?, ancestors, hn, hroot]
  have hindex : (us ++ c :: vs).findIdx? (·.hasKey k) = some us.length := by
    rw [List.findIdx?_eq_some_iff_getElem]
    refine ⟨by simp, by simp [hasKey, hc], fun i hi => ?_⟩
    rw [List.getElem_append_left hi, hasKey]
    intro hk
    have hkey : us[i].key = some k := by simpa using hk
    exact hu (mem_keys.mpr ⟨us[i], mem_preorderAll.mpr ⟨us[i], List.getElem_mem hi,
      self_mem_preorder (isPresent_of_key hkey)⟩, hkey⟩)
  have hplace : d.place? n = some { parent := .mk m f (us ++ c :: vs), index := us.length } := by
    simp only [place?, hn, hparent, parts, Option.bind_eq_bind, Option.bind_some, hindex]
    rfl
  exact ⟨hparent, by simp [place, hplace]⟩

/-- Taking an item of a list out leaves the other items. -/
theorem detach_ok (hl : Place.isInList { parent := .mk m f (us ++ c :: vs), index := us.length }) :
    ∃ d', d.detach n = .ok d' ∧ d'.next = d.next ∧ s.fill [.mk m f (us ++ vs)] = [d'.root] := by
  obtain ⟨j, hm, hj⟩ := h.parent
  have hd : d.detach n = .ok ((d.setAside (d.current n)).modifyParts (.mk m f (us ++ c :: vs))
      fun ps => ps.take us.length ++ [] ++ ps.drop (us.length + 1)) := by
    simp only [detach, h.lookup.2, bind, Except.bind, if_pos hl]
    rfl
  have hchanged := modifyParts_fill (d := d.setAside (d.current n)) h.fill hm hj
    fun ps => ps.take us.length ++ [] ++ ps.drop (us.length + 1)
  refine ⟨_, hd, hchanged.1, ?_⟩
  rw [← hchanged.2]
  simp [parts, withParts]

/-- New nodes come right after an item of a list. -/
theorem insertAfter_item (hne : new ≠ [])
    (hl : Place.isInList { parent := .mk m f (us ++ c :: vs), index := us.length }) :
    ∃ d', d.insertAfter n new = .ok d' ∧ d'.next = (stampAll d.next new).2 ∧
      s.fill [.mk m f (us ++ c :: ((stampAll d.next new).1 ++ vs))] = [d'.root] := by
  obtain ⟨j, hm, hj⟩ := h.parent
  have hd : d.insertAfter n new = .ok ((d.withKeys new).2.modifyParts (.mk m f (us ++ c :: vs))
      fun ps => ps.take (us.length + 1) ++ (d.withKeys new).1 ++ ps.drop (us.length + 1)) := by
    simp only [insertAfter, insert, List.isEmpty_iff, if_neg hne, h.lookup.2, bind, Except.bind,
      if_pos hl]
    rfl
  have hchanged := modifyParts_fill (d := (d.withKeys new).2) h.fill hm hj
    fun ps => ps.take (us.length + 1) ++ (d.withKeys new).1 ++ ps.drop (us.length + 1)
  refine ⟨_, hd, hchanged.1, ?_⟩
  rw [← hchanged.2]
  simp [parts, withParts, withKeys, List.take_append, List.take_of_length_le]

/-- A lone node and the new ones after it become a block. -/
theorem insertAfter_lone (hne : new ≠ []) (hc : d.current n = c) (hk : Keyed [c])
    (hl : ¬ Place.isInList { parent := .mk m f (us ++ c :: vs), index := us.length }) :
    ∃ d', d.insertAfter n new = .ok d' ∧ d'.next = (stampAll (d.next + 1) new).2 ∧
      s.fill [.mk m f (us ++ [.mk ⟨some d.next, none⟩ .compound
        (c :: (stampAll (d.next + 1) new).1)] ++ vs)] = [d'.root] := by
  obtain ⟨j, hm, hj⟩ := h.parent
  have hd : d.insertAfter n new = .ok ((d.withKeys [Node.compound (c :: new)]).2.modifyParts
      (.mk m f (us ++ c :: vs)) fun ps => ps.take us.length ++
        (d.withKeys [Node.compound (c :: new)]).1 ++ ps.drop (us.length + 1)) := by
    simp only [insertAfter, insert, List.isEmpty_iff, if_neg hne, h.lookup.2, bind, Except.bind,
      if_neg hl, hc]
    rfl
  have hchanged := modifyParts_fill (d := (d.withKeys [Node.compound (c :: new)]).2) h.fill hm hj
    fun ps => ps.take us.length ++ (d.withKeys [Node.compound (c :: new)]).1 ++
      ps.drop (us.length + 1)
  -- The node has keys throughout, so only the block and the new nodes get one.
  have hstamp : stampAll d.next [Node.compound (c :: new)] =
      ([.mk ⟨some d.next, none⟩ .compound (c :: (stampAll (d.next + 1) new).1)],
        (stampAll (d.next + 1) new).2) := by
    rw [stampAll_singleton, Node.compound, build, stamp_mk_none, stampAll_cons,
      stamp_of_keyed _ c hk]
  rw [withKeys, hstamp] at hd hchanged
  refine ⟨_, hd, hchanged.1, ?_⟩
  rw [← hchanged.2]
  simp [parts, withParts]

end Among

/-! ### Programs without shared nodes -/

namespace Unshared

variable (h : d.Unshared)
include h

theorem not_mem_keys (hs : s.fill ts = [d.root]) (hk : k ∈ keys ts) : k ∉ s.keys := by
  have hd := h.distinct
  rw [← hs, (keys_fill_perm s ts).nodup_iff] at hd
  exact fun hk' => (List.nodup_append.mp hd).2.2 k hk k hk' rfl

theorem lt_next (hk : k ∈ keys [d.root]) : k < d.next := by
  obtain ⟨x, hx, hxk⟩ := mem_keys.mp hk
  obtain ⟨j, hj, hlt⟩ := h.bound x (mem_preorderAll_singleton.mp hx)
  obtain rfl : j = k := Option.some.inj (hj.symm.trans hxk)
  exact hlt

theorem eq_of_key {y : Node} (hx : x ∈ d.root.preorder) (hy : y ∈ d.root.preorder)
    (hk : x.key = y.key) : x = y := by
  have hd := h.distinct
  rw [keys, List.Nodup, List.pairwise_filterMap] at hd
  obtain ⟨k, hxk, -⟩ := h.bound x hx
  have _ : Std.Symm fun a b : Node => ∀ i, a.key = some i → ∀ j, b.key = some j → i ≠ j :=
    ⟨fun a b hab i hi j hj hij => hab j hj i hi hij.symm⟩
  by_contra hne
  exact hd.forall (mem_preorderAll_singleton.mpr hx) (mem_preorderAll_singleton.mpr hy) hne k hxk k
    (hk ▸ hxk) rfl

/-- The present state of a node is what is in the program with its key. -/
theorem current_eq (hx : x ∈ d.root.preorder) (hk : x.key = n.key) : d.current n = x := by
  obtain ⟨k, hxk, -⟩ := h.bound x hx
  have hfound : (d.root.find? k).isSome := find?_isSome.mpr ⟨x, hx, hxk⟩
  obtain ⟨y, hy⟩ := Option.isSome_iff_exists.mp hfound
  obtain ⟨hym, hyk⟩ := find?_eq_some hy
  obtain rfl := h.eq_of_key hym hx (hyk.trans hxk.symm)
  simp [current, ← hk, hyk, Document.find?, hy]

/-- A part of a node of the program stands there only. -/
theorem exists_among (hP : .mk m f (us ++ c :: vs) ∈ d.root.preorder) (hc : c.isPresent)
    (hn : c.key = n.key) : ∃ s, d.Among n s m f us c vs := by
  obtain ⟨s, hs⟩ := exists_fill hP
  have hpart : (s.within m f us vs).fill [c] = [d.root] := by
    rw [Surround.fill_within, List.append_assoc, List.singleton_append, hs]
  have hcm := mem_preorder_of_part hP (List.mem_append_right us List.mem_cons_self) hc
  obtain ⟨k, hk, -⟩ := h.bound c hcm
  obtain ⟨j, hj, -⟩ := h.bound _ hP
  exact ⟨s, hs,
    ⟨k, hn ▸ hk, hk, h.not_mem_keys hpart (mem_keys.mpr ⟨c, mem_preorderAll_singleton.mpr
      (self_mem_preorder hc), hk⟩)⟩,
    ⟨j, hj, h.not_mem_keys hs (mem_keys.mpr ⟨_, mem_preorderAll_singleton.mpr
      (self_mem_preorder rfl), hj⟩)⟩⟩

/-- **A part of a node has its place there.** -/
theorem lookup {P : Node} {j : Nat} (hP : P ∈ d.root.preorder) (hc : P.parts[j]? = some c)
    (hcp : c.isPresent) :
    d.attached c ∧ d.parent? c = some P ∧ d.place c = .ok { parent := P, index := j } := by
  have hcm := mem_preorder_of_part hP (List.mem_of_getElem? hc) hcp
  obtain ⟨k, hk, -⟩ := h.bound _ hcm
  cases P with
  | absent => cases hc
  | mk m f ps =>
    obtain ⟨hlt, hcj⟩ := List.getElem?_eq_some_iff.mp (show ps[j]? = some c from hc)
    have hps : ps = ps.take j ++ c :: ps.drop (j + 1) := by
      rw [← hcj, ← List.drop_eq_getElem_cons hlt, List.take_append_drop]
    obtain ⟨s, hs⟩ := h.exists_among (hps ▸ hP) hcp rfl
    obtain ⟨hparent, hplace⟩ := hs.lookup
    rw [← hps] at hparent hplace
    rw [List.length_take_of_le (Nat.le_of_lt hlt)] at hplace
    exact ⟨attached_iff.mpr ⟨c, hcm, rfl, by simp [hk]⟩, hparent, hplace⟩

/-- **A document stays without shared nodes when what is in a place is exchanged.** -/
theorem exchange (hs : s.fill ts = [d.root]) (hs' : s.fill us = [d'.root]) (hn : d.next ≤ d'.next)
    (hd : (keys us).Nodup) (hu : ∀ k ∈ keys us, k ∉ keys [d.root])
    (hb : ∀ y ∈ preorderAll us, IsOld d'.next y) : d'.Unshared where
  distinct := by
    have hdist := h.distinct
    rw [← hs] at hdist hu
    rw [← hs']
    exact nodup_keys_fill hdist hd hu
  bound y hy := by
    have hyv : (y.mark, y.form?) ∈ visits (s.fill us) := by
      rw [hs', visits]
      exact List.mem_map_of_mem (mem_preorderAll_singleton.mpr hy)
    have hout : ∀ v ∈ visits [d.root], ∃ k, v.1.key = some k ∧ k < d.next := by
      rintro v hv
      obtain ⟨x, hx, rfl⟩ := List.mem_map.mp hv
      exact h.bound x (mem_preorderAll_singleton.mp hx)
    rw [← hs, visits_fill] at hout
    rw [visits_fill] at hyv
    simp only [List.mem_append] at hyv hout
    rcases hyv with (hyv | hyv) | hyv
    · obtain ⟨k, hk, hlt⟩ := hout _ (.inl (.inl hyv))
      exact ⟨k, hk, Nat.lt_of_lt_of_le hlt hn⟩
    · obtain ⟨x, hx, hxy⟩ := List.mem_map.mp hyv
      exact isOld_of_key (hb x hx) (congrArg Mark.key (congrArg Prod.fst hxy))
    · obtain ⟨k, hk, hlt⟩ := hout _ (.inr hyv)
      exact ⟨k, hk, Nat.lt_of_lt_of_le hlt hn⟩

end Unshared

/-! ### Trees that join a program -/

namespace Detached

variable (h : d.Detached new)
include h

/-- A block of trees that can be put into the program is one itself. -/
theorem block : d.Detached [Node.compound new] := by
  have hkeys : keys [Node.compound new] = keys new := keys_singleton_mk _ _ _
  exact ⟨hkeys ▸ h.distinct, hkeys ▸ h.bound, hkeys ▸ h.apart⟩

/-- What is put into the program shares no node with it. -/
theorem not_mem_keys (hd : d.Unshared) {next : Nat} (hn : d.next ≤ next)
    (hk : k ∈ keys (stampAll next new).1) : k ∉ keys [d.root] := by
  rcases mem_keys_stampAll hk with hk | hk
  · exact h.apart k hk
  · intro hkd
    have := hd.lt_next hkd
    omega

theorem nodup_keys : (keys (stampAll d.next new).1).Nodup :=
  nodup_keys_stampAll d.next new h.bound h.distinct

theorem isOld {y : Node} (hy : y ∈ preorderAll (stampAll d.next new).1) :
    IsOld (stampAll d.next new).2 y := by
  obtain ⟨k, hk, ho | hlt⟩ := key_stampAll d.next new y hy
  · exact ⟨k, hk, Nat.lt_of_lt_of_le (h.bound k (mem_keys.mpr ho)) (le_stampAll _ _)⟩
  · exact ⟨k, hk, hlt.2⟩

end Detached

/-! ### Putting nodes after a node and taking it out -/

/-- What new nodes become that are to stand at a place: items of its list, or a block. -/
def arrange (d : Document) (p : Place) (new : List Node) : List Node × Document :=
  d.withKeys (if p.isInList then new else [Node.compound new])

/-- The document after the node at a place has given way to some trees: the parts of its parent
before and after it and everything around the parent are as they were, a search meets the trees
where it met the node, and each node is looked up where it stands now. -/
structure Exchanged (d d' : Document) (p : Place) (x : Node) (content : List Node) : Prop where
  fill : ∃ s : Surround, s.fill [p.parent] = [d.root] ∧ p.parent.parts[p.index]? = some x ∧
    s.fill [p.parent.withParts (p.parent.parts.take p.index ++ content ++
      p.parent.parts.drop (p.index + 1))] = [d'.root]
  search : ∃ before after, visits [d.root] = before ++ visits [x] ++ after ∧
    visits [d'.root] = before ++ visits content ++ after
  lookup : ∀ P ∈ d'.root.preorder, ∀ j c, P.parts[j]? = some c → c.isPresent →
    d'.attached c ∧ d'.parent? c = some P ∧ d'.place c = .ok { parent := P, index := j }
  attached : ∀ y : Node, d'.attached y ↔
    ∃ k, y.key = some k ∧ (k ∈ keys content ∨ k ∈ keys [d.root] ∧ k ∉ keys [x])
  unshared : d'.Unshared

namespace Unshared

variable (h : d.Unshared)
include h

/-- New nodes are put after an item of a list, and that is taken out. -/
theorem insertAfter_detach_item (hnew : d.Detached new) (hne : new ≠ [])
    (hs : d.Among n s m f us x vs) {p : Place} (hp : d.place n = .ok p) (hl : p.isInList) :
    ∃ d₁ d₂, d.insertAfter n new = .ok d₁ ∧ d₁.detach n = .ok d₂ ∧
      d₂.next = (d.arrange p new).2.next ∧
      (s.within m f us vs).fill (d.arrange p new).1 = [d₂.root] := by
  obtain rfl : _ = p := Except.ok.inj (hs.lookup.2.symm.trans hp)
  obtain ⟨k, hn, hx, ha⟩ := hs.part
  have hkroot : k ∈ keys [d.root] :=
    mem_keys.mpr ⟨x, mem_preorderAll_singleton.mpr hs.mem_preorder, hx⟩
  have hkeys := mem_keys_within.not.mp ha
  simp only [not_or] at hkeys
  obtain ⟨hsk, hmk, huk, hvk⟩ := hkeys
  obtain ⟨d₁, hd₁, hnext, hroot⟩ := hs.insertAfter_item hne hl
  have hnk : k ∉ keys (stampAll d.next new).1 := fun hk =>
    hnew.not_mem_keys h (Nat.le_refl _) hk hkroot
  have hs₁ : d₁.Among n s m f us x ((stampAll d.next new).1 ++ vs) := by
    refine ⟨hroot, ⟨k, hn, hx, mem_keys_within.not.mpr ?_⟩, hs.parent⟩
    simp only [keys_append, List.mem_append, not_or]
    exact ⟨hsk, hmk, huk, hnk, hvk⟩
  obtain ⟨d₂, hd₂, hnext₂, hroot₂⟩ := hs₁.detach_ok hl
  refine ⟨d₁, d₂, hd₁, hd₂, ?_, ?_⟩
  · rw [hnext₂, hnext, arrange, if_pos hl]
    rfl
  · rw [Surround.fill_within, ← hroot₂, arrange, if_pos hl, List.append_assoc]
    rfl

/-- New nodes are put after a node that stands alone, and that is taken out of the block that both
are in now. -/
theorem insertAfter_detach_lone (hnew : d.Detached new) (hne : new ≠ [])
    (hs : d.Among n s m f us x vs) {p : Place} (hp : d.place n = .ok p) (hl : ¬ p.isInList) :
    ∃ d₁ d₂, d.insertAfter n new = .ok d₁ ∧ d₁.detach n = .ok d₂ ∧
      d₂.next = (d.arrange p new).2.next ∧
      (s.within m f us vs).fill (d.arrange p new).1 = [d₂.root] := by
  obtain rfl : _ = p := Except.ok.inj (hs.lookup.2.symm.trans hp)
  obtain ⟨k, hn, hx, ha⟩ := hs.part
  have hxm := hs.mem_preorder
  have hkroot : k ∈ keys [d.root] := mem_keys.mpr ⟨x, mem_preorderAll_singleton.mpr hxm, hx⟩
  have hxk : Keyed [x] := fun y hy => by
    obtain ⟨i, hi, -⟩ := h.bound y (mem_preorder_trans (mem_preorderAll_singleton.mp hy) hxm)
    simp [hi]
  obtain ⟨d₁, hd₁, hnext, hroot⟩ :=
    hs.insertAfter_lone hne (h.current_eq hxm (hx.trans hn.symm)) hxk hl
  -- Nothing else in the program has the key of the block.
  have hnextk : d.next ∉ keys [d.root] := fun hk => Nat.lt_irrefl _ (h.lt_next hk)
  have hne' : k ≠ d.next := fun hk => hnextk (hk ▸ hkroot)
  have hnk : k ∉ keys (stampAll (d.next + 1) new).1 := fun hk =>
    hnew.not_mem_keys h (Nat.le_succ _) hk hkroot
  have hs₁ : d₁.Among n (s.within m f us vs) ⟨some d.next, none⟩ .compound [] x
      (stampAll (d.next + 1) new).1 := by
    refine ⟨by rw [Surround.fill_within, List.nil_append, hroot],
      ⟨k, hn, hx, mem_keys_within.not.mpr ?_⟩, ⟨d.next, rfl, fun hk => hnextk ?_⟩⟩
    · simp only [not_or]
      exact ⟨ha, fun hk => hne' (Option.some.inj hk).symm, List.not_mem_nil, hnk⟩
    · rw [← hs.fill_part]
      exact mem_keys_fill.mpr (.inr hk)
  obtain ⟨d₂, hd₂, hnext₂, hroot₂⟩ := hs₁.detach_ok rfl
  refine ⟨d₁, d₂, hd₁, hd₂, ?_, ?_⟩
  · rw [hnext₂, hnext, arrange, if_neg hl]
    rfl
  · rw [← hroot₂, arrange, if_neg hl]
    rfl

/-- Putting new nodes after a node and taking it out leaves its surroundings as they are. -/
theorem insertAfter_detach_fill (hnew : d.Detached new) (hne : new ≠ [])
    (hs : d.Among n s m f us x vs) {p : Place} (hp : d.place n = .ok p) :
    ∃ d₁ d₂, d.insertAfter n new = .ok d₁ ∧ d₁.detach n = .ok d₂ ∧
      d₂.next = (d.arrange p new).2.next ∧
      (s.within m f us vs).fill (d.arrange p new).1 = [d₂.root] := by
  by_cases hl : p.isInList
  · exact h.insertAfter_detach_item hnew hne hs hp hl
  · exact h.insertAfter_detach_lone hnew hne hs hp hl

/-- Where a node stands in a document without shared nodes, new ones can be exchanged for it. -/
theorem exchanged (hs : d.Among n s m f us x vs)
    (hs' : (s.within m f us vs).fill ts = [d'.root]) (hn : d.next ≤ d'.next) (hd : (keys ts).Nodup)
    (hu : ∀ k ∈ keys ts, k ∉ keys [d.root]) (hb : ∀ y ∈ preorderAll ts, IsOld d'.next y) :
    Exchanged d d' { parent := .mk m f (us ++ x :: vs), index := us.length } x ts where
  fill := by
    refine ⟨s, hs.fill, by simp [parts], ?_⟩
    rw [← hs', Surround.fill_within]
    simp [parts, withParts]
  search := ⟨_, _, hs.fill_part ▸ visits_fill _ _, hs' ▸ visits_fill _ _⟩
  lookup P hP j c hc hcp := (h.exchange hs.fill_part hs' hn hd hu hb).lookup hP hc hcp
  attached y := by
    rw [attached_iff_mem_keys]
    refine exists_congr fun k => ?_
    rw [and_comm, ← hs']
    refine and_congr_right fun _ => mem_keys_fill.trans (or_congr_right ?_)
    rw [← hs.fill_part, mem_keys_fill]
    constructor
    · exact fun hk => ⟨.inr hk, fun hkx => h.not_mem_keys hs.fill_part hkx hk⟩
    · exact fun hk => hk.1.resolve_left hk.2
  unshared := h.exchange hs.fill_part hs' hn hd hu hb

/-- **Several nodes take the place of one exactly.** In a program without shared nodes, new nodes
can be put after any node but the root, and the node can then be taken out. What results is the
program with the new nodes in the place of the node, as items of its list or in a block of their
own, and nothing else is different. -/
theorem insertAfter_detach (hn : d.attached n) (hr : n.key ≠ d.root.key) (hnew : d.Detached new)
    (hne : new ≠ []) :
    ∃ p d₁ d₂, d.place n = .ok p ∧ d.insertAfter n new = .ok d₁ ∧ d₁.detach n = .ok d₂ ∧
      Exchanged d d₂ p (d.current n) (d.arrange p new).1 ∧ d₂.attached n = false := by
  obtain ⟨x, hx, hxn, hnk⟩ := attached_iff.mp hn
  -- The node is a part of another one.
  have hxr : x ≠ d.root := fun hxr => hr (hxr ▸ hxn.symm)
  have hxp : x ∈ preorderAll d.root.parts :=
    ((mem_preorder_iff (isPresent_of_preorder hx)).mp hx).resolve_left hxr
  obtain ⟨P, hP, hxP⟩ := exists_parent_of_mem hxp
  cases P with
  | absent => cases hxP
  | mk m f ps =>
    obtain ⟨us, vs, rfl⟩ := List.append_of_mem (show x ∈ ps from hxP)
    obtain ⟨s, hs⟩ := h.exists_among hP (isPresent_of_mem_preorder hx) hxn
    obtain ⟨-, hp⟩ := hs.lookup
    obtain ⟨d₁, d₂, hd₁, hd₂, hnext, hroot⟩ := h.insertAfter_detach_fill hnew hne hs hp
    have hput : ∀ p : Place, d.Detached (if p.isInList then new else [Node.compound new]) := by
      intro p
      split
      · exact hnew
      · exact hnew.block
    have hex := h.exchanged hs hroot (hnext ▸ le_stampAll _ _) (hput _).nodup_keys
      (fun k hk => (hput _).not_mem_keys h (Nat.le_refl _) hk) fun y hy => hnext ▸ (hput _).isOld hy
    refine ⟨_, d₁, d₂, hp, hd₁, hd₂, (h.current_eq hx hxn).symm ▸ hex,
      Bool.eq_false_iff.mpr fun hatt => ?_⟩
    obtain ⟨k, hk, hkeys⟩ := (hex.attached n).mp hatt
    have hkx : k ∈ keys [x] := mem_keys.mpr ⟨x, mem_preorderAll_singleton.mpr
      (self_mem_preorder (isPresent_of_mem_preorder hx)), hxn.trans hk⟩
    rcases hkeys with hkc | ⟨-, hkn⟩
    · exact (hput _).not_mem_keys h (Nat.le_refl _) hkc
        (hs.fill_part ▸ mem_keys_fill.mpr (.inl hkx))
    · exact hkn hkx

end Unshared

/-- A program whose only statement is the branch of an `if`. -/
def branching : Document := ofRoot <| .build .file
  [.build .ifStmt [.ident "c", .assign (.ident "x") (.ident "y"), .absent]]

/-- The branch, by its key. -/
def branch : Node := .mk ⟨some 4, none⟩ (.assignment .plain) []

/-- Two calls that take the place of the branch of an `if` become a block. -/
theorem insertAfter_detach_branching :
    branching.Unshared ∧ branching.attached branch ∧ branch.key ≠ branching.root.key ∧
      branching.Detached [.call "f" [], .call "g" []] ∧
      ∃ p d₁ d₂, branching.place branch = .ok p ∧
        branching.insertAfter branch [.call "f" [], .call "g" []] = .ok d₁ ∧
        d₁.detach branch = .ok d₂ ∧
        Exchanged branching d₂ p (branching.current branch)
          (branching.arrange p [.call "f" [], .call "g" []]).1 ∧
        d₂.attached branch = false := by
  have hunshared : branching.Unshared := unshared_ofRoot (by decide)
  have hattached : branching.attached branch := by decide
  have hroot : branch.key ≠ branching.root.key := by decide
  have hdetached : branching.Detached [.call "f" [], .call "g" []] :=
    ⟨by decide, by decide, by decide⟩
  exact ⟨hunshared, hattached, hroot, hdetached,
    hunshared.insertAfter_detach hattached hroot hdetached (by simp)⟩

end Document

end Fieldwise
