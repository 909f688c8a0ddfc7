import Fieldwise.Proofs.Document.Sound
import Fieldwise.Proofs.Tree.Change
import Fieldwise.Proofs.Tree.New

/-!
# Edits of sound documents

Each edit of a node that has a place succeeds, keeps the document sound, and loses only what is
below the node that it takes out (`Document.Sound.replace_ok`, `Document.Sound.insert_ok`,
`Document.Sound.splice_ok`, `Document.Sound.detach_ok`).
-/

namespace Fieldwise

open Node

namespace Document

variable {d : Document} {n x P r : Node} {k : Nat}

/-! ### Places -/

/-- A node stands at a place, where it looks like `x` now. -/
structure Stands (d : Document) (n : Node) (p : Place) (x : Node) : Prop where
  place : d.place n = .ok p
  parent? : d.parent? n = some p.parent
  parent : p.parent ∈ d.root.preorder
  part : p.parent.parts[p.index]? = some x
  key : x.key = n.key
  keyed : n.key.isSome

namespace Stands

variable {p : Place}

theorem mem_parts (h : d.Stands n p x) : x ∈ p.parent.parts := List.mem_of_getElem? h.part

theorem isPresent (h : d.Stands n p x) : x.isPresent := by
  obtain ⟨k, hk⟩ := Option.isSome_iff_exists.mp h.keyed
  exact isPresent_of_key (h.key.trans hk)

theorem mem (h : d.Stands n p x) : x ∈ d.root.preorder :=
  mem_preorder_of_part h.parent h.mem_parts h.isPresent

theorem current [Discipline] (h : d.Stands n p x) (hd : d.Sound) : d.current n = x :=
  hd.current_eq (mem_trees_of_root h.mem) h.key

/-- The parts of the parent before the node, the node, and those after it. -/
theorem split (h : d.Stands n p x) :
    p.parent.parts = p.parent.parts.take p.index ++ x :: p.parent.parts.drop (p.index + 1) := by
  obtain ⟨hlt, hx⟩ := List.getElem?_eq_some_iff.mp h.part
  rw [← hx, ← List.drop_eq_getElem_cons hlt, List.take_append_drop]

/-- The same with the node as a list of its own. -/
theorem split_list (h : d.Stands n p x) : p.parent.parts =
    p.parent.parts.take p.index ++ [x] ++ p.parent.parts.drop (p.index + 1) := by
  rw [List.append_assoc]
  exact h.split

theorem length_take (h : d.Stands n p x) : (p.parent.parts.take p.index).length = p.index := by
  obtain ⟨hlt, -⟩ := List.getElem?_eq_some_iff.mp h.part
  rw [List.length_take]
  omega

/-- The other parts of the parent. -/
theorem sublist (h : d.Stands n p x) :
    (p.parent.parts.take p.index ++ p.parent.parts.drop (p.index + 1)).Sublist p.parent.parts := by
  have hs : (p.parent.parts.take p.index ++ p.parent.parts.drop (p.index + 1)).Sublist
      (p.parent.parts.take p.index ++ x :: p.parent.parts.drop (p.index + 1)) :=
    List.Sublist.append_left (List.sublist_cons_self _ _) _
  rwa [← h.split] at hs

theorem filter_sublist (h : d.Stands n p x) : (p.parent.parts.filter (·.key != x.key)).Sublist
    (p.parent.parts.take p.index ++ p.parent.parts.drop (p.index + 1)) := by
  have hfilter : p.parent.parts.filter (·.key != x.key) =
      (p.parent.parts.take p.index).filter (·.key != x.key) ++
        (p.parent.parts.drop (p.index + 1)).filter (·.key != x.key) := by
    have := congrArg (List.filter (·.key != x.key)) h.split
    rwa [List.filter_append, List.filter_cons_of_neg (by simp)] at this
  rw [hfilter]
  exact List.filter_sublist.append List.filter_sublist

theorem mem_or_eq (h : d.Stands n p x) {c : Node} (hc : c ∈ p.parent.parts) :
    c ∈ p.parent.parts.take p.index ++ p.parent.parts.drop (p.index + 1) ∨ c = x := by
  rw [h.split] at hc
  simp only [List.mem_append, List.mem_cons] at hc ⊢
  rcases hc with hc | rfl | hc
  · exact .inl (.inl hc)
  · exact .inr rfl
  · exact .inl (.inr hc)

end Stands

/-- A place in a list comes after the single children. -/
theorem isInList_iff {p : Place} : p.isInList ↔ ∃ f, p.parent.form? = some f ∧
    f.cls.listSlot.isSome ∧ f.cls.slots.length ≤ p.index := by
  unfold Place.isInList Place.slot?
  cases hf : p.parent.form? with
  | none => simp [cls?, hf]
  | some f =>
    simp only [cls?, hf, Option.map_some, Option.bind_some, Class.slotAt, Option.some.injEq,
      exists_eq_left']
    cases hs : f.cls.slots[p.index]? with
    | some s =>
      have := (List.getElem?_eq_some_iff.mp hs).1
      simp only [Option.any_some, Option.isSome_none, Bool.false_eq_true, false_iff, not_and]
      omega
    | none =>
      have := List.getElem?_eq_none_iff.mp hs
      cases f.cls.listSlot <;> simp [this]

/-- The slots of lone statements are those that statements stand at, and the branches of conditional
expressions. -/
theorem holdsStatement_of_slot {f : Form} {i : Nat} {s : Slot} (hs : f.cls.slots[i]? = some s)
    (h : s.isStatement) : f.holdsStatement i ∨ f.isBranch i := by
  match i with
  | 0 | 1 | 2 | 3 =>
    cases f <;> first
      | (cases hs; done) | (cases hs; cases h; done) | exact .inl rfl | exact .inr rfl
  | i + 4 => cases f <;> cases hs

theorem holdsStatement_of_isStatement {p : Place} (h : p.isStatement) (hl : p.isInList = false) :
    ∀ f, p.parent.form? = some f → f.holdsStatement p.index ∨ f.isBranch p.index := by
  intro f hf
  simp only [Place.isStatement, Place.isInList, Place.slot?, cls?, hf, Option.map_some,
    Option.bind_some, Class.slotAt] at h hl
  cases hs : f.cls.slots[p.index]? with
  | none =>
    rw [hs] at h hl
    cases hc : f.cls.listSlot <;> simp [hc] at h hl
  | some s => exact holdsStatement_of_slot hs (by simpa [hs] using h)

/-- A statement does not stand in a list of arguments. -/
theorem isA_exprList_of_isStatement {p : Place} (h : p.isStatement) :
    p.parent.isA .exprList = false := by
  cases hl : p.parent.isA .exprList with
  | false => rfl
  | true =>
    have hc : p.parent.cls? = some .exprList := by simpa [isA] using hl
    simp [Place.isStatement, Place.slot?, hc, Class.slotAt, Class.slots, Class.listSlot,
      Slot.isStatement, Slot.isStatementList] at h

/-! ### Changes -/

theorem filter_sublist_filter {α : Type} {p q : α → Bool} {l : List α}
    (h : ∀ a ∈ l, p a → q a) : (l.filter p).Sublist (l.filter q) := by
  have heq : l.filter p = (l.filter q).filter p := by
    rw [List.filter_filter]
    refine List.filter_congr fun a ha => ?_
    have := h a ha
    cases hp : p a <;> simp_all
  rw [heq]
  exact List.filter_sublist

theorem filter_sublist_map {α : Type} {p : α → Bool} {f : α → α} {l : List α}
    (h : ∀ a ∈ l, p a → f a = a) : (l.filter p).Sublist (l.map f) := by
  have heq : (l.filter p).map f = (l.filter p).map id := List.map_congr_left fun a ha => by
    obtain ⟨ham, hap⟩ := List.mem_filter.mp ha
    exact h a ham hap
  rw [List.map_id] at heq
  rw [← heq]
  exact List.filter_sublist.map f

/-- The document after a change to one node. -/
def changed (d : Document) (k : Nat) (change : Node → Node) (extra : List Node) (next : Nat) :
    Document :=
  { root := d.root.modifyAt k change
    loose := modifyAllAt k change (extra ++ d.loose), next }

theorem trees_changed {change : Node → Node} {extra : List Node} {next : Nat} :
    trees (changed d k change extra next) =
      (d.root :: (extra ++ d.loose)).map (modifyAt k change) := by
  simp [trees, changed, modifyAllAt_eq_map]

theorem mem_extra_of_root {extra : List Node} {z : Node} (hz : z ∈ d.root.preorder) :
    z ∈ preorderAll (d.root :: (extra ++ d.loose)) := mem_preorderAll_cons.mpr (.inl hz)

/-- A part of the changed node that stays where it is but for new ones around it, or the changed
node itself. -/
def Around (P P' x : Node) : Prop :=
  x.key = P.key ∨ x ∈ P.parts ∧ (P.parts.filter (·.key != x.key)).Sublist P'.parts

theorem Around.occursIn {P' c : Node} (ha : Around P P' x) (hx : x.isPresent)
    (hP : P ∈ c.preorder) : x.occursIn c := by
  rw [Node.occursIn, List.any_eq_true]
  rcases ha with hk | ⟨hxP, -⟩
  · exact ⟨P, hP, by simp [hk]⟩
  · exact ⟨x, mem_preorder_of_part hP hxP hx, by simp⟩

variable [Discipline]

namespace Sound

section

variable {change : Node → Node} {extra : List Node} {next : Nat}

/-- A change to one node, where some nodes of the trees are kept aside. -/
structure Changes (d : Document) (k : Nat) (change : Node → Node) (P : Node) (extra : List Node)
    (next : Nat) : Prop where
  mem : P ∈ preorderAll d.trees
  key : P.key = some k
  aside : ∀ x ∈ preorderAll extra, x ∈ preorderAll d.trees
  graft : Graft d.next P (change P)
  calm : Calm d.next (change P)
  tame : Tame d.next d.trees P (change P)
  le : d.next ≤ next
  bound : ∀ y ∈ preorderAll (change P).parts, IsOld next y

theorem mem_trees_of_mem_extra (hc : Changes d k change P extra next)
    (hx : x ∈ preorderAll (d.root :: (extra ++ d.loose))) : x ∈ preorderAll d.trees := by
  simp only [trees, mem_preorderAll_cons, mem_preorderAll_append] at hx ⊢
  rcases hx with hx | hx | hx
  · exact .inl hx
  · exact mem_preorderAll_cons.mp (hc.aside x hx)
  · exact .inr hx

theorem grafting (h : d.Sound) (hc : Changes d k change P extra next) :
    Grafting d.next k change P (d.root :: (extra ++ d.loose)) where
  woven := h.woven.subset fun _ hx => mem_trees_of_mem_extra hc hx
  bound x hx := h.bound x (mem_trees_of_mem_extra hc hx)
  mem := by
    have := hc.mem
    simp only [trees, mem_preorderAll_cons, mem_preorderAll_append] at this ⊢
    exact this.imp_right .inr
  key := hc.key
  graft := hc.graft

/-- **A change to one node keeps a document sound.** -/
theorem modify_sound (h : d.Sound) (hc : Changes d k change P extra next) :
    Sound (changed d k change extra next) := by
  have hG := h.grafting hc
  have ht : Tame d.next (d.root :: (extra ++ d.loose)) P (change P) :=
    { hc.tame with
      args := hc.tame.args.imp_right fun hq q hqm => hq q (mem_trees_of_mem_extra hc hqm) }
  refine ⟨trees_changed ▸ hG.woven_map, fun y hy => ?_, ?_, ?_⟩
  · rw [trees_changed] at hy
    rcases hG.of_mem_preorderAll hy with ⟨x, hx, rfl⟩ | ⟨hy, -⟩
    · exact isOld_mono (hG.isOld_modifyAt hx) hc.le
    · exact hc.bound y hy
  · rw [changed, isA, hG.cls?_modifyAt (mem_extra_of_root h.root_mem)]
    exact h.file
  · rw [trees_changed]
    exact hG.regular_map (fun x hx => h.regular x (mem_trees_of_mem_extra hc hx)) ht

/-- The classes of old nodes are kept, and no old node gets below another one. -/
theorem modify_evolves (h : d.Sound) (hc : Changes d k change P extra next) :
    Evolves d (changed d k change extra next) := by
  have hG := h.grafting hc
  have hroot : ∀ z ∈ d.root.preorder, z ∈ preorderAll (d.root :: (extra ++ d.loose)) :=
    fun z hz => mem_extra_of_root hz
  have gain : ∀ {x : Node}, x ∈ preorderAll (d.root :: (extra ++ d.loose)) →
      (modifyAt k change x).declaresFunction → x.declaresFunction := fun hx hd => by
    rcases hG.declaresFunction_modifyAt hx with ⟨rfl, hm⟩ | hm
    · exact hc.tame.gain (hm ▸ hd)
    · exact hm ▸ hd
  refine ⟨hc.le, hG.key_modifyAt (hroot _ h.root_mem), fun x' hx' ho => ?_, fun x' hx' ho => ?_,
    fun x' hx' hnew => ?_⟩
  · rcases hG.of_mem_preorder hroot hx' with ⟨x, hx, rfl⟩ | ⟨-, hn⟩
    · have hxm := hroot x hx
      have hbelow : ∀ z ∈ x.preorder, z ∈ preorderAll (d.root :: (extra ++ d.loose)) :=
        fun z hz => mem_preorderAll_trans hz hxm
      refine ⟨x, hx, (hG.key_modifyAt hxm).symm, (hG.cls?_modifyAt hxm).symm,
        gain hxm, fun c' hc' ho => ?_, fun y' hy' ho => ?_⟩
      · rcases hG.mem_parts_modifyAt hxm hc' with ⟨-, c, hc, rfl⟩ | ⟨rfl, hc'⟩
        · refine ⟨c, hc, ?_⟩
          cases c with
          | absent => rfl
          | mk m f ps => exact (hG.key_modifyAt (Grafting.mem_of_mem_parts hxm hc rfl)).symm
        · exact ⟨c', hc.graft.tops c' hc' ho, rfl⟩
      · rcases hG.of_mem_preorder hbelow hy' with ⟨y, hy, rfl⟩ | ⟨-, hn⟩
        · exact ⟨y, hy, (hG.key_modifyAt (hbelow y hy)).symm⟩
        · exact (hn ho).elim
    · exact (hn ho).elim
  · rw [trees_changed] at hx'
    rcases hG.of_mem_preorderAll hx' with ⟨x, hx, rfl⟩ | ⟨-, hn⟩
    · exact ⟨x, mem_trees_of_mem_extra hc hx, (hG.key_modifyAt hx).symm, (hG.cls?_modifyAt hx).symm,
        gain hx⟩
    · exact (hn ho).elim
  · rcases hG.of_mem_preorder hroot hx' with ⟨x, hx, rfl⟩ | ⟨hx', -⟩
    · exact (hnew (hG.isOld_modifyAt (hroot x hx))).elim
    · exact hc.calm x' hx' hnew

/-- A change around a node leaves the rest as it is. -/
theorem modify_alters (h : d.Sound) (hc : Changes d k change P extra next) (hx : x.isPresent)
    (ha : Around P (change P) x) : Alters d (changed d k change extra next) x := by
  have hG := h.grafting hc
  have hroot : ∀ z ∈ d.root.preorder, z ∈ preorderAll (d.root :: (extra ++ d.loose)) :=
    fun z hz => mem_extra_of_root hz
  -- A node with the key of an old one is what this one became.
  have hback : ∀ q ∈ d.root.preorder, ∀ q' ∈ (changed d k change extra next).root.preorder,
      q'.key = q.key → q' = modifyAt k change q := fun q hq q' hq' hk => by
    rcases hG.of_mem_preorder hroot hq' with ⟨q₀, hq₀, rfl⟩ | ⟨-, hn⟩
    · rw [h.eq_of_key hq₀ hq ((hG.key_modifyAt (hroot q₀ hq₀)).symm.trans hk)]
    · exact (hn (isOld_of_key (h.bound q (mem_trees_of_root hq)) hk.symm)).elim
  -- A node that does not hold `x` does not hold the changed node.
  have hself : ∀ q ∈ d.root.preorder, x.occursIn q = false → modifyAt k change q = q :=
    fun q hq hxq => modifyAt_of_not_occurs fun y hy hyk => by
      have hyP : y = P := hG.eq (mem_preorderAll_trans hy (hroot q hq)) hyk
      rw [ha.occursIn hx (hyP ▸ hy)] at hxq
      cases hxq
  refine ⟨fun q hq hxq q' hq' hk => (hback q hq q' hq' hk).trans (hself q hq hxq),
    fun q hq hqx q' hq' hk => ?_, fun q hq hqx q' hq' hk c hcq hcp hcx => ?_,
    fun q hq hqx hqc q' hq' hk c' hc' => ?_⟩
  · rw [hback q hq q' hq' hk]
    by_cases hqk : q.key = some k
    · obtain rfl := hG.eq (hroot q hq) hqk
      obtain ⟨hxq, hsub⟩ := ha.resolve_left fun h => hqx h.symm
      rw [modifyAt_of_key hqk]
      refine (filter_sublist_filter fun c _ hcx => ?_).trans hsub
      rw [bne_iff_ne]
      intro hck
      obtain ⟨j, hj⟩ := h.woven.exists_key (mem_trees_of_mem_extra hc
        (Grafting.mem_of_mem_parts (hroot q hq) hxq hx))
      have hself := self_mem_preorder (isPresent_of_key (hck.trans hj))
      simp only [Node.occursIn, Bool.not_eq_true', List.any_eq_false, beq_iff_eq] at hcx
      exact hcx c hself hck
    · rw [modifyAt_of_key_ne hqk, parts_withParts_map]
      refine filter_sublist_map fun c hc hcx => ?_
      cases c with
      | absent => rfl
      | mk m f ps => exact hself _ (mem_preorder_of_part hq hc rfl) (by simpa using hcx)
  · rw [hback q hq q' hq' hk]
    by_cases hqk : q.key = some k
    · obtain rfl := hG.eq (hroot q hq) hqk
      obtain ⟨-, hsub⟩ := ha.resolve_left fun h => hqx h.symm
      rw [modifyAt_of_key hqk]
      exact ⟨c, hsub.subset (List.mem_filter.mpr ⟨hcq, by simpa using hcx⟩), rfl⟩
    · rw [modifyAt_of_key_ne hqk, parts_withParts_map]
      exact ⟨_, List.mem_map_of_mem hcq,
        hG.key_modifyAt (Grafting.mem_of_mem_parts (hroot q hq) hcq hcp)⟩
  · have hqk : q.key ≠ some k := fun hqk => by
      obtain rfl := hG.eq (hroot q hq) hqk
      exact hqc x (ha.resolve_left fun h => hqx h.symm).1 rfl
    rw [hback q hq q' hq' hk, modifyAt_of_key_ne hqk, parts_withParts_map] at hc'
    obtain ⟨c, hc, rfl⟩ := List.mem_map.mp hc'
    refine ⟨c, hc, ?_⟩
    cases c with
    | absent => rfl
    | mk => exact (hG.key_modifyAt (Grafting.mem_of_mem_parts (hroot q hq) hc rfl)).symm

/-- **A change to one node takes out what is below a part that is left out.** -/
theorem modify (h : d.Sound) (hc : Changes d k change P extra next)
    (hf : (change P).form? = P.form?)
    (hr : ∀ c ∈ P.parts, c.isPresent → c ∈ preorderAll (change P).parts ∨ c = r)
    (hra : r.isPresent → r ∈ extra ∧ r ∈ P.parts) (hx : x.isPresent)
    (ha : Around P (change P) x) : Follows d (changed d k change extra next) r x := by
  have hG := h.grafting hc
  have hroot : ∀ z ∈ d.root.preorder, z ∈ preorderAll (d.root :: (extra ++ d.loose)) :=
    fun z hz => mem_extra_of_root hz
  have hforms : ∀ x' ∈ preorderAll (changed d k change extra next).trees, IsOld d.next x' →
      ∃ x ∈ preorderAll d.trees, x.key = x'.key ∧ x.form? = x'.form? ∧
        x.head? = x'.head? := fun x' hx' ho => by
    rw [trees_changed] at hx'
    rcases hG.of_mem_preorderAll hx' with ⟨x, hx, rfl⟩ | ⟨-, hn⟩
    · refine ⟨x, mem_trees_of_mem_extra hc hx, (hG.key_modifyAt hx).symm,
        (hG.form?_modifyAt hf hx).symm, ?_⟩
      rcases hG.head?_modifyAt hf hx with ⟨rfl, hm⟩ | hm
      · rw [hm, hc.tame.head]
      · exact hm.symm
    · exact (hn ho).elim
  refine ⟨h.modify_sound hc, ⟨h.modify_evolves hc, fun x hx => ?_, hforms⟩,
    fun x hx => ?_, h.modify_alters hc hx ha⟩
  · obtain ⟨t, ht, hxt⟩ := mem_preorderAll.mp hx
    have htm : t ∈ d.root :: (extra ++ d.loose) := by
      simp only [trees, List.mem_cons, List.mem_append] at ht ⊢
      exact ht.imp_right .inr
    have hxm : x ∈ preorderAll (d.root :: (extra ++ d.loose)) := mem_preorderAll.mpr ⟨t, htm, hxt⟩
    refine ⟨modifyAt k change x, ?_, hG.key_modifyAt hxm⟩
    rw [trees_changed]
    have htrees : ∀ z ∈ t.preorder, z ∈ preorderAll (d.root :: (extra ++ d.loose)) := fun z hz =>
      mem_preorderAll.mpr ⟨t, htm, hz⟩
    rcases hG.mem_preorder_modifyAt htrees hr hxt with hx' | hx'
    · exact mem_preorderAll.mpr ⟨_, List.mem_map_of_mem htm, hx'⟩
    · -- What was left out is kept aside as it is.
      have hrp : r.isPresent := by
        cases r with
        | absent => exact absurd hx' not_mem_preorder_absent
        | mk => rfl
      obtain ⟨hre, hrP⟩ := hra hrp
      have hself : ∀ y ∈ r.preorder, modifyAt k change y = y := fun y hy =>
        hG.modifyAt_eq_self (mem_preorderAll.mpr ⟨r, hrP, hy⟩)
      refine mem_preorderAll.mpr ⟨modifyAt k change r,
        List.mem_map_of_mem (List.mem_cons_of_mem _ (List.mem_append_left _ hre)), ?_⟩
      rwa [hself x hx', hself r (self_mem_preorder hrp)]
  · rcases hG.mem_preorder_modifyAt hroot hr hx with hx' | hx'
    · exact .inl ⟨_, hx', hG.key_modifyAt (hroot x hx)⟩
    · exact .inr hx'

/-- Declarations of functions stay so if the changed node does. -/
theorem modify_declares (h : d.Sound) (hc : Changes d k change P extra next)
    (halive : ∀ x ∈ preorderAll d.trees, ∃ x' ∈ preorderAll (changed d k change extra next).trees,
      x'.key = x.key)
    (hd : P.declaresFunction → (change P).declaresFunction) :
    ∀ y ∈ preorderAll d.trees, y.declaresFunction →
      ∃ y' ∈ preorderAll (changed d k change extra next).trees, y'.key = y.key ∧
        y'.declaresFunction := by
  have hG := h.grafting hc
  intro y hy hyd
  obtain ⟨y', hy', hk⟩ := halive y hy
  refine ⟨y', hy', hk, ?_⟩
  rw [trees_changed] at hy'
  rcases hG.of_mem_preorderAll hy' with ⟨z, hz, rfl⟩ | ⟨-, hn⟩
  · obtain rfl : z = y := h.woven.eq_of_key (mem_trees_of_mem_extra hc hz) hy
      ((hG.key_modifyAt hz).symm.trans hk)
    rcases hG.declaresFunction_modifyAt hz with ⟨rfl, hm⟩ | hm
    · exact hm ▸ hd hyd
    · exact hm ▸ hyd
  · exact (hn (isOld_of_key (h.bound y hy) hk.symm)).elim

end

end Sound

namespace Sound

variable {p : Place}

/-- **A node that is attached and is not the root stands somewhere.** -/
theorem exists_stands (h : d.Sound) (hx : x ∈ d.root.preorder) (hk : x.key = n.key)
    (hr : n.key ≠ d.root.key) : ∃ p, d.Stands n p x := by
  obtain ⟨p, hp⟩ := h.place_ok hx hk hr
  obtain ⟨hparent, c, hc, hck, hn⟩ := of_place hp
  have hP := (of_parent? hparent).1
  obtain ⟨k, hkn⟩ := Option.isSome_iff_exists.mp hn
  have hcm := mem_preorder_of_part hP (List.mem_of_getElem? hc) (isPresent_of_key (hck.trans hkn))
  obtain rfl : c = x := h.eq_of_key hcm hx (hck.trans hk.symm)
  exact ⟨p, hp, hparent, hP, hc, hck, hn⟩

end Sound

/-- **A declaration stands in a list of declarations**, unless a function definition begins with
it. -/
theorem Sound.stands_decl {p : Place} (h : d.Sound) (hs : d.Stands n p x) (hd : x.isA .decl)
    (hl : p.parent.isA .funcDef → p.index ≠ 0) : p.isInList ∧ p.parent.isA .exprList = false ∧
      ∀ f, p.parent.form? = some f → f.holdsDecl p.index := by
  have hreg := h.regular _ (mem_trees_of_root hs.parent)
  have hpart := hs.part
  cases hP : p.parent with
  | absent => simp [hP, Node.parts] at hpart
  | mk m f ps =>
    rw [hP] at hreg hpart
    have hholds := (isPlaced_mk.mp hreg.placed).1 _ _ hpart hd
    refine ⟨isInList_iff.mpr ⟨f, by rw [hP]; rfl, ?_⟩, ?_, fun f' hf => ?_⟩
    · cases f with
      | caseLabel =>
        have hi : p.index ≠ 0 := by simpa [Form.holdsDecl] using hholds
        exact ⟨rfl, Nat.one_le_iff_ne_zero.mpr hi⟩
      | funcDef =>
        have hi : p.index ≠ 1 := by simpa [Form.holdsDecl] using hholds
        have hi' : p.index ≠ 0 := hl (by rw [hP]; rfl)
        have : 2 ≤ p.index := by omega
        exact ⟨rfl, this⟩
      | compound | declList | defaultLabel | file | paramList | structType _ _ | unionType _ _ =>
        exact ⟨rfl, Nat.zero_le _⟩
      | _ => cases hholds
    · cases f with
      | exprList => cases hholds
      | _ => rfl
    · obtain rfl : f = f' := by simpa [form?] using hf
      exact hholds

/-! ### Edits at a place -/

namespace Sound

variable {p : Place} {us ws vs new extra : List Node} {next : Nat}
variable {change : List Node → List Node}

/-- The parent of a node that stands somewhere gets other parts. -/
theorem put (h : d.Sound) (hs : d.Stands n p x) (extra : List Node)
    (hc : change p.parent.parts = us ++ ws ++ vs)
    (hextra : ∀ y ∈ preorderAll extra, y ∈ preorderAll d.trees)
    (hg : Graft d.next p.parent (p.parent.withParts (us ++ ws ++ vs)) ∧
      Calm d.next (p.parent.withParts (us ++ ws ++ vs)))
    (ht : Tame d.next d.trees p.parent (p.parent.withParts (us ++ ws ++ vs)))
    (hn : d.next ≤ next) (hb : ∀ y ∈ preorderAll (us ++ ws ++ vs), IsOld next y)
    (hr : ∀ c ∈ p.parent.parts, c.isPresent → c ∈ preorderAll (us ++ ws ++ vs) ∨ c = r)
    (hra : r.isPresent → r ∈ extra ∧ r ∈ p.parent.parts)
    (ha : (p.parent.parts.filter (·.key != x.key)).Sublist (us ++ ws ++ vs)) :
    Follows d (({ root := d.root, loose := extra ++ d.loose, next } : Document).modifyParts
      p.parent change) r x := by
  obtain ⟨k, hk⟩ := h.exists_key hs.parent
  have hparts : (p.parent.withParts (us ++ ws ++ vs)).parts = us ++ ws ++ vs :=
    parts_withParts (isPresent_of_key hk) _
  unfold modifyParts Document.modify
  rw [hk]
  have hch : Changes d k (fun n => n.withParts (change n.parts)) p.parent extra next := by
    refine ⟨mem_trees_of_root hs.parent, hk, hextra, ?_, ?_, ?_, hn, ?_⟩
    · rw [hc]
      exact hg.1
    · rw [hc]
      exact hg.2
    · rw [hc]
      exact ht
    · rw [hc, hparts]
      exact hb
  refine h.modify hch ?_ ?_ hra hs.isPresent (.inr ⟨hs.mem_parts, ?_⟩)
  · rw [hc, form?_withParts]
  · rw [hc, hparts]
    exact hr
  · rw [hc, hparts]
    exact ha

/-- The nodes that stay are old, and so nothing but the new ones is to be checked. -/
theorem regular_fresh (h : d.Sound) (hs : d.Stands n p x)
    (hsub : (us ++ vs).Sublist p.parent.parts) (hw : Regular ws) :
    ∀ y ∈ preorderAll (us ++ ws ++ vs), ¬ IsOld d.next y → y.IsRegular := by
  intro y hy hn
  rw [mem_preorderAll_append, mem_preorderAll_append, or_right_comm, ← mem_preorderAll_append] at hy
  exact hw y (hy.resolve_left fun hy => hn (h.tidy.isOld_of_parts hs.parent hsub hy))

/-- Some parts are left out and new ones are put in. -/
theorem put_new (h : d.Sound) (hs : d.Stands n p x) (extra : List Node) (hnew : Keyless new)
    (hsub : (us ++ vs).Sublist p.parent.parts)
    (hc : change p.parent.parts = us ++ (stampAll d.next new).1 ++ vs)
    (hextra : ∀ y ∈ preorderAll extra, y ∈ preorderAll d.trees)
    (ht : Tame d.next d.trees p.parent
      (p.parent.withParts (us ++ (stampAll d.next new).1 ++ vs)))
    (hr : ∀ c ∈ p.parent.parts, c ∈ us ++ vs ∨ c = r)
    (hra : r.isPresent → r ∈ extra ∧ r ∈ p.parent.parts)
    (ha : (p.parent.parts.filter (·.key != x.key)).Sublist (us ++ vs)) :
    Follows d
      (({ root := d.root, loose := extra ++ d.loose
          next := (stampAll d.next new).2 } : Document).modifyParts p.parent change) r x := by
  refine h.put hs extra hc hextra
    (graft_fresh h.woven h.bound (mem_trees_of_root hs.parent) hsub hnew) ht
    (le_stampAll _ _) (fun y hy => ?_) (fun c hcm hp => (hr c hcm).imp_left fun hcm => ?_) hra
    (ha.trans ((List.sublist_append_left _ _).append_right _))
  · rw [mem_preorderAll_append, mem_preorderAll_append, or_right_comm,
      ← mem_preorderAll_append] at hy
    rcases hy with hy | hy
    · exact isOld_mono (h.tidy.isOld_of_parts hs.parent hsub hy) (le_stampAll _ _)
    · exact isOld_stampAll hnew hy
  · refine mem_preorderAll_of_mem ?_ hp
    simp only [List.mem_append] at hcm ⊢
    exact hcm.elim (fun h => .inl (.inl h)) .inr

/-- One part of the parent gives way to a new node, which is no statement or stands where one
can. -/
theorem put_inner (h : d.Sound) (hs : d.Stands n p x) (hx : x.IsLoose) {y : Node}
    (hk : Keyless [y]) (hr : Regular [y]) (hi : y.IsInner)
    (hst : Discipline.sorted → y.isStatement → ∀ f, p.parent.form? = some f →
      f.holdsStatement p.index ∨ f.isBranch p.index)
    (hc : change p.parent.parts = p.parent.parts.take p.index ++ (stampAll d.next [y]).1 ++
      p.parent.parts.drop (p.index + 1)) :
    Follows d
      (({ root := d.root, loose := x :: d.loose
          next := (stampAll d.next [y]).2 } : Document).modifyParts p.parent change) x x := by
  refine h.put_new hs [x] hk hs.sublist hc (fun z hz => ?_) ?_
    (fun c hc => hs.mem_or_eq hc) (fun _ => ⟨by simp, hs.mem_parts⟩) hs.filter_sublist
  · exact mem_trees_of_root (mem_preorder_trans (mem_preorderAll_singleton.mp hz) hs.mem)
  · rw [stampAll_singleton]
    refine tame_set (h.regular _ (mem_trees_of_root hs.parent)) hs.split hx hs.isPresent
      (isInner_stamp hi _) (fun hsort hys => ?_) ?_
    · rw [isStatement_congr (cls?_stamp _ y)] at hys
      rw [hs.length_take]
      exact hst hsort hys
    · exact h.regular_fresh hs hs.sublist (hr.stamp _)

/-- One part of the parent gives way to a new term. -/
theorem put_term (h : d.Sound) (hs : d.Stands n p x) (hx : x.IsLoose) {y : Node}
    (hy : y.IsNewTerm) (hi : y.IsInner)
    (hc : change p.parent.parts = p.parent.parts.take p.index ++ (stampAll d.next [y]).1 ++
      p.parent.parts.drop (p.index + 1)) :
    Follows d
      (({ root := d.root, loose := x :: d.loose
          next := (stampAll d.next [y]).2 } : Document).modifyParts p.parent change) x x :=
  h.put_inner hs hx hy.keyless hy.regular hi
    (fun hsort hys => absurd hys (Bool.eq_false_iff.mp (hy.inner hsort))) hc

/-- **A node that is no part of a declared type gives way to a new term.** -/
theorem replace_ok (h : d.Sound) (hs : d.Stands n p x) (hx : x.IsLoose) {y : Node}
    (hy : y.IsNewTerm) (hi : y.IsInner) : ∃ d', d.replace n y = .ok d' ∧ Follows d d' x x := by
  have hcur : ∀ next, ({ d with next } : Document).current n = x := fun _ => hs.current h
  refine ⟨_, by simp only [Document.replace, hs.place, withKeys, hcur]; rfl, ?_⟩
  exact h.put_term hs hx hy hi rfl

/-- Whether a list takes certain new entries at a place. -/
structure Takes (d : Document) (p : Place) (new : List Node) : Prop where
  list : p.isInList
  decls : (∀ c ∈ new, c.isA .decl = false) ∨
    (∀ f, p.parent.form? = some f → f.holdsDecl p.index) ∧
      (p.parent.isA .paramList → ∀ c ∈ new, c.isInitialized = false)
  args : p.parent.isA .exprList = false ∨
    ∀ q ∈ preorderAll d.trees, p.parent ∈ q.parts → q.callName? ≠ some "operator="

/-- Entries of a list give way to new ones. -/
theorem put_list (h : d.Sound) (hs : d.Stands n p x) (extra : List Node)
    (hnew : ∀ c ∈ new, c.IsNew)
    (ht : Takes d p new) (hsplit : p.parent.parts = us ++ ws ++ vs) (hle : p.index ≤ us.length)
    (hc : change p.parent.parts = us ++ (stampAll d.next new).1 ++ vs)
    (hextra : ∀ y ∈ preorderAll extra, y ∈ preorderAll d.trees)
    (hr : ∀ c ∈ p.parent.parts, c ∈ us ++ vs ∨ c = r)
    (hra : r.isPresent → r ∈ extra ∧ r ∈ p.parent.parts)
    (ha : (p.parent.parts.filter (·.key != x.key)).Sublist (us ++ vs)) :
    Follows d
      (({ root := d.root, loose := extra ++ d.loose
          next := (stampAll d.next new).2 } : Document).modifyParts p.parent change) r x := by
  have hsub : (us ++ vs).Sublist p.parent.parts := by
    rw [hsplit, List.append_assoc]
    exact List.Sublist.append_left (List.sublist_append_right _ _) _
  obtain ⟨f, hf, hlist, hslots⟩ := isInList_iff.mp ht.list
  refine h.put_new hs extra (keyless_of_forall hnew) hsub hc hextra ?_ hr hra ha
  refine tame_list (h.regular _ (mem_trees_of_root hs.parent)) hsplit ?_ ?_ ht.args
    (fun hsort => isStatement_stampAll fun c hc => (hnew c hc).inner hsort)
    (h.regular_fresh hs hsub ((regular_of_forall hnew).stampAll _))
  · intro f' hf'
    obtain rfl : f = f' := by simpa [hf] using hf'
    exact ⟨hlist, Nat.le_trans hslots hle⟩
  · refine ht.decls.imp isA_stampAll fun hd => ⟨fun f' hf' => ?_, fun hp c hc => ?_⟩
    · obtain rfl : f = f' := by simpa [hf] using hf'
      exact holdsDecl_of_le (hd.1 f hf) hslots (Nat.le_trans hslots hle)
    · obtain ⟨c₀, hc₀, a, -, rfl⟩ := mem_stampAll hc
      rw [isInitialized_stamp]
      exact hd.2 hp c₀ hc₀

/-- **An entry of a list gives way to any number of new ones.** -/
theorem splice_ok (h : d.Sound) (hs : d.Stands n p x) (hnew : ∀ c ∈ new, c.IsNew)
    (ht : Takes d p new) : ∃ d', d.splice n new = .ok d' ∧ Follows d d' x x := by
  have hcur : ∀ next, ({ d with next } : Document).current n = x := fun _ => hs.current h
  refine ⟨_, by simp only [Document.splice, hs.place, bind, Except.bind, ht.list, if_true,
    withKeys, hcur]; rfl, ?_⟩
  refine h.put_list hs [x] hnew ht hs.split_list (Nat.le_of_eq hs.length_take.symm) rfl
    (fun z hz => ?_) (fun c hc => hs.mem_or_eq hc) (fun _ => ⟨by simp, hs.mem_parts⟩)
    hs.filter_sublist
  exact mem_trees_of_root (mem_preorder_trans (mem_preorderAll_singleton.mp hz) hs.mem)

/-- **A node is taken out**, and an empty place is left where one is needed. -/
theorem detach_ok (h : d.Sound) (hs : d.Stands n p x) (hx : p.isInList ∨ x.IsLoose)
    (hp : p.parent.isA .exprList = false) : ∃ d', d.detach n = .ok d' ∧ Follows d d' x x := by
  have hcur : ∀ next, ({ d with next } : Document).current n = x := fun _ => hs.current h
  by_cases hlist : p.isInList
  · refine ⟨_, by simp only [Document.detach, hs.place, bind, Except.bind, hlist, if_true,
      withKeys, hcur]; rfl, ?_⟩
    have ht : Takes d p [] := ⟨hlist, .inl (by simp), .inl hp⟩
    refine h.put_list hs [x] (by simp) ht hs.split_list (Nat.le_of_eq hs.length_take.symm) rfl
      (fun z hz => ?_) (fun c hc => hs.mem_or_eq hc) (fun _ => ⟨by simp, hs.mem_parts⟩)
      hs.filter_sublist
    exact mem_trees_of_root (mem_preorder_trans (mem_preorderAll_singleton.mp hz) hs.mem)
  · have hx := hx.resolve_left hlist
    refine ⟨_, by simp only [Document.detach, hs.place, bind, Except.bind, hlist,
      withKeys, hcur]; rfl, ?_⟩
    cases hst : p.isStatement with
    | true =>
      exact h.put_inner hs hx keyless_emptyStatement regular_emptyStatement
        ⟨rfl, rfl, rfl, by decide⟩
        (fun _ _ => holdsStatement_of_isStatement hst (by simpa using hlist)) rfl
    | false => exact h.put_term hs hx isNewTerm_absent ⟨rfl, rfl, rfl, by decide⟩ rfl

/-- A statement that stands alone gets into a block with new ones. -/
theorem put_block (h : d.Sound) (hs : d.Stands n p x) (hx : x.IsLoose)
    (hst : ∀ f, p.parent.form? = some f → f.holdsStatement p.index ∨ f.isBranch p.index)
    (hnew : ∀ c ∈ new, c.IsNewTerm) (after : Bool)
    (hc : change p.parent.parts = p.parent.parts.take p.index ++
      (stampAll d.next [Node.compound (if after then x :: new else new ++ [x])]).1 ++
      p.parent.parts.drop (p.index + 1)) :
    Follows d (({ root := d.root, loose := d.loose
                  next := (stampAll d.next
                    [Node.compound (if after then x :: new else new ++ [x])]).2 } :
      Document).modifyParts p.parent change) .absent x := by
  have hn := keyless_of_forall fun c hc => (hnew c hc).toIsNew
  obtain ⟨hperm, hnext⟩ := stampAll_around (x := x)
    (fun y hy => h.woven.keyed y (mem_trees_of_root (mem_preorder_trans
      (mem_preorderAll_singleton.mp hy) hs.mem))) (d.next + 1) new after
  obtain ⟨bs, hbs⟩ : ∃ bs, bs = (stampAll (d.next + 1)
      (if after then x :: new else new ++ [x])).1 := ⟨_, rfl⟩
  have hblock : stampAll d.next [Node.compound (if after then x :: new else new ++ [x])] =
      ([.mk ⟨some d.next, none⟩ .compound bs], (stampAll (d.next + 1) new).2) := by
    rw [stampAll_singleton, Node.compound, build, stamp_mk_none, hbs, hnext]
  rw [← hbs] at hperm
  rw [hblock] at hc ⊢
  have hmem : ∀ c, c ∈ bs ↔ c = x ∨ c ∈ (stampAll (d.next + 1) new).1 := fun c => by
    rw [hperm.mem_iff, List.mem_cons]
  have hlt : d.next < (stampAll (d.next + 1) new).2 := le_stampAll (d.next + 1) new
  have hsplit := hs.split
  have hfilter := hs.filter_sublist
  have hlen := hs.length_take
  generalize p.parent.parts.take p.index = us at hsplit hc hfilter hlen ⊢
  generalize p.parent.parts.drop (p.index + 1) = vs at hsplit hc hfilter ⊢
  -- What is among the parts now was below the parent, is the block, or is new.
  have hcases : ∀ y ∈ preorderAll (us ++ [.mk ⟨some d.next, none⟩ .compound bs] ++ vs),
      IsOld d.next y ∨ y = .mk ⟨some d.next, none⟩ .compound bs ∨
        y ∈ preorderAll (stampAll (d.next + 1) new).1 := by
    intro y hy
    rw [mem_preorderAll_append, mem_preorderAll_append, or_right_comm,
      ← mem_preorderAll_append] at hy
    rcases hy with hy | hy
    · exact .inl (h.tidy.isOld_of_parts hs.parent (hsplit ▸ List.Sublist.append_left
        (List.sublist_cons_self _ _) _) hy)
    · rcases mem_preorder_mk.mp (mem_preorderAll_singleton.mp hy) with rfl | ⟨c, hcb, hyc⟩
      · exact .inr (.inl rfl)
      · rcases (hmem c).mp hcb with rfl | hcn
        · exact .inl (h.bound y (mem_trees_of_root (mem_preorder_trans hyc hs.mem)))
        · exact .inr (.inr (mem_preorderAll.mpr ⟨c, hcn, hyc⟩))
  refine h.put hs [] hc (fun z hz => nomatch hz)
    (graft_wrap h.woven h.bound (mem_trees_of_root hs.parent) hsplit hx.decl hn hperm) ?_ (by omega)
    (fun y hy => ?_) (fun c hcm hcp => .inl ?_) (fun h => nomatch h)
    (hfilter.trans ((List.sublist_append_left _ _).append_right _))
  · refine tame_set (h.regular _ (mem_trees_of_root hs.parent)) hsplit hx hs.isPresent
      ⟨rfl, rfl, rfl, by simp [identName?, form?]⟩ (fun _ _ => hlen ▸ hst)
      fun y hy hyn => ?_
    rcases hcases y hy with hy | rfl | hy
    · exact (hyn hy).elim
    · refine isRegular_compound fun c hcb => ?_
      rcases (hmem c).mp hcb with rfl | hcn
      · exact hx.decl
      · exact isA_stampAll (fun q hq => (hnew q hq).decl) c hcn
    · exact (regular_of_forall fun q hq => (hnew q hq).toIsNew).stampAll _ y hy
  · rcases hcases y hy with hy | rfl | hy
    · exact isOld_mono hy (by omega)
    · exact ⟨d.next, rfl, hlt⟩
    · exact isOld_stampAll hn hy
  · rw [hsplit] at hcm
    simp only [List.mem_append, List.mem_cons] at hcm
    rcases hcm with hcm | rfl | hcm
    · exact mem_preorderAll_of_mem (by simp [hcm]) hcp
    · refine mem_preorderAll.mpr ⟨.mk ⟨some d.next, none⟩ .compound bs, by simp, ?_⟩
      exact mem_preorder_mk.mpr (.inr ⟨c, (hmem c).mpr (.inl rfl), self_mem_preorder hcp⟩)
    · exact mem_preorderAll_of_mem (by simp [hcm]) hcp

/-- **New nodes are put next to a node.** -/
theorem insert_ok (h : d.Sound) (hs : d.Stands n p x) (hnew : ∀ c ∈ new, c.IsNew)
    (ht : Takes d p new ∨ p.isInList = false ∧ p.isStatement ∧ x.IsLoose ∧
      ∀ c ∈ new, c.isA .decl = false)
    (after : Bool) :
    ∃ d', d.insert n new after = .ok d' ∧ Follows d d' .absent x := by
  by_cases he : new.isEmpty
  · refine ⟨d, by simp [Document.insert, he, pure, Except.pure], h, .refl d h,
      fun y hy => .inl ⟨y, hy, rfl⟩, .refl h⟩
  rcases ht with ht | ⟨hlist, hst, hx, hnd⟩
  · refine ⟨_, by simp only [Document.insert, he, hs.place, bind, Except.bind, ht.list,
      if_true, withKeys]; rfl, ?_⟩
    have hsplit : p.parent.parts = p.parent.parts.take (if after then p.index + 1 else p.index) ++
        [] ++ p.parent.parts.drop (if after then p.index + 1 else p.index) := by
      rw [List.append_nil, List.take_append_drop]
    refine h.put_list hs [] hnew ht hsplit ?_ rfl (fun z hz => nomatch hz)
      (fun c hc => .inl ?_) (fun h => nomatch h) ?_
    · have := hs.length_take
      simp only [List.length_take] at this ⊢
      obtain ⟨hlt, -⟩ := List.getElem?_eq_some_iff.mp hs.part
      cases after with
      | true => simp only [if_true]; omega
      | false => simp only [Bool.false_eq_true, if_false]; omega
    · rwa [List.take_append_drop]
    · rw [List.take_append_drop]
      exact List.filter_sublist
  · refine ⟨_, by simp only [Document.insert, he, hs.place, bind, Except.bind, hlist,
      hs.current h, withKeys]; rfl, ?_⟩
    exact h.put_block hs hx (holdsStatement_of_isStatement hst hlist)
      (fun c hc => ⟨hnew c hc, hnd c hc⟩) after rfl

/-- **A statement gives way to others**, which are put next to it before it is taken out. -/
theorem exchange_ok (h : d.Sound) (hs : d.Stands n p x) (hx : x.IsLoose) (hsole : x.isSole)
    (hst : p.isStatement) (hnew : ∀ c ∈ new, c.IsNewTerm) :
    ∃ d₁ d₂, d.insertAfter n new = .ok d₁ ∧ d₁.detach n = .ok d₂ ∧ Follows d d₂ x x := by
  have hargs : p.parent.isA .exprList = false := isA_exprList_of_isStatement hst
  have htakes : Takes d p new ∨ p.isInList = false ∧ p.isStatement ∧ x.IsLoose ∧
      ∀ c ∈ new, c.isA .decl = false := by
    cases hlist : p.isInList with
    | true => exact .inl ⟨hlist, .inl fun c hc => (hnew c hc).decl, .inl hargs⟩
    | false => exact .inr ⟨rfl, hst, hx, fun c hc => (hnew c hc).decl⟩
  obtain ⟨d₁, hd₁, hf⟩ := h.insert_ok hs (fun c hc => (hnew c hc).toIsNew) htakes true
  have hold : IsOld d.next x := h.bound x (mem_trees_of_root hs.mem)
  obtain ⟨x₁, hx₁, hk₁⟩ := (hf.kept x hs.mem).resolve_right not_mem_preorder_absent
  have hroot : n.key ≠ d₁.root.key := fun hr => by
    rw [hf.continues.root, ← hs.key] at hr
    exact h.root_key_ne hs.parent hs.mem_parts hr
  obtain ⟨p₁, hs₁⟩ := hf.sound.exists_stands hx₁ (hk₁.trans hs.key) hroot
  have hx₁l : x₁.IsLoose := by
    obtain ⟨x₀, hx₀, hk₀, hc₀, -⟩ := hf.continues.node x₁ hx₁ (isOld_of_key hold hk₁.symm)
    obtain rfl : x₀ = x := h.eq_of_key hx₀ hs.mem (hk₀.trans hk₁)
    exact ⟨by rw [isA, ← hc₀]; exact hx.decl, by rw [isA, ← hc₀]; exact hx.func,
      by rw [isA, ← hc₀]; exact hx.block⟩
  -- Above the statement is what was there, or the block that was put around it.
  have hargs₁ : p₁.parent.isA .exprList = false := by
    have hold₁ : IsOld d.next x₁ := isOld_of_key hold hk₁.symm
    by_cases hP : IsOld d.next p₁.parent
    · obtain ⟨P, hPm, -, hPc, -, hparts, -⟩ := hf.continues.node p₁.parent hs₁.parent hP
      obtain ⟨c, hc, hck⟩ := hparts x₁ hs₁.mem_parts hold₁
      have hPp : P = p.parent := (h.parent_eq hs.parent hPm hs.mem_parts hc hsole
        (by rw [hck, hk₁])).symm
      rw [isA, ← hPc, hPp, ← isA, hargs]
    · cases hx : p₁.parent.isA .exprList with
      | false => rfl
      | true =>
        have hc : p₁.parent.cls? = some .exprList := by simpa [isA] using hx
        have := (hf.continues.fresh p₁.parent hs₁.parent hP x₁ hs₁.mem_parts hold₁).1
        simp [isA, hc] at this
  obtain ⟨d₂, hd₂, hf₂⟩ := hf.sound.detach_ok hs₁ (.inr hx₁l) hargs₁
  exact ⟨d₁, d₂, hd₁, hd₂, hf.take_out hf₂ h hs.mem hs₁.mem hk₁⟩

end Sound

end Document

end Fieldwise
