import Fieldwise.Proofs.Document.Exchange
import Fieldwise.Proofs.Tree.Order

/-!
# Searching and looking up

In a program without shared nodes a search and a look-up agree (`Document.Unshared.coherent`). A
node is below itself and the nodes above it, and below no other one
(`Document.Unshared.mem_preorder_iff_ancestors`). It is the content of one slot of its parent, and
that is where looking it up says that it stands (`Document.Unshared.place_slot`).
-/

namespace Fieldwise

open Node

/-- A class has each place for a single child once. -/
theorem Class.nodup_slots (c : Class) : c.slots.Nodup := by cases c <;> decide

namespace Node

/-! ### Slots -/

variable {P c : Node} {s : Slot} {i : Option Nat} {j : Nat}

/-- Whether there is a place for each part of a node: where there is no list, the node has no more
parts than single ones. -/
def fits (n : Node) : Bool :=
  n.cls?.all fun c => c.listSlot.isSome || n.parts.length ≤ c.slots.length

/-- What is in a slot of a node: a single child, or an item of the list. -/
def content? (P : Node) (s : Slot) : Option Nat → Option Node
  | none => P.cls?.bind fun c => if s ∈ c.slots then some (P.child s) else none
  | some i => if P.cls?.bind Class.listSlot = some s then P.items[i]? else none

/-- A part is in the slot of its position. -/
theorem content?_of_slotAt {m : Mark} {f : Form} {ps : List Node} (hc : ps[j]? = some c)
    (hs : f.cls.slotAt j = some (s, i)) : (mk m f ps).content? s i = some c := by
  unfold Class.slotAt at hs
  split at hs
  case h_1 s' hj =>
    cases hs
    obtain ⟨hlt, rfl⟩ := List.getElem?_eq_some_iff.mp hj
    have hmem : f.cls.slots[j] ∈ f.cls.slots := List.getElem_mem hlt
    have hidx : f.cls.slots.idxOf f.cls.slots[j] = j := f.cls.nodup_slots.idxOf_getElem j hlt
    simp [content?, cls?, form?, hmem, child_mk, hidx, hc]
  case h_2 hj =>
    obtain ⟨s', hs', he⟩ := Option.map_eq_some_iff.mp hs
    obtain ⟨rfl, rfl⟩ := Prod.mk.inj he
    have hle : f.cls.slots.length ≤ j := List.getElem?_eq_none_iff.mp hj
    have hitem : (mk m f ps).items[j - f.cls.slots.length]? = some c := by
      rw [items, List.getElem?_drop, Nat.add_sub_cancel' hle, hc]
    simp [content?, cls?, form?, hs', hitem]

/-- What is in a slot is the part at its position. -/
theorem exists_of_content? {m : Mark} {f : Form} {ps : List Node}
    (h : (mk m f ps).content? s i = some c) (hc : c.isPresent) :
    ∃ j, ps[j]? = some c ∧ f.cls.slotAt j = some (s, i) := by
  cases i with
  | none =>
    by_cases hs : s ∈ f.cls.slots
    · have hlt := List.idxOf_lt_length_of_mem hs
      have hslot : f.cls.slots[f.cls.slots.idxOf s]? = some s := by
        rw [List.getElem?_eq_getElem hlt, List.getElem_idxOf hlt]
      have hchild : (ps[f.cls.slots.idxOf s]?).getD absent = c := by
        simpa [content?, cls?, form?, hs, child_mk] using h
      refine ⟨_, ?_, by rw [Class.slotAt, hslot]⟩
      cases hp : ps[f.cls.slots.idxOf s]? with
      | none =>
        rw [hp] at hchild
        subst hchild
        cases hc
      | some p => rw [← hchild, hp, Option.getD_some]
    · simp [content?, cls?, form?, hs] at h
  | some i =>
    by_cases hs : f.cls.listSlot = some s
    · have hitem : ps[f.cls.slots.length + i]? = some c := by
        simpa [content?, cls?, form?, hs, items, List.getElem?_drop] using h
      refine ⟨_, hitem, ?_⟩
      rw [Class.slotAt, List.getElem?_eq_none_iff.mpr (Nat.le_add_right _ _), hs]
      simp
    · simp [content?, cls?, form?, hs] at h

/-- Each part of a node that has no more of them than places is in a slot. -/
theorem exists_slotAt {m : Mark} {f : Form} {ps : List Node} (hfit : (mk m f ps).fits)
    (hc : ps[j]? = some c) : ∃ s i, f.cls.slotAt j = some (s, i) := by
  unfold Class.slotAt
  split
  · exact ⟨_, _, rfl⟩
  case h_2 hj =>
    have hle := List.getElem?_eq_none_iff.mp hj
    obtain ⟨hlt, -⟩ := List.getElem?_eq_some_iff.mp hc
    cases hl : f.cls.listSlot with
    | some s => exact ⟨_, _, rfl⟩
    | none =>
      have hshort : f.cls.listSlot.isSome || ps.length ≤ f.cls.slots.length := hfit
      rw [hl] at hshort
      have hle' := of_decide_eq_true hshort
      omega

end Node

namespace Document

variable {d : Document} {n r P c : Node} {j : Nat}

/-! ### The nodes above a node -/

/-- The nodes above a node are its parent and those above that one, if no other node has its key. -/
theorem ancestors_eq_cons (hparent : d.parent? c = some P) (hP : P.key = some j)
    (hall : ∀ x ∈ d.root.preorder, x.key = some j → x = P) :
    d.ancestors c = P :: d.ancestors P := by
  unfold parent? ancestors at hparent
  unfold ancestors
  cases hk : c.key with
  | none => simp [hk] at hparent
  | some k =>
    rw [hk, Option.bind_some] at hparent
    rw [hP, Option.bind_some, Option.bind_some]
    cases ha : d.root.ancestors? k with
    | none => simp [ha] at hparent
    | some above =>
      cases above with
      | nil => simp [ha] at hparent
      | cons p rest =>
        obtain rfl : p = P := by simpa [ha] using hparent
        rw [ancestors?_parent ha hP hall]
        rfl

/-- There are no nodes above the root. -/
theorem ancestors_root (d : Document) : d.ancestors d.root = [] := by
  unfold ancestors
  cases hd : d.root with
  | absent => rfl
  | mk m f ps => cases hk : m.key <;> simp [key, mark, hk, Node.ancestors?]

/-- The root stands nowhere. -/
theorem place_root (d : Document) : d.parent? d.root = none ∧ ∃ cls, d.place d.root =
    .error (.notAttached cls) := by
  have hparent : d.parent? d.root = none := by rw [parent?, ancestors_root, List.head?_nil]
  have hplace : d.place? d.root = none := by
    cases hk : d.root.key <;> simp [place?, hk, hparent]
  exact ⟨hparent, _, by rw [place, hplace]⟩

/-! ### Programs without shared nodes -/

namespace Unshared

variable (h : d.Unshared)
include h

/-- **A node is below itself and the nodes above it**, and below no other one. -/
theorem mem_preorder_iff_ancestors (hn : n ∈ d.root.preorder) (hr : r ∈ d.root.preorder) :
    n ∈ r.preorder ↔ r = n ∨ r ∈ d.ancestors n := by
  obtain ⟨k, hk, -⟩ := h.bound n hn
  have habove : ∀ above, d.root.ancestors? k = some above → d.ancestors n = above :=
    fun above ha => by simp [ancestors, hk, ha]
  constructor
  · intro hnr
    obtain ⟨s, hs⟩ := exists_fill hr
    have hkr : k ∈ keys [r] := mem_keys.mpr ⟨n, mem_preorderAll_singleton.mpr hnr, hk⟩
    have hfound : (r.ancestors? k).isSome := by
      rw [ancestors?_isSome]
      exact find?_isSome.mpr ⟨n, hnr, hk⟩
    obtain ⟨above, ha⟩ := Option.isSome_iff_exists.mp hfound
    have hroot : d.root.ancestors? k = some (above ++ s.above [r]) := by
      rw [← ancestorsAll?_singleton, ← hs, ancestorsAll?_fill (h.not_mem_keys hs hkr),
        ancestorsAll?_singleton, ha]
      rfl
    obtain ⟨x, hx, -, hlast⟩ := isPath_of_ancestors? ha
    cases above with
    | nil =>
      obtain rfl : x = r := hlast
      exact .inl (h.eq_of_key hr hn (hx.trans hk.symm))
    | cons p above =>
      have hmem : r ∈ p :: above := by
        rw [← hlast, List.getLast_cons (List.cons_ne_nil _ _)]
        exact List.getLast_mem _
      exact .inr (habove _ hroot ▸ List.mem_append_left _ hmem)
  · rintro (rfl | hra)
    · exact self_mem_preorder (isPresent_of_mem_preorder hr)
    · have hfound : (d.root.ancestors? k).isSome := by
        rw [ancestors?_isSome]
        exact find?_isSome.mpr ⟨n, hn, hk⟩
      obtain ⟨above, ha⟩ := Option.isSome_iff_exists.mp hfound
      obtain ⟨x, hx, hpath, hlast⟩ := isPath_of_ancestors? ha
      have hbelow := hpath.below (isPresent_of_key hx)
      obtain rfl := h.eq_of_key (hbelow _ (hlast ▸ List.getLast_mem _)) hn (hx.trans hk.symm)
      exact hbelow r (List.mem_cons_of_mem _ (habove _ ha ▸ hra))

/-- A part of a node is at one position. -/
theorem eq_of_part {i : Nat} (hP : P ∈ d.root.preorder) (hi : P.parts[i]? = some c)
    (hj : P.parts[j]? = some c) (hc : c.isPresent) : i = j := by
  have hplaces := (h.lookup hP hi hc).2.2.symm.trans (h.lookup hP hj hc).2.2
  exact congrArg Place.index (Except.ok.inj hplaces)

/-- **A node is in one slot of its parent**, and that is where it is looked up. -/
theorem place_slot (hP : P ∈ d.root.preorder) (hfit : P.fits) (hc : P.parts[j]? = some c)
    (hcp : c.isPresent) : d.place c = .ok { parent := P, index := j } ∧
      ∃ s i, Place.slot? { parent := P, index := j } = some (s, i) ∧
        ∀ s' i', P.content? s' i' = some c ↔ s' = s ∧ i' = i := by
  refine ⟨(h.lookup hP hc hcp).2.2, ?_⟩
  cases P with
  | absent => cases hc
  | mk m f ps =>
    obtain ⟨s, i, hs⟩ := exists_slotAt hfit hc
    refine ⟨s, i, hs, fun s' i' => ⟨fun hc' => ?_, ?_⟩⟩
    · obtain ⟨j', hj', hs'⟩ := exists_of_content? hc' hcp
      obtain rfl := h.eq_of_part hP hj' hc hcp
      simpa using hs'.symm.trans hs
    · rintro ⟨rfl, rfl⟩
      exact content?_of_slotAt hc hs

/-- No node below another one is met twice. -/
theorem nodup_preorder (hr : r ∈ d.root.preorder) : r.preorder.Nodup := by
  obtain ⟨s, hs⟩ := exists_fill hr
  have hkeys := h.distinct
  rw [← hs, (keys_fill_perm s [r]).nodup_iff] at hkeys
  have hbelow := (List.nodup_append.mp hkeys).1
  rw [keys, preorderAll_eq_flatMap, List.flatMap_singleton, List.Nodup,
    List.pairwise_filterMap] at hbelow
  refine hbelow.imp_of_mem fun {x y} hx _ hdiff => ?_
  rintro rfl
  obtain ⟨k, hk, -⟩ := h.bound x (mem_preorder_trans hx hr)
  exact hdiff k hk k hk rfl

end Unshared

/-! ### Coherence -/

/-- What searches of a program find and what is looked up in it agree. -/
structure Coherent (d : Document) : Prop where
  /-- One path leads from a node to each node below it. -/
  path : ∀ r ∈ d.root.preorder, ∀ n ∈ r.preorder, ∃! path, r.follow? path = some n
  /-- A search finds what a test holds of among the nodes to which an open path leads, in order. -/
  search : ∀ r ∈ d.root.preorder, ∀ (prune : Node → Node → Bool) (keep : Node → Bool),
    r.InOrder (fun path => r.IsOpen prune path ∧ ∃ x, r.follow? path = some x ∧ keep x)
      ((r.search prune).filter keep)
  /-- A search from a node finds those that the node is above of. -/
  ancestors : ∀ n ∈ d.root.preorder, ∀ r ∈ d.root.preorder,
    n ∈ r.search (fun _ _ => false) ↔ r = n ∨ r ∈ d.ancestors n
  /-- What a search from the root finds is attached, and nothing else. -/
  attached : ∀ n, d.attached n ↔ ∃ x ∈ d.root.search (fun _ _ => false), n.same x
  /-- The root stands nowhere. -/
  root : d.ancestors d.root = [] ∧ d.parent? d.root = none ∧
    ∃ cls, d.place d.root = .error (.notAttached cls)
  /-- Any other node is the content of one slot of its parent, where it stands. -/
  slot : ∀ n ∈ d.root.preorder, n ≠ d.root → ∃ p, d.place n = .ok p ∧
    d.parent? n = some p.parent ∧ d.ancestors n = p.parent :: d.ancestors p.parent ∧
    ∃ s i, p.slot? = some (s, i) ∧
      ∀ s' i', p.parent.content? s' i' = some n ↔ s' = s ∧ i' = i

/-- **Searches and look-ups agree** in a program without shared nodes. -/
theorem Unshared.coherent (h : d.Unshared) (hfit : ∀ x ∈ d.root.preorder, x.fits) :
    d.Coherent where
  path _ hr _ hn := existsUnique_path (h.nodup_preorder hr) hn
  search r _ prune keep := search_inOrder prune keep r
  ancestors n hn r hr := by
    rw [search_false]
    exact h.mem_preorder_iff_ancestors hn hr
  attached n := by
    rw [attached_iff, search_false]
    refine exists_congr fun x => and_congr_right fun _ => ?_
    rw [Node.same, Bool.and_eq_true, beq_iff_eq, and_comm, eq_comm (a := x.key)]
  root := ⟨d.ancestors_root, d.place_root⟩
  slot n hn hroot := by
    have hpres := isPresent_of_mem_preorder hn
    -- a node other than the root is a part of one
    have hbelow : n ∈ preorderAll d.root.parts :=
      ((mem_preorder_iff (isPresent_of_preorder hn)).mp hn).resolve_left hroot
    obtain ⟨P, hP, hnP⟩ := exists_parent_of_mem hbelow
    obtain ⟨j, hj⟩ := List.mem_iff_getElem?.mp hnP
    obtain ⟨k, hk, -⟩ := h.bound P hP
    have hparent := (h.lookup hP hj hpres).2.1
    obtain ⟨hplace, hslot⟩ := h.place_slot hP (hfit P hP) hj hpres
    exact ⟨_, hplace, hparent, ancestors_eq_cons hparent hk fun x hx hxk =>
      h.eq_of_key hx hP (hxk.trans hk.symm), hslot⟩

/-- The program with a branch is made of nodes with a place for each part. -/
theorem coherent_branching : branching.Unshared ∧ (∀ x ∈ branching.root.preorder, x.fits) ∧
    branching.Coherent := by
  have hunshared : branching.Unshared := unshared_ofRoot (by decide)
  have hfit : ∀ x ∈ branching.root.preorder, x.fits := by decide
  exact ⟨hunshared, hfit, hunshared.coherent hfit⟩

end Document

end Fieldwise
