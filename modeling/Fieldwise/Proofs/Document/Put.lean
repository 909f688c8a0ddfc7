import Fieldwise.Proofs.Document.Edit

/-!
# Edits as new parts of one node

Every edit gives one node of the program other parts and leaves all other nodes alone
(`Document.Puts`). So what the program holds afterwards is what it held before, with the parts of
that node exchanged (`Document.Puts.of_mem_root`), and new nodes. A tree that the node does not
occur in is the same (`Document.Puts.grafted_eq_self`).
-/

namespace Fieldwise

open Node

namespace Node

variable {x y t P : Node} {qs : List Node} {k : Nat}

/-- The tree in which the node `P` has got other parts. -/
def grafted (P : Node) (qs : List Node) (x : Node) : Node :=
  match P.key with
  | some k => x.modifyAt k (·.withParts qs)
  | none => x

theorem grafted_of_key (h : P.key = some k) (qs : List Node) (x : Node) :
    grafted P qs x = x.modifyAt k (·.withParts qs) := by
  rw [grafted, h]

/-- What is changed depends on what the change does to the nodes of the key. -/
theorem modifyAt_congr {change change' : Node → Node}
    (h : ∀ y ∈ t.preorder, y.key = some k → change y = change' y) :
    modifyAt k change t = modifyAt k change' t := by
  induction t using induction with
  | h₀ => rfl
  | h m f ps ih =>
    by_cases hk : (mk m f ps).key = some k
    · rw [modifyAt_of_key hk, modifyAt_of_key hk, h _ (self_mem_preorder rfl) hk]
    · rw [modifyAt_of_key_ne hk, modifyAt_of_key_ne hk]
      refine congrArg _ (List.map_congr_left fun p hp => ih p hp fun y hy => h y ?_)
      exact mem_preorder_of_mem_parts hp hy

end Node

namespace Document

variable {d d' : Document} {n x y c P : Node} {p : Place} {qs us vs new : List Node}

/-- A node is old, and no other one has its key. -/
structure Fixes (d : Document) (n : Node) : Prop where
  old : IsOld d.next n
  eq : ∀ x ∈ preorderAll d.trees, x.key = n.key → x = n

theorem Tidy.fixes (h : d.Tidy) (hn : n ∈ preorderAll d.trees) : d.Fixes n :=
  ⟨h.bound n hn, fun _ hx hk => h.eq_of_key hx hn hk⟩

/-- The document is another one in which the node `P` has got other parts. -/
structure Puts (d d' : Document) (P : Node) (qs : List Node) : Prop where
  mem : P ∈ d.root.preorder
  graft : Graft d.next P (P.withParts qs)
  next : d.next ≤ d'.next
  bound : ∀ y ∈ preorderAll qs, IsOld d'.next y
  root : d'.root = grafted P qs d.root
  loose : ∃ extra, (∀ x ∈ preorderAll extra, x ∈ preorderAll d.trees) ∧
    d'.loose = (extra ++ d.loose).map (grafted P qs)

namespace Puts

variable (h : Puts d d' P qs) (ht : d.Tidy)
include h ht

theorem exists_grafting : ∃ k extra, P.key = some k ∧
    Grafting d.next k (·.withParts qs) P (d.root :: (extra ++ d.loose)) ∧
    d'.trees = (d.root :: (extra ++ d.loose)).map (modifyAt k (·.withParts qs)) ∧
    ∀ x ∈ preorderAll (d.root :: (extra ++ d.loose)), x ∈ preorderAll d.trees := by
  obtain ⟨k, hk⟩ := ht.woven.exists_key (mem_trees_of_root h.mem)
  obtain ⟨extra, hextra, hloose⟩ := h.loose
  have hmem : ∀ x ∈ preorderAll (d.root :: (extra ++ d.loose)), x ∈ preorderAll d.trees := by
    intro x hx
    rcases mem_preorderAll_cons.mp hx with hx | hx
    · exact mem_trees_of_root hx
    · rcases mem_preorderAll_append.mp hx with hx | hx
      · exact hextra x hx
      · exact mem_preorderAll_cons.mpr (.inr hx)
  refine ⟨k, extra, hk, ⟨ht.woven.subset hmem, fun x hx => ht.bound x (hmem x hx),
    mem_extra_of_root h.mem, hk, h.graft⟩, ?_, hmem⟩
  have hput : grafted P qs = modifyAt k (·.withParts qs) := funext (grafted_of_key hk qs)
  rw [trees, h.root, hloose, hput, List.map_cons]

/-- The trees are tidy as before. -/
theorem tidy : d'.Tidy := by
  obtain ⟨k, extra, -, hg, htrees, -⟩ := h.exists_grafting ht
  refine ⟨htrees ▸ hg.woven_map, fun y hy => ?_⟩
  rw [htrees] at hy
  rcases hg.of_mem_preorderAll hy with ⟨x, hx, rfl⟩ | ⟨hy, -⟩
  · exact isOld_mono (hg.isOld_modifyAt hx) h.next
  · rw [parts_withParts (isPresent_of_mem_preorder h.mem)] at hy
    exact h.bound y hy

/-- A node looks the same afterwards. -/
theorem form?_grafted (x : Node) :
    (grafted P qs x).key = x.key ∧ (grafted P qs x).form? = x.form? := by
  obtain ⟨k, -, hk, -, -⟩ := h.exists_grafting ht
  rw [grafted_of_key hk]
  by_cases hxk : x.key = some k
  · rw [modifyAt_of_key hxk]
    exact ⟨key_withParts _ _, form?_withParts _ _⟩
  · rw [modifyAt_of_key_ne hxk]
    exact ⟨key_withParts _ _, form?_withParts _ _⟩

theorem grafted_self : grafted P qs P = P.withParts qs := by
  obtain ⟨k, -, hk, -, -⟩ := h.exists_grafting ht
  rw [grafted_of_key hk, modifyAt_of_key hk]

/-- **A tree that the node does not occur in stays as it is.** -/
theorem grafted_eq_self (hx : x.isPresent → x ∈ preorderAll d.trees) (hP : P ∉ x.preorder) :
    grafted P qs x = x := by
  obtain ⟨k, -, hk, -, -⟩ := h.exists_grafting ht
  rw [grafted_of_key hk]
  refine modifyAt_of_not_occurs fun y hy hyk => hP ?_
  have hym := mem_preorderAll_trans hy (hx (isPresent_of_preorder hy))
  rwa [← ht.eq_of_key hym (mem_trees_of_root h.mem) (hyk.trans hk.symm)]

theorem grafted_absent : grafted P qs .absent = .absent :=
  h.grafted_eq_self ht (fun hp => nomatch hp) not_mem_preorder_absent

/-- In any other node the parts are exchanged for what has become of them. -/
theorem grafted_mk {m : Mark} {f : Form} {ps : List Node}
    (hx : Node.mk m f ps ∈ preorderAll d.trees)
    (hne : Node.mk m f ps ≠ P) :
    grafted P qs (Node.mk m f ps) = Node.mk m f (ps.map (grafted P qs)) := by
  obtain ⟨k, -, hk, -, -⟩ := h.exists_grafting ht
  have hxk : (Node.mk m f ps).key ≠ some k := fun hxk =>
    hne (ht.eq_of_key hx (mem_trees_of_root h.mem) (hxk.trans hk.symm))
  have hput : grafted P qs = modifyAt k (·.withParts qs) := funext (grafted_of_key hk qs)
  rw [grafted_of_key hk, modifyAt_of_key_ne hxk, hput]
  rfl

theorem parts_grafted (hx : x ∈ preorderAll d.trees) (hne : x ≠ P) :
    (grafted P qs x).parts = x.parts.map (grafted P qs) := by
  cases x with
  | absent => cases isPresent_of_mem_preorder (mem_preorderAll.mp hx).choose_spec.2
  | mk m f ps =>
    rw [h.grafted_mk ht hx hne]
    rfl

theorem child_grafted (hx : x ∈ preorderAll d.trees) (hne : x ≠ P) (s : Slot) :
    (grafted P qs x).child s = grafted P qs (x.child s) := by
  have habsent := h.grafted_absent ht
  cases x with
  | absent => cases isPresent_of_mem_preorder (mem_preorderAll.mp hx).choose_spec.2
  | mk m f ps =>
    rw [h.grafted_mk ht hx hne, child_mk, child_mk, List.getElem?_map]
    cases ps[f.cls.slots.idxOf s]? with
    | none => exact habsent.symm
    | some c => rfl

/-- **What is in the program afterwards was there before or is new.** -/
theorem of_mem_root (hy : y ∈ d'.root.preorder) :
    (∃ x ∈ d.root.preorder, y = grafted P qs x) ∨ y ∈ preorderAll qs ∧ ¬ IsOld d.next y := by
  obtain ⟨k, extra, hk, hg, -, -⟩ := h.exists_grafting ht
  rw [h.root, grafted_of_key hk] at hy
  rcases hg.of_mem_preorder (fun z hz => mem_extra_of_root hz) hy with ⟨x, hx, rfl⟩ | ⟨hy, hn⟩
  · exact .inl ⟨x, hx, (grafted_of_key hk qs x).symm⟩
  · rw [parts_withParts (isPresent_of_mem_preorder h.mem)] at hy
    exact .inr ⟨hy, hn⟩

theorem of_mem_trees (hy : y ∈ preorderAll d'.trees) :
    (∃ x ∈ preorderAll d.trees, y = grafted P qs x) ∨ y ∈ preorderAll qs ∧ ¬ IsOld d.next y := by
  obtain ⟨k, extra, hk, hg, htrees, hmem⟩ := h.exists_grafting ht
  rw [htrees] at hy
  rcases hg.of_mem_preorderAll hy with ⟨x, hx, rfl⟩ | ⟨hy, hn⟩
  · exact .inl ⟨x, hmem x hx, (grafted_of_key hk qs x).symm⟩
  · rw [parts_withParts (isPresent_of_mem_preorder h.mem)] at hy
    exact .inr ⟨hy, hn⟩

/-- **A node that the changed one does not occur in stays as it is**, if it does not get lost. -/
theorem fixes (hn : d.Fixes n) (hP : P ∉ n.preorder) : d'.Fixes n where
  old := isOld_mono hn.old h.next
  eq x hx hk := by
    rcases h.of_mem_trees ht hx with ⟨y, hy, rfl⟩ | ⟨-, hnew⟩
    · obtain rfl := hn.eq y hy ((h.form?_grafted ht y).1.symm.trans hk)
      exact h.grafted_eq_self ht (fun _ => hy) hP
    · exact absurd (isOld_of_key hn.old hk.symm) hnew

/-- Only what is below a part that is left out is lost. -/
theorem mem_root {r : Node} (hr : ∀ c ∈ P.parts, c.isPresent → c ∈ preorderAll qs ∨ c = r)
    (hx : x ∈ d.root.preorder) : grafted P qs x ∈ d'.root.preorder ∨ x ∈ r.preorder := by
  obtain ⟨k, extra, hk, hg, -, -⟩ := h.exists_grafting ht
  rw [h.root, grafted_of_key hk, grafted_of_key hk]
  refine hg.mem_preorder_modifyAt (fun z hz => mem_extra_of_root hz) (fun c hc hcp => ?_) hx
  rw [parts_withParts (isPresent_of_mem_preorder h.mem)]
  exact hr c hc hcp

/-- An item of the file is one still, unless it is left out. -/
theorem mem_parts_root (hx : x ∈ d.root.parts) (hxp : x.isPresent) (hk : d.root = P → x ∈ qs) :
    grafted P qs x ∈ d'.root.parts := by
  have hroot := isPresent_of_mem_parts hx
  have hrm : d.root ∈ d.root.preorder := self_mem_preorder hroot
  rw [h.root]
  by_cases hne : d.root = P
  · have hPx : P ∉ x.preorder := fun hP =>
      not_mem_preorderAll_parts (mem_preorderAll.mpr ⟨x, hx, self_mem_preorder hxp⟩) (hne ▸ hP)
    rw [h.grafted_eq_self ht (fun _ => mem_trees_of_root (mem_preorder_of_part hrm hx hxp)) hPx,
      hne,
      h.grafted_self ht, parts_withParts (hne ▸ hroot)]
    exact hk hne
  · rw [h.parts_grafted ht (mem_trees_of_root hrm) hne]
    exact List.mem_map_of_mem hx

/-- A node other than the changed one declares a function if it did so before. -/
theorem declaresFunction_grafted (hx : x ∈ preorderAll d.trees) (hne : x ≠ P) :
    (grafted P qs x).declaresFunction = x.declaresFunction := by
  have hform := (h.form?_grafted ht x).2
  have hcls : (grafted P qs x).isA .decl = x.isA .decl := by rw [isA, isA, cls?_congr hform]
  have hchild : ((grafted P qs x).child .type).isA .funcDecl = (x.child .type).isA .funcDecl := by
    rw [h.child_grafted ht hx hne]
    by_cases hp : (x.child .type).isPresent
    · rw [isA, isA, cls?_congr (h.form?_grafted ht _).2]
    · have habsent : x.child .type = .absent := by
        cases hc : x.child .type with
        | absent => rfl
        | mk => rw [hc] at hp; exact absurd rfl hp
      rw [habsent, h.grafted_absent ht]
  rw [declaresFunction, declaresFunction, hcls, hchild]

end Puts

/-- A change to the parts of a node gives it these parts. -/
theorem puts_modifyParts {change : List Node → List Node} (ht : d.Tidy) (hP : P ∈ d.root.preorder)
    (hc : change P.parts = qs) {extra : List Node}
    (hextra : ∀ x ∈ preorderAll extra, x ∈ preorderAll d.trees) {next : Nat}
    (hg : Graft d.next P (P.withParts qs)) (hn : d.next ≤ next)
    (hb : ∀ y ∈ preorderAll qs, IsOld next y) :
    Puts d (({ root := d.root, loose := extra ++ d.loose, next } : Document).modifyParts P change)
      P qs := by
  obtain ⟨k, hk⟩ := ht.woven.exists_key (mem_trees_of_root hP)
  have hsame : ∀ t, (∀ y ∈ t.preorder, y ∈ preorderAll d.trees) →
      modifyAt k (fun n => n.withParts (change n.parts)) t = grafted P qs t := by
    intro t htm
    rw [grafted_of_key hk]
    refine modifyAt_congr fun y hy hyk => ?_
    rw [ht.eq_of_key (htm y hy) (mem_trees_of_root hP) (hyk.trans hk.symm), hc]
  have hloose : modifyAllAt k (fun n => n.withParts (change n.parts)) (extra ++ d.loose) =
      (extra ++ d.loose).map (grafted P qs) := by
    rw [modifyAllAt_eq_map]
    refine List.map_congr_left fun t htm => hsame t fun y hy => ?_
    rcases List.mem_append.mp htm with htm | htm
    · exact hextra y (mem_preorderAll.mpr ⟨t, htm, hy⟩)
    · exact mem_preorderAll_cons.mpr (.inr (mem_preorderAll.mpr ⟨t, htm, hy⟩))
  refine ⟨hP, hg, ?_, ?_, ?_, extra, hextra, ?_⟩
  all_goals simp only [modifyParts, Document.modify, hk]
  · exact hn
  · exact hb
  · exact hsame d.root fun y hy => mem_trees_of_root hy
  · exact hloose

/-- Some parts give way to new ones. -/
theorem puts_fresh (ht : d.Tidy) (hP : P ∈ d.root.preorder) (hs : (us ++ vs).Sublist P.parts)
    (hk : Keyless new) {change : List Node → List Node}
    (hc : change P.parts = us ++ (stampAll d.next new).1 ++ vs) {extra : List Node}
    (hextra : ∀ x ∈ preorderAll extra, x ∈ preorderAll d.trees) :
    Puts d (({ root := d.root, loose := extra ++ d.loose
               next := (stampAll d.next new).2 } : Document).modifyParts P change)
      P (us ++ (stampAll d.next new).1 ++ vs) := by
  refine puts_modifyParts ht hP hc hextra
    (graft_fresh ht.woven ht.bound (mem_trees_of_root hP) hs hk).1 (le_stampAll _ _) fun y hy => ?_
  rw [mem_preorderAll_append, mem_preorderAll_append, or_right_comm, ← mem_preorderAll_append] at hy
  rcases hy with hy | hy
  · exact isOld_mono (ht.isOld_of_parts hP hs hy) (le_stampAll _ _)
  · exact isOld_stampAll hk hy

/-! ### Primitive edits -/

namespace Stands

variable (hs : d.Stands n p x) (ht : d.Tidy)
include hs ht

/-- A node gives way to new ones. -/
theorem puts_fresh (hk : Keyless new) :
    Puts d (({ root := d.root, loose := x :: d.loose, next := (stampAll d.next new).2 } :
        Document).modifyParts p.parent fun ps =>
      ps.take p.index ++ (stampAll d.next new).1 ++ ps.drop (p.index + 1)) p.parent
      (p.parent.parts.take p.index ++ (stampAll d.next new).1 ++
        p.parent.parts.drop (p.index + 1)) := by
  have hextra : ∀ y ∈ preorderAll [x], y ∈ preorderAll d.trees := fun y hy =>
    mem_trees_of_root (mem_preorder_trans (mem_preorderAll_singleton.mp hy) hs.mem)
  exact Document.puts_fresh ht hs.parent hs.sublist hk rfl hextra

theorem current_of_tidy (next : Nat) : ({ d with next } : Document).current n = x :=
  ht.current_eq (mem_trees_of_root hs.mem) hs.key

/-- Another node is put in the place of a node. -/
theorem puts_replace (hk : Keyless [y]) (hd : d.replace n y = .ok d') :
    Puts d d' p.parent (p.parent.parts.take p.index ++ (stampAll d.next [y]).1 ++
      p.parent.parts.drop (p.index + 1)) := by
  simp only [Document.replace, hs.place, withKeys, hs.current_of_tidy ht] at hd
  cases hd
  exact hs.puts_fresh ht hk

/-- An entry of a list gives way to new ones. -/
theorem puts_splice (hk : Keyless new) (hd : d.splice n new = .ok d') :
    p.isInList ∧ Puts d d' p.parent (p.parent.parts.take p.index ++
      (stampAll d.next new).1 ++ p.parent.parts.drop (p.index + 1)) := by
  simp only [Document.splice, hs.place, bind, Except.bind] at hd
  split at hd
  case isFalse => cases hd
  rename_i hl
  simp only [withKeys, hs.current_of_tidy ht] at hd
  cases hd
  exact ⟨hl, hs.puts_fresh ht hk⟩

/-- A node is taken out. Unless it was in a list, something else is left in its place. -/
theorem puts_detach (hd : d.detach n = .ok d') : ∃ left,
    (left = [] ∧ p.isInList ∨ ¬ p.isInList ∧ (left = [.emptyStatement] ∨ left = [.absent])) ∧
      Puts d d' p.parent (p.parent.parts.take p.index ++ (stampAll d.next left).1 ++
        p.parent.parts.drop (p.index + 1)) := by
  simp only [Document.detach, hs.place, bind, Except.bind, withKeys, hs.current_of_tidy ht] at hd
  cases hd
  refine ⟨_, ?_, hs.puts_fresh ht ?_⟩
  · split
    · rename_i hl
      exact .inl ⟨rfl, hl⟩
    · rename_i hl
      refine .inr ⟨hl, ?_⟩
      split
      · exact .inl rfl
      · exact .inr rfl
  · split
    · exact fun y hy => by cases hy
    · split
      · exact keyless_mk rfl fun y hy => by cases hy
      · exact fun y hy => by cases hy

/-- New nodes are put next to a node: in the list that it is in, or in a block around it. -/
theorem puts_insert (hx : p.isInList ∨ x.isA .decl = false) (hk : Keyless new) {after : Bool}
    (hd : d.insert n new after = .ok d') : d' = d ∧ new = [] ∨
      (p.isInList ∧ ∃ j, j = (if after then p.index + 1 else p.index) ∧
        Puts d d' p.parent (p.parent.parts.take j ++ (stampAll d.next new).1 ++
          p.parent.parts.drop j)) ∨
      ¬ p.isInList ∧ ∃ bs, bs.Perm (x :: (stampAll (d.next + 1) new).1) ∧
        Puts d d' p.parent (p.parent.parts.take p.index ++
          [.mk ⟨some d.next, none⟩ .compound bs] ++ p.parent.parts.drop (p.index + 1)) := by
  have hnone : ∀ y ∈ preorderAll [], y ∈ preorderAll d.trees := by simp [preorderAll]
  have hcur : d.current n = x := hs.current_of_tidy ht d.next
  simp only [Document.insert, hs.place, bind, Except.bind] at hd
  split at hd
  · rename_i hempty
    cases hd
    exact .inl ⟨rfl, by simpa using hempty⟩
  simp only [withKeys, hcur] at hd
  split at hd
  · rename_i hl
    cases hd
    refine .inr (.inl ⟨hl, _, rfl, ?_⟩)
    generalize (if after then p.index + 1 else p.index) = j
    have hsub : (p.parent.parts.take j ++ p.parent.parts.drop j).Sublist p.parent.parts := by
      simp [List.take_append_drop]
    exact Document.puts_fresh ht hs.parent hsub hk rfl hnone
  · rename_i hl
    cases hd
    have hxs : ∀ y ∈ preorderAll [x], y ∈ preorderAll d.trees := fun y hy =>
      mem_trees_of_root (mem_preorder_trans (mem_preorderAll_singleton.mp hy) hs.mem)
    obtain ⟨hperm, hnext⟩ := stampAll_around (fun y hy => ht.woven.keyed y (hxs y hy))
      (d.next + 1) new after
    rw [Node.compound, build, stampAll_singleton, stamp_mk_none, hnext]
    generalize (stampAll (d.next + 1) (if after then x :: new else new ++ [x])).1 = bs at hperm ⊢
    refine .inr (.inr ⟨hl, bs, hperm, puts_modifyParts ht hs.parent rfl hnone
      (graft_wrap ht.woven ht.bound (mem_trees_of_root hs.parent) hs.split
        (hx.resolve_left hl) hk hperm).1 ?_ fun y hy => ?_⟩)
    · exact Nat.le_trans (Nat.le_succ _) (le_stampAll _ _)
    · have hle : d.next + 1 ≤ (stampAll (d.next + 1) new).2 := le_stampAll _ _
      rw [mem_preorderAll_append, mem_preorderAll_append, or_right_comm,
        ← mem_preorderAll_append] at hy
      rcases hy with hy | hy
      · exact isOld_mono (ht.isOld_of_parts hs.parent hs.sublist hy) (by omega)
      · rcases mem_preorder_mk.mp (mem_preorderAll_singleton.mp hy) with rfl | ⟨c, hc, hyc⟩
        · exact ⟨d.next, rfl, hle⟩
        · rcases List.mem_cons.mp (hperm.subset hc) with rfl | hc
          · exact isOld_mono (ht.bound y (hxs y (mem_preorderAll_singleton.mpr hyc))) (by omega)
          · exact isOld_stampAll hk (mem_preorderAll.mpr ⟨c, hc, hyc⟩)

/-- What a declaration gives way to that leaves the type that it defines. -/
theorem of_mem_bare {T : Node} (hT : T ∈ x.preorder) (hy : y ∈ preorderAll
      [Node.mk ⟨some d.next, none⟩ (.decl none {}) [T, .absent, .absent]]) :
    y = .mk ⟨some d.next, none⟩ (.decl none {}) [T, .absent, .absent] ∨
      y ∈ T.preorder ∧ IsOld d.next y := by
  refine (mem_preorder_mk.mp (mem_preorderAll_singleton.mp hy)).imp_right ?_
  rintro ⟨c, hc, hyc⟩
  simp only [List.mem_cons, List.not_mem_nil, or_false] at hc
  rcases hc with rfl | rfl | rfl
  · exact ⟨hyc, ht.bound y (mem_trees_of_root
      (mem_preorder_trans (mem_preorder_trans hyc hT) hs.mem))⟩
  all_goals cases hyc

/-- A declaration gives way to the bare definition of a type in it. -/
theorem puts_bare {T : Node} (hT : T ∈ x.preorder) (hTs : T.isSole = false)
    (hd : d.replace n (.build (.decl none {}) [T, .absent, .absent]) = .ok d') :
    Puts d d' p.parent (p.parent.parts.take p.index ++
      [.mk ⟨some d.next, none⟩ (.decl none {}) [T, .absent, .absent]] ++
        p.parent.parts.drop (p.index + 1)) := by
  have hkeyed : Keyed [T, .absent, .absent] := by
    intro y hy
    simp only [preorderAll, preorder, List.append_nil] at hy
    exact ht.woven.keyed y (mem_trees_of_root
      (mem_preorder_trans (mem_preorder_trans hy hT) hs.mem))
  have hstamp : stampAll d.next [build (.decl none {}) [T, .absent, .absent]] =
      ([.mk ⟨some d.next, none⟩ (.decl none {}) [T, .absent, .absent]], d.next + 1) := by
    rw [stampAll_singleton, build, stamp_mk_none, stampAll_of_keyed _ _ hkeyed]
  simp only [Document.replace, hs.place, withKeys, hs.current_of_tidy ht, hstamp] at hd
  cases hd
  refine puts_modifyParts ht hs.parent rfl (fun y hy => mem_trees_of_root
      (mem_preorder_trans (mem_preorderAll_singleton.mp hy) hs.mem))
    (graft_bare ht.woven ht.bound (mem_trees_of_root hs.parent) hs.split rfl hT hTs).1
    (Nat.le_succ _) fun y hy => ?_
  rw [mem_preorderAll_append, mem_preorderAll_append, or_right_comm, ← mem_preorderAll_append] at hy
  rcases hy with hy | hy
  · exact isOld_mono (ht.isOld_of_parts hs.parent hs.sublist hy) (Nat.le_succ _)
  · rcases hs.of_mem_bare ht hT hy with rfl | ⟨-, hy⟩
    · exact ⟨d.next, rfl, Nat.lt_succ_self _⟩
    · exact isOld_mono hy (Nat.le_succ _)

omit ht in
/-- What new nodes are put next to. -/
theorem insert_eq (after : Bool) (ws : List Node) :
    p.parent.parts.take (if after then p.index + 1 else p.index) ++ ws ++
        p.parent.parts.drop (if after then p.index + 1 else p.index) =
      p.parent.parts.take p.index ++ (if after then x :: ws else ws ++ [x]) ++
        p.parent.parts.drop (p.index + 1) := by
  obtain ⟨hlt, hx⟩ := List.getElem?_eq_some_iff.mp hs.part
  cases after with
  | true => simp [List.take_succ_eq_append_getElem hlt, hx]
  | false => simp [List.drop_eq_getElem_cons hlt, hx]

/-- A node that has still got a place after an edit around it looks the same there. -/
theorem of_puts (hput : Puts d d' p.parent qs) {p' : Place} (hp : d'.place n = .ok p') :
    d'.Stands n p' x := by
  obtain ⟨hparent, c, hc, hck, hn⟩ := of_place hp
  have hP := (of_parent? hparent).1
  obtain ⟨k, hk⟩ := Option.isSome_iff_exists.mp hn
  have hcm := mem_preorder_of_part hP (List.mem_of_getElem? hc) (isPresent_of_key (hck.trans hk))
  have hx := mem_trees_of_root hs.mem
  obtain rfl : c = x := by
    rcases hput.of_mem_root ht hcm with ⟨z, hz, rfl⟩ | ⟨-, hnew⟩
    · have hzx := ht.eq_of_key (mem_trees_of_root hz) hx
        ((hput.form?_grafted ht z).1.symm.trans (hck.trans hs.key.symm))
      rw [hzx]
      exact hput.grafted_eq_self ht (fun _ => hx) fun hP => not_mem_preorderAll_parts
        (mem_preorderAll_of_mem hs.mem_parts hs.isPresent) hP
    · exact absurd (isOld_of_key (ht.bound x hx) (hs.key.trans hck.symm)) hnew
  exact ⟨hp, hparent, hP, hc, hck, hn⟩

end Stands

end Document

end Fieldwise
