import Fieldwise.Proofs.Tree.Stamp

/-!
# How the nodes of a program hang together

`Node.Woven` says in which way the nodes of some trees may be shared. A key stands for one node, and
only the types with members can stand at several places: any other node has one parent, and is one
of its parts once. `Node.Knit` says this of the places of the trees themselves as well.

The rules below build such trees from their pieces: trees without common keys can be put together
(`Knit.append`), a node can be put on top of trees (`Knit.node`), and types with members can be used
once more (`Knit.again`).
-/

namespace Fieldwise

namespace Node

/-- Whether a node can stand at one place only: whether it is no type with members. -/
def isSole (n : Node) : Bool :=
  match n.cls? with
  | none | some .structType | some .unionType | some .enumType => false
  | _ => true

/-- Two nodes that are not one and the same, unless it may stand at several places. -/
def Apart (a b : Node) : Prop := a.isSole ∨ b.isSole → a.key ≠ b.key

theorem Apart.symm {a b : Node} (h : Apart a b) : Apart b a := fun hs => (h hs.symm).symm

/-- How nodes may be shared in some trees. -/
structure Woven (ts : List Node) : Prop where
  keyed : Keyed ts
  consistent : Consistent ts
  sole : ∀ p ∈ preorderAll ts, ∀ q ∈ preorderAll ts, ∀ c ∈ p.parts, ∀ c' ∈ q.parts,
    c.isSole → c.key = c'.key → p.key = q.key
  siblings : ∀ p ∈ preorderAll ts, p.parts.Pairwise Apart

/-- How nodes may be shared in some trees that are to be parts of one node. -/
structure Knit (ts : List Node) : Prop extends Woven ts where
  tops : ts.Pairwise Apart
  top : ∀ t ∈ ts, t.isSole → ∀ p ∈ preorderAll ts, ∀ c ∈ p.parts, c.key ≠ t.key

theorem mem_preorderAll_append {x : Node} {ts us : List Node} :
    x ∈ preorderAll (ts ++ us) ↔ x ∈ preorderAll ts ∨ x ∈ preorderAll us := by
  simp only [mem_preorderAll, List.mem_append, or_and_right, exists_or]

theorem mem_preorderAll_cons {x t : Node} {ts : List Node} :
    x ∈ preorderAll (t :: ts) ↔ x ∈ t.preorder ∨ x ∈ preorderAll ts := by
  rw [preorderAll, List.mem_append]

theorem mem_preorderAll_of_mem {t : Node} {ts : List Node} (h : t ∈ ts) (ht : t.isPresent) :
    t ∈ preorderAll ts :=
  mem_preorderAll.mpr ⟨t, h, self_mem_preorder ht⟩

theorem mem_preorderAll_trans {x y : Node} {ts : List Node} (hx : x ∈ y.preorder)
    (hy : y ∈ preorderAll ts) : x ∈ preorderAll ts := by
  obtain ⟨t, ht, hy⟩ := mem_preorderAll.mp hy
  exact mem_preorderAll.mpr ⟨t, ht, mem_preorder_trans hx hy⟩

theorem mem_preorderAll_of_parts {x y : Node} {ts : List Node} (hx : x ∈ preorderAll y.parts)
    (hy : y ∈ preorderAll ts) : x ∈ preorderAll ts := by
  obtain ⟨p, hp, hx⟩ := mem_preorderAll.mp hx
  exact mem_preorderAll_trans (mem_preorder_of_mem_parts hp hx) hy

theorem isPresent_of_isSole {n : Node} (h : n.isSole) : n.isPresent := by
  cases n with
  | absent => cases h
  | mk => rfl

/-- Nodes of most classes can stand at one place only. -/
theorem isSole_of_isA {n : Node} {c : Class} (h : n.isA c)
    (hc : (c != .structType && c != .unionType && c != .enumType) = true) : n.isSole := by
  rw [isA, beq_iff_eq] at h
  rw [isSole, h]
  split
  all_goals first | rfl | simp_all

theorem isA_of_not_isSole {n : Node} {c : Class} (h : n.isSole = false)
    (hc : (c != .structType && c != .unionType && c != .enumType) = true) : n.isA c = false :=
  Bool.eq_false_iff.mpr fun hn => Bool.eq_false_iff.mp h (isSole_of_isA hn hc)

/-- How nodes are shared depends on which nodes there are. -/
theorem Woven.subset {ts us : List Node} (h : Woven ts)
    (hm : ∀ x ∈ preorderAll us, x ∈ preorderAll ts) : Woven us where
  keyed x hx := h.keyed x (hm x hx)
  consistent := h.consistent.subset hm
  sole p hp q hq := h.sole p (hm p hp) q (hm q hq)
  siblings p hp := h.siblings p (hm p hp)

/-- The key of a node in a tree. -/
theorem Woven.exists_key {ts : List Node} (h : Woven ts) {x : Node} (hx : x ∈ preorderAll ts) :
    ∃ k, x.key = some k :=
  Option.isSome_iff_exists.mp (h.keyed x hx)

/-- Two nodes of one key are the same. -/
theorem Woven.eq_of_key {ts : List Node} (h : Woven ts) {x y : Node} (hx : x ∈ preorderAll ts)
    (hy : y ∈ preorderAll ts) (hk : x.key = y.key) : x = y :=
  h.consistent x hx y hy (h.keyed x hx) hk

/-- The parts of a node in some trees. -/
theorem Woven.parts {ts : List Node} {P : Node} (h : Woven ts) (hP : P ∈ preorderAll ts) :
    Knit P.parts := by
  have hm : ∀ {x}, x ∈ preorderAll P.parts → x ∈ preorderAll ts :=
    fun hx => mem_preorderAll_of_parts hx hP
  -- A node inside `P` is not above it.
  have hin : ∀ {x y}, x ∈ preorderAll P.parts → y ∈ preorderAll ts → P ∈ y.preorder →
      y.key ≠ x.key := by
    intro x y hx hy hPy hk
    have := h.consistent y hy x (hm hx) (h.keyed y hy) hk
    subst this
    exact not_mem_preorderAll_parts hx hPy
  exact
    { toWoven := h.subset fun x hx => hm hx
      tops := h.siblings P hP
      top := fun c hc hs p hp c' hc' hk => by
        have hkey := h.sole P hP p (hm hp) c hc c' hc' hs hk.symm
        exact hin hp hP (self_mem_preorder (isPresent_of_mem_preorder
          (mem_preorderAll.mp hP).choose_spec.2)) hkey }

namespace Knit

variable {ts us : List Node}

/-- Trees among others. -/
theorem mono (h : Knit ts) (hs : us.Sublist ts) : Knit us := by
  have hm : ∀ x ∈ preorderAll us, x ∈ preorderAll ts := fun x hx => by
    obtain ⟨u, hu, hx⟩ := mem_preorderAll.mp hx
    exact mem_preorderAll.mpr ⟨u, hs.subset hu, hx⟩
  exact
    { toWoven := h.toWoven.subset hm
      tops := h.tops.sublist hs
      top := fun t ht hts p hp => h.top t (hs.subset ht) hts p (hm p hp) }

theorem perm (h : Knit ts) (hp : ts.Perm us) : Knit us := by
  have hm : ∀ x ∈ preorderAll us, x ∈ preorderAll ts := fun x hx => by
    obtain ⟨u, hu, hx⟩ := mem_preorderAll.mp hx
    exact mem_preorderAll.mpr ⟨u, hp.symm.subset hu, hx⟩
  exact
    { toWoven := h.toWoven.subset hm
      tops := (hp.pairwise_iff Apart.symm).mp h.tops
      top := fun t ht hts p hpm => h.top t (hp.symm.subset ht) hts p (hm p hpm) }

theorem nil : Knit [] where
  keyed := fun _ hx => nomatch hx
  consistent := fun _ hx => nomatch hx
  sole := fun _ hx => nomatch hx
  siblings := fun _ hx => nomatch hx
  tops := .nil
  top := fun _ hx => nomatch hx

/-- Trees without common keys. -/
theorem append (h : Knit ts) (h' : Knit us) (hd : ∀ k, Occurs k ts → ¬ Occurs k us) :
    Knit (ts ++ us) := by
  have hne : ∀ x ∈ preorderAll ts, ∀ y, y ∈ preorderAll us → x.key ≠ y.key := by
    intro x hx y hy hk
    obtain ⟨k, hxk⟩ := h.exists_key hx
    exact hd k ⟨x, hx, hxk⟩ ⟨y, hy, hk ▸ hxk⟩
  -- A part is present where it is the sole one, so its key occurs.
  have hpart : ∀ {vs : List Node} {p c : Node}, p ∈ preorderAll vs → c ∈ p.parts → c.isPresent →
      c ∈ preorderAll vs := fun hp hc hcp =>
    mem_preorderAll_trans (mem_preorder_of_mem_parts hc (self_mem_preorder hcp)) hp
  have hkey : ∀ {vs : List Node} {c c' : Node}, Knit vs → c ∈ preorderAll vs → c.key = c'.key →
      c'.isPresent := fun hv hc hk => by
    obtain ⟨k, hck⟩ := hv.exists_key hc
    exact isPresent_of_key (hk ▸ hck)
  refine ⟨⟨?_, ?_, ?_, ?_⟩, ?_, ?_⟩
  · intro x hx
    exact (mem_preorderAll_append.mp hx).elim (h.keyed x) (h'.keyed x)
  · intro x hx y hy hs hk
    rcases mem_preorderAll_append.mp hx with hx | hx <;>
      rcases mem_preorderAll_append.mp hy with hy | hy
    · exact h.consistent x hx y hy hs hk
    · exact (hne x hx y hy hk).elim
    · exact (hne y hy x hx hk.symm).elim
    · exact h'.consistent x hx y hy hs hk
  · intro p hp q hq c hc c' hc' hs hk
    have hcp := isPresent_of_isSole hs
    rcases mem_preorderAll_append.mp hp with hp | hp <;>
      rcases mem_preorderAll_append.mp hq with hq | hq
    · exact h.sole p hp q hq c hc c' hc' hs hk
    · have hcm := hpart hp hc hcp
      exact (hne c hcm c' (hpart hq hc' (hkey h hcm hk)) hk).elim
    · have hcm := hpart hp hc hcp
      exact (hne c' (hpart hq hc' (hkey h' hcm hk)) c hcm hk.symm).elim
    · exact h'.sole p hp q hq c hc c' hc' hs hk
  · intro p hp
    exact (mem_preorderAll_append.mp hp).elim (h.siblings p) (h'.siblings p)
  · refine List.pairwise_append.mpr ⟨h.tops, h'.tops, fun a ha b hb hs hk => ?_⟩
    rcases hs with hs | hs
    · have ham := mem_preorderAll_of_mem ha (isPresent_of_isSole hs)
      exact hne a ham b (mem_preorderAll_of_mem hb (hkey h ham hk)) hk
    · have hbm := mem_preorderAll_of_mem hb (isPresent_of_isSole hs)
      exact hne a (mem_preorderAll_of_mem ha (hkey h' hbm hk.symm)) b hbm hk
  · intro t ht hs p hp c hc hk
    rcases List.mem_append.mp ht with ht | ht <;> rcases mem_preorderAll_append.mp hp with hp | hp
    · exact h.top t ht hs p hp c hc hk
    · have htm := mem_preorderAll_of_mem ht (isPresent_of_isSole hs)
      exact hne t htm c (hpart hp hc (hkey h htm hk.symm)) hk.symm
    · have htm := mem_preorderAll_of_mem ht (isPresent_of_isSole hs)
      exact hne c (hpart hp hc (hkey h' htm hk.symm)) t htm hk
    · exact h'.top t ht hs p hp c hc hk

/-- The node of a key, where the other one is a part or one of the trees. -/
theorem eq_of_key (h : Knit ts) {c c' : Node} (hc : c ∈ preorderAll ts)
    (hc' : c'.isPresent → c' ∈ preorderAll ts) (hk : c.key = c'.key) : c = c' := by
  obtain ⟨k, hck⟩ := h.exists_key hc
  exact h.consistent c hc c' (hc' (isPresent_of_key (hk ▸ hck))) (h.keyed c hc) hk

/-- A node on top of some trees. -/
theorem node {ps rest : List Node} {k : Nat} {line : Option Nat} {f : Form}
    (h : Knit (ps ++ rest)) (hk : ¬ Occurs k (ps ++ rest)) :
    Knit (Node.mk ⟨some k, line⟩ f ps :: rest) := by
  have hm : ∀ {x}, x ∈ preorderAll (Node.mk ⟨some k, line⟩ f ps :: rest) ↔
      x = Node.mk ⟨some k, line⟩ f ps ∨ x ∈ preorderAll (ps ++ rest) := by
    intro x
    rw [mem_preorderAll_cons, mem_preorderAll_append, mem_preorder_iff rfl, parts, or_assoc]
  have hfresh : ∀ x ∈ preorderAll (ps ++ rest), x.key ≠ some k := fun x hx hxk => hk ⟨x, hx, hxk⟩
  have htop : ∀ {c}, c ∈ ps ∨ c ∈ rest → c.isPresent → c ∈ preorderAll (ps ++ rest) :=
    fun hc hp => mem_preorderAll_of_mem (List.mem_append.mpr hc) hp
  have hpart : ∀ {p c}, p ∈ preorderAll (ps ++ rest) → c ∈ p.parts → c.isPresent →
      c ∈ preorderAll (ps ++ rest) := fun hp hc hcp =>
    mem_preorderAll_trans (mem_preorder_of_mem_parts hc (self_mem_preorder hcp)) hp
  have hapart := List.pairwise_append.mp h.tops
  refine ⟨⟨?_, ?_, ?_, ?_⟩, ?_, ?_⟩
  · intro x hx
    rcases hm.mp hx with rfl | hx
    · rfl
    · exact h.keyed x hx
  · intro x hx y hy hs hxy
    rcases hm.mp hx with rfl | hx <;> rcases hm.mp hy with rfl | hy
    · rfl
    · exact (hfresh y hy hxy.symm).elim
    · exact (hfresh x hx hxy).elim
    · exact h.consistent x hx y hy hs hxy
  · intro p hp q hq c hc c' hc' hs hcc
    rcases hm.mp hp with rfl | hp <;> rcases hm.mp hq with rfl | hq
    · rfl
    · exact (h.top c (List.mem_append_left _ hc) hs q hq c' hc' hcc.symm).elim
    · have := h.eq_of_key (hpart hp hc (isPresent_of_isSole hs)) (htop (.inl hc')) hcc
      subst this
      exact (h.top c (List.mem_append_left _ hc') hs p hp c hc rfl).elim
    · exact h.sole p hp q hq c hc c' hc' hs hcc
  · intro p hp
    rcases hm.mp hp with rfl | hp
    · exact hapart.1
    · exact h.siblings p hp
  · refine List.pairwise_cons.mpr ⟨fun b hb _ hkb => ?_, hapart.2.1⟩
    exact hfresh b (htop (.inr hb) (isPresent_of_key hkb.symm)) hkb.symm
  · intro t ht hs p hp c hc hct
    rcases List.mem_cons.mp ht with rfl | ht <;> rcases hm.mp hp with rfl | hp
    · exact hfresh c (htop (.inl hc) (isPresent_of_key hct)) hct
    · exact hfresh c (hpart hp hc (isPresent_of_key hct)) hct
    · exact hapart.2.2 c hc t ht (.inr hs) hct
    · exact h.top t (List.mem_append_right _ ht) hs p hp c hc hct

/-- A type with members is used once more. -/
theorem again {T : Node} (h : Knit ts) (hT : T ∈ ts) (hs : T.isSole = false) : Knit (T :: ts) := by
  have hm : ∀ {x}, x ∈ preorderAll (T :: ts) → x ∈ preorderAll ts := by
    intro x hx
    exact (mem_preorderAll_cons.mp hx).elim (fun hx => mem_preorderAll.mpr ⟨T, hT, hx⟩) id
  have ht : ∀ {t}, t ∈ T :: ts → t ∈ ts := fun h => (List.mem_cons.mp h).elim (fun h => h ▸ hT) id
  have hapart : ∀ b ∈ ts, Apart T b := by
    intro b hb hsole hk
    have hsole : b.isSole := hsole.resolve_left (by simp [hs])
    have hbm := mem_preorderAll_of_mem hb (isPresent_of_isSole hsole)
    have := h.eq_of_key hbm (mem_preorderAll_of_mem hT) hk.symm
    subst this
    simp [hs] at hsole
  exact
    { toWoven := h.toWoven.subset fun x hx => hm hx
      tops := List.pairwise_cons.mpr ⟨hapart, h.tops⟩
      top := fun t htm hts p hp => h.top t (ht htm) hts p (hm hp) }

/-- Types with members are used once more. -/
theorem againAll (h : Knit ts) (hu : ∀ u ∈ us, u ∈ ts ∧ u.isSole = false) :
    Knit (us ++ ts) := by
  induction us with
  | nil => exact h
  | cons u us ih =>
    have hu' := hu u List.mem_cons_self
    exact (ih fun v hv => hu v (List.mem_cons_of_mem _ hv)).again
      (List.mem_append_right _ hu'.1) hu'.2

/-- Places that are left empty do not count. -/
theorem absent (h : Knit ts) : Knit (Node.absent :: ts) := by
  have hm : ∀ {x}, x ∈ preorderAll (Node.absent :: ts) → x ∈ preorderAll ts := by
    intro x hx
    exact (mem_preorderAll_cons.mp hx).elim (fun h => (not_mem_preorder_absent h).elim) id
  have habsent : ∀ b ∈ ts, Apart .absent b := by
    intro b hb hs hk
    have hs : b.isSole := hs.resolve_left (by simp [isSole, cls?, form?])
    have := h.keyed b (mem_preorderAll_of_mem hb (isPresent_of_isSole hs))
    rw [← hk] at this
    cases this
  exact
    { toWoven := h.toWoven.subset fun x hx => hm hx
      tops := List.pairwise_cons.mpr ⟨habsent, h.tops⟩
      top := fun t ht hs p hp => by
        rcases List.mem_cons.mp ht with rfl | ht
        · cases hs
        · exact h.top t ht hs p (hm hp) }

end Knit

/-- Parts of a node and a type with members from below it. -/
theorem Woven.knit_cons {ts us : List Node} {P T : Node} (h : Woven ts)
    (hP : P ∈ preorderAll ts) (hu : us.Sublist P.parts) (hT : T ∈ preorderAll P.parts)
    (hs : T.isSole = false) : Knit (T :: us) := by
  have hk := (h.parts hP).mono hu
  have hm : ∀ x ∈ preorderAll (T :: us), x ∈ preorderAll P.parts := by
    intro x hx
    rcases mem_preorderAll_cons.mp hx with hx | hx
    · exact mem_preorderAll_trans hx hT
    · obtain ⟨u, hu', hx⟩ := mem_preorderAll.mp hx
      exact mem_preorderAll.mpr ⟨u, hu.subset hu', hx⟩
  have hPp := (mem_preorderAll.mp hP).choose_spec.2
  refine
    { toWoven := h.subset fun x hx => mem_preorderAll_of_parts (hm x hx) hP
      tops := List.pairwise_cons.mpr ⟨fun b hb hsole hkey => ?_, hk.tops⟩
      top := fun t ht hts p hp c hc hck => ?_ }
  · have hb' : b.isSole := hsole.resolve_left (by simp [hs])
    have hbm := mem_preorderAll_of_mem hb (isPresent_of_isSole hb')
    have : T = b := h.eq_of_key (mem_preorderAll_of_parts hT hP)
      (mem_preorderAll_of_parts (hm b (mem_preorderAll_cons.mpr (.inr hbm))) hP) hkey
    subst this
    simp [hs] at hb'
  · rcases List.mem_cons.mp ht with rfl | ht
    · simp [hs] at hts
    · have hpP := mem_preorderAll_of_parts (hm p hp) hP
      have hkey := h.sole P hP p hpP t (hu.subset ht) c hc hts hck.symm
      have : P = p := h.eq_of_key hP hpP hkey
      subst this
      exact not_mem_preorderAll_parts (hm P hp)
        (self_mem_preorder (isPresent_of_mem_preorder hPp))

end Node

end Fieldwise
