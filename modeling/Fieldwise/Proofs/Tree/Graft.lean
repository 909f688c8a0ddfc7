import Fieldwise.Proofs.Tree.Draft

/-!
# Changing one node of a program

An edit gives one node other parts, wherever it stands. `Node.Graft next P P'` says of the node `P`
and what it becomes that all parts are either new, with keys from `next` on, or parts of `P` that
were there before. Then the trees are woven as before (`Node.Grafting.woven_map`), what is old hangs
together as before (`Node.Grafting.of_mem_preorder`), and only what is below the parts that were
left out is lost (`Node.Grafting.mem_preorder_modifyAt`).
-/

namespace Fieldwise.Node

variable {k next : Nat} {change : Node → Node} {x y c t P P' : Node} {ts : List Node}

/-! ### Changing the nodes of a key -/

theorem modifyAt_of_key (h : x.key = some k) : modifyAt k change x = change x := by
  cases x with
  | absent => cases h
  | mk m f ps => rw [modifyAt, if_pos (by simpa [key, mark] using h)]

theorem modifyAt_of_key_ne (h : x.key ≠ some k) :
    modifyAt k change x = x.withParts (x.parts.map (modifyAt k change)) := by
  cases x with
  | absent => rfl
  | mk m f ps =>
    rw [modifyAt, if_neg (by simpa [key, mark] using h), modifyAllAt_eq_map]
    rfl

/-- Where the key does not occur, nothing changes. -/
theorem modifyAt_of_not_occurs (h : ∀ y ∈ x.preorder, y.key ≠ some k) :
    modifyAt k change x = x := by
  induction x using induction with
  | h₀ => rfl
  | h m f ps ih =>
    rw [modifyAt_of_key_ne (h _ (self_mem_preorder rfl)), parts, withParts]
    congr 1
    refine (List.map_congr_left fun p hp => ?_).trans (List.map_id ps)
    exact ih p hp fun y hy => h y (mem_preorder_mk.mpr (.inr ⟨p, hp, hy⟩))

theorem key_withParts (x : Node) (ps : List Node) : (x.withParts ps).key = x.key := by
  cases x <;> rfl

theorem form?_withParts (x : Node) (ps : List Node) : (x.withParts ps).form? = x.form? := by
  cases x <;> rfl

theorem cls?_withParts (x : Node) (ps : List Node) : (x.withParts ps).cls? = x.cls? := by
  cases x <;> rfl

theorem parts_withParts (h : x.isPresent) (ps : List Node) : (x.withParts ps).parts = ps := by
  cases x with
  | absent => cases h
  | mk => rfl

theorem parts_withParts_map (x : Node) (f : Node → Node) :
    (x.withParts (x.parts.map f)).parts = x.parts.map f := by
  cases x <;> rfl

/-! ### Grafts -/

/-- A node whose key is among those that are in use below `next`. -/
def IsOld (next : Nat) (x : Node) : Prop := ∃ k, x.key = some k ∧ k < next

theorem isOld_of_key {next : Nat} {x y : Node} (h : IsOld next x) (hk : x.key = y.key) :
    IsOld next y := by
  obtain ⟨j, hj, hlt⟩ := h
  exact ⟨j, hk ▸ hj, hlt⟩

theorem isOld_mono {m n : Nat} {x : Node} (h : IsOld m x) (hmn : m ≤ n) : IsOld n x := by
  obtain ⟨j, hj, hlt⟩ := h
  exact ⟨j, hj, Nat.lt_of_lt_of_le hlt hmn⟩

theorem isPresent_of_isOld {next : Nat} {x : Node} (h : IsOld next x) : x.isPresent := by
  obtain ⟨j, hj, -⟩ := h
  exact isPresent_of_key hj

theorem isOld_stampAll {new : List Node} (hnew : Keyless new) {y : Node} {a : Nat}
    (hy : y ∈ preorderAll (stampAll a new).1) : IsOld (stampAll a new).2 y := by
  obtain ⟨k, hk, ho | hlt⟩ := key_stampAll a new y hy
  · exact (not_occurs_keyless hnew ho).elim
  · exact ⟨k, hk, hlt.2⟩

/-- A node and what it becomes: other parts, of which those that are not new were there before. -/
structure Graft (next : Nat) (P P' : Node) : Prop where
  key : P'.key = P.key
  cls : P'.cls? = P.cls?
  knit : Knit P'.parts
  old : ∀ y ∈ preorderAll P'.parts, IsOld next y → y ∈ preorderAll P.parts
  tops : ∀ c ∈ P'.parts, IsOld next c → c ∈ P.parts
  inner : ∀ y ∈ preorderAll P'.parts, ¬ IsOld next y → ∀ c ∈ y.parts, IsOld next c → c.isSole →
    c ∈ P.parts

/-- The trees, a node of them with its key, and a change that grafts it. -/
structure Grafting (next k : Nat) (change : Node → Node) (P : Node) (ts : List Node) : Prop where
  woven : Woven ts
  bound : ∀ x ∈ preorderAll ts, IsOld next x
  mem : P ∈ preorderAll ts
  key : P.key = some k
  graft : Graft next P (change P)

namespace Grafting

variable (h : Grafting next k change P ts)
include h

/-- The node of the key. -/
theorem eq (hx : x ∈ preorderAll ts) (hk : x.key = some k) : x = P :=
  h.woven.eq_of_key hx h.mem (hk.trans h.key.symm)

theorem key_ne_of_mem_parts (hy : y ∈ preorderAll P.parts) : y.key ≠ some k := by
  intro hk
  have := h.eq (mem_preorderAll_of_parts hy h.mem) hk
  subst this
  exact not_mem_preorderAll_parts hy (self_mem_preorder (isPresent_of_key hk))

/-- What is below the parts of the node stays as it is. -/
theorem modifyAt_eq_self (hy : y ∈ preorderAll P.parts) : modifyAt k change y = y :=
  modifyAt_of_not_occurs fun _ hz =>
    h.key_ne_of_mem_parts (mem_preorderAll_trans hz hy)

theorem key_modifyAt (hx : x ∈ preorderAll ts) : (modifyAt k change x).key = x.key := by
  by_cases hk : x.key = some k
  · rw [modifyAt_of_key hk, h.eq hx hk, h.graft.key]
  · rw [modifyAt_of_key_ne hk, key_withParts]

theorem cls?_modifyAt (hx : x ∈ preorderAll ts) : (modifyAt k change x).cls? = x.cls? := by
  by_cases hk : x.key = some k
  · rw [modifyAt_of_key hk, h.eq hx hk, h.graft.cls]
  · rw [modifyAt_of_key_ne hk, cls?_withParts]

theorem isSole_modifyAt (hx : x ∈ preorderAll ts) : (modifyAt k change x).isSole = x.isSole := by
  rw [isSole, isSole, h.cls?_modifyAt hx]

theorem isPresent_modifyAt (hx : x ∈ preorderAll ts) : (modifyAt k change x).isPresent := by
  obtain ⟨j, hj⟩ := h.woven.exists_key hx
  exact isPresent_of_key ((h.key_modifyAt hx).trans hj)

/-- A part of a changed node is a changed part, or one of those that the node of the key has got. -/
theorem mem_parts_modifyAt (hx : x ∈ preorderAll ts) (hc : c ∈ (modifyAt k change x).parts) :
    (x.key ≠ some k ∧ ∃ c₀ ∈ x.parts, c = modifyAt k change c₀) ∨
      (x = P ∧ c ∈ (change P).parts) := by
  by_cases hk : x.key = some k
  · have hxP := h.eq hx hk
    subst hxP
    rw [modifyAt_of_key hk] at hc
    exact .inr ⟨rfl, hc⟩
  · rw [modifyAt_of_key_ne hk, parts_withParts_map] at hc
    obtain ⟨c₀, hc₀, rfl⟩ := List.mem_map.mp hc
    exact .inl ⟨hk, c₀, hc₀, rfl⟩

/-- The nodes of a changed tree are those of the tree, and new ones. -/
theorem of_mem_preorder (ht : ∀ z ∈ t.preorder, z ∈ preorderAll ts)
    (hy : y ∈ (modifyAt k change t).preorder) :
    (∃ x ∈ t.preorder, y = modifyAt k change x) ∨
      (y ∈ preorderAll (change P).parts ∧ ¬ IsOld next y) := by
  induction t using induction with
  | h₀ => exact absurd hy not_mem_preorder_absent
  | h m f ps ih =>
    have hself : Node.mk m f ps ∈ (Node.mk m f ps).preorder := self_mem_preorder rfl
    rcases (mem_preorder_iff (h.isPresent_modifyAt (ht _ hself))).mp hy with rfl | hy
    · exact .inl ⟨_, hself, rfl⟩
    · obtain ⟨c, hc, hy⟩ := mem_preorderAll.mp hy
      rcases h.mem_parts_modifyAt (ht _ hself) hc with ⟨-, c₀, hc₀, rfl⟩ | ⟨rfl, hc⟩
      · have hsub : ∀ z ∈ c₀.preorder, z ∈ (Node.mk m f ps).preorder := fun z hz =>
          mem_preorder_of_mem_parts hc₀ hz
        rcases ih c₀ hc₀ (fun z hz => ht z (hsub z hz)) hy with ⟨x, hx, rfl⟩ | hy
        · exact .inl ⟨x, hsub x hx, rfl⟩
        · exact .inr hy
      · -- What is old among the parts was below the node before.
        have hym : y ∈ preorderAll (change (Node.mk m f ps)).parts :=
          mem_preorderAll.mpr ⟨c, hc, hy⟩
        by_cases hold : IsOld next y
        · have hyP := h.graft.old y hym hold
          exact .inl ⟨y, (mem_preorder_iff rfl).mpr (.inr hyP), (h.modifyAt_eq_self hyP).symm⟩
        · exact .inr ⟨hym, hold⟩

theorem of_mem_preorderAll (hy : y ∈ preorderAll (ts.map (modifyAt k change))) :
    (∃ x ∈ preorderAll ts, y = modifyAt k change x) ∨
      (y ∈ preorderAll (change P).parts ∧ ¬ IsOld next y) := by
  obtain ⟨t', ht', hy⟩ := mem_preorderAll.mp hy
  obtain ⟨t, ht, rfl⟩ := List.mem_map.mp ht'
  rcases h.of_mem_preorder (fun z hz => mem_preorderAll.mpr ⟨t, ht, hz⟩) hy with ⟨x, hx, rfl⟩ | hy
  · exact .inl ⟨x, mem_preorderAll.mpr ⟨t, ht, hx⟩, rfl⟩
  · exact .inr hy

theorem isOld_modifyAt (hx : x ∈ preorderAll ts) : IsOld next (modifyAt k change x) := by
  obtain ⟨j, hj, hlt⟩ := h.bound x hx
  exact ⟨j, (h.key_modifyAt hx).trans hj, hlt⟩

omit h in
/-- A part of a node that is present is one of the trees' nodes. -/
theorem mem_of_mem_parts (hx : x ∈ preorderAll ts) (hc : c ∈ x.parts) (hp : c.isPresent) :
    c ∈ preorderAll ts :=
  mem_preorderAll_trans (mem_preorder_of_mem_parts hc (self_mem_preorder hp)) hx

/-- Changing a part keeps its key and whether it can stand at several places. -/
theorem apart_modifyAt {a b : Node} (hx : x ∈ preorderAll ts) (ha : a ∈ x.parts) (hb : b ∈ x.parts)
    (hab : Apart a b) : Apart (modifyAt k change a) (modifyAt k change b) := by
  have hsame : ∀ c ∈ x.parts, (modifyAt k change c).key = c.key ∧
      (modifyAt k change c).isSole = c.isSole := by
    intro c hc
    cases c with
    | absent => exact ⟨rfl, rfl⟩
    | mk m f ps =>
      have hm := mem_of_mem_parts hx hc rfl
      exact ⟨h.key_modifyAt hm, h.isSole_modifyAt hm⟩
  intro hs
  rw [(hsame a ha).1, (hsame b hb).1]
  rw [(hsame a ha).2, (hsame b hb).2] at hs
  exact hab hs

/-- A changed part that can stand at one place only is no part of the node of the key. -/
theorem not_mem_parts_of_ne (hx : x ∈ preorderAll ts) (hk : x.key ≠ some k) (hc : c ∈ x.parts)
    (hs : c.isSole) (hy : y ∈ P.parts) : c.key ≠ y.key := by
  intro hky
  exact hk ((h.woven.sole x hx P h.mem c hc y hy hs hky).trans h.key)

/-- **A graft keeps the trees woven.** -/
theorem woven_map : Woven (ts.map (modifyAt k change)) := by
  have hg := h.graft
  -- A changed part that is sole was a sole part before.
  have hpart : ∀ {x c₀}, x ∈ preorderAll ts → c₀ ∈ x.parts → (modifyAt k change c₀).isSole →
      c₀ ∈ preorderAll ts ∧ c₀.isSole ∧ (modifyAt k change c₀).key = c₀.key := by
    intro x c₀ hx hc₀ hs
    cases c₀ with
    | absent => cases hs
    | mk m f ps =>
      have hm := mem_of_mem_parts hx hc₀ rfl
      exact ⟨hm, by rwa [h.isSole_modifyAt hm] at hs, h.key_modifyAt hm⟩
  -- A part of another node does not become one of the changed node or of a new one.
  have hne : ∀ {x c₀ c}, x ∈ preorderAll ts → x.key ≠ some k → c₀ ∈ x.parts →
      (modifyAt k change c₀).isSole → c.key = (modifyAt k change c₀).key →
      (IsOld next c → c ∈ P.parts) → False := by
    intro x c₀ c hx hk hc₀ hs hck hc
    obtain ⟨hm, hs₀, hkey⟩ := hpart hx hc₀ hs
    obtain ⟨j, hj, hlt⟩ := h.bound c₀ hm
    have hcj : c.key = some j := hck.trans (hkey.trans hj)
    exact h.not_mem_parts_of_ne hx hk hc₀ hs₀ (hc ⟨j, hcj, hlt⟩) (hj.trans hcj.symm)
  have hcons : Consistent (ts.map (modifyAt k change)) := by
    intro x hx y hy hs hxy
    rcases h.of_mem_preorderAll hx with ⟨x, hx₀, rfl⟩ | ⟨hx, hxn⟩ <;>
      rcases h.of_mem_preorderAll hy with ⟨y, hy₀, rfl⟩ | ⟨hy, hyn⟩
    · rw [h.key_modifyAt hx₀, h.key_modifyAt hy₀] at hxy
      rw [h.woven.eq_of_key hx₀ hy₀ hxy]
    · obtain ⟨j, hj, hlt⟩ := h.isOld_modifyAt hx₀
      exact (hyn ⟨j, hxy ▸ hj, hlt⟩).elim
    · obtain ⟨j, hj, hlt⟩ := h.isOld_modifyAt hy₀
      exact (hxn ⟨j, hxy ▸ hj, hlt⟩).elim
    · exact hg.knit.consistent x hx y hy hs hxy
  refine ⟨fun x hx => ?_, hcons, ?_, fun p hp => ?_⟩
  · rcases h.of_mem_preorderAll hx with ⟨x, hx₀, rfl⟩ | ⟨hx, -⟩
    · rw [h.key_modifyAt hx₀]
      exact h.woven.keyed x hx₀
    · exact hg.knit.keyed x hx
  · intro p hp q hq c hc c' hc' hs hcc
    have hcp := isPresent_of_isSole hs
    have hcm := mem_of_mem_parts hp hc hcp
    have hs' : c'.isSole := by
      obtain ⟨j, hj⟩ : ∃ j, c.key = some j := by
        rcases h.of_mem_preorderAll hcm with ⟨x, hx, rfl⟩ | ⟨hx, -⟩
        · rw [h.key_modifyAt hx]
          exact h.woven.exists_key hx
        · exact hg.knit.exists_key hx
      have hcm' := mem_of_mem_parts hq hc' (isPresent_of_key (hcc ▸ hj))
      exact hcons c hcm c' hcm' (by simp [hj]) hcc ▸ hs
    rcases h.of_mem_preorderAll hp with ⟨x, hx, rfl⟩ | ⟨hp, hpn⟩
    · rcases h.of_mem_preorderAll hq with ⟨y, hy, rfl⟩ | ⟨hq, hqn⟩
      · rw [h.key_modifyAt hx, h.key_modifyAt hy]
        rcases h.mem_parts_modifyAt hx hc with ⟨hxk, c₀, hc₀, rfl⟩ | ⟨rfl, hcP⟩ <;>
          rcases h.mem_parts_modifyAt hy hc' with ⟨hyk, c₁, hc₁, rfl⟩ | ⟨rfl, hcP'⟩
        · obtain ⟨-, hs₀, hk₀⟩ := hpart hx hc₀ hs
          obtain ⟨-, -, hk₁⟩ := hpart hy hc₁ hs'
          exact h.woven.sole x hx y hy c₀ hc₀ c₁ hc₁ hs₀ (hk₀.symm.trans (hcc.trans hk₁))
        · exact (hne hx hxk hc₀ hs hcc.symm (hg.tops c' hcP')).elim
        · exact (hne hy hyk hc₁ hs' hcc (hg.tops c hcP)).elim
        · rfl
      · rcases h.mem_parts_modifyAt hx hc with ⟨hxk, c₀, hc₀, rfl⟩ | ⟨rfl, hcP⟩
        · exact (hne hx hxk hc₀ hs hcc.symm fun ho => hg.inner q hq hqn c' hc' ho hs').elim
        · exact (hg.knit.top c hcP hs q hq c' hc' hcc.symm).elim
    · rcases h.of_mem_preorderAll hq with ⟨y, hy, rfl⟩ | ⟨hq, -⟩
      · rcases h.mem_parts_modifyAt hy hc' with ⟨hyk, c₁, hc₁, rfl⟩ | ⟨rfl, hcP'⟩
        · exact (hne hy hyk hc₁ hs' hcc fun ho => hg.inner p hp hpn c hc ho hs).elim
        · exact (hg.knit.top c' hcP' hs' p hp c hc hcc).elim
      · exact hg.knit.sole p hp q hq c hc c' hc' hs hcc
  · rcases h.of_mem_preorderAll hp with ⟨x, hx, rfl⟩ | ⟨hp, -⟩
    · by_cases hk : x.key = some k
      · rw [modifyAt_of_key hk, h.eq hx hk]
        exact hg.knit.tops
      · rw [modifyAt_of_key_ne hk, parts_withParts_map, List.pairwise_map]
        exact (h.woven.siblings x hx).imp_of_mem fun ha hb hab => h.apart_modifyAt hx ha hb hab
    · exact hg.knit.siblings p hp

/-- **Only what is below a part that was left out is lost.** -/
theorem mem_preorder_modifyAt {r : Node} (ht : ∀ z ∈ t.preorder, z ∈ preorderAll ts)
    (hkeep : ∀ c ∈ P.parts, c.isPresent → c ∈ preorderAll (change P).parts ∨ c = r)
    (hx : x ∈ t.preorder) :
    modifyAt k change x ∈ (modifyAt k change t).preorder ∨ x ∈ r.preorder := by
  induction t using induction with
  | h₀ => exact absurd hx not_mem_preorder_absent
  | h m f ps ih =>
    have hself : Node.mk m f ps ∈ (Node.mk m f ps).preorder := self_mem_preorder rfl
    have hp := h.isPresent_modifyAt (ht _ hself)
    rcases mem_preorder_mk.mp hx with rfl | ⟨c, hc, hx⟩
    · exact .inl (self_mem_preorder hp)
    · by_cases hk : (Node.mk m f ps).key = some k
      · -- Nothing below the node itself is changed.
        have heq := h.eq (ht _ hself) hk
        rw [modifyAt_of_key hk, heq]
        have hcP : c ∈ P.parts := heq ▸ hc
        have hcp : c.isPresent := by
          cases c with
          | absent => exact absurd hx not_mem_preorder_absent
          | mk => rfl
        rw [h.modifyAt_eq_self (mem_preorderAll.mpr ⟨c, hcP, hx⟩)]
        rcases hkeep c hcP hcp with hkept | rfl
        · rw [modifyAt_of_key hk, heq] at hp
          exact .inl ((mem_preorder_iff hp).mpr (.inr (mem_preorderAll_trans hx hkept)))
        · exact .inr hx
      · have htc : ∀ z ∈ c.preorder, z ∈ preorderAll ts := fun z hz =>
          ht z (mem_preorder_of_mem_parts hc hz)
        refine (ih c hc htc hx).imp_left fun hx => ?_
        rw [modifyAt_of_key_ne hk]
        exact mem_preorder_of_mem_parts (t := (Node.mk m f ps).withParts _)
          (List.mem_map_of_mem hc) hx

/-- A part that is left out, and can stand at one place only, is in the trees no more. -/
theorem key_ne_of_left_out {r : Node} (ht : ∀ z ∈ t.preorder, z ∈ preorderAll ts) (hr : r ∈ P.parts)
    (hs : r.isSole) (hn : r ∉ preorderAll (change P).parts) (htop : r.key ≠ t.key)
    (hx : x ∈ (modifyAt k change t).preorder) : x.key ≠ r.key := by
  intro hk
  have hrm : r ∈ preorderAll ts := mem_of_mem_parts h.mem hr (isPresent_of_isSole hs)
  have hself : ∀ y ∈ preorderAll ts, y.key = r.key → modifyAt k change y = r := fun y hy hyk => by
    rw [h.woven.eq_of_key hy hrm hyk]
    exact h.modifyAt_eq_self (mem_preorderAll_of_mem hr (isPresent_of_isSole hs))
  have hold : ∀ y, y.key = r.key → IsOld next y := fun y hyk => by
    obtain ⟨j, hj, hlt⟩ := h.bound r hrm
    exact ⟨j, hyk.trans hj, hlt⟩
  rcases h.of_mem_preorder ht hx with ⟨y, hy, rfl⟩ | ⟨-, hnew⟩
  · have hyk : y.key = r.key := (h.key_modifyAt (ht y hy)).symm.trans hk
    obtain rfl : r = modifyAt k change y := (hself y (ht y hy) hyk).symm
    have hp := isPresent_of_preorder hx
    have htp : t.isPresent := isPresent_of_preorder hy
    -- It is not the root, and so it is a part of some node.
    rcases (mem_preorder_iff hp).mp hx with heq | hx
    · exact htop ((congrArg Node.key heq).trans (h.key_modifyAt (ht t (self_mem_preorder htp))))
    · obtain ⟨q, hq, hrq⟩ := exists_parent_of_mem hx
      rcases h.of_mem_preorder ht hq with ⟨p, hp, rfl⟩ | ⟨hq, -⟩
      · rcases h.mem_parts_modifyAt (ht p hp) hrq with ⟨hqk, c, hc, hcr⟩ | ⟨rfl, hrq⟩
        · have hcp : c.isPresent := by
            cases c with
            | absent =>
              rw [hcr] at hs
              cases hs
            | mk => rfl
          have hcm := mem_of_mem_parts (ht p hp) hc hcp
          have hck : c.key = (modifyAt k change y).key := by rw [hcr, h.key_modifyAt hcm]
          have hcs : c.isSole := by rwa [← h.isSole_modifyAt hcm, ← hcr]
          exact h.not_mem_parts_of_ne (ht p hp) hqk hc hcs hr hck
        · exact hn (mem_preorderAll_of_mem hrq (isPresent_of_isSole hs))
      · exact hn (mem_preorderAll_trans (mem_preorder_of_mem_parts hrq
          (self_mem_preorder (isPresent_of_isSole hs))) hq)
  · exact hnew (hold x hk)

end Grafting

end Fieldwise.Node
