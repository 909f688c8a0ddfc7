import Fieldwise.Proofs.Tree.Fragment

/-!
# Definitions at the top of a file

In a program functions are defined by items of the file only (`Node.IsProgram.definesAtTop`). This
stays so when nodes get keys and when a node gets other parts in which no function is defined.
-/

namespace Fieldwise.Node

variable {root n x : Node} {ts us : List Node} {k : Nat} {change : Node → Node}

/-- No function is defined in some trees. -/
def DefinesNone (ts : List Node) : Prop := ∀ x ∈ preorderAll ts, x.isA .funcDef = false

/-- Functions are defined by the parts of a node only, and not below them. -/
def DefinesAtTop (root : Node) : Prop := ∀ t ∈ root.parts, DefinesNone t.parts

/-- **A definition is an item of the file.** -/
theorem DefinesAtTop.mem_parts (h : root.DefinesAtTop) (hf : root.isA .file)
    (hx : x ∈ root.preorder) (hd : x.isA .funcDef) : x ∈ root.parts := by
  rcases (mem_preorder_iff (isPresent_of_isA hf)).mp hx with rfl | hx
  · rw [isA_of_ne hf (by decide)] at hd
    cases hd
  · obtain ⟨t, ht, hx⟩ := mem_preorderAll.mp hx
    rcases (mem_preorder_iff (isPresent_of_preorder hx)).mp hx with rfl | hx
    · exact ht
    · rw [h t ht x hx] at hd
      cases hd

theorem DefinesNone.mono (h : DefinesNone ts) (hs : ∀ t ∈ us, t ∈ ts) :
    DefinesNone us := fun x hx => by
  obtain ⟨u, hu, hx⟩ := mem_preorderAll.mp hx
  exact h x (mem_preorderAll.mpr ⟨u, hs u hu, hx⟩)

theorem definesNone_of_forall (h : ∀ t ∈ ts, DefinesNone [t]) : DefinesNone ts := fun x hx => by
  obtain ⟨t, ht, hx⟩ := mem_preorderAll.mp hx
  exact h t ht x (mem_preorderAll_singleton.mpr hx)

theorem definesNone_singleton (hx : x.isPresent) :
    DefinesNone [x] ↔ x.isA .funcDef = false ∧ DefinesNone x.parts := by
  constructor
  · exact fun h => ⟨h x (mem_preorderAll_of_mem List.mem_cons_self hx), fun y hy =>
      h y (mem_preorderAll_singleton.mpr ((mem_preorder_iff hx).mpr (.inr hy)))⟩
  · rintro ⟨h, h'⟩ y hy
    rcases (mem_preorder_iff hx).mp (mem_preorderAll_singleton.mp hy) with rfl | hy
    · exact h
    · exact h' y hy

theorem definesNone_absent : DefinesNone [absent] := fun _ hx =>
  (not_mem_preorder_absent (mem_preorderAll_singleton.mp hx)).elim

theorem Placed.definesNone (h : Placed ts) : DefinesNone ts := fun x hx => by
  obtain ⟨-, hn⟩ := h x hx
  cases x with
  | absent => rfl
  | mk m f ps => cases f <;> first | rfl | cases hn

namespace IsProgram

variable (h : n.IsProgram)
include h

/-- **Functions are defined at the top of a program.** -/
theorem definesAtTop : n.DefinesAtTop := fun t ht => by
  cases t with
  | absent => exact fun x hx => nomatch hx
  | mk => exact (h.items _ ht rfl).parts.definesNone

/-- Declarations stand where they can in a program. -/
theorem isPlaced (hx : x ∈ n.preorder) : x.IsPlaced := by
  have hfile := h.file
  rcases (mem_preorder_iff (isPresent_of_isA hfile)).mp hx with rfl | hx
  · cases x with
    | absent => cases hfile
    | mk m f ps =>
      cases f with
      | file => exact isPlaced_of_holdsDecl (fun _ => rfl) nofun
      | _ => cases hfile
  · obtain ⟨t, ht, hx⟩ := mem_preorderAll.mp hx
    have hitem := h.items t ht (isPresent_of_preorder hx)
    rcases (mem_preorder_iff (isPresent_of_preorder hx)).mp hx with rfl | hx
    · exact hitem.placed
    · exact (hitem.parts x hx).1

end IsProgram

/-! ### Keys -/

theorem DefinesNone.stampAll (h : DefinesNone ts) (next : Nat) :
    DefinesNone (stampAll next ts).1 := fun y hy => by
  obtain ⟨t', ht', hy⟩ := mem_preorderAll.mp hy
  obtain ⟨t, ht, a, -, rfl⟩ := mem_stampAll ht'
  obtain ⟨x, hx, b, rfl⟩ := exists_of_mem_stamp hy
  rw [isA, cls?_stamp]
  exact h x (mem_preorderAll.mpr ⟨t, ht, hx⟩)

theorem exists_parts_stamp (next : Nat) (t : Node) :
    ∃ a, (t.stamp next).1.parts = (Node.stampAll a t.parts).1 := by
  cases t with
  | absent => exact ⟨next, rfl⟩
  | mk m f ps =>
    obtain ⟨_ | k, line⟩ := m
    · exact ⟨next + 1, rfl⟩
    · exact ⟨next, rfl⟩

theorem DefinesAtTop.stamp (h : root.DefinesAtTop) (next : Nat) :
    (root.stamp next).1.DefinesAtTop := fun t' ht' => by
  obtain ⟨a, ha⟩ := exists_parts_stamp next root
  obtain ⟨t, ht, b, -, rfl⟩ := mem_stampAll (ha ▸ ht')
  obtain ⟨c, hc⟩ := exists_parts_stamp b t
  exact hc ▸ (h t ht).stampAll c

/-! ### Other parts -/

/-- A node of the same class gets other parts, in which no function is defined. -/
theorem DefinesNone.modifyAt {t : Node} (h : DefinesNone [t])
    (hc : ∀ P ∈ t.preorder, P.key = some k → (change P).cls? = P.cls? ∧
      (DefinesNone P.parts → DefinesNone (change P).parts)) :
    DefinesNone [modifyAt k change t] := by
  induction t using induction with
  | h₀ => exact definesNone_absent
  | h m f ps ih =>
    obtain ⟨hself, hparts⟩ := (definesNone_singleton rfl).mp h
    rw [Node.modifyAt]
    split
    · rename_i hk
      obtain ⟨hcls, hrest⟩ := hc _ (self_mem_preorder rfl) (eq_of_beq hk)
      cases hch : change (mk m f ps) with
      | absent => exact definesNone_absent
      | mk m' f' ps' =>
        rw [hch] at hcls hrest
        exact (definesNone_singleton rfl).mpr ⟨by rw [isA, hcls]; exact hself, hrest hparts⟩
    · refine (definesNone_singleton rfl).mpr ⟨hself, definesNone_of_forall fun t' ht' => ?_⟩
      have ht' : t' ∈ modifyAllAt k change ps := ht'
      rw [modifyAllAt_eq_map] at ht'
      obtain ⟨p, hp, rfl⟩ := List.mem_map.mp ht'
      exact ih p hp (hparts.mono fun q hq => List.mem_singleton.mp hq ▸ hp) fun P hP =>
        hc P (mem_preorder_of_mem_parts hp hP)

theorem DefinesAtTop.modifyAt (h : root.DefinesAtTop)
    (hr : root.key = some k → (change root).parts = root.parts)
    (hc : ∀ P, P.key = some k → (change P).cls? = P.cls? ∧
      (DefinesNone P.parts → DefinesNone (change P).parts)) :
    (modifyAt k change root).DefinesAtTop := by
  cases root with
  | absent => exact h
  | mk m f ps =>
    rw [Node.modifyAt]
    split
    · rename_i hk
      exact fun t ht => h t (hr (eq_of_beq hk) ▸ ht)
    · intro t' ht'
      have ht' : t' ∈ modifyAllAt k change ps := ht'
      rw [modifyAllAt_eq_map] at ht'
      obtain ⟨t, ht, rfl⟩ := List.mem_map.mp ht'
      have hparts : DefinesNone t.parts := h t ht
      cases t with
      | absent => exact hparts
      | mk m' f' qs =>
        rw [Node.modifyAt]
        split
        · rename_i hk
          exact (hc (mk m' f' qs) (eq_of_beq hk)).2 hparts
        · refine definesNone_of_forall fun q' hq' => ?_
          have hq' : q' ∈ modifyAllAt k change qs := hq'
          rw [modifyAllAt_eq_map] at hq'
          obtain ⟨q, hq, rfl⟩ := List.mem_map.mp hq'
          exact (hparts.mono fun p hp => List.mem_singleton.mp hp ▸ hq).modifyAt fun P _ => hc P

end Fieldwise.Node
