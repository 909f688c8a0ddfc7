import Fieldwise.Proofs.Storage.Memory
import Fieldwise.Proofs.Session.Run

/-!
# Field-wise assignment refines the assignment of objects

The statements that `Engine.assign` makes for two operands do to the memory of field variables what
the assignment of the operands does to the memory of objects (`Machine.exec_assign`).

The statements are executed one field after the other. After the first `m` of them the memory is
`Machine.mixed σ σ' m`: the fields before the `m`-th are as after the assignment, the others as
before it. One statement takes `mixed m` to `mixed (m + 1)` (`Machine.exec_copy` for a field that is
copied, `Machine.exec_move` for a field pointer that is moved).
-/

namespace Fieldwise

/-! ### Rules of assignment -/

/-- A rule that copies objects is for two operands that stand for objects. -/
theorem CopyRule.denotes_of_copies {target source : Operand} {r : CopyRule}
    (h : r.applies target source = true) (hr : r.movesPointers = false) :
    target.denotes = some .object ∧ source.denotes = some .object := by
  simp only [CopyRule.applies, Bool.and_eq_true, List.contains_iff_mem] at h
  obtain ⟨ht, hs⟩ := h
  cases r <;> simp_all [CopyRule.targets, CopyRule.sources, CopyRule.elements,
    CopyRule.movesPointers, Operand.denotes]
  all_goals grind

/-- A rule that moves pointers is for a pointer variable and an operand that stands for an
address. -/
theorem CopyRule.denotes_of_moves {target source : Operand} {r : CopyRule}
    (h : r.applies target source = true) (hr : r.movesPointers = true) :
    target.shape = (.pointer, none) ∧ source.denotes = some .address := by
  simp only [CopyRule.applies, Bool.and_eq_true, List.contains_iff_mem] at h
  obtain ⟨ht, hs⟩ := h
  cases r <;> simp_all [CopyRule.targets, CopyRule.sources, CopyRule.movesPointers,
    Operand.denotes]
  all_goals grind

/-- Statements for an assignment are those of a rule for its operands. -/
theorem Engine.assign_eq_some {s s' : Session} {target source : Operand} {stmts : List Node}
    (h : s.run (Engine.assign target source) = (.ok (some stmts), s')) :
    ∃ r : CopyRule, r.applies target source = true ∧
      stmts = r.statements s.options target source := by
  unfold Engine.assign at h
  split at h
  · split at h
    · simp at h
    · rename_i r hr
      refine ⟨r, List.find?_some hr, ?_⟩
      obtain ⟨_, t, hn, h⟩ := Session.run_bind_eq_ok.mp h
      obtain ⟨_, _, ho, h⟩ := Session.run_bind_eq_ok.mp h
      have hopt : t.options = s.options := by
        simp only [Engine.note, Session.run_report, Prod.mk.injEq] at hn
        rw [← hn.2]
      cases ho
      rw [← hopt]
      split at h
      · obtain ⟨_, _, -, h⟩ := Session.run_bind_eq_ok.mp h
        simp only [Session.run_pure, Prod.mk.injEq, Except.ok.injEq, Option.some.injEq] at h
        exact h.1.symm
      · simp only [Session.run_pure, Prod.mk.injEq, Except.ok.injEq, Option.some.injEq] at h
        exact h.1.symm
  · simp at h

namespace Machine

variable {a : Aggregate} {V : Type} {M : Machine a V} {σ σ' : M.ObjectStore}
  {target source o : Operand} {k k' : Int} {τ : FieldStore a.fields.length V}

/-! ### What operands denote -/

theorem eval_ident (name : String) : M.eval τ (.ident name) = M.declared? name := by
  simp [eval, Node.ident]

theorem eval_arrayRef {x y : Node} {d : Denoted a.fields.length} {z : Int}
    (hx : M.eval τ x = some d) (hy : M.index τ y = some z) :
    M.eval τ (.arrayRef x y) = d.element? τ z := by
  simp [eval, Node.arrayRef, hx, hy]

theorem eval_address {x : Node} {c : CellRef a.fields.length}
    (hx : M.eval τ x = some (.cells c [])) :
    M.eval τ (.unary .address x) = some (.address c) := by
  simp [eval, Node.unary, hx]

theorem eval_deref {x : Node} {d : Denoted a.fields.length} {c : CellRef a.fields.length}
    (hx : M.eval τ x = some d) (hd : d.address? τ = some c) :
    M.eval τ (.unary .deref x) = some (.cells c []) := by
  simp [eval, Node.unary, hx, hd]

theorem eval_add {x y : Node} {d : Denoted a.fields.length} {c : CellRef a.fields.length} {z : Int}
    (hx : M.eval τ x = some d) (hd : d.address? τ = some c) (hy : M.index τ y = some z) :
    M.eval τ (.binary .add x y) = some (.address (c.shift z)) := by
  simp [eval, Node.binary, hx, hd, hy]

theorem index_copy_eq {x : Node} (h : M.index τ x = some k) : M.index τ x.copy = some k := by
  rw [M.index_copy, h]

/-- The variable for a field is declared. -/
theorem eval_fieldIdent (h : M.Declares o.binding) (i : Fin a.fields.length) :
    M.eval τ (o.fieldIdent (a.fieldAt i)) = some (M.fieldVariable o.binding i) := by
  rw [Operand.fieldIdent, eval_ident, h i]

theorem shift_cellAt (b : Nat) (j z : Int) (i : Fin a.fields.length) :
    (M.cellAt (b, j) i).shift (z * M.width i) = M.cellAt (b, j + z) i := by
  simp only [cellAt, CellRef.shift, Int.add_mul]

variable (M) in
theorem home_eq_cellAt (b : Nat) (i : Fin a.fields.length) :
    (⟨b, i, 0⟩ : CellRef a.fields.length) = M.cellAt (b, 0) i := by
  simp only [cellAt, Int.zero_mul]

/-- The place that the pointer to a field of a binding refers to. -/
theorem address_fieldVariable {i : Fin a.fields.length} {b : Binding} {place : Nat × Int}
    (hb : b.kind = .pointer) (hp : τ.pointers b.name i = (M.image σ).pointers b.name i)
    (h : σ.pointers b.name = some place) :
    (M.fieldVariable b i).address? τ = some (M.cellAt place i) := by
  simp only [fieldVariable, hb, Denoted.address?, hp, image, h, Option.map_some]

section Operands

variable {i : Fin a.fields.length} {b : Nat} {j : Int} {place : Nat × Int}
  (hd : M.Declares o.binding)
  (hp : τ.pointers o.binding.name i = (M.image σ).pointers o.binding.name i)
include hd hp

/-- An element of the variable for a scalar field of an array is one cell. -/
theorem eval_element_scalar (hi : (a.fieldAt i).isArray = false)
    (hk : M.index τ o.subscript = some k)
    (hb : (o.binding.kind = .array ∧ M.home o.binding.name = b ∧ j = 0) ∨
      (o.binding.kind = .pointer ∧ σ.pointers o.binding.name = some (b, j))) :
    M.eval τ (o.element (a.fieldAt i)) = some (.cells (M.cellAt (b, j + k) i) []) := by
  have hs := M.shift_cellAt b j k i
  rw [M.width_scalar i (by simp [hi]), Int.natCast_one, Int.mul_one] at hs
  have he : o.element (a.fieldAt i) = .arrayRef (o.fieldIdent (a.fieldAt i)) o.subscript.copy := by
    simp [Operand.element, hi]
  rw [he, eval_arrayRef (eval_fieldIdent hd i) (index_copy_eq hk)]
  rcases hb with ⟨hb, rfl, rfl⟩ | ⟨hb, hσ⟩
  · simp [fieldVariable, hb, fieldDims, hi, M.home_eq_cellAt, Denoted.element?, hs]
  · have ha := address_fieldVariable hb hp hσ
    simp only [fieldVariable, hb] at ha ⊢
    simp only [Denoted.element?, ha, Option.map_some, hs]

omit hp in
/-- An element of the variable for an array field of an array is a row of cells. -/
theorem eval_element_row (hi : (a.fieldAt i).isArray = true) (hk : M.index τ o.subscript = some k)
    (hb : o.binding.kind = .array) : M.eval τ (o.element (a.fieldAt i)) =
      some (.cells (M.cellAt (M.home o.binding.name, k) i) [M.width i]) := by
  have hs := M.shift_cellAt (M.home o.binding.name) 0 k i
  have he : o.element (a.fieldAt i) =
      .arrayRef (o.fieldIdent (a.fieldAt i)) o.subscript.copy := by
    simp [Operand.element, hb]
  rw [he, eval_arrayRef (eval_fieldIdent hd i) (index_copy_eq hk)]
  simp only [fieldVariable, hb, fieldDims, hi, if_true, M.home_eq_cellAt, Denoted.element?,
    List.prod_singleton, hs, Int.zero_add]

/-- An element of the variable for an array field is a row of cells. -/
theorem eval_element_array (hi : (a.fieldAt i).isArray = true) (hk : M.index τ o.subscript = some k)
    (hb : (o.binding.kind = .array ∧ M.home o.binding.name = b ∧ j = 0) ∨
      (o.binding.kind = .pointer ∧ σ.pointers o.binding.name = some (b, j))) :
    ∃ d, M.eval τ (o.element (a.fieldAt i)) = some d ∧
      d.address? τ = some (M.cellAt (b, j + k) i) := by
  rcases hb with ⟨hb, rfl, rfl⟩ | ⟨hb, hσ⟩
  · rw [Int.zero_add]
    exact ⟨_, eval_element_row hd hi hk hb, rfl⟩
  · have hs := M.shift_cellAt b j k i
    have he : o.element (a.fieldAt i) = .binary .add (o.fieldIdent (a.fieldAt i))
        (.binary .mul o.subscript.copy (a.fieldAt i).type.dimension.copy) := by
      simp [Operand.element, hb, hi]
    have hz : M.index τ (.binary .mul o.subscript.copy (a.fieldAt i).type.dimension.copy) =
        some (k * M.width i) := by
      simp [M.index_mul, index_copy_eq hk, index_copy_eq (M.index_dimension τ i hi)]
    rw [he, eval_add (eval_fieldIdent hd i) (address_fieldVariable hb hp hσ) hz]
    exact ⟨_, rfl, congrArg some hs⟩

/-- A scalar field of the object that an operand stands for is a cell. -/
theorem eval_object_scalar (hi : (a.fieldAt i).isArray = false)
    (hk : o.wrap = some .element → M.index τ o.subscript = some k)
    (ho : σ.objectAt o k = some place) :
    M.eval τ (o.object (a.fieldAt i)) = some (.cells (M.cellAt place i) []) := by
  unfold ObjectStore.objectAt at ho
  split at ho
  case h_1 hb hw =>
    cases ho
    simp only [Operand.object, hw, eval_fieldIdent hd, fieldVariable, hb, fieldDims, hi,
      Bool.false_eq_true, if_false, M.home_eq_cellAt]
  case h_2 hb hw =>
    cases ho
    have := eval_element_scalar hd hp hi (hk hw) (.inl ⟨hb, rfl, rfl⟩)
    simpa only [Operand.object, hw, Int.zero_add] using this
  case h_3 hb hw =>
    simp only [Operand.object, hw, hi, Bool.false_eq_true, if_false]
    exact eval_deref (eval_fieldIdent hd i) (address_fieldVariable hb hp ho)
  case h_4 hb hw =>
    obtain ⟨⟨b, j⟩, hσ, rfl⟩ := Option.map_eq_some_iff.mp ho
    simpa only [Operand.object, hw] using eval_element_scalar hd hp hi (hk hw) (.inr ⟨hb, hσ⟩)
  case h_5 => cases ho

/-- An array field of the object that an operand stands for is a row of cells. -/
theorem eval_object_array (hi : (a.fieldAt i).isArray = true)
    (hk : o.wrap = some .element → M.index τ o.subscript = some k)
    (ho : σ.objectAt o k = some place) :
    ∃ d, M.eval τ (o.object (a.fieldAt i)) = some d ∧ d.address? τ = some (M.cellAt place i) := by
  unfold ObjectStore.objectAt at ho
  split at ho
  case h_1 hb hw =>
    cases ho
    simp only [Operand.object, hw, eval_fieldIdent hd, fieldVariable, hb, fieldDims, hi, if_true,
      M.home_eq_cellAt]
    exact ⟨_, rfl, rfl⟩
  case h_2 hb hw =>
    cases ho
    have := eval_element_array hd hp hi (hk hw) (.inl ⟨hb, rfl, rfl⟩)
    simpa only [Operand.object, hw, Int.zero_add] using this
  case h_3 hb hw =>
    simp only [Operand.object, hw, hi, if_true]
    exact ⟨_, eval_fieldIdent hd i, address_fieldVariable hb hp ho⟩
  case h_4 hb hw =>
    obtain ⟨⟨b, j⟩, hσ, rfl⟩ := Option.map_eq_some_iff.mp ho
    simpa only [Operand.object, hw] using eval_element_array hd hp hi (hk hw) (.inr ⟨hb, hσ⟩)
  case h_5 => cases ho

/-- The address of an element, for one field. -/
theorem eval_elementAddress (hw : o.wrap = some .elementAddress)
    (hk : M.index τ o.subscript = some k)
    (hb : (o.binding.kind = .array ∧ M.home o.binding.name = b ∧ j = 0) ∨
      (o.binding.kind = .pointer ∧ σ.pointers o.binding.name = some (b, j))) :
    ∃ d, M.eval τ (o.address (a.fieldAt i)) = some d ∧
      d.address? τ = some (M.cellAt (b, j + k) i) := by
  cases hi : (a.fieldAt i).isArray with
  | true =>
    simpa only [Operand.address, hw, beq_self_eq_true, if_true, hi] using
      eval_element_array hd hp hi hk hb
  | false =>
    simp only [Operand.address, hw, beq_self_eq_true, if_true, hi, Bool.false_eq_true, if_false]
    exact ⟨_, eval_address (eval_element_scalar hd hp hi hk hb), rfl⟩

/-- The address of a field of the object whose address an operand stands for. -/
theorem eval_address_field (hk : o.wrap = some .elementAddress → M.index τ o.subscript = some k)
    (ho : σ.addressOf o k = some place) :
    ∃ d, M.eval τ (o.address (a.fieldAt i)) = some d ∧ d.address? τ = some (M.cellAt place i) := by
  have hv := eval_fieldIdent (τ := τ) hd i
  unfold ObjectStore.addressOf at ho
  split at ho
  case h_1 hb hw =>
    cases ho
    cases hi : (a.fieldAt i).isArray <;>
      simp only [fieldVariable, hb, fieldDims, hi, if_true, Bool.false_eq_true, if_false] at hv <;>
      simp only [Operand.address, hw, hb, hi, ← M.home_eq_cellAt]
    · exact ⟨_, eval_address hv, rfl⟩
    · exact ⟨_, hv, rfl⟩
  case h_2 hb hw =>
    cases ho
    cases hi : (a.fieldAt i).isArray <;>
      simp only [fieldVariable, hb, fieldDims, hi, if_true, Bool.false_eq_true, if_false] at hv <;>
      simp only [Operand.address, hw, hb, hi, ← M.home_eq_cellAt]
    · exact ⟨_, hv, rfl⟩
    · refine ⟨_, (eval_arrayRef hv (M.index_zero τ)).trans rfl, ?_⟩
      simp only [CellRef.shift, Int.zero_mul, Int.add_zero]
      rfl
  case h_3 hb hw =>
    cases ho
    simpa only [Int.zero_add] using eval_elementAddress hd hp hw (hk hw) (.inl ⟨hb, rfl, rfl⟩)
  case h_4 hb hw =>
    simp only [Operand.address, hw, hb]
    exact ⟨_, hv, address_fieldVariable hb hp ho⟩
  case h_5 hb hw =>
    obtain ⟨⟨b, j⟩, hσ, rfl⟩ := Option.map_eq_some_iff.mp ho
    exact eval_elementAddress hd hp hw (hk hw) (.inr ⟨hb, hσ⟩)
  case h_6 => cases ho

end Operands

/-! ### Between two statements -/

/-- The memory after the statements for the first `m` fields. -/
def mixed (σ σ' : M.ObjectStore) (m : Nat) : FieldStore a.fields.length V where
  cells b i := if i < m then (M.image σ').cells b i else (M.image σ).cells b i
  pointers p i := if i < m then (M.image σ').pointers p i else (M.image σ).pointers p i

theorem mixed_zero (σ σ' : M.ObjectStore) : M.mixed σ σ' 0 = M.image σ := by
  simp [mixed]

theorem mixed_length (σ σ' : M.ObjectStore) : M.mixed σ σ' a.fields.length = M.image σ' := by
  simp [mixed]

/-- The target of an assignment: a pointer variable or the place of an object. -/
theorem ObjectStore.assign_cases (h : σ.assign target k source k' = some σ') :
    (target.shape = (.pointer, none) ∧ ∃ place, σ.addressOf source k' = some place ∧
      σ' = σ.setPointer target.binding.name place) ∨
    (target.shape ≠ (.pointer, none) ∧ ∃ b place x, ∃ j : Nat,
      σ.objectAt target k = some (b, ↑j) ∧ σ.objectAt source k' = some place ∧
      σ.object? place = some x ∧ σ.store (b, ↑j) x = some σ') := by
  unfold assign at h
  split at h
  case isTrue hs =>
    left
    obtain ⟨place, hp, h⟩ := Option.bind_eq_some_iff.mp h
    cases h
    exact ⟨hs, place, hp, rfl⟩
  case isFalse hs =>
    right
    obtain ⟨⟨b, z⟩, ht, h⟩ := Option.bind_eq_some_iff.mp h
    obtain ⟨place, hp, h⟩ := Option.bind_eq_some_iff.mp h
    obtain ⟨x, hx, h⟩ := Option.bind_eq_some_iff.mp h
    have hz : 0 ≤ z := by
      unfold store at h
      split at h
      · exact (by assumption : _ ∧ _).1
      · cases h
    obtain ⟨j, rfl⟩ := Int.eq_ofNat_of_zero_le hz
    exact ⟨hs, b, place, x, j, ht, hp, hx, h⟩

/-- Putting an object into a block. -/
theorem ObjectStore.store_eq_some {b j : Nat} {x : M.Object}
    (h : σ.store (b, ↑j) x = some σ') :
    j < (σ.objects b).length ∧ σ'.pointers = σ.pointers ∧ σ'.objects b = (σ.objects b).set j x ∧
      ∀ b' ≠ b, σ'.objects b' = σ.objects b' := by
  unfold store at h
  split at h
  case isTrue hj =>
    cases h
    refine ⟨hj.2, rfl, by simp, fun b' hb => ?_⟩
    simp [hb]
  case isFalse => cases h

/-- Between two statements of an assignment the memory differs from the one before it only in what
the assignment changes. -/
theorem resembles_mixed (h : σ.assign target k source k' = some σ') (m : Nat) :
    M.Resembles σ target k (M.mixed σ σ' m) := by
  rcases ObjectStore.assign_cases h with
    ⟨hs, place, -, rfl⟩ | ⟨hs, b, place, x, j, ht, -, -, hx⟩
  · constructor
    · intro p i hp
      have : p ≠ target.binding.name := fun hp' => hp ⟨hs, hp'⟩
      simp [mixed, image, ObjectStore.setPointer, this]
    · intro b i j _
      simp [mixed, image, ObjectStore.setPointer]
  · obtain ⟨hj, hp, ho, ho'⟩ := ObjectStore.store_eq_some hx
    constructor
    · intro p i _
      simp [mixed, image, hp]
    · intro b' i l hl
      by_cases hb : b' = b
      · subst hb
        simp only [mixed, image, ho]
        split
        · rw [← M.overwrite_column i x hj]
          refine FieldStore.getElem?_overwrite ?_ ?_
          · exact Nat.le_of_add_right_le (M.row_le_length_column i hj)
          · by_contra hc
            have hw : (j + 1) * M.width i = j * M.width i + M.width i := Nat.succ_mul _ _
            have hlo : j * M.width i ≤ l := by rw [Vector.length_toList] at hc; omega
            have hhi : l < (j + 1) * M.width i := by rw [Vector.length_toList] at hc; omega
            refine hl ⟨hs, b', j, ht, rfl, ?_, ?_⟩ <;> dsimp only <;> exact_mod_cast ‹_›
        · rfl
      · simp [mixed, image, ho' b' hb]

/-! ### One statement -/

theorem offset_cellAt (b j : Nat) (i : Fin a.fields.length) :
    (M.cellAt (b, ↑j) i).offset = ↑(j * M.width i) := by
  simp [cellAt]

/-- The cells of one object in the columns of a block. -/
theorem read_cellAt {i : Fin a.fields.length} {place : Nat × Int} {x : M.Object}
    (hτ : τ.cells place.1 i = M.column i (σ.objects place.1)) (h : σ.object? place = some x) :
    τ.read (M.cellAt place i) (M.width i) = some (x i).toList := by
  obtain ⟨b, z⟩ := place
  unfold ObjectStore.object? at h
  split at h
  case isTrue hz =>
    obtain ⟨j, rfl⟩ := Int.eq_ofNat_of_zero_le hz
    rw [Int.toNat_natCast] at h
    have hj := M.row_le_length_column i (List.getElem?_eq_some_iff.mp h).1
    rw [τ.read_eq_some hτ (offset_cellAt b j i) hj, take_drop_column M i h]
  case isFalse => cases h

/-- Writing the cells of an object to the columns of a block. -/
theorem write_cellAt {i : Fin a.fields.length} {b j : Nat} (x : M.Object)
    (hτ : τ.cells b i = M.column i (σ.objects b)) (hj : j < (σ.objects b).length) :
    τ.write (M.cellAt (b, ↑j) i) (x i).toList = some { τ with
      cells := fun b' i' => if b' = b ∧ i' = i then M.column i ((σ.objects b).set j x)
        else τ.cells b' i' } := by
  have hle : j * M.width i + (x i).toList.length ≤ (τ.cells b i).length := by
    rw [hτ, Vector.length_toList]
    exact M.row_le_length_column i hj
  rw [τ.write_eq_some (offset_cellAt b j i) hle]
  congr 2
  funext b' i'
  by_cases hb : b' = b ∧ i' = i
  · obtain ⟨rfl, rfl⟩ := hb
    simp only [cellAt, and_self, if_true, hτ, M.overwrite_column i' x hj]
  · simp only [cellAt, hb, if_false]

/-- Copying one field of an object to the place of an assignment. -/
theorem copy_mixed {i : Fin a.fields.length} {b j : Nat} {place : Nat × Int} {x : M.Object}
    (hx : σ.object? place = some x) (h : σ.store (b, ↑j) x = some σ') :
    (M.mixed σ σ' i).copy (M.cellAt (b, ↑j) i) (M.cellAt place i) (M.width i) =
      some (M.mixed σ σ' (i + 1)) := by
  obtain ⟨hj, hp, ho, ho'⟩ := ObjectStore.store_eq_some h
  have hcol : ∀ b, (M.mixed σ σ' i).cells b i = M.column i (σ.objects b) := by
    simp [mixed, image]
  simp only [FieldStore.copy, read_cellAt (hcol place.1) hx, Option.bind_eq_bind, Option.bind_some,
    write_cellAt x (hcol b) hj, Option.some.injEq]
  ext1
  · funext b' i'
    have hi : (i' : Nat) < i + 1 ↔ (i' : Nat) < i ∨ i' = i := by rw [Fin.ext_iff]; omega
    by_cases hb : b' = b
    · subst hb
      by_cases hi' : i' = i
      · subst hi'
        simp [mixed, image, ho]
      · simp only [mixed, hi]
        simp [hi']
    · simp [mixed, image, hb, ho' b' hb]
  · funext q i'
    simp [mixed, image, hp]

/-- Moving one field pointer to the place of an assignment. -/
theorem setPointer_mixed {i : Fin a.fields.length} {p : String} {place : Nat × Int}
    (h : σ' = σ.setPointer p place) :
    (M.mixed σ σ' i).setPointer p i (M.cellAt place i) = M.mixed σ σ' (i + 1) := by
  subst h
  ext1
  · funext b i'
    simp [mixed, image, ObjectStore.setPointer, FieldStore.setPointer]
  · funext q i'
    have hi : (i' : Nat) < i + 1 ↔ (i' : Nat) < i ∨ i' = i := by rw [Fin.ext_iff]; omega
    by_cases hq : q = p
    · subst hq
      by_cases hi' : i' = i
      · subst hi'
        simp [mixed, image, ObjectStore.setPointer, FieldStore.setPointer]
      · simp only [mixed, hi]
        simp [image, ObjectStore.setPointer, FieldStore.setPointer, hi']
    · simp [mixed, image, ObjectStore.setPointer, FieldStore.setPointer, hq]

/-- The statement for one field of a rule that copies objects. -/
theorem exec_copy (options : Options) {i : Fin a.fields.length}
    (ht : M.Declares target.binding) (hs : M.Declares source.binding)
    (hk : M.Steady σ target k target k) (hk' : M.Steady σ target k source k')
    (hp : target.shape ≠ (.pointer, none)) (h : σ.assign target k source k' = some σ') :
    M.exec options.copyFunction (M.mixed σ σ' i)
      (options.copyStatement (a.fieldAt i) (target.object (a.fieldAt i))
        (source.object (a.fieldAt i))) = some (M.mixed σ σ' (i + 1)) := by
  have hτ := resembles_mixed h i
  obtain ⟨hs', -⟩ | ⟨-, b, place, x, j, hto, hso, hx, hst⟩ := ObjectStore.assign_cases h
  · exact absurd hs' hp
  have hcopy := copy_mixed (i := i) hx hst
  have htp := hτ.pointers target.binding.name i fun hc => hp hc.1
  have hsp := hτ.pointers source.binding.name i fun hc => hp hc.1
  have hti : target.wrap = some .element → M.index (M.mixed σ σ' i) target.subscript = some k :=
    fun hw => hk (.inl hw) _ hτ
  have hsi : source.wrap = some .element → M.index (M.mixed σ σ' i) source.subscript = some k' :=
    fun hw => hk' (.inl hw) _ hτ
  cases hi : (a.fieldAt i).isArray with
  | false =>
    have h1 := eval_object_scalar ht htp hi hti hto
    have h2 := eval_object_scalar hs hsp hi hsi hso
    rw [M.width_scalar i (by simp [hi])] at hcopy
    simp [Options.copyStatement, hi, Node.assign, exec, h1, h2, hcopy]
  | true =>
    obtain ⟨d, h1, hd⟩ := eval_object_array ht htp hi hti hto
    obtain ⟨d', h2, hd'⟩ := eval_object_array hs hsp hi hsi hso
    have hbytes : M.bytes? (.sizeOfNode (a.fieldAt i).type.typenameOf) =
        some (M.width i * M.cellBytes i) := by
      simp [bytes?, Node.sizeOfNode, Node.unary, Node.typenameOf, M.size_field i hi]
    have hdiv : M.width i * M.cellBytes i / M.cellBytes i = M.width i :=
      Nat.mul_div_cancel _ (M.cellBytes_pos i)
    simp [Options.copyStatement, hi, Node.call, Node.callOf, Node.ident, exec, h1, h2, hd, hd',
      hbytes, cellAt, hdiv]
    exact hcopy

/-- The statement for one field of a rule that moves pointers. -/
theorem exec_move (copyFunction : String) {i : Fin a.fields.length}
    (ht : M.Declares target.binding) (hs : M.Declares source.binding)
    (hk' : M.Steady σ target k source k')
    (hp : target.shape = (.pointer, none)) (h : σ.assign target k source k' = some σ') :
    M.exec copyFunction (M.mixed σ σ' i)
      (.assign (target.address (a.fieldAt i)) (source.address (a.fieldAt i))) =
        some (M.mixed σ σ' (i + 1)) := by
  have hτ := resembles_mixed h i
  obtain ⟨-, place, hso, hσ'⟩ | ⟨hs', -⟩ := ObjectStore.assign_cases h
  · obtain ⟨hb, hw⟩ : target.binding.kind = .pointer ∧ target.wrap = none := by
      simpa [Operand.shape] using hp
    have hta : target.address (a.fieldAt i) = target.fieldIdent (a.fieldAt i) := by
      simp [Operand.address, hw, hb]
    have h1 := eval_fieldIdent (τ := M.mixed σ σ' i) ht i
    simp only [fieldVariable, hb] at h1
    -- The pointer for this field still is as before, also if the source is the target itself.
    obtain ⟨d, h2, hd⟩ := eval_address_field (i := i) hs (τ := M.mixed σ σ' i) (by simp [mixed])
      (fun hw => hk' (.inr hw) _ hτ) hso
    rw [hta]
    simp [Node.assign, exec, h1, h2, hd, setPointer_mixed hσ']
  · exact absurd hp hs'

/-- Statements for the fields in order, each of which leads from one memory of a sequence to the
next. -/
theorem execAll_fields {copyFunction : String} (state : Nat → FieldStore a.fields.length V)
    {statement : Field → Node}
    (h : ∀ i : Fin a.fields.length,
      M.exec copyFunction (state i) (statement (a.fieldAt i)) = some (state (i + 1))) :
    M.execAll copyFunction (state 0) (a.fields.map statement) = some (state a.fields.length) := by
  suffices hm : ∀ n m, m + n = a.fields.length →
      M.execAll copyFunction (state m) ((a.fields.drop m).map statement) =
        some (state a.fields.length) from hm a.fields.length 0 (Nat.zero_add _)
  intro n
  induction n with
  | zero =>
    intro m hm
    obtain rfl : m = a.fields.length := hm
    simp [execAll, List.drop_eq_nil_of_le]
  | succ n ih =>
    intro m hm
    have hlt : m < a.fields.length := by omega
    rw [List.drop_eq_getElem_cons hlt, List.map_cons, execAll, List.foldlM_cons]
    have h1 := h ⟨m, hlt⟩
    simp only [Aggregate.fieldAt, Fin.getElem_fin] at h1
    rw [h1]
    exact ih (m + 1) (by omega)

/-- **Field-wise assignment refines the assignment of objects.** If there are statements for an
assignment, then executing them takes the image of a memory to the image of the memory after the
assignment. -/
theorem exec_assign {s s' : Session} {stmts : List Node}
    (hrun : s.run (Engine.assign target source) = (.ok (some stmts), s'))
    (ha : target.binding.aggregate = a)
    (ht : M.Declares target.binding) (hs : M.Declares source.binding)
    (hk : M.Steady σ target k target k) (hk' : M.Steady σ target k source k')
    (h : σ.assign target k source k' = some σ') :
    M.execAll s.options.copyFunction (M.image σ) stmts = some (M.image σ') := by
  obtain ⟨r, hr, rfl⟩ := Engine.assign_eq_some hrun
  rw [CopyRule.statements, ha, ← mixed_zero σ σ', ← mixed_length σ σ']
  apply execAll_fields (M.mixed σ σ')
  intro i
  cases hm : r.movesPointers with
  | true =>
    have hp := (CopyRule.denotes_of_moves hr hm).1
    simpa only [CopyRule.statement, hm, if_true] using exec_move _ ht hs hk' hp h
  | false =>
    have hp : target.shape ≠ (.pointer, none) := by
      intro hp
      have := (CopyRule.denotes_of_copies hr hm).1
      simp [Operand.denotes, hp] at this
    simpa only [CopyRule.statement, hm, Bool.false_eq_true, if_false] using
      exec_copy s.options ht hs hk hk' hp h

end Machine

/-! ### A scalar and a row -/

namespace Pair

/-- A struct `S` with an integer `v` and an array `w` of two integers. -/
def pair : Aggregate where
  name := "struct S"
  names := ["struct S"]
  struct := .mk { key := some 1 } (.structType (some "S") true) []
  fields :=
    [⟨"v", .build (.typeDecl (some "v") []) [.build (.identifierType ["int"]) []]⟩,
      ⟨"w", .build (.arrayDecl [])
          [.build (.typeDecl (some "w") []) [.build (.identifierType ["int"]) []],
        .intLiteral 2]⟩]

/-- The array `arr` of two such structs. -/
def arr : Binding where
  decl := .build (.decl (some "arr") {}) []
  aggregate := pair
  kind := .array
  scope := .absent
  size := some 2

/-- The pointer `p` to such a struct. -/
def p : Binding where
  decl := .build (.decl (some "p") {}) []
  aggregate := pair
  kind := .pointer
  scope := .absent

/-- The value of a constant, or of a product from those of its factors. -/
def combine : Form → List (Option Int) → Option Int
  | .constant _ text, _ => Numeral.value? text
  | .binaryOp .mul, [x, y] => do return (← x) * (← y)
  | _, _ => none

mutual

/-- The value of an expression of constants and products. -/
def value : Node → Option Int
  | .absent => none
  | .mk _ f ps => combine f (values ps)

/-- The values of expressions. -/
def values : List Node → List (Option Int)
  | [] => []
  | p :: ps => value p :: values ps

end

mutual

theorem value_copy : ∀ e : Node, value e.copy = value e
  | .absent => rfl
  | .mk _ f ps => by rw [Node.copy, value, value, values_copyAll ps]

theorem values_copyAll : ∀ ps : List Node, values (Node.copyAll ps) = values ps
  | [] => rfl
  | p :: ps => by rw [Node.copyAll, values, values, value_copy p, values_copyAll ps]

end

/-- The positions of the fields. -/
def v : Fin pair.fields.length := ⟨0, by decide⟩

@[inherit_doc v]
def w : Fin pair.fields.length := ⟨1, by decide⟩

theorem forall_fields {P : Fin pair.fields.length → Prop} (hv : P v) (hw : P w) (i) : P i :=
  match i with
  | ⟨0, _⟩ => hv
  | ⟨1, _⟩ => hw

/-- The objects of all variables in one block, and integers of four bytes. -/
def machine : Machine pair Int where
  declared? name :=
    if name = "arr_v" then some (.cells ⟨0, v, 0⟩ [2])
    else if name = "arr_w" then some (.cells ⟨0, w, 0⟩ [2, 2])
    else if name = "p_v" then some (.pointer "p" v)
    else if name = "p_w" then some (.pointer "p" w)
    else none
  home _ := 0
  width i := if (pair.fieldAt i).isArray then 2 else 1
  cellBytes _ := 4
  size type := if type.isArray then 8 else 4
  index _ e := value e
  index_copy _ e := value_copy e
  index_zero _ := rfl
  index_mul _ x y := by simp [Node.binary, value, values, combine]
  index_dimension _ := forall_fields (fun h => nomatch h) fun _ => rfl
  width_scalar _ h := if_neg h
  cellBytes_pos _ := by decide
  size_field := forall_fields (fun h => nomatch h) fun _ => rfl

/-- The memory in which `arr` has two different objects and `p` points to the first of them. -/
def memory : machine.ObjectStore where
  objects b := if b = 0 then [fun _ => .replicate _ 7, fun _ => .replicate _ 9] else []
  pointers q := if q = "p" then some (0, 0) else none

/-- A session before any rewriting. -/
def session : Session := { document := .ofRoot .absent, options := {}, names := { taken := [] } }

/-- The operands of `arr[1] = *p`. -/
def target : Operand := arr.operand (some .element) (.intLiteral 1)

@[inherit_doc target]
def source : Operand := p.operand (some .deref) .absent

theorem exec_assign_arr_p : ∃ stmts s' σ',
    session.run (Engine.assign target source) = (.ok (some stmts), s') ∧
    memory.assign target 1 source 0 = some σ' ∧
    machine.execAll "memcpy" (machine.image memory) stmts = some (machine.image σ') := by
  have hrun : ∃ stmts s', session.run (Engine.assign target source) = (.ok (some stmts), s') :=
    ⟨_, _, rfl⟩
  have hσ : ∃ σ', memory.assign target 1 source 0 = some σ' := ⟨_, rfl⟩
  obtain ⟨stmts, s', hrun⟩ := hrun
  obtain ⟨σ', hσ⟩ := hσ
  have hk : machine.Steady memory target 1 target 1 := fun _ _ _ => rfl
  have hk' : machine.Steady memory target 1 source 0 := by
    rintro (hw | hw) <;> exact nomatch hw
  exact ⟨stmts, s', σ', hrun, hσ, Machine.exec_assign hrun rfl (forall_fields rfl rfl)
    (forall_fields rfl rfl) hk hk' hσ⟩

end Pair

end Fieldwise
