import Fieldwise.Aggregate.Operand
import Mathlib.Algebra.BigOperators.Group.List.Basic

/-!
# Objects and their fields in memory

Two views of the memory that holds the objects of one aggregate.

* `ObjectStore` has whole objects: a block is a sequence of them, and a pointer variable refers to
  a place in a block by the number of objects before it. A variable that is an object is a block of
  one object.
* `FieldStore` has one block of cells for each field of each block of objects, where the rows of an
  array field follow each other, and one pointer variable for each field of a pointer variable.

`Machine.image` takes a store of objects apart: all field pointers of a variable refer to the same
block and object, so their offsets differ only by the lengths of rows.

`ObjectStore.assign` is the assignment of one operand to another. `Machine.exec` executes the
statements that field-wise code is made of: assignments of cells and of field pointers, and calls of
the function that copies bytes. What a subscript is worth and how large a type is are parts of a
`Machine`, with the rules of C that matter here.
-/

namespace Fieldwise

/-- The field at a position. -/
def Aggregate.fieldAt (a : Aggregate) (i : Fin a.fields.length) : Field := a.fields[i]

/-- A cell of a block of cells. A cell holds a scalar, or one element of an array field. -/
structure CellRef (n : Nat) where
  block : Nat
  field : Fin n
  offset : Int

/-- The cell some cells further on. -/
def CellRef.shift {n : Nat} (c : CellRef n) (k : Int) : CellRef n :=
  { c with offset := c.offset + k }

/-- The memory of field variables: the cells of each block and field, and the field pointers. -/
@[ext] structure FieldStore (n : Nat) (V : Type) where
  cells : Nat → Fin n → List V
  pointers : String → Fin n → Option (CellRef n)

/-- What an expression denotes: a cell or an array of cells with its dimensions, a pointer variable,
or the address of a cell. -/
inductive Denoted (n : Nat) where
  | cells (first : CellRef n) (dims : List Nat)
  | pointer (binding : String) (field : Fin n)
  | address (cell : CellRef n)

/-- How the code for an aggregate is understood: what the field variables are, in which block the
objects of a variable are, how many cells a field takes and how many bytes a cell, and the values of
subscripts in a memory. -/
structure Machine (a : Aggregate) (V : Type) where
  declared? : String → Option (Denoted a.fields.length)
  home : String → Nat
  width : Fin a.fields.length → Nat
  cellBytes : Fin a.fields.length → Nat
  size : Node → Nat
  index : FieldStore a.fields.length V → Node → Option Int
  index_copy : ∀ τ e, index τ e.copy = index τ e
  index_zero : ∀ τ, index τ (.intLiteral 0) = some 0
  index_mul : ∀ τ x y, index τ (.binary .mul x y) = do return (← index τ x) * (← index τ y)
  /-- The dimension of an array field is a constant. -/
  index_dimension : ∀ τ i, (a.fieldAt i).isArray →
    index τ (a.fieldAt i).type.dimension = some ↑(width i)
  width_scalar : ∀ i, ¬ (a.fieldAt i).isArray → width i = 1
  cellBytes_pos : ∀ i, 0 < cellBytes i
  size_field : ∀ i, (a.fieldAt i).isArray →
    size ((a.fieldAt i).type.rename none) = width i * cellBytes i

/-! ### Memory of cells -/

namespace FieldStore

variable {n : Nat} {V : Type} (τ : FieldStore n V)

/-- Some cells one after the other, all within their block. -/
def read (c : CellRef n) (count : Nat) : Option (List V) :=
  if 0 ≤ c.offset ∧ c.offset.toNat + count ≤ (τ.cells c.block c.field).length then
    some (((τ.cells c.block c.field).drop c.offset.toNat).take count)
  else none

theorem read_eq_some {c : CellRef n} {vs : List V} {j count : Nat}
    (hv : τ.cells c.block c.field = vs) (hc : c.offset = ↑j) (h : j + count ≤ vs.length) :
    τ.read c count = some ((vs.drop j).take count) := by
  subst hv
  rw [read, hc, Int.toNat_natCast, if_pos ⟨by omega, h⟩]

/-- A list with some entries in the place of those from an index on. -/
def overwrite (vs new : List V) (i : Nat) : List V :=
  vs.take i ++ new ++ vs.drop (i + new.length)

theorem overwrite_append_right (us vs new : List V) (i : Nat) :
    overwrite (us ++ vs) new (us.length + i) = us ++ overwrite vs new i := by
  simp only [overwrite, List.take_length_add_append, Nat.add_assoc, List.drop_length_add_append,
    List.append_assoc]

theorem overwrite_append_left {us new : List V} (vs : List V) (h : us.length = new.length) :
    overwrite (us ++ vs) new 0 = new ++ vs := by
  simp only [overwrite, List.take_zero, List.nil_append, Nat.zero_add, ← h, List.drop_left]

/-- The entries that are not among those overwritten stay. -/
theorem getElem?_overwrite {vs new : List V} {i l : Nat} (h : i ≤ vs.length)
    (hl : l < i ∨ i + new.length ≤ l) : (overwrite vs new i)[l]? = vs[l]? := by
  have ht : (vs.take i).length = i := by rw [List.length_take]; omega
  rcases hl with hl | hl
  · rw [overwrite, List.append_assoc, List.getElem?_append_left (by omega),
      List.getElem?_take_of_lt hl]
  · rw [overwrite, List.getElem?_append_right (by rw [List.length_append]; omega),
      List.getElem?_drop, List.length_append, ht]
    congr 1
    omega

/-- Puts values into cells one after the other, all within their block. -/
def write (c : CellRef n) (new : List V) : Option (FieldStore n V) :=
  if 0 ≤ c.offset ∧ c.offset.toNat + new.length ≤ (τ.cells c.block c.field).length then
    some { τ with cells := fun b i =>
      if b = c.block ∧ i = c.field then overwrite (τ.cells b i) new c.offset.toNat
      else τ.cells b i }
  else none

theorem write_eq_some {c : CellRef n} {new : List V} {j : Nat} (hc : c.offset = ↑j)
    (h : j + new.length ≤ (τ.cells c.block c.field).length) :
    τ.write c new = some { τ with cells := fun b i =>
      if b = c.block ∧ i = c.field then overwrite (τ.cells b i) new j else τ.cells b i } := by
  rw [write, hc, Int.toNat_natCast, if_pos ⟨by omega, h⟩]

/-- Copies some cells. -/
def copy (target source : CellRef n) (count : Nat) : Option (FieldStore n V) := do
  τ.write target (← τ.read source count)

/-- Makes a field pointer refer to a cell. -/
def setPointer (p : String) (i : Fin n) (c : CellRef n) : FieldStore n V :=
  { τ with pointers := fun q j => if q = p ∧ j = i then some c else τ.pointers q j }

end FieldStore

/-! ### Execution of field-wise code -/

namespace Denoted

variable {n : Nat} {V : Type} (τ : FieldStore n V)

/-- The cell that a pointer refers to. An array of cells stands for a pointer to its first cell. -/
def address? : Denoted n → Option (CellRef n)
  | cells c [_] => some c
  | cells _ _ => none
  | pointer p i => τ.pointers p i
  | address c => some c

/-- An element of an array, or of the cells that a pointer refers to. -/
def element? (d : Denoted n) (k : Int) : Option (Denoted n) :=
  match d with
  | cells c (_ :: dims) => some (cells (c.shift (k * dims.prod)) dims)
  | d => (d.address? τ).map fun c => cells (c.shift k) []

end Denoted

namespace Machine

variable {a : Aggregate} {V : Type} (M : Machine a V)

/-- What an expression over field variables denotes. -/
def eval (τ : FieldStore a.fields.length V) : Node → Option (Denoted a.fields.length)
  | .mk _ (.ident name) _ => M.declared? name
  | .mk _ .arrayRef [array, subscript] => do
    (← eval τ array).element? τ (← M.index τ subscript)
  | .mk _ (.unaryOp .deref) [e] => do return .cells (← (← eval τ e).address? τ) []
  | .mk _ (.unaryOp .address) [e] => do
    match ← eval τ e with
    | .cells c [] => return .address c
    | _ => none
  | .mk _ (.binaryOp .add) [left, right] => do
    return .address ((← (← eval τ left).address? τ).shift (← M.index τ right))
  | _ => none

/-- The number of bytes that the size of a type stands for. -/
def bytes? : Node → Option Nat
  | .mk _ (.unaryOp .sizeof) [.mk _ (.typename _) [type]] => some (M.size type)
  | _ => none

/-- Executes one statement: the assignment of a cell or of a field pointer, or a call of the
function that copies bytes, here whole cells. -/
def exec (copyFunction : String) (τ : FieldStore a.fields.length V) :
    Node → Option (FieldStore a.fields.length V)
  | .mk _ (.assignment .plain) [target, value] => do
    let d ← M.eval τ value
    match ← M.eval τ target, d with
    | .pointer p i, d => return τ.setPointer p i (← d.address? τ)
    | .cells c [], .cells c' [] => τ.copy c c' 1
    | _, _ => none
  | .mk _ .funcCall [.mk _ (.ident name) _, .mk _ .exprList [target, source, size]] => do
    let c ← (← M.eval τ target).address? τ
    let c' ← (← M.eval τ source).address? τ
    let bytes ← M.bytes? size
    if name = copyFunction ∧ M.cellBytes c.field ∣ bytes then
      τ.copy c c' (bytes / M.cellBytes c.field)
    else none
  | _ => none

/-- Executes statements one after the other. -/
def execAll (copyFunction : String) (τ : FieldStore a.fields.length V) (stmts : List Node) :
    Option (FieldStore a.fields.length V) :=
  stmts.foldlM (M.exec copyFunction) τ

/-! ### Memory of objects -/

/-- An object: for each field its cells. -/
abbrev Object (M : Machine a V) : Type := (i : Fin a.fields.length) → Vector V (M.width i)

/-- The memory before objects are taken apart: blocks of objects, and pointer variables, each with
the block that it refers to and the number of objects before the place in it. -/
@[ext] structure ObjectStore (M : Machine a V) where
  objects : Nat → List M.Object
  pointers : String → Option (Nat × Int)

namespace ObjectStore

variable {M} (σ : M.ObjectStore)

/-- The object at a place of a block. -/
def object? (place : Nat × Int) : Option M.Object :=
  if 0 ≤ place.2 then (σ.objects place.1)[place.2.toNat]? else none

/-- Puts an object at a place of a block. -/
def store (place : Nat × Int) (x : M.Object) : Option M.ObjectStore :=
  if 0 ≤ place.2 ∧ place.2.toNat < (σ.objects place.1).length then
    some { σ with objects := fun b =>
      if b = place.1 then (σ.objects b).set place.2.toNat x else σ.objects b }
  else none

/-- Makes a pointer variable refer to a place. -/
def setPointer (p : String) (place : Nat × Int) : M.ObjectStore :=
  { σ with pointers := fun q => if q = p then some place else σ.pointers q }

/-- The place of the object that an operand stands for, where `k` is its subscript. -/
def objectAt (o : Operand) (k : Int) : Option (Nat × Int) :=
  match o.binding.kind, o.wrap with
  | .value, none => some (M.home o.binding.name, 0)
  | .array, some .element => some (M.home o.binding.name, k)
  | .pointer, some .deref => σ.pointers o.binding.name
  | .pointer, some .element => (σ.pointers o.binding.name).map fun (b, j) => (b, j + k)
  | _, _ => none

/-- The place whose address an operand stands for, where `k` is its subscript. -/
def addressOf (o : Operand) (k : Int) : Option (Nat × Int) :=
  match o.binding.kind, o.wrap with
  | .value, some .address | .array, none => some (M.home o.binding.name, 0)
  | .array, some .elementAddress => some (M.home o.binding.name, k)
  | .pointer, none => σ.pointers o.binding.name
  | .pointer, some .elementAddress => (σ.pointers o.binding.name).map fun (b, j) => (b, j + k)
  | _, _ => none

/-- The assignment of an operand to another one: a pointer variable is made to refer to a place, and
any other target gets a copy of an object. -/
def assign (target : Operand) (k : Int) (source : Operand) (k' : Int) : Option M.ObjectStore :=
  if target.shape = (.pointer, none) then do
    return σ.setPointer target.binding.name (← σ.addressOf source k')
  else do
    σ.store (← σ.objectAt target k) (← σ.object? (← σ.objectAt source k'))

end ObjectStore

/-! ### Taking objects apart -/

/-- The cells of one field of the objects of a block, object after object. -/
def column (i : Fin a.fields.length) (objects : List M.Object) : List V :=
  objects.flatMap fun x => (x i).toList

/-- The field pointer for a place. -/
def cellAt (place : Nat × Int) (i : Fin a.fields.length) : CellRef a.fields.length :=
  ⟨place.1, i, place.2 * M.width i⟩

theorem length_column (i : Fin a.fields.length) (xs : List M.Object) :
    (M.column i xs).length = xs.length * M.width i := by
  induction xs with
  | nil => simp [column]
  | cons x xs ih =>
    simp only [column, List.flatMap_cons, List.length_append, Vector.length_toList,
      List.length_cons] at ih ⊢
    rw [ih, Nat.add_mul, Nat.one_mul, Nat.add_comm]

theorem column_cons (i : Fin a.fields.length) (x : M.Object) (xs : List M.Object) :
    M.column i (x :: xs) = (x i).toList ++ M.column i xs := rfl

/-- The cells of the objects after the first come after those of the first. -/
theorem succ_mul_width (i : Fin a.fields.length) (x : M.Object) (j : Nat) :
    (j + 1) * M.width i = (x i).toList.length + j * M.width i := by
  rw [Vector.length_toList, Nat.add_mul, Nat.one_mul, Nat.add_comm]

/-- The cells of an object of a block are within the column. -/
theorem row_le_length_column (i : Fin a.fields.length) {xs : List M.Object} {j : Nat}
    (h : j < xs.length) : j * M.width i + M.width i ≤ (M.column i xs).length := by
  rw [length_column, ← Nat.succ_mul]
  exact Nat.mul_le_mul_right _ h

/-- The cells of one object in a column. -/
theorem take_drop_column (i : Fin a.fields.length) {xs : List M.Object} {j : Nat}
    {x : M.Object} (h : xs[j]? = some x) :
    ((M.column i xs).drop (j * M.width i)).take (M.width i) = (x i).toList := by
  induction xs generalizing j with
  | nil => simp at h
  | cons y ys ih =>
    cases j with
    | zero =>
      obtain rfl : y = x := by simpa using h
      rw [Nat.zero_mul, List.drop_zero, column_cons]
      exact List.take_left' Vector.length_toList
    | succ j =>
      rw [column_cons, M.succ_mul_width i y, List.drop_length_add_append]
      exact ih (by simpa using h)

/-- Putting an object into a block overwrites its cells. -/
theorem overwrite_column (i : Fin a.fields.length) {xs : List M.Object} {j : Nat}
    (x : M.Object) (h : j < xs.length) :
    FieldStore.overwrite (M.column i xs) (x i).toList (j * M.width i) =
      M.column i (xs.set j x) := by
  induction xs generalizing j with
  | nil => simp at h
  | cons y ys ih =>
    cases j with
    | zero =>
      rw [Nat.zero_mul, column_cons]
      exact FieldStore.overwrite_append_left _ (by simp)
    | succ j =>
      rw [column_cons, M.succ_mul_width i y, FieldStore.overwrite_append_right,
        ih (by simpa using h), List.set_cons_succ, column_cons]

/-- The memory of field variables for a memory of objects. -/
def image (σ : M.ObjectStore) : FieldStore a.fields.length V where
  cells b i := M.column i (σ.objects b)
  pointers p i := (σ.pointers p).map (M.cellAt · i)

/-- The dimensions of the variable for a field, for bindings that are objects or arrays. -/
def fieldDims (i : Fin a.fields.length) : List Nat :=
  if (a.fieldAt i).isArray then [M.width i] else []

/-- The variable for a field of a binding. -/
def fieldVariable (b : Binding) (i : Fin a.fields.length) : Denoted a.fields.length :=
  match b.kind with
  | .value => .cells ⟨M.home b.name, i, 0⟩ (M.fieldDims i)
  | .array => .cells ⟨M.home b.name, i, 0⟩ ((b.size.getD 0).toNat :: M.fieldDims i)
  | .pointer => .pointer b.name i

/-- The field variables of a binding are in scope under their names. -/
def Declares (b : Binding) : Prop :=
  ∀ i : Fin a.fields.length, M.declared? (b.fieldName (a.fieldAt i)) = some (M.fieldVariable b i)

/-- Whether the assignment to an operand changes a cell of the object at its place. -/
def Touches (σ : M.ObjectStore) (target : Operand) (k : Int) (c : CellRef a.fields.length) : Prop :=
  target.shape ≠ (.pointer, none) ∧
    ∃ b j, σ.objectAt target k = some (b, j) ∧ c.block = b ∧
      j * M.width c.field ≤ c.offset ∧ c.offset < (j + 1) * M.width c.field

/-- A memory that differs from the one before an assignment only in what the assignment changes:
the field pointers of a pointer variable, or the cells of one object. -/
structure Resembles (σ : M.ObjectStore) (target : Operand) (k : Int)
    (τ : FieldStore a.fields.length V) : Prop where
  pointers : ∀ p i, ¬ (target.shape = (.pointer, none) ∧ p = target.binding.name) →
    τ.pointers p i = (M.image σ).pointers p i
  cells : ∀ b i (j : Nat), ¬ M.Touches σ target k ⟨b, i, ↑j⟩ →
    (τ.cells b i)[j]? = ((M.image σ).cells b i)[j]?

/-- The subscript of an operand is worth `k'` throughout an assignment: it reads nothing that the
assignment changes. -/
def Steady (σ : M.ObjectStore) (target : Operand) (k : Int) (o : Operand) (k' : Int) : Prop :=
  o.wrap = some .element ∨ o.wrap = some .elementAddress →
    ∀ τ, M.Resembles σ target k τ → M.index τ o.subscript = some k'

end Machine

end Fieldwise
