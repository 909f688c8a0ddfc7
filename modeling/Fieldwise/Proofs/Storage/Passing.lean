import Fieldwise.Proofs.Session.Outcome
import Fieldwise.Proofs.Session.Sources
import Fieldwise.Proofs.Storage.Selection

/-!
# Objects passed by value

A parameter that is an object becomes a parameter for each field, and an argument becomes what it is
for each field. Arguments are passed as if they were assigned to the parameters
(`Machine.passing`), and C makes a pointer of a parameter with the type of an array
(`Machine.parameterVariable`).

The function has the values of the fields then, and a scalar that it assigns is its own. An array is
that of the caller. So what the function assigns to its parameters does not change the memory of the
caller just if the aggregate has no arrays (`Machine.passes_by_value_iff`).
-/

namespace Fieldwise

open Node

/-- The variable for a field of an object is an array just if the field is one. -/
theorem Binding.isArray_fieldType {b : Binding} (hb : b.kind = .value) (f : Field) :
    (b.fieldType f).isArray = f.isArray := by
  unfold Binding.fieldType
  rw [hb]
  simp only [Node.isArray, Field.isArray, isA, rename, cls?_addQuals, cls?_setName, cls?_copy]

namespace Machine

variable {a : Aggregate} {V : Type} {M : Machine a V} {σ : M.ObjectStore} {b : Binding}
  {o : Operand} {k : Int} {place : Nat × Int} {x : M.Object} {τ τ' : FieldStore a.fields.length V}

/-! ### Parameters and arguments -/

/-- What the parameter for a field of an object denotes in the function. A parameter that is
declared as an array is a pointer. -/
def parameterVariable (M : Machine a V) (b : Binding) (i : Fin a.fields.length) :
    Denoted a.fields.length :=
  if (b.fieldType (a.fieldAt i)).isArray then .pointer b.name i
  else .cells ⟨M.home b.name, i, 0⟩ []

/-- The parameters for the fields of an object are in scope under their names. -/
def DeclaresParameter (M : Machine a V) (b : Binding) : Prop :=
  ∀ i : Fin a.fields.length,
    M.declared? (b.fieldName (a.fieldAt i)) = some (M.parameterVariable b i)

/-- An operand is passed for an object: each parameter is given its argument. -/
def passing (a : Aggregate) (b : Binding) (o : Operand) : List Node :=
  a.fields.map fun f => .assign (.ident (b.fieldName f)) (o.expression f)

/-- A memory that differs from another one at most in the variables of a parameter. -/
structure AgreesOutside (M : Machine a V) (b : Binding) (τ τ' : FieldStore a.fields.length V) :
    Prop where
  cells : ∀ c i, c ≠ M.home b.name → τ'.cells c i = τ.cells c i
  pointers : ∀ p i, p ≠ b.name → τ'.pointers p i = τ.pointers p i

/-- The ways in which a function names one cell of a parameter: by the parameter itself, by an
element of it, or by what it points to. -/
inductive NamesCell (b : Binding) (f : Field) : Node → Prop where
  | name : NamesCell b f (.ident (b.fieldName f))
  | element (subscript : Node) :
    NamesCell b f (.arrayRef (.ident (b.fieldName f)) subscript)
  | deref : NamesCell b f (.unary .deref (.ident (b.fieldName f)))

/-- No assignment to a cell of a parameter changes anything but the variables of the parameter. -/
def KeepsCaller (M : Machine a V) (b : Binding) (τ : FieldStore a.fields.length V) : Prop :=
  ∀ (i : Fin a.fields.length) (target : Node) (c : CellRef a.fields.length) (v : V)
    (τ' : FieldStore a.fields.length V),
    NamesCell b (a.fieldAt i) target → M.eval τ target = some (.cells c []) →
      τ.write c [v] = some τ' → M.AgreesOutside b τ τ'

theorem parameterVariable_scalar {i : Fin a.fields.length} (hb : b.kind = .value)
    (hi : (a.fieldAt i).isArray = false) :
    M.parameterVariable b i = .cells ⟨M.home b.name, i, 0⟩ [] := by
  rw [parameterVariable, Binding.isArray_fieldType hb, hi, if_neg Bool.false_ne_true]

theorem parameterVariable_array {i : Fin a.fields.length} (hb : b.kind = .value)
    (hi : (a.fieldAt i).isArray = true) : M.parameterVariable b i = .pointer b.name i := by
  rw [parameterVariable, Binding.isArray_fieldType hb, hi, if_pos rfl]

/-! ### Passing an argument -/

/-- An operand is passed for an object. It stands for the object `x` of the caller, the parameter
has memory of its own, and no subscript depends on the parameter. -/
structure Passes (M : Machine a V) (σ : M.ObjectStore) (b : Binding) (o : Operand) (k : Int)
    (place : Nat × Int) (x : M.Object) : Prop where
  kind : b.kind = .value
  parameter : M.DeclaresParameter b
  argument : M.Declares o.binding
  name : o.binding.name ≠ b.name
  objectAt : σ.objectAt o k = some place
  object : σ.object? place = some x
  apart : place.1 ≠ M.home b.name
  own : 0 < (σ.objects (M.home b.name)).length
  index : o.wrap = some .element →
    ∀ τ, M.AgreesOutside b (M.image σ) τ → M.index τ o.subscript = some k

/-- The memory after the arguments for the first `m` fields have been passed. -/
def passed (σ : M.ObjectStore) (b : Binding) (place : Nat × Int) (x : M.Object) (m : Nat) :
    FieldStore a.fields.length V where
  cells c i :=
    if c = M.home b.name ∧ (i : Nat) < m ∧ (a.fieldAt i).isArray = false then
      M.column i ((σ.objects c).set 0 x)
    else (M.image σ).cells c i
  pointers p i :=
    if p = b.name ∧ (i : Nat) < m ∧ (a.fieldAt i).isArray = true then some (M.cellAt place i)
    else (M.image σ).pointers p i

theorem passed_zero (σ : M.ObjectStore) (b : Binding) (place : Nat × Int) (x : M.Object) :
    passed σ b place x 0 = M.image σ := by
  simp [passed]

theorem agreesOutside_passed (σ : M.ObjectStore) (b : Binding) (place : Nat × Int) (x : M.Object)
    (m : Nat) : M.AgreesOutside b (M.image σ) (passed σ b place x m) where
  cells _ _ hc := if_neg fun h => hc h.1
  pointers _ _ hp := if_neg fun h => hp h.1

/-- Passing a field leaves the parameters for the others as they are. -/
theorem passed_succ_of_ne {i j : Fin a.fields.length} (hj : j ≠ i) :
    (∀ c, (passed σ b place x (i + 1)).cells c j = (passed σ b place x i).cells c j) ∧
      ∀ p, (passed σ b place x (i + 1)).pointers p j = (passed σ b place x i).pointers p j := by
  have hlt : (j : Nat) < i + 1 ↔ (j : Nat) < i := by
    have := Fin.val_ne_of_ne hj
    omega
  simp only [passed, hlt, implies_true, and_self]

namespace Passes

variable (h : M.Passes σ b o k place x) {i : Fin a.fields.length}
include h

/-- A scalar is copied into the cell of its parameter. -/
theorem exec_scalar (copyFunction : String) (hi : (a.fieldAt i).isArray = false) :
    M.exec copyFunction (passed σ b place x i)
      (.assign (.ident (b.fieldName (a.fieldAt i))) (o.object (a.fieldAt i))) =
        some (passed σ b place x (i + 1)) := by
  have hag := agreesOutside_passed σ b place x i
  have ht : M.eval (passed σ b place x i) (.ident (b.fieldName (a.fieldAt i))) =
      some (.cells (M.cellAt (M.home b.name, 0) i) []) := by
    rw [eval_ident, h.parameter i, parameterVariable_scalar h.kind hi, M.home_eq_cellAt]
  have hv := eval_object_scalar h.argument (hag.pointers _ i h.name) hi
    (fun hw => h.index hw _ hag) h.objectAt
  have hread : (passed σ b place x i).read (M.cellAt place i) 1 = some (x i).toList := by
    rw [← read_cellAt (hag.cells place.1 i h.apart) h.object, M.width_scalar i (by simp [hi])]
  have hcell : (passed σ b place x i).cells (M.home b.name) i =
      M.column i (σ.objects (M.home b.name)) := if_neg fun hc => Nat.lt_irrefl _ hc.2.1
  have hwrite := write_cellAt x hcell h.own
  simp only [Node.assign, Node.build, exec, ht, hv, FieldStore.copy, Option.bind_eq_bind,
    Option.bind_some, hread]
  refine hwrite.trans (congrArg some ?_)
  ext1
  · funext c j
    by_cases hc : c = M.home b.name
    · subst hc
      by_cases hj : j = i
      · subst hj
        simp [passed, hi]
      · rw [(passed_succ_of_ne hj).1]
        exact if_neg fun hw => hj hw.2
    · simp [passed, hc]
  · funext p j
    by_cases hj : j = i
    · subst hj
      simp [passed, hi]
    · exact ((passed_succ_of_ne hj).2 p).symm

/-- The parameter for an array is made to refer to the array of the caller. -/
theorem exec_array (copyFunction : String) (hi : (a.fieldAt i).isArray = true) :
    M.exec copyFunction (passed σ b place x i)
      (.assign (.ident (b.fieldName (a.fieldAt i))) (o.object (a.fieldAt i))) =
        some (passed σ b place x (i + 1)) := by
  have hag := agreesOutside_passed σ b place x i
  have ht : M.eval (passed σ b place x i) (.ident (b.fieldName (a.fieldAt i))) =
      some (.pointer b.name i) := by
    rw [eval_ident, h.parameter i, parameterVariable_array h.kind hi]
  obtain ⟨d, hv, hd⟩ := eval_object_array h.argument (hag.pointers _ i h.name) hi
    (fun hw => h.index hw _ hag) h.objectAt
  simp only [Node.assign, Node.build, exec, ht, hv, hd, Option.bind_eq_bind, Option.bind_some,
    Option.pure_def, Option.some.injEq]
  ext1
  · funext c j
    by_cases hj : j = i
    · subst hj
      simp [passed, FieldStore.setPointer, hi]
    · exact ((passed_succ_of_ne hj).1 c).symm
  · funext p j
    by_cases hp : p = b.name
    · subst hp
      by_cases hj : j = i
      · subst hj
        simp [passed, FieldStore.setPointer, hi]
      · rw [(passed_succ_of_ne hj).2]
        exact if_neg fun hw => hj hw.2
    · simp [passed, FieldStore.setPointer, hp]

/-- Each parameter is given its argument, one after the other. -/
theorem execAll_passing (copyFunction : String) :
    M.execAll copyFunction (M.image σ) (passing a b o) =
      some (passed σ b place x a.fields.length) := by
  rw [← passed_zero σ b place x]
  apply execAll_fields (passed σ b place x)
  intro i
  rw [Operand.expression, ObjectStore.denotes_of_objectAt h.objectAt, beq_self_eq_true, if_pos rfl]
  cases hi : (a.fieldAt i).isArray with
  | false => exact h.exec_scalar copyFunction hi
  | true => exact h.exec_array copyFunction hi

/-- The parameter for a scalar has its value. -/
theorem read_scalar (hi : (a.fieldAt i).isArray = false) :
    (passed σ b place x a.fields.length).read ⟨M.home b.name, i, 0⟩ 1 = some (x i).toList := by
  let σ' : M.ObjectStore := { σ with objects := fun c => (σ.objects c).set 0 x }
  have hcells : (passed σ b place x a.fields.length).cells (M.home b.name) i =
      M.column i (σ'.objects (M.home b.name)) := if_pos ⟨rfl, i.isLt, hi⟩
  have hobject : σ'.object? (M.home b.name, 0) = some x := by
    simp [ObjectStore.object?, σ', h.own]
  rw [← read_cellAt hcells hobject, M.home_eq_cellAt, M.width_scalar i (by simp [hi])]

omit h in

/-- The parameter for an array refers to the array of the caller. -/
theorem pointers_array (hi : (a.fieldAt i).isArray = true) :
    (passed σ b place x a.fields.length).pointers b.name i = some (M.cellAt place i) :=
  if_pos ⟨rfl, i.isLt, hi⟩

end Passes

/-! ### What the function can change -/

/-- A cell that is named by the parameter for a scalar is the cell of the parameter. -/
theorem NamesCell.eq_of_scalar {i : Fin a.fields.length} {target : Node}
    {c : CellRef a.fields.length} (hp : M.DeclaresParameter b) (hb : b.kind = .value)
    (hi : (a.fieldAt i).isArray = false) (h : NamesCell b (a.fieldAt i) target)
    (hc : M.eval τ target = some (.cells c [])) : c = ⟨M.home b.name, i, 0⟩ := by
  have hident : M.eval τ (.ident (b.fieldName (a.fieldAt i))) =
      some (.cells ⟨M.home b.name, i, 0⟩ []) := by
    rw [eval_ident, hp i, parameterVariable_scalar hb hi]
  cases h with
  | name =>
    rw [hident] at hc
    cases hc
    rfl
  | element subscript =>
    simp [Node.arrayRef, eval, hident, Denoted.element?, Denoted.address?] at hc
  | deref => simp [Node.unary, eval, hident, Denoted.address?] at hc

/-- Writing to a cell of the parameter changes only what is the parameter's. -/
theorem agreesOutside_write {c : CellRef a.fields.length} {new : List V}
    (hc : c.block = M.home b.name) (h : τ.write c new = some τ') : M.AgreesOutside b τ τ' := by
  unfold FieldStore.write at h
  split at h
  case isTrue =>
    cases h
    exact ⟨fun c' i hc' => if_neg fun hw => hc' (hw.1.trans hc), fun _ _ _ => rfl⟩
  case isFalse => cases h

/-- The first cell of a field can be given another value. -/
theorem exists_write [Nontrivial V] {i : Fin a.fields.length} (hw : 0 < M.width i)
    (hx : σ.object? place = some x) (hτ : τ.cells place.1 i = M.column i (σ.objects place.1)) :
    ∃ v τ', τ.write (M.cellAt place i) [v] = some τ' ∧ τ'.cells place.1 i ≠ τ.cells place.1 i := by
  obtain ⟨c, z⟩ := place
  dsimp only at hτ ⊢
  unfold ObjectStore.object? at hx
  split at hx
  case isFalse => cases hx
  case isTrue hz =>
    obtain ⟨j, rfl⟩ := Int.eq_ofNat_of_zero_le hz
    have hrow := M.row_le_length_column i (List.getElem?_eq_some_iff.mp hx).1
    rw [Int.toNat_natCast, ← hτ] at hrow
    have hlt : j * M.width i < (τ.cells c i).length := by omega
    obtain ⟨v, hv⟩ := exists_ne (τ.cells c i)[j * M.width i]
    refine ⟨v, _, τ.write_eq_some (offset_cellAt c j i) hlt, fun heq => hv ?_⟩
    have hover : FieldStore.overwrite (τ.cells c i) [v] (j * M.width i) = τ.cells c i :=
      (if_pos ⟨rfl, rfl⟩).symm.trans heq
    have hget := congrArg (·[j * M.width i]?) hover
    simpa [FieldStore.overwrite, List.getElem?_append, hlt, Nat.min_eq_left (Nat.le_of_lt hlt)]
      using hget

/-- **An object is passed by value just if it has no arrays.** The function has the values of the
scalars then, and the arrays of the caller. -/
theorem passes_by_value_iff [Nontrivial V] (h : M.Passes σ b o k place x)
    (hw : ∀ i, 0 < M.width i) (copyFunction : String) :
    ∃ τ, M.execAll copyFunction (M.image σ) (passing a b o) = some τ ∧
      M.AgreesOutside b (M.image σ) τ ∧
      (∀ i, (a.fieldAt i).isArray = false →
        τ.read ⟨M.home b.name, i, 0⟩ 1 = some (x i).toList) ∧
      (∀ i, (a.fieldAt i).isArray = true → τ.pointers b.name i = some (M.cellAt place i)) ∧
      (M.KeepsCaller b τ ↔ ∀ i, (a.fieldAt i).isArray = false) := by
  refine ⟨_, h.execAll_passing copyFunction, agreesOutside_passed _ _ _ _ _,
    fun i hi => h.read_scalar hi, fun i hi => Passes.pointers_array hi, fun hkeeps i => ?_,
    fun hscalar => ?_⟩
  · by_contra hi
    rw [Bool.not_eq_false] at hi
    have hcells := (agreesOutside_passed σ b place x a.fields.length).cells place.1 i h.apart
    obtain ⟨v, τ', hwrite, hne⟩ := exists_write (hw i) h.object hcells
    have hident : M.eval (passed σ b place x a.fields.length)
        (.ident (b.fieldName (a.fieldAt i))) = some (.pointer b.name i) := by
      rw [eval_ident, h.parameter i, parameterVariable_array h.kind hi]
    exact hne ((hkeeps i _ _ v τ' .deref (eval_deref hident (Passes.pointers_array hi))
      hwrite).cells place.1 i h.apart)
  · intro i target c v τ' hnames hc hwrite
    obtain rfl := hnames.eq_of_scalar h.parameter h.kind (hscalar i) hc
    exact agreesOutside_write rfl hwrite

end Machine

/-! ### A scalar and a row -/

namespace Pair

/-- The parameter `s`, which is such a struct. -/
def parameter : Binding where
  decl := .build (.decl (some "s") {}) []
  aggregate := pair
  kind := .value
  scope := .absent

/-- The objects of `arr` in one block, and the parameter in a block of its own. -/
def callee : Machine pair Int :=
  { machine with
    declared? := fun name =>
      if name = "s_v" then some (.cells ⟨1, v, 0⟩ [])
      else if name = "s_w" then some (.pointer "s" w)
      else machine.declared? name
    home := fun name => if name = "s" then 1 else 0 }

/-- Two objects of the caller, and one for the parameter. -/
def frames : callee.ObjectStore where
  objects c :=
    if c = 0 then [fun _ => .replicate _ 7, fun _ => .replicate _ 9]
    else if c = 1 then [fun _ => .replicate _ 0]
    else []
  pointers _ := none

/-- `arr[1]` is passed for `s`. -/
theorem passes_target :
    callee.Passes frames parameter target 1 (0, 1) (fun _ => .replicate _ 9) where
  kind := rfl
  parameter := forall_fields rfl rfl
  argument := forall_fields rfl rfl
  name := by decide
  objectAt := rfl
  object := rfl
  apart := by decide
  own := by decide
  index _ _ _ := rfl

theorem passes_by_value_iff_row : ∃ τ,
    callee.execAll "memcpy" (callee.image frames) (Machine.passing pair parameter target) = some τ ∧
      τ.read ⟨1, v, 0⟩ 1 = some [9] ∧ ¬ callee.KeepsCaller parameter τ := by
  have : Nontrivial Int := ⟨0, 1, by decide⟩
  have hwidth : ∀ i, 0 < callee.width i := forall_fields (by decide) (by decide)
  obtain ⟨τ, hexec, -, hvalues, -, hkeeps⟩ :=
    Machine.passes_by_value_iff passes_target hwidth "memcpy"
  exact ⟨τ, hexec, hvalues v rfl, fun h => Bool.noConfusion (hkeeps.mp h w)⟩

end Pair

/-! ### An array in a parameter -/

namespace Session

/-- A function assigns an element of an array of its parameter. -/
def arrayParameter : String :=
  "struct S \x7bint w[4];\x7d; void f(struct S s) \x7b s.w[0] = 1; \x7d " ++
    "void g(void) \x7b struct S x; f(x); \x7d"

/-- The function assigns an element of what is passed to it in the end, and this is the array of the
caller. -/
theorem decomposeAll_passes_array : ∃ s t, finished arrayParameter = some (s, t) ∧
    (∃ d ∈ t.document.root.ofClass .decl, d.name? = some "s_w" ∧ (d.child .type).isArray) ∧
    (∃ n ∈ t.document.root.ofClass .funcCall, n.callName? = some "f" ∧
      n.callArgs?.map (·.map Node.form?) = some [some (.ident "x_w")]) ∧
    ∃ n ∈ t.document.root.ofClass .assignment,
      ((n.child .lvalue).child .name).form? = some (.ident "s_w") := by
  obtain ⟨s, t, hst, h⟩ := exists_finished arrayParameter (fun _ t =>
    (t.document.root.ofClass .decl).any (fun d =>
      d.name? == some "s_w" && (d.child .type).isArray) &&
    (t.document.root.ofClass .funcCall).any (fun n => n.callName? == some "f" &&
      n.callArgs?.map (·.map Node.form?) == some [some (.ident "x_w")]) &&
    (t.document.root.ofClass .assignment).any fun n =>
      ((n.child .lvalue).child .name).form? == some (.ident "s_w")) (by decide +kernel)
  simp only [Bool.and_eq_true, List.any_eq_true, beq_iff_eq] at h
  exact ⟨s, t, hst, h.1.1, h.1.2, h.2⟩

end Session

end Fieldwise
