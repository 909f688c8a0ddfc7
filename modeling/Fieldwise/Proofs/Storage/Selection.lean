import Fieldwise.Proofs.Session.Worklist
import Fieldwise.Proofs.Session.Wrapping
import Fieldwise.Proofs.Storage.Assignment

/-!
# Selections of members

A member of a binding is selected from its name, or from the name under a wrapper
(`Binding.selected?`), and the selection is rewritten when the name is
(`Session.Sound.run_rewriteOccurrence_selection`). What gives way to what depends on the node above
the selection: below `sizeof` and `&` an array stays an array, and elsewhere it becomes a pointer to
its first element. `Machine.Stands` lists what may stand for a field, and one of these is what the
selection gives way to (`Session.Working.selection_keeps_storage`).
-/

namespace Fieldwise

open Node

/-- The operand for the object of which a member is selected, if such a selection is supported:
`x.f` and `(&x)->f` of an object, `p->f` and `(*p).f` of a pointer or an array, and `p[i].f`. -/
def Binding.selected? (b : Binding) (access : Access) (object : Node) : Option Operand :=
  match access, object.unwrap.wrap with
  | .dot, none | .arrow, some .address => b.accessed .dot
  | .arrow, none | .dot, some .deref => b.accessed .arrow
  | .dot, some .element => some (b.operand (some .element) object.unwrap.subscript)
  | _, _ => none

/-- Whether an array stays one as the operand of a node, and does not become a pointer. -/
def Node.keepsArray (n : Node) : Bool :=
  match n.unary? with
  | some (.sizeof, _) | some (.address, _) => true
  | _ => false

namespace Session

variable [Discipline] {s : Session} {b : Binding} {object field : Node} {access : Access}
  {m : Mark} {o : Operand}

/-- **A use in the object of a selection** is rewritten with the selection. -/
theorem Sound.run_rewriteOccurrence_selection (h : s.Sound)
    (hm : .mk m (.structRef access) [object, field] ∈ s.document.root.preorder)
    (hi : object.unwrap.symbol.isA .ident) (ho : b.selected? access object = some o) :
    s.run (Engine.rewriteOccurrence b object.unwrap.symbol) =
      s.run (Engine.member b (.mk m (.structRef access) [object, field]) (some o)) := by
  have hw := wraps_symbol object
  unfold Binding.selected? at ho
  generalize object.unwrap.symbol = n, object.unwrap.wrap = wrap,
    object.unwrap.subscript = subscript at hw hi ho
  have hs : n.isSole := isSole_of_isA hi rfl
  unfold Engine.rewriteOccurrence
  cases hw with
  | bare =>
    have hself := h.same_self (mem_preorder_of_part hm List.mem_cons_self (isPresent_of_isA hi))
    rw [run_bind_of_ok (h.run_parentOf hm List.mem_cons_self hs),
      run_bind_of_ok (Session.run_parentOf s _)]
    dsimp only
    rw [if_pos hself]
    cases access <;> exact congrArg (fun o => s.run (Engine.member b _ o)) ho
  | deref m' =>
    have hobj := mem_preorder_of_part hm (c := .mk m' (.unaryOp .deref) [n]) List.mem_cons_self rfl
    rw [run_bind_of_ok (h.run_parentOf hobj List.mem_cons_self hs),
      run_bind_of_ok (h.run_parentOf hm List.mem_cons_self rfl)]
    dsimp only
    rw [if_pos (h.same_self hobj)]
    cases access with
    | dot => exact congrArg (fun o => s.run (Engine.member b _ o)) ho
    | arrow => cases ho
  | address m' =>
    have hobj := mem_preorder_of_part hm (c := .mk m' (.unaryOp .address) [n])
      List.mem_cons_self rfl
    rw [run_bind_of_ok (h.run_parentOf hobj List.mem_cons_self hs),
      run_bind_of_ok (h.run_parentOf hm List.mem_cons_self rfl)]
    dsimp only
    rw [if_pos (h.same_self hobj)]
    cases access with
    | dot => cases ho
    | arrow => exact congrArg (fun o => s.run (Engine.member b _ o)) ho
  | element m' =>
    have hobj := mem_preorder_of_part hm (c := .mk m' .arrayRef [n, subscript])
      List.mem_cons_self rfl
    have hself := h.same_self (mem_preorder_of_part hobj List.mem_cons_self (isPresent_of_isA hi))
    rw [run_bind_of_ok (h.run_parentOf hobj List.mem_cons_self hs),
      run_bind_of_ok (h.run_parentOf hm List.mem_cons_self rfl)]
    dsimp only
    rw [if_pos (h.same_self hobj)]
    cases access with
    | dot =>
      dsimp only
      rw [if_pos hself]
      exact congrArg (fun o => s.run (Engine.member b _ o)) ho
    | arrow => cases ho
  | elementAddress m' m'' => cases access <;> cases ho

end Session

/-! ### Where the field is -/

/-- The supported selections, by what the binding declares. -/
theorem Binding.selected?_cases {b : Binding} {access : Access} {object : Node} {o : Operand}
    (h : b.selected? access object = some o) :
    (b.kind = .value ∧ o = b.bare ∧
      (access = .dot ∧ object.unwrap.wrap = none ∨
        access = .arrow ∧ object.unwrap.wrap = some .address)) ∨
    (b.kind = .pointer ∧ o = b.operand (some .deref) .absent ∧
      (access = .arrow ∧ object.unwrap.wrap = none ∨
        access = .dot ∧ object.unwrap.wrap = some .deref)) ∨
    (b.kind = .array ∧ o = b.operand (some .element) (.intLiteral 0) ∧
      (access = .arrow ∧ object.unwrap.wrap = none ∨
        access = .dot ∧ object.unwrap.wrap = some .deref)) ∨
    access = .dot ∧ object.unwrap.wrap = some .element ∧
      o = b.operand (some .element) object.unwrap.subscript := by
  unfold selected? accessed at h
  split at h <;> cases hk : b.kind <;> simp_all

theorem Binding.binding_selected? {b : Binding} {access : Access} {object : Node} {o : Operand}
    (h : b.selected? access object = some o) : o.binding = b := by
  rcases selected?_cases h with ⟨-, rfl, -⟩ | ⟨-, rfl, -⟩ | ⟨-, rfl, -⟩ | ⟨-, -, rfl⟩ <;>
    exact b.binding_operand _ _

/-- An operand with a place stands for an object. -/
theorem Machine.ObjectStore.denotes_of_objectAt {a : Aggregate} {V : Type} {M : Machine a V}
    {σ : M.ObjectStore} {o : Operand} {k : Int} {place : Nat × Int}
    (h : σ.objectAt o k = some place) : o.denotes = some .object := by
  unfold objectAt at h
  split at h
  case h_5 => cases h
  all_goals
    rename_i hb hw
    simp [Operand.denotes, Operand.shape, hb, hw]

namespace Machine

variable {a : Aggregate} {V : Type} {M : Machine a V} {σ : M.ObjectStore} {o : Operand} {k : Int}
  {b : Binding} {access : Access} {object : Node} {place : Nat × Int}

/-- The place of the object of which a member is selected: the object that the operand stands for,
or the one whose address it stands for. The subscript of the operand is worth `k`. -/
def ObjectStore.selectedAt (σ : M.ObjectStore) (access : Access) (o : Operand) (k : Int) :
    Option (Nat × Int) :=
  match access with
  | .dot => σ.objectAt o k
  | .arrow => σ.addressOf o k

/-- The subscript of an element is worth `k`. -/
def Indexed (τ : FieldStore a.fields.length V) (o : Operand) (k : Int) : Prop :=
  o.wrap = some .element → M.index τ o.subscript = some k

/-- The object of a selection is the one that the operand for it stands for. -/
theorem objectAt_selected (ho : b.selected? access object = some o)
    (hk : M.Indexed (M.image σ) (b.operandIn object) k)
    (hp : σ.selectedAt access (b.operandIn object) k = some place) :
    ∃ k', σ.objectAt o k' = some place ∧ M.Indexed (M.image σ) o k' := by
  rcases Binding.selected?_cases ho with
    ⟨hb, rfl, h⟩ | ⟨hb, rfl, h⟩ | ⟨hb, rfl, h⟩ | ⟨rfl, hw, rfl⟩
  · -- an object, or its address
    refine ⟨0, ?_, fun hw => by simp [Binding.bare, Binding.operand] at hw⟩
    rcases h with ⟨rfl, hw⟩ | ⟨rfl, hw⟩ <;>
      simpa [ObjectStore.selectedAt, ObjectStore.objectAt, ObjectStore.addressOf, Binding.operandIn,
        Binding.bare, Binding.operand, hb, hw] using hp
  · -- what a pointer points to
    refine ⟨0, ?_, fun hw => by simp [Binding.operand, hb] at hw⟩
    rcases h with ⟨rfl, hw⟩ | ⟨rfl, hw⟩ <;>
      simpa [ObjectStore.selectedAt, ObjectStore.objectAt, ObjectStore.addressOf, Binding.operandIn,
        Binding.bare, Binding.operand, hb, hw] using hp
  · -- the first element of an array
    rcases h with ⟨rfl, hw⟩ | ⟨rfl, hw⟩
    · refine ⟨0, ?_, fun _ => by simp [Binding.operand, M.index_zero]⟩
      simpa [ObjectStore.selectedAt, ObjectStore.objectAt, ObjectStore.addressOf,
        Binding.operandIn, Binding.operand, hb, hw] using hp
    · have hop : b.operandIn object = b.operand (some .element) (.intLiteral 0) := by
        simp [Binding.operandIn, Binding.operand, hb, hw]
      exact ⟨k, hop ▸ hp, hop ▸ hk⟩
  · exact ⟨k, by simpa [ObjectStore.selectedAt, Binding.operandIn, hw] using hp,
      by simpa [Binding.operandIn, hw] using hk⟩

section

variable {i : Fin a.fields.length} (hd : M.Declares o.binding)
  (hk : M.Indexed (M.image σ) o k) (hp : σ.objectAt o k = some place)
include hd hk hp

/-- The field of an object is its cells, where it is no array that is reached by a pointer. -/
theorem eval_object_cells (h : (a.fieldAt i).isArray = false ∨ o.binding.kind ≠ .pointer) :
    M.eval (M.image σ) (o.object (a.fieldAt i)) =
      some (.cells (M.cellAt place i) (M.fieldDims i)) := by
  cases hi : (a.fieldAt i).isArray with
  | false =>
    rw [eval_object_scalar hd rfl hi hk hp]
    simp [fieldDims, hi]
  | true =>
    have hkind := h.resolve_left (by simp [hi])
    unfold ObjectStore.objectAt at hp
    split at hp
    case h_1 hb hw =>
      cases hp
      simp only [Operand.object, hw, eval_fieldIdent hd, fieldVariable, hb, M.home_eq_cellAt]
    case h_2 hb hw =>
      cases hp
      simpa [Operand.object, hw, fieldDims, hi] using eval_element_row hd hi (hk hw) hb
    case h_3 hb hw => exact absurd hb hkind
    case h_4 hb hw => exact absurd hb hkind
    case h_5 => cases hp

omit hk in
/-- What is dereferenced as the field of an object is a pointer to it. -/
theorem eval_dereferenced {pointer : Node}
    (h : (o.object (a.fieldAt i)).unary? = some (.deref, pointer)) :
    ∃ d, M.eval (M.image σ) pointer = some d ∧
      d.address? (M.image σ) = some (M.cellAt place i) := by
  have hident := eval_fieldIdent (τ := M.image σ) hd i
  rw [o.unary?_object _ h]
  refine ⟨_, hident, ?_⟩
  have helement : (o.element (a.fieldAt i)).unary? = none := by
    unfold Operand.element
    split <;> rfl
  unfold ObjectStore.objectAt at hp
  split at hp
  case h_1 hb hw =>
    simp only [Operand.object, hw] at h
    cases h
  case h_2 hb hw | h_4 hb hw =>
    simp only [Operand.object, hw, helement] at h
    cases h
  case h_3 hb hw => exact address_fieldVariable hb rfl hp
  case h_5 => cases hp

end

/-- What stands for field `i` of the object at a place, where a selection of it stood below the node
`holder`: `new` in the place of `old`. -/
inductive Stands (M : Machine a V) (σ : M.ObjectStore) (place : Nat × Int)
    (i : Fin a.fields.length) (holder selection : Node) : Node → Node → Prop where
  /-- The cells of the field themselves. -/
  | cells {new : Node} : M.eval (M.image σ) new = some (.cells (M.cellAt place i) (M.fieldDims i)) →
    Stands M σ place i holder selection selection new
  /-- A pointer to the first cell of an array, where the array would become one. -/
  | decayed {new : Node} {d : Denoted a.fields.length} : (a.fieldAt i).isArray →
    ¬ holder.keepsArray → M.eval (M.image σ) new = some d →
    d.address? (M.image σ) = some (M.cellAt place i) →
    Stands M σ place i holder selection selection new
  /-- The type of an array, where its size is asked for. -/
  | size {new : Node} {m : Mark} : holder = .mk m (.unaryOp .sizeof) [selection] →
    M.bytes? (.sizeOfNode new) = some (M.width i * M.cellBytes i) →
    Stands M σ place i holder selection selection new
  /-- A pointer to the cells, where their address is taken. -/
  | address {new : Node} {m : Mark} {d : Denoted a.fields.length} :
    holder = .mk m (.unaryOp .address) [selection] → M.eval (M.image σ) new = some d →
    d.address? (M.image σ) = some (M.cellAt place i) →
    Stands M σ place i holder selection holder new

end Machine

namespace Session

variable {s : Session} {b : Binding} {holder object field : Node} {access : Access} {m : Mark}
  {o : Operand} {V : Type} {M : Machine b.aggregate V} {σ : M.ObjectStore}
  {i : Fin b.aggregate.fields.length} {place : Nat × Int} {k : Int}

/-- **A selection gives way to what denotes the same storage**, with the type and the value that it
has where it stands. Arrays are declared as arrays here, and not as parameters. The address of an
array field that a pointer leads to is left out: there is no array for it to be the address of. -/
theorem Working.selection_keeps_storage (hw : Working s)
    (hholder : holder ∈ s.document.root.preorder)
    (hpart : .mk m (.structRef access) [object, field] ∈ holder.parts)
    (hi : object.unwrap.symbol.isA .ident) (ho : b.selected? access object = some o)
    (hf : field.name?.bind b.aggregate.field? = some (b.aggregate.fieldAt i))
    (hd : M.Declares b) (hk : M.Indexed (M.image σ) (b.operandIn object) k)
    (hp : σ.selectedAt access (b.operandIn object) k = some place)
    (hslip : (b.aggregate.fieldAt i).isArray → b.kind = .pointer →
      ∀ m' e, holder ≠ .mk m' (.unaryOp .address) [e]) :
    ∃ old new, s.run (Engine.rewriteOccurrence b object.unwrap.symbol) =
        s.run (Engine.replace old new) ∧
      M.Stands σ place i holder (.mk m (.structRef access) [object, field]) old new := by
  let _ : Discipline := ⟨False, False⟩
  have hs := hw.sound ⟨id, id⟩
  obtain ⟨k', hplace, hindexed⟩ := Machine.objectAt_selected ho hk hp
  have hb := Binding.binding_selected? ho
  have hdo : M.Declares o.binding := hb.symm ▸ hd
  rw [hs.run_rewriteOccurrence_selection (mem_preorder_of_part hholder hpart rfl) hi ho]
  unfold Engine.member
  rw [show (Node.mk m (.structRef access) [object, field]).child .field = field from rfl, hf]
  dsimp only
  rw [Machine.ObjectStore.denotes_of_objectAt hplace, beq_self_eq_true, if_pos rfl,
    run_bind_of_ok (hs.run_parentOf hholder hpart rfl)]
  have hcells : ¬ ((b.aggregate.fieldAt i).isArray ∧ b.kind = .pointer) →
      M.Stands σ place i holder (.mk m (.structRef access) [object, field])
        (.mk m (.structRef access) [object, field]) (o.object (b.aggregate.fieldAt i)) :=
    fun hnot => .cells (Machine.eval_object_cells hdo hindexed hplace (by
      rw [hb, ← Bool.not_eq_true]
      exact not_and_or.mp hnot))
  split
  case h_1 hsize =>
    obtain ⟨m', rfl⟩ := unary?_eq_some hsize
    obtain rfl := List.mem_singleton.mp hpart
    split
    case isTrue harray =>
      have hi : (b.aggregate.fieldAt i).isArray := (Bool.and_eq_true_iff.mp harray).1
      refine ⟨_, _, rfl, .size rfl ?_⟩
      simp [Machine.bytes?, Node.sizeOfNode, Node.unary, Node.typenameOf, M.size_field i hi]
    case isFalse hscalar => exact ⟨_, _, rfl, hcells (by simpa using hscalar)⟩
  case h_2 pointer hunary hobject =>
    obtain ⟨m', rfl⟩ := unary?_eq_some hunary
    obtain rfl := List.mem_singleton.mp hpart
    obtain ⟨d, hd, haddress⟩ := Machine.eval_dereferenced hdo hplace hobject
    exact ⟨_, _, rfl, .address rfl hd haddress⟩
  case h_3 hsize haddress =>
    refine ⟨_, _, rfl, ?_⟩
    by_cases harray : (b.aggregate.fieldAt i).isArray ∧ b.kind = .pointer
    · obtain ⟨d, hd, haddress⟩ := Machine.eval_object_array hdo rfl harray.1 hindexed hplace
      refine .decayed harray.1 ?_ hd haddress
      -- the size was another case, and the address is what is left out
      intro hkeeps
      unfold keepsArray at hkeeps
      split at hkeeps
      case h_1 hu => exact hsize _ hu
      case h_2 hu =>
        obtain ⟨m', rfl⟩ := unary?_eq_some hu
        exact hslip harray.1 harray.2 _ _ rfl
      case h_3 => cases hkeeps
    · exact hcells harray

end Session

/-! ### An element of an array -/

namespace Element

/-- A field of one element of an array is assigned. -/
def program : String :=
  "struct S \x7bint v;\x7d; void f(void) \x7b struct S arr[2]; arr[1].v = 1; \x7d"

/-- The first assignment in a program, if its target is a selection. -/
def assignment? (s : Session) : Option (Node × Mark × Node × Node) :=
  match s.document.root.ofClass .assignment with
  | [] => none
  | holder :: _ =>
    match holder.parts with
    | .mk m (.structRef .dot) [object, field] :: _ => some (holder, m, object, field)
    | _ => none

theorem of_assignment? {s : Session} {holder object field : Node} {m : Mark}
    (h : assignment? s = some (holder, m, object, field)) :
    holder ∈ s.document.root.preorder ∧ holder.isA .assignment ∧
      .mk m (.structRef .dot) [object, field] ∈ holder.parts := by
  unfold assignment? at h
  split at h
  case h_1 => cases h
  case h_2 first rest hfirst =>
    have hmem : first ∈ s.document.root.ofClass .assignment := hfirst ▸ List.mem_cons_self
    obtain ⟨hmem, hcls⟩ := List.mem_filter.mp hmem
    split at h
    case h_2 => cases h
    case h_1 hparts =>
      cases h
      exact ⟨hmem, hcls, hparts ▸ List.mem_cons_self⟩

/-- Whether the first assignment is to the one field, which is a scalar, of the object with index 1
of an array. -/
def isToElement (s : Session) (b : Binding) : Bool :=
  (assignment? s).any fun r =>
    b.kind == .array && r.2.2.1.unwrap.symbol.isA .ident &&
      r.2.2.1.unwrap.wrap == some .element && Pair.value r.2.2.1.unwrap.subscript == some 1 &&
      b.aggregate.fields.length == 1 && b.aggregate.fields.all (!·.isArray) &&
      (r.2.2.2.name?.bind b.aggregate.field?).isSome

variable (b : Binding) (hscalar : ∀ i, (b.aggregate.fieldAt i).isArray = false)

/-- All variables in one block, where the fields are scalars of four bytes and those of the binding
are arrays of two. -/
def machine : Machine b.aggregate Int where
  declared? name :=
    ((List.finRange _).find? fun i => b.fieldName (b.aggregate.fieldAt i) == name).map fun i =>
      .cells ⟨0, i, 0⟩ [(b.size.getD 0).toNat]
  home _ := 0
  width _ := 1
  cellBytes _ := 4
  size _ := 4
  index _ e := Pair.value e
  index_copy _ e := Pair.value_copy e
  index_zero _ := rfl
  index_mul _ x y := by simp [Node.binary, Pair.value, Pair.values, Pair.combine]
  index_dimension _ i h := by simp [hscalar i] at h
  width_scalar _ _ := rfl
  cellBytes_pos _ := by decide
  size_field i h := by simp [hscalar i] at h

theorem declares_machine (hb : b.kind = .array) (h : b.aggregate.fields.length = 1) :
    (machine b hscalar).Declares b := by
  intro i
  have hsome : ((List.finRange _).find? fun j => b.fieldName (b.aggregate.fieldAt j) ==
      b.fieldName (b.aggregate.fieldAt i)).isSome :=
    List.find?_isSome.mpr ⟨i, List.mem_finRange i, by simp⟩
  obtain ⟨j, hj⟩ := Option.isSome_iff_exists.mp hsome
  obtain rfl : j = i := Fin.ext (by omega)
  simp [machine, hj, Machine.fieldVariable, hb, Machine.fieldDims, hscalar j]

/-- The memory with two objects. -/
def memory : (machine b hscalar).ObjectStore where
  objects _ := [fun _ => .replicate _ 7, fun _ => .replicate _ 9]
  pointers _ := none

theorem selection_keeps_storage_element : ∃ (s : Session) (b : Binding)
    (hscalar : ∀ i, (b.aggregate.fieldAt i).isArray = false) (holder object field : Node) (m : Mark)
    (i : Fin b.aggregate.fields.length) (old new : Node),
      Session.firstSearch program = some (s, b) ∧ holder ∈ s.document.root.preorder ∧
      .mk m (.structRef .dot) [object, field] ∈ holder.parts ∧
      s.run (Engine.rewriteOccurrence b object.unwrap.symbol) = s.run (Engine.replace old new) ∧
      (machine b hscalar).Stands (memory b hscalar) (0, 1) i holder
        (.mk m (.structRef .dot) [object, field]) old new := by
  have h : (Session.firstSearch program).any (fun r => isToElement r.1 r.2) = true := by
    decide +kernel
  obtain ⟨⟨s, b⟩, hsearch, h⟩ := (Option.any_eq_true _ _).mp h
  obtain ⟨⟨holder, m, object, field⟩, hassign, h⟩ := (Option.any_eq_true _ _).mp h
  simp only [Bool.and_eq_true, beq_iff_eq] at h
  obtain ⟨⟨⟨⟨⟨⟨hkind, hident⟩, hwrap⟩, hindex⟩, hone⟩, hscalars⟩, hfield⟩ := h
  obtain ⟨hholder, hcls, hpart⟩ := of_assignment? hassign
  obtain ⟨f, hf⟩ := Option.isSome_iff_exists.mp hfield
  have hscalar : ∀ i, (b.aggregate.fieldAt i).isArray = false := fun i => by
    have hmem : b.aggregate.fieldAt i ∈ b.aggregate.fields := List.getElem_mem i.isLt
    simpa using List.all_eq_true.mp hscalars _ hmem
  obtain ⟨i, hi⟩ : ∃ i, f = b.aggregate.fieldAt i := by
    obtain ⟨name, -, hf⟩ := Option.bind_eq_some_iff.mp hf
    obtain ⟨j, hj, rfl⟩ := List.getElem_of_mem (List.mem_of_find?_eq_some hf)
    exact ⟨⟨j, hj⟩, rfl⟩
  have hoperand : b.operandIn object =
      { binding := b, wrap := some .element, subscript := object.unwrap.subscript } := by
    simp [Binding.operandIn, Binding.operand, hwrap]
  have hselected : b.selected? .dot object = some (b.operandIn object) := by
    simp [Binding.selected?, Binding.operandIn, hwrap]
  have hplace : (memory b hscalar).selectedAt .dot (b.operandIn object) 1 = some (0, 1) := by
    simp [Machine.ObjectStore.selectedAt, Machine.ObjectStore.objectAt, hoperand, hkind, machine]
  have hindexed : (machine b hscalar).Indexed ((machine b hscalar).image (memory b hscalar))
      (b.operandIn object) 1 := fun _ => by
    rw [hoperand]
    exact hindex
  obtain ⟨old, new, hrun, hstands⟩ := Session.Working.selection_keeps_storage
    (.visited (Session.firstSearch_spec hsearch).1) hholder hpart hident hselected (hi ▸ hf)
    (declares_machine b hscalar hkind hone) hindexed hplace
    (fun harray => by simp [hscalar] at harray)
  exact ⟨s, b, hscalar, holder, object, field, m, i, old, new, hsearch, hholder, hpart, hrun,
    hstands⟩

end Element

end Fieldwise
