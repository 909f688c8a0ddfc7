import Fieldwise.Proofs.Session.Forms
import Fieldwise.Proofs.Session.Outcome
import Fieldwise.Proofs.Session.Wrapping
import Fieldwise.Proofs.Storage.Assignment
import Fieldwise.Proofs.Storage.Sizes

/-!
# Types of field-wise code

The type of an expression over field variables (`Node.typeIn?`), by the rules of C: an array decays
to a pointer to its first element, and a parameter that is declared as an array is a pointer.
Qualifiers do not count, and what a type name stands for is a parameter.

An operand has the type of the field, or stands for a pointer to its elements
(`Operand.typeIn?_object`), and an address has the type of the field pointer
(`Operand.typeIn?_address`). So all that is emitted for the copy of an aggregate is well typed
(`Session.copies_wellTyped`), as long as every field that is an array is declared as one
(`Field.IsSeen`): an array behind a type name is taken for a scalar.
-/

namespace Fieldwise

open Node

/-- The type of a field or of an expression over field variables, without qualifiers. A base type is
what its name stands for: a type of its own, or any other one. -/
inductive MemberType where
  | base (name : Node)
  | pointer (target : MemberType)
  | array (element : MemberType) (dim : Node)
  | function (params : Node) (result : MemberType)

namespace MemberType

/-- The type of an expression of the type where it is used as a value. -/
def decayed : MemberType → MemberType
  | array t _ => pointer t
  | function ps t => pointer (function ps t)
  | t => t

/-- Whether the type is that of an array. -/
def isArray : MemberType → Bool
  | array _ _ => true
  | _ => false

/-- What a pointer of the type points to, where arrays decay. -/
def target? (t : MemberType) : Option MemberType :=
  match t.decayed with
  | pointer u => some u
  | _ => none

/-- The type that a chain of declarators declares, where `meaning` tells what base types are. -/
def of (meaning : Node → MemberType) : Node → MemberType
  | .mk _ (.arrayDecl _) [type, dim] => array (of meaning type) dim.copy
  | .mk _ .funcDecl [params, type] => function params.copy (of meaning type)
  | .mk _ (.ptrDecl _) [type] => pointer (of meaning type)
  | .mk _ (.typeDecl _ _) (type :: _) => meaning type.copy
  | _ => meaning .absent

variable (meaning : Node → MemberType)

@[simp] theorem decayed_pointer (t : MemberType) : (pointer t).decayed = pointer t := rfl

@[simp] theorem decayed_decayed (t : MemberType) : t.decayed.decayed = t.decayed := by
  cases t <;> rfl

@[simp] theorem of_copy (n : Node) : of meaning n.copy = of meaning n := by
  fun_induction of meaning n with
  | case1 _ _ _ _ ih | case2 _ _ _ ih | case3 _ _ _ ih => simp [copy, copyAll, of, copy_copy, ih]
  | case4 => simp [copy, copyAll, of, copy_copy]
  | case5 n h₁ h₂ h₃ h₄ =>
    cases n with
    | absent => rfl
    | mk m f ps =>
      cases f
      all_goals first
        | rfl
        | (rcases ps with _ | ⟨p, _ | ⟨q, _ | ⟨r, ps⟩⟩⟩ <;> first
            | rfl
            | exact (h₁ _ _ _ _ rfl).elim
            | exact (h₂ _ _ _ rfl).elim
            | exact (h₃ _ _ _ rfl).elim
            | exact (h₄ _ _ _ _ _ rfl).elim)

@[simp] theorem of_setName (name : Option String) (n : Node) :
    of meaning (n.setName name) = of meaning n := by
  fun_induction Node.setName name n with
  | case1 m name' quals ps => cases ps <;> rfl
  | case2 _ _ _ _ ih | case3 _ _ _ ih | case4 _ _ _ ih => simp [of, ih]
  | case5 => rfl

@[simp] theorem of_rename (name : Option String) (n : Node) :
    of meaning (n.rename name) = of meaning n := by
  rw [rename, of_setName, of_copy]

@[simp] theorem of_addQuals (more : List String) (n : Node) :
    of meaning (n.addQuals more) = of meaning n := by
  fun_induction Node.addQuals more n with
  | case1 _ _ _ _ ih => simp [of, ih]
  | case2 m quals ps => rcases ps with _ | ⟨p, _ | ⟨q, ps⟩⟩ <;> rfl
  | case3 m name quals ps => cases ps <;> rfl
  | case4 => rfl

/-! Names and qualifiers are no part of the type of the elements of an array. -/

theorem of_elementType_setName (name : Option String) (n : Node) :
    of meaning (n.setName name).elementType = of meaning n.elementType := by
  unfold Node.setName
  split
  · rename_i ps
    rcases ps with _ | ⟨p, _ | ⟨q, ps⟩⟩ <;> rfl
  · exact of_setName meaning name _
  · exact of_setName meaning name (.mk _ .funcDecl [_, _])
  · exact of_setName meaning name (.mk _ (.ptrDecl _) [_])
  · rfl

theorem elementType_copy (n : Node) : n.copy.elementType = n.elementType.copy := by
  cases n with
  | absent => rfl
  | mk m f ps =>
    cases f with
    | arrayDecl => rcases ps with _ | ⟨p, _ | ⟨q, _ | ⟨r, ps⟩⟩⟩ <;> rfl
    | _ => rfl

theorem of_elementType_addQuals (more : List String) (n : Node) :
    of meaning (n.addQuals more).elementType = of meaning n.elementType := by
  unfold Node.addQuals
  split
  · exact of_addQuals meaning more _
  · exact of_addQuals meaning more (.mk _ (.ptrDecl _) _)
  · exact of_addQuals meaning more (.mk _ (.typeDecl _ _) _)
  · rfl

end MemberType

/-! ### Expressions -/

/-- The variables that are in scope, with their types. -/
abbrev Types := String → Option MemberType

variable {Γ : Types} {meaning : Node → MemberType} {b c : Binding} {f : Field} {o l r : Operand}
  {options : Options}

/-- The type of an expression over field variables. Subscripts are taken to be integers. -/
def Node.typeIn? (Γ : Types) (meaning : Node → MemberType) : Node → Option MemberType
  | .mk _ (.ident name) _ => Γ name
  | .mk _ (.unaryOp .deref) [e] => (e.typeIn? Γ meaning).bind MemberType.target?
  | .mk _ (.unaryOp .address) [e] => (e.typeIn? Γ meaning).map .pointer
  | .mk _ .arrayRef [e, _] => (e.typeIn? Γ meaning).bind MemberType.target?
  | .mk _ (.binaryOp .add) [e, _] =>
    ((e.typeIn? Γ meaning).bind MemberType.target?).map .pointer
  | .mk _ .cast [.mk _ (.typename _) [type], _] => some (.of meaning type)
  | _ => none

/-- Every field that is an array is declared as one: the type of any other field is no array behind
a name. -/
def Field.IsSeen (meaning : Node → MemberType) (f : Field) : Prop :=
  if f.isArray then ∃ m quals element dim, f.type = .mk m (.arrayDecl quals) [element, dim]
  else (MemberType.of meaning f.type).decayed = .of meaning f.type

/-- The type of a field. -/
def Field.memberType (meaning : Node → MemberType) (f : Field) : MemberType := .of meaning f.type

/-- The type of the field pointer for a field. -/
def Field.pointerType (meaning : Node → MemberType) (f : Field) : MemberType :=
  .pointer (.of meaning f.type.elementType)

/-- The type of the variable for a field: that of its declaration, where a parameter that is an
array is a pointer. -/
def Binding.variableType (meaning : Node → MemberType) (b : Binding) (f : Field) : MemberType :=
  if b.isParam then (MemberType.of meaning (b.fieldType f)).decayed
  else .of meaning (b.fieldType f)

/-- The field variables of a binding are in scope, as they are declared. -/
def Binding.IsTypedIn (Γ : Types) (meaning : Node → MemberType) (b : Binding) : Prop :=
  ∀ f ∈ b.aggregate.fields, Γ (b.fieldName f) = some (b.variableType meaning f)

namespace Field

/-- A field that is no array, or is a pointer to its first element as a value. -/
theorem IsSeen.decayed (h : f.IsSeen meaning) : (f.memberType meaning).decayed =
    if f.isArray then f.pointerType meaning else f.memberType meaning := by
  unfold IsSeen at h
  unfold memberType pointerType
  split at h
  · obtain ⟨m, quals, element, dim, ht⟩ := h
    rw [if_pos ‹_›, ht]
    rfl
  · rw [if_neg ‹_›, h]

/-- An array is one of the elements that its pointer points to. -/
theorem IsSeen.memberType_of_isArray (h : f.IsSeen meaning) (ha : f.isArray) :
    ∃ element dim, f.memberType meaning = .array element dim ∧
      f.pointerType meaning = .pointer element := by
  rw [IsSeen, if_pos ha] at h
  obtain ⟨m, quals, element, dim, ht⟩ := h
  exact ⟨.of meaning element, dim.copy, by rw [memberType, ht]; rfl, by rw [pointerType, ht]; rfl⟩

/-- The pointer to a field that is no array points to it. -/
theorem pointerType_of_not_isArray (ha : f.isArray = false) :
    f.pointerType meaning = .pointer (f.memberType meaning) := by
  have helement : f.type.elementType = f.type := by
    unfold isArray Node.isArray at ha
    unfold elementType
    split
    · rename_i heq
      rw [heq] at ha
      cases ha
    · rfl
  rw [pointerType, helement, memberType]

end Field

namespace Binding

/-- The declared type of the variable for a field. -/
theorem of_fieldType (b : Binding) (f : Field) : MemberType.of meaning (b.fieldType f) =
    match b.kind with
    | .value => f.memberType meaning
    | .pointer => f.pointerType meaning
    | .array => .array (f.memberType meaning)
        (if b.type.dimension.isPresent then b.type.dimension.copy
          else .intLiteral (b.size.getD 0)).copy := by
  unfold fieldType
  cases b.kind with
  | value => simp [Field.memberType]
  | array => simp [MemberType.of, Field.memberType]
  | pointer =>
    rw [MemberType.of, MemberType.of_elementType_addQuals, Node.rename,
      MemberType.of_elementType_setName, MemberType.elementType_copy, MemberType.of_copy,
      Field.pointerType]

/-- The variable for a field of an object has the type of the field as a value. -/
theorem decayed_variableType (hk : b.kind = .value) :
    (b.variableType meaning f).decayed = (f.memberType meaning).decayed := by
  unfold variableType
  rw [of_fieldType, hk]
  split <;> simp

/-- The variable for a field of a pointer is the field pointer. -/
theorem variableType_of_pointer (hk : b.kind = .pointer) :
    b.variableType meaning f = f.pointerType meaning := by
  unfold variableType
  rw [of_fieldType, hk]
  split <;> rfl

/-- The variable for a field of an array stands for a pointer to the field. -/
theorem decayed_variableType_of_array (hk : b.kind = .array) :
    (b.variableType meaning f).decayed = .pointer (f.memberType meaning) := by
  unfold variableType
  rw [of_fieldType, hk]
  split <;> rfl

end Binding

/-! ### Operands -/

/-- A type is that of a field, or for an array also that of a pointer to its first element. -/
def Field.Has (meaning : Node → MemberType) (f : Field) (T : MemberType) : Prop :=
  if f.isArray then T.decayed = f.pointerType meaning else T = f.memberType meaning

theorem Field.IsSeen.has_of_decayed (hf : f.IsSeen meaning) {T : MemberType}
    (h : T.decayed = (f.memberType meaning).decayed) (hT : f.isArray = false → T.decayed = T) :
    f.Has meaning T := by
  have hd := hf.decayed
  unfold Has
  cases ha : f.isArray with
  | true =>
    rw [ha, if_pos rfl] at hd
    rw [if_pos rfl, h, hd]
  | false =>
    rw [ha, if_neg Bool.false_ne_true] at hd
    rw [if_neg Bool.false_ne_true, ← hT ha, h, hd]

/-- The variable for a field of an object is the field, or a parameter that points to it. -/
theorem Field.IsSeen.has_variableType (hf : f.IsSeen meaning) (hk : b.kind = .value) :
    f.Has meaning (b.variableType meaning f) := by
  refine hf.has_of_decayed (Binding.decayed_variableType hk) fun ha => ?_
  have hd := hf.decayed
  rw [ha, if_neg Bool.false_ne_true] at hd
  unfold Binding.variableType
  rw [Binding.of_fieldType, hk]
  split <;> simp [hd]

namespace Operand

theorem typeIn?_fieldIdent (ho : o.binding.IsTypedIn Γ meaning)
    (hm : f ∈ o.binding.aggregate.fields) :
    (o.fieldIdent f).typeIn? Γ meaning = some (o.binding.variableType meaning f) := ho f hm

/-- The type of an element of the variable for a field. -/
theorem typeIn?_element (ho : o.binding.IsTypedIn Γ meaning) (hm : f ∈ o.binding.aggregate.fields)
    (hf : f.IsSeen meaning) (hk : o.binding.kind ≠ .value) :
    ∃ T, (o.element f).typeIn? Γ meaning = some T ∧ f.Has meaning T := by
  have hident := typeIn?_fieldIdent ho hm
  unfold element
  cases hk' : o.binding.kind with
  | value => exact absurd hk' hk
  | pointer =>
    rw [Binding.variableType_of_pointer hk'] at hident
    cases ha : f.isArray with
    | true =>
      refine ⟨f.pointerType meaning, ?_, by rw [Field.Has, ha]; rfl⟩
      simp [Node.binary, Node.build, typeIn?, hident, Field.pointerType, MemberType.target?,
        MemberType.decayed]
    | false =>
      refine ⟨f.memberType meaning, ?_, by rw [Field.Has, ha]; rfl⟩
      simp [Node.arrayRef, Node.build, typeIn?, hident, Field.pointerType_of_not_isArray ha,
        MemberType.target?, MemberType.decayed]
  | array =>
    refine ⟨f.memberType meaning, ?_, hf.has_of_decayed rfl fun ha => ?_⟩
    · simp [Node.arrayRef, Node.build, typeIn?, hident, MemberType.target?,
        Binding.decayed_variableType_of_array hk']
    · rw [hf.decayed, ha, if_neg Bool.false_ne_true]

/-- **The object of a field has its type**, or it stands for a pointer to the elements of an
array. -/
theorem typeIn?_object (ho : o.binding.IsTypedIn Γ meaning) (hm : f ∈ o.binding.aggregate.fields)
    (hf : f.IsSeen meaning) (hd : o.denotes = some .object) :
    ∃ T, (o.object f).typeIn? Γ meaning = some T ∧ f.Has meaning T := by
  have hident := typeIn?_fieldIdent ho hm
  unfold object
  cases hw : o.wrap with
  | none =>
    cases hk : o.binding.kind with
    | value =>
      exact ⟨_, hident, hf.has_variableType hk⟩
    | pointer | array => simp [denotes, shape, hw, hk] at hd
  | some w =>
    cases hk : o.binding.kind with
    | value => cases w <;> simp [denotes, shape, hw, hk] at hd
    | pointer =>
      rw [Binding.variableType_of_pointer hk] at hident
      cases w with
      | element => exact typeIn?_element ho hm hf (by simp [hk])
      | deref =>
        dsimp only
        cases ha : f.isArray with
        | true => exact ⟨_, hident, by rw [Field.Has, ha]; rfl⟩
        | false =>
          refine ⟨f.memberType meaning, ?_, by rw [Field.Has, ha]; rfl⟩
          simp [Node.unary, Node.build, typeIn?, hident, Field.pointerType_of_not_isArray ha,
            MemberType.target?, MemberType.decayed]
      | address | elementAddress => simp [denotes, shape, hw, hk] at hd
    | array =>
      cases w with
      | element => exact typeIn?_element ho hm hf (by simp [hk])
      | deref | address | elementAddress => simp [denotes, shape, hw, hk] at hd

/-- **The address of a field has the type of the field pointer**, where an array of elements stands
for the pointer to the first. -/
theorem typeIn?_address (ho : o.binding.IsTypedIn Γ meaning) (hm : f ∈ o.binding.aggregate.fields)
    (hf : f.IsSeen meaning) (hd : o.denotes = some .address) :
    ∃ T, (o.address f).typeIn? Γ meaning = some T ∧ T.decayed = f.pointerType meaning := by
  have hident := typeIn?_fieldIdent ho hm
  -- The address of what has the type of a field that is no array.
  have haddress : ∀ {e : Node} {T : MemberType}, f.isArray = false →
      e.typeIn? Γ meaning = some T → f.Has meaning T →
      ∃ T, (Node.unary .address e).typeIn? Γ meaning = some T ∧
        T.decayed = f.pointerType meaning := by
    intro e T ha he hT
    rw [Field.Has, ha, if_neg Bool.false_ne_true] at hT
    refine ⟨.pointer T, by simp [Node.unary, Node.build, typeIn?, he], ?_⟩
    rw [hT, Field.pointerType_of_not_isArray ha, MemberType.decayed_pointer]
  have harray : ∀ {T : MemberType}, f.isArray → f.Has meaning T →
      T.decayed = f.pointerType meaning := fun ha hT => by rwa [Field.Has, if_pos ha] at hT
  unfold address
  cases hw : o.wrap with
  | none =>
    rw [if_neg (by simp)]
    cases hk : o.binding.kind with
    | value => simp [denotes, shape, hw, hk] at hd
    | pointer =>
      exact ⟨_, hident, by rw [Binding.variableType_of_pointer hk]; rfl⟩
    | array =>
      dsimp only
      cases ha : f.isArray with
      | true =>
        refine ⟨f.memberType meaning, ?_, by rw [hf.decayed, if_pos ha]⟩
        simp [Node.arrayRef, Node.build, typeIn?, hident, MemberType.target?,
          Binding.decayed_variableType_of_array hk]
      | false =>
        exact ⟨_, hident, by
          rw [Binding.decayed_variableType_of_array hk, Field.pointerType_of_not_isArray ha]⟩
  | some w =>
    cases w with
    | deref | element => cases hk : o.binding.kind <;> simp [denotes, shape, hw, hk] at hd
    | address =>
      cases hk : o.binding.kind with
      | pointer | array => simp [denotes, shape, hw, hk] at hd
      | value =>
        rw [if_neg (by simp)]
        dsimp only
        cases ha : f.isArray with
        | true => exact ⟨_, hident, harray ha (hf.has_variableType hk)⟩
        | false => exact haddress ha hident (hf.has_variableType hk)
    | elementAddress =>
      rw [if_pos (by simp)]
      obtain ⟨T, hT, hhas⟩ := typeIn?_element ho hm hf fun hk => by
        simp [denotes, shape, hw, hk] at hd
      cases ha : f.isArray with
      | true => exact ⟨T, hT, harray ha hhas⟩
      | false => exact haddress ha hT hhas

end Operand

/-! ### Statements and initial values -/

/-- An assignment is well typed if its right side has the type of its left side, and a copy if it
copies the size of an array from one pointer to its elements to another one. -/
inductive Node.WellTyped (Γ : Types) (meaning : Node → MemberType) : Node → Prop
  | assign {target value : Node} {T V : MemberType} : target.typeIn? Γ meaning = some T →
    value.typeIn? Γ meaning = some V → V.decayed = T → WellTyped Γ meaning (.assign target value)
  | copy {copyFunction : String} {target source type : Node} {T V E : MemberType} {dim : Node} :
    target.typeIn? Γ meaning = some T → source.typeIn? Γ meaning = some V →
    T.decayed = .pointer E → V.decayed = .pointer E → MemberType.of meaning type = .array E dim →
    WellTyped Γ meaning (.call copyFunction [target, source, .sizeOfNode type.typenameOf])

/-- A declaration is well typed if its initial value, if it has one, has the declared type. -/
def Node.IsWellTypedDecl (Γ : Types) (meaning : Node → MemberType) (d : Node) : Prop :=
  (d.child .init).isPresent → ∃ V, (d.child .init).typeIn? Γ meaning = some V ∧
    V.decayed = .of meaning (d.child .type)

/-- The copy of a field is well typed. -/
theorem Options.wellTyped_copyStatement {target source : Node} {T V : MemberType}
    (hf : f.IsSeen meaning) (ht : target.typeIn? Γ meaning = some T)
    (hs : source.typeIn? Γ meaning = some V) (hT : f.Has meaning T) (hV : f.Has meaning V) :
    (options.copyStatement f target source).WellTyped Γ meaning := by
  unfold copyStatement
  cases ha : f.isArray with
  | true =>
    obtain ⟨element, dim, htype, hpointer⟩ := hf.memberType_of_isArray ha
    rw [Field.Has, if_pos ha, hpointer] at hT hV
    exact .copy ht hs hT hV htype
  | false =>
    have hd := hf.decayed
    rw [ha, if_neg Bool.false_ne_true] at hd
    rw [Field.Has, ha, if_neg Bool.false_ne_true] at hT hV
    exact .assign ht hs (by rw [hT, hV, hd])

/-- The statement of a rule for one field is well typed. -/
theorem CopyRule.wellTyped_statement {rule : CopyRule} (h : rule.applies l r = true)
    (hl : l.binding.IsTypedIn Γ meaning) (hr : r.binding.IsTypedIn Γ meaning)
    (hml : f ∈ l.binding.aggregate.fields) (hmr : f ∈ r.binding.aggregate.fields)
    (hf : f.IsSeen meaning) : (rule.statement options l r f).WellTyped Γ meaning := by
  unfold statement
  cases hm : rule.movesPointers with
  | true =>
    obtain ⟨hshape, hdr⟩ := CopyRule.denotes_of_moves h hm
    obtain ⟨hk, hw⟩ := Prod.mk.inj hshape
    obtain ⟨V, hV, hVd⟩ := Operand.typeIn?_address hr hmr hf hdr
    have hident := Operand.typeIn?_fieldIdent hl hml
    rw [Binding.variableType_of_pointer hk] at hident
    have haddress : l.address f = l.fieldIdent f := by simp [Operand.address, hk, hw]
    rw [if_pos rfl, haddress]
    exact .assign hident hV hVd
  | false =>
    obtain ⟨hdl, hdr⟩ := CopyRule.denotes_of_copies h hm
    obtain ⟨T, ht, hT⟩ := Operand.typeIn?_object hl hml hf hdl
    obtain ⟨V, hv, hV⟩ := Operand.typeIn?_object hr hmr hf hdr
    rw [if_neg Bool.false_ne_true]
    exact Options.wellTyped_copyStatement hf ht hv hT hV

namespace Binding

theorem isWellTypedDecl_fieldDecl (b : Binding) (f : Field) :
    (b.fieldDecl f).IsWellTypedDecl Γ meaning := fun h => by
  rw [(b.isBareDecl_fieldDecl f).child_init] at h
  cases h

/-- The declaration of a field variable is well typed with an initial value of its type. -/
theorem isWellTypedDecl_withInit {value : Node} {V : MemberType}
    (hv : value.typeIn? Γ meaning = some V) (hV : V.decayed = .of meaning (b.fieldType f)) :
    ((b.fieldDecl f).withInit value).IsWellTypedDecl Γ meaning := fun _ => by
  have hd := b.isBareDecl_fieldDecl f
  rw [hd.child_withInit, hd.type_withInit]
  exact ⟨V, hv, hV⟩

/-- The declaration of a field pointer with the address of a field. -/
theorem isWellTypedDecl_of_pointer {value : Node} {V : MemberType} (hk : b.kind = .pointer)
    (hv : value.typeIn? Γ meaning = some V) (hV : V.decayed = f.pointerType meaning) :
    ((b.fieldDecl f).withInit value).IsWellTypedDecl Γ meaning :=
  isWellTypedDecl_withInit hv (by rw [hV, of_fieldType, hk])

end Binding

/-- An allocation is well typed as the value of a field pointer. -/
theorem Field.typeIn?_allocation (f : Field) (callee : Node) (leading : List Node) (q : Quantity) :
    (f.allocation callee leading q).typeIn? Γ meaning = some (f.pointerType meaning) := by
  have hpointer : MemberType.of meaning f.type.pointerTo = f.pointerType meaning := by
    unfold Node.pointerTo pointerType elementType
    split <;> simp [MemberType.of]
  rw [allocation, typenameOf, typeIn?, MemberType.of_rename, hpointer]

/-- How a field variable is initialized is well typed. -/
def FieldCopy.WellTyped (Γ : Types) (meaning : Node → MemberType) (d : Node) : FieldCopy → Prop
  | init value => (d.withInit value).IsWellTypedDecl Γ meaning
  | statement stmt => stmt.WellTyped Γ meaning
  | unsupported => True

/-- A field variable that is initialized from an operand. -/
theorem wellTyped_fieldCopy (ho : o.binding.IsTypedIn Γ meaning) (hb : b.IsTypedIn Γ meaning)
    (hmo : f ∈ o.binding.aggregate.fields) (hmb : f ∈ b.aggregate.fields) (hf : f.IsSeen meaning)
    (hk : b.kind ≠ .array)
    (hd : o.denotes = some (if b.kind == .pointer then .address else .object)) :
    (fieldCopy options b o f).WellTyped Γ meaning (b.fieldDecl f) := by
  unfold fieldCopy
  cases hk' : b.kind with
  | array => exact absurd hk' hk
  | pointer =>
    rw [hk'] at hd
    obtain ⟨V, hV, hVd⟩ := Operand.typeIn?_address ho hmo hf hd
    exact Binding.isWellTypedDecl_of_pointer hk' hV hVd
  | value =>
    rw [hk'] at hd
    obtain ⟨V, hV, hhas⟩ := Operand.typeIn?_object ho hmo hf hd
    rw [if_neg (by simp)]
    cases ha : f.isArray with
    | false =>
      have hdecayed := hf.decayed
      rw [ha, if_neg Bool.false_ne_true] at hdecayed
      rw [Field.Has, ha, if_neg Bool.false_ne_true] at hhas
      exact Binding.isWellTypedDecl_withInit hV
        (by rw [hhas, hdecayed, Binding.of_fieldType, hk'])
    | true =>
      rw [if_neg (by simp)]
      split
      · trivial
      · exact Options.wellTyped_copyStatement hf (hb f hmb) hV (hf.has_variableType hk') hhas

namespace Session

variable [Discipline]

/-- The copies of an operand are well typed, as initial values and as statements. -/
theorem wellTyped_copies (ho : o.binding.IsTypedIn Γ meaning) (hb : b.IsTypedIn Γ meaning)
    (hfields : o.binding.aggregate.fields = b.aggregate.fields) (hk : b.kind ≠ .array)
    (hd : o.denotes = some (if b.kind == .pointer then .address else .object)) :
    ∀ (fields : List Field), (∀ f ∈ fields, f ∈ b.aggregate.fields ∧ f.IsSeen meaning) →
      ∀ s : Session, s.Settles (Engine.copies b o fields (fields.map b.fieldDecl)) fun r _ =>
        (∀ d ∈ r.1, d.IsWellTypedDecl Γ meaning) ∧ ∀ stmt ∈ r.2, stmt.WellTyped Γ meaning := by
  intro fields
  induction fields with
  | nil => exact fun _ s => .pure ⟨by simp, by simp⟩
  | cons f fs ih =>
    intro hf s
    obtain ⟨hm, hseen⟩ := hf f List.mem_cons_self
    have ih := ih fun g hg => hf g (List.mem_cons_of_mem _ hg)
    -- The rest is done for what this field comes to.
    have hrest : ∀ (d : Node) (first : List Node) (t : Session), d.IsWellTypedDecl Γ meaning →
        (∀ stmt ∈ first, stmt.WellTyped Γ meaning) →
        t.Settles (Engine.copies b o fs (fs.map b.fieldDecl) >>= fun r =>
          return (d :: r.1, first ++ r.2)) fun r _ => (∀ d ∈ r.1, d.IsWellTypedDecl Γ meaning) ∧
            ∀ stmt ∈ r.2, stmt.WellTyped Γ meaning := fun d first t hd hfirst =>
      (ih t).bind fun r u hr => .pure ⟨List.forall_mem_cons.mpr ⟨hd, hr.1⟩,
        List.forall_mem_append.mpr ⟨hfirst, hr.2⟩⟩
    have hcopy : (fieldCopy s.options b o f).WellTyped Γ meaning (b.fieldDecl f) :=
      wellTyped_fieldCopy ho hb (hfields ▸ hm) hm hseen hk hd
    rw [List.map_cons]
    unfold Engine.copies
    refine .get_bind ?_
    dsimp only
    generalize fieldCopy s.options b o f = copied at hcopy
    cases copied with
    | init value => exact hrest _ [] s hcopy (by simp)
    | statement stmt =>
      exact (settles_requireHeader _).bind fun _ t _ =>
        hrest _ [stmt] t (b.isWellTypedDecl_fieldDecl f) (List.forall_mem_singleton.mpr hcopy)
    | unsupported =>
      exact (settles_note _ _).bind fun _ t _ =>
        hrest _ [] t (b.isWellTypedDecl_fieldDecl f) (by simp)

/-- The declarations that make pointers refer to fresh variables are well typed, where these have
the types that they are declared with. -/
theorem wellTyped_holders (hk : b.kind = .pointer) (values : List (Nat × Node)) :
    ∀ (fields : List Field), (∀ f ∈ fields, f.IsSeen meaning) → ∀ (s : Session) (i : Nat),
      s.Settles (Engine.holders b values i fields (fields.map b.fieldDecl)) fun r _ =>
        (∀ d ∈ r.1, ∀ name, d.name? = some name → Γ name = some (.of meaning (d.child .type))) →
          ∀ d ∈ r.2, d.IsWellTypedDecl Γ meaning := by
  intro fields
  induction fields with
  | nil => exact fun _ s i => .pure (by simp)
  | cons f fs ih =>
    intro hf s i
    have hseen := hf f List.mem_cons_self
    have ih := ih fun g hg => hf g (List.mem_cons_of_mem _ hg)
    rw [List.map_cons]
    unfold Engine.holders
    split
    · refine (settles_freshName _).bind fun name t _ => (ih t _).bind fun r u hr => .pure ?_
      intro hΓ
      rw [List.forall_mem_cons] at hΓ ⊢
      refine ⟨?_, hr hΓ.2⟩
      have hholder : (Node.ident name).typeIn? Γ meaning = some (f.memberType meaning) :=
        (hΓ.1 name rfl).trans (congrArg some (MemberType.of_rename meaning _ _))
      have hdecayed := hseen.decayed
      cases ha : f.isArray with
      | true =>
        rw [ha, if_pos rfl] at hdecayed
        exact Binding.isWellTypedDecl_of_pointer hk hholder hdecayed
      | false =>
        have haddress : (Node.unary .address (.ident name)).typeIn? Γ meaning =
            some (.pointer (f.memberType meaning)) := by
          simp [Node.unary, Node.build, typeIn?, hholder]
        exact Binding.isWellTypedDecl_of_pointer hk haddress
          (Field.pointerType_of_not_isArray ha).symm
    · refine (ih s _).bind fun r u hr => .pure fun hΓ => ?_
      exact List.forall_mem_cons.mpr ⟨b.isWellTypedDecl_fieldDecl f, hr hΓ⟩

omit [Discipline] in
/-- **All that is emitted for the copy of an aggregate is well typed**, if every field that is an
array is declared as one: the operands, the statements for an assignment, and the initial values
that come from another operand, from a literal or from an allocation. -/
theorem copies_wellTyped (hf : ∀ f ∈ b.aggregate.fields, f.IsSeen meaning)
    (hb : b.IsTypedIn Γ meaning) :
    (∀ o : Operand, o.binding = b → ∀ f ∈ b.aggregate.fields,
      (o.denotes = some .object →
        ∃ T, (o.object f).typeIn? Γ meaning = some T ∧ f.Has meaning T) ∧
      (o.denotes = some .address →
        ∃ T, (o.address f).typeIn? Γ meaning = some T ∧ T.decayed = f.pointerType meaning)) ∧
    (∀ (s t : Session) (l r : Operand) (stmts : List Node), l.binding = b →
      r.binding.aggregate.fields = b.aggregate.fields → r.binding.IsTypedIn Γ meaning →
      s.run (Engine.assign l r) = (.ok (some stmts), t) →
      ∀ stmt ∈ stmts, stmt.WellTyped Γ meaning) ∧
    ∀ (s t u : Session) (plan : Plan) (x : Expansion),
      s.run (Engine.report fun s => s.plan? b) = (.ok (some plan), t) →
      plan.strategy = .pointerList ∨ plan.strategy = .heapAllocation ∨
        plan.strategy = .aggregateCopy →
      (∀ o, plan = .aggregateCopy o → o.binding.aggregate.fields = b.aggregate.fields ∧
        o.binding.IsTypedIn Γ meaning) →
      s.run (Engine.initialValues b b.fieldDecls) = (.ok x, u) →
      (∀ d ∈ x.before, ∀ name, d.name? = some name →
        Γ name = some (.of meaning (d.child .type))) →
      (∀ d ∈ x.decls, d.IsWellTypedDecl Γ meaning) ∧
        ∀ stmt ∈ x.after, stmt.WellTyped Γ meaning := by
  refine ⟨?_, ?_, ?_⟩
  · rintro o rfl f hm
    exact ⟨Operand.typeIn?_object hb hm (hf f hm), Operand.typeIn?_address hb hm (hf f hm)⟩
  · rintro s t l r stmts rfl hfields hr h
    obtain ⟨rule, hrule, rfl⟩ := Engine.assign_eq_some h
    intro stmt hs
    obtain ⟨f, hm, rfl⟩ := List.mem_map.mp hs
    exact CopyRule.wellTyped_statement hrule hb hr hm (hfields ▸ hm) (hf f hm)
  · intro s t u plan x hplan hstrategy hsource h hΓ
    let _ : Discipline := ⟨False, False⟩
    have hbare : ∀ d ∈ b.fieldDecls, d.IsWellTypedDecl Γ meaning := by
      intro d hd
      obtain ⟨f, -, rfl⟩ := List.mem_map.mp hd
      exact b.isWellTypedDecl_fieldDecl f
    cases hi : b.init.isPresent with
    | false =>
      rw [Engine.initialValues, hi, if_neg Bool.false_ne_true] at h
      cases h
      exact ⟨hbare, by simp⟩
    | true =>
      have hfor := ((settles_report (isFor_plan? ⟨id, id⟩ s b)).of_ok hplan).2
        _ rfl
      obtain ⟨v, h⟩ := exists_run_applyPlan hi hplan h
      cases hfor with
      | directList values | arrayOfAggregates elements => simp [Plan.strategy] at hstrategy
      | pointerList values hk =>
        obtain ⟨r, w, hr, h⟩ := run_bind_eq_ok.mp h
        obtain ⟨rfl, -⟩ : Expansion.mk r.1 r.2 [] = x ∧ w = u := by simpa using h
        exact ⟨(wellTyped_holders hk values b.aggregate.fields hf v 0).of_ok hr hΓ, by simp⟩
      | heapAllocation callee leading q hk =>
        obtain ⟨rfl, -⟩ : Expansion.mk [] _ [] = x ∧ v = u := by simpa [Engine.applyPlan] using h
        refine ⟨fun d hd => ?_, by simp⟩
        rw [Binding.fieldDecls, List.zipWith_map, List.zipWith_self] at hd
        obtain ⟨f, hm, rfl⟩ := List.mem_map.mp hd
        exact Binding.isWellTypedDecl_of_pointer hk (f.typeIn?_allocation callee leading q) rfl
      | @aggregateCopy c hcan =>
        obtain ⟨hfields, ho⟩ := hsource _ rfl
        obtain ⟨r, w, hr, h⟩ := run_bind_eq_ok.mp h
        obtain ⟨rfl, -⟩ : Expansion.mk [] r.1 r.2 = x ∧ w = u := by simpa using h
        exact (wellTyped_copies ho hb hfields (Binding.ne_array_of_canCopy hcan)
          (Binding.denotes_of_canCopy hcan) b.aggregate.fields (fun f hm => ⟨hm, hf f hm⟩) v).of_ok
          hr

end Session

namespace Pair

/-- The field variables of `arr` and `p`. -/
def types : Types := fun name =>
  if name = "arr_v" then some (arr.variableType .base ⟨"v", (pair.fieldAt v).type⟩)
  else if name = "arr_w" then some (arr.variableType .base ⟨"w", (pair.fieldAt w).type⟩)
  else if name = "p_v" then some (p.variableType .base ⟨"v", (pair.fieldAt v).type⟩)
  else if name = "p_w" then some (p.variableType .base ⟨"w", (pair.fieldAt w).type⟩)
  else none

theorem isTypedIn_types {b : Binding} (hb : b = arr ∨ b = p) : b.IsTypedIn types .base := by
  intro f hf
  rcases hb with rfl | rfl <;>
    obtain rfl | rfl : f = pair.fieldAt v ∨ f = pair.fieldAt w := by
      simpa [arr, p, pair, Aggregate.fieldAt, v, w] using hf
  all_goals rfl

theorem isSeen_fields : ∀ f ∈ pair.fields, f.IsSeen .base := by
  intro f hf
  obtain rfl | rfl : f = pair.fieldAt v ∨ f = pair.fieldAt w := by
    simpa [pair, Aggregate.fieldAt, v, w] using hf
  · rfl
  · exact ⟨_, _, _, _, rfl⟩

/-- The statements for `arr[1] = *p`. -/
theorem copies_wellTyped_arr_p : (∀ f ∈ arr.aggregate.fields, f.IsSeen .base) ∧
    arr.IsTypedIn types .base ∧
    ∃ stmts s', session.run (Engine.assign target source) = (.ok (some stmts), s') ∧
      stmts.length = 2 ∧ ∀ stmt ∈ stmts, stmt.WellTyped types .base := by
  have hb := isTypedIn_types (.inl rfl : arr = arr ∨ arr = p)
  obtain ⟨stmts, s', hrun, hlen⟩ : ∃ stmts s',
      session.run (Engine.assign target source) = (.ok (some stmts), s') ∧ stmts.length = 2 :=
    ⟨_, _, rfl, rfl⟩
  exact ⟨isSeen_fields, hb, stmts, s', hrun, hlen,
    (Session.copies_wellTyped isSeen_fields hb).2.1 session s' target source stmts rfl rfl
      (isTypedIn_types (.inr rfl)) hrun⟩

end Pair

/-! ### An array behind a type name -/

namespace Session

/-- What a base type is in a program: what the alias of its name stands for, if there is one. -/
def aliasMeaning (root base : Node) : MemberType :=
  match (root.ofClass .typedef).find? fun d => d.name?.isSome && d.name? == base.baseName? with
  | some d => .of .base (d.child .type)
  | none => .base base

/-- The variables of a program with the types that they are declared with. -/
def declaredTypes (root : Node) : Types := fun name =>
  ((root.ofClass .decl).find? (·.name? == some name)).map fun d =>
    .of (aliasMeaning root) (d.child .type)

/-- An aggregate whose field is an array by the name of its type. -/
def hiddenArray : String :=
  "typedef int V[2]; struct S \x7bV v;\x7d; void f(void) \x7b struct S x, y; x = y; \x7d"

/-- Nothing has the type of an array as a value, so no array is assigned. -/
theorem not_wellTyped_of_array {target value dim : Node} {E : MemberType}
    (h : target.typeIn? Γ meaning = some (.array E dim)) :
    ¬ (Node.assign target value).WellTyped Γ meaning := by
  intro hw
  generalize hn : Node.assign target value = n at hw
  cases hw with
  | @assign target' value' T V ht _ hV =>
    obtain ⟨rfl, rfl⟩ : target = target' ∧ value = value' := by
      simpa [Node.assign, Node.build] using hn
    obtain rfl : MemberType.array E dim = T := Option.some.inj (h.symm.trans ht)
    cases V <;> cases hV
  | copy => cases hn

/-- An array is assigned in the end: both sides of the assignment have types, and it is not well
typed. -/
theorem decomposeAll_not_wellTyped : ∃ s t, finished hiddenArray = some (s, t) ∧
    ∃ n ∈ t.document.root.ofClass .assignment, n.form? = some (.assignment .plain) ∧
      ((n.child .lvalue).typeIn? (declaredTypes t.document.root)
        (aliasMeaning t.document.root)).isSome ∧
      ((n.child .rvalue).typeIn? (declaredTypes t.document.root)
        (aliasMeaning t.document.root)).isSome ∧
      ¬ (Node.assign (n.child .lvalue) (n.child .rvalue)).WellTyped (declaredTypes t.document.root)
        (aliasMeaning t.document.root) := by
  obtain ⟨s, t, hst, h⟩ := exists_finished hiddenArray (fun _ t =>
    let root := t.document.root
    (root.ofClass .assignment).any fun n => n.form? == some (.assignment .plain) &&
      ((n.child .lvalue).typeIn? (declaredTypes root) (aliasMeaning root)).any (·.isArray) &&
      ((n.child .rvalue).typeIn? (declaredTypes root) (aliasMeaning root)).isSome)
    (by decide +kernel)
  obtain ⟨n, hn, h⟩ := List.any_eq_true.mp h
  simp only [Bool.and_eq_true, beq_iff_eq] at h
  obtain ⟨⟨hform, harray⟩, hvalue⟩ := h
  obtain ⟨T, hT, hTa⟩ := (Option.any_eq_true _ _).mp harray
  cases T with
  | array element dim =>
    exact ⟨s, t, hst, n, hn, hform, Option.isSome_of_eq_some hT, hvalue, not_wellTyped_of_array hT⟩
  | base | pointer | function => cases hTa

end Session

end Fieldwise
