import Fieldwise.Proofs.Session.Deferring
import Fieldwise.Proofs.Session.Meaning
import Fieldwise.Proofs.Session.Parameters
import Fieldwise.Session.Allocation
import Mathlib.Data.List.Find

/-!
# Types and their sizes

The types of C, as far as a session tells them apart: an aggregate goes by all of its names
(`Session.typeOf`), whatever is declared with the type (`Session.typeOf_rename`). A binding has the
type that it is declared with, where an array that is a parameter is a pointer
(`Session.ctype_of_verdictOn`).

`Session.operandType?` is the type of the operand of a `sizeof`: a type name, or a variable that the
lookup resolves, under the wrappers of an operand. An operand denotes an object just if its type is
that of the aggregate (`Binding.denotes_operand_iff`).

`sizeValue` is the value of an expression of sizes, products and constants where types have some
sizes. The expressions for the size of a number of objects (`Session.IsSizeOf`) have that multiple
of the size of one as value (`Session.IsSizeOf.value`).
-/

namespace Fieldwise

open Node

namespace Node

/-! ### Chains of declarators under other names -/

theorem copy_setName (name : Option String) (t : Node) :
    (t.setName name).copy = t.copy.setName name := by
  fun_induction Node.setName name t with
  | case1 => rfl
  | case2 _ _ _ _ ih | case3 _ _ _ ih | case4 _ _ _ ih => simp [copy, copyAll, setName, ih]
  | case5 t h₁ h₂ h₃ h₄ =>
    cases t with
    | absent => rfl
    | mk m f ps =>
      cases f
      all_goals first
        | rfl
        | exact (h₁ _ _ _ _ rfl).elim
        | (rcases ps with _ | ⟨p, _ | ⟨q, _ | ⟨r, ps⟩⟩⟩ <;> first
            | rfl
            | exact (h₂ _ _ _ _ rfl).elim
            | exact (h₃ _ _ _ rfl).elim
            | exact (h₄ _ _ _ rfl).elim)

theorem setName_setName (name name' : Option String) (t : Node) :
    (t.setName name).setName name' = t.setName name' := by
  fun_induction Node.setName name t with
  | case1 => rfl
  | case2 _ _ _ _ ih | case3 _ _ _ ih | case4 _ _ _ ih => simp [setName, ih]
  | case5 => rfl

theorem rename_rename (t : Node) (name name' : Option String) :
    (t.rename name).rename name' = t.rename name' := by
  rw [rename, rename, copy_setName, copy_copy, setName_setName, rename]

theorem baseType_setName (name : Option String) (t : Node) :
    (t.setName name).baseType = t.baseType := by
  fun_induction Node.setName name t with
  | case1 | case5 => rfl
  | case2 _ _ _ _ ih | case3 _ _ _ ih | case4 _ _ _ ih => exact ih

theorem baseType_rename (t : Node) (name : Option String) :
    (t.rename name).baseType = t.baseType.copy := by
  rw [rename, baseType_setName, baseType, typeDecl_copy, child_copy, baseType]

end Node

/-! ### Types -/

/-- A type, as far as aggregates and the declarators around them are concerned. Arrays have their
dimension, and types other than aggregates stand for themselves, as they are written without a
name. -/
inductive CType where
  | aggregate (struct : Option Nat)
  | pointer (target : CType)
  | array (element : CType) (dim : Node)
  | other (type : Node)

/-- The type of an operand, from that of what is wrapped. -/
def CType.under : Option Wrapper → CType → Option CType
  | none, t => some t
  | some .address, t => some (.pointer t)
  | some .deref, .pointer t | some .deref, .array t _ => some t
  | some .element, .pointer t | some .element, .array t _ => some t
  | some .elementAddress, .pointer t | some .elementAddress, .array t _ => some (.pointer t)
  | _, _ => none

/-- The type of a parameter that is declared with a type. -/
def CType.adjusted : CType → CType
  | .array t _ => .pointer t
  | t => t

namespace Binding

/-- The type of an object of the aggregate of a binding. -/
def objectType (b : Binding) : CType := .aggregate b.aggregate.struct.key

/-- The type of a variable. -/
def ctype (b : Binding) : CType :=
  match b.kind with
  | .value => b.objectType
  | .pointer => .pointer b.objectType
  | .array => .array b.objectType b.type.dimension.copy

/-- **Operands that denote objects are those of the type of the aggregate**: no pointer to objects
and no array of them denotes one. -/
theorem denotes_operand_iff (b : Binding) (wrap : Option Wrapper) (subscript : Node) :
    (b.operand wrap subscript).denotes = some .object ↔
      b.ctype.under wrap = some b.objectType := by
  unfold operand Operand.denotes Operand.shape ctype
  cases hk : b.kind <;> rcases wrap with _ | w <;> try cases w
  all_goals simp [hk, CType.under, objectType]

end Binding

namespace Session

variable (s : Session)

/-- The type of a chain that begins with neither a pointer nor an array. -/
def headType (type : Node) : CType :=
  match s.aggregateOf? type, type.isA .funcDecl with
  | some a, false => .aggregate a.struct.key
  | _, _ => .other (type.rename none)

/-- The type that a chain of declarators declares. -/
def typeOf : Node → CType
  | .mk _ (.ptrDecl _) [type] => .pointer (typeOf type)
  | .mk _ (.arrayDecl _) [type, dim] => .array (typeOf type) dim.copy
  | type => s.headType type

/-- The type of the operand `e` of a `sizeof` that stands at `n`. -/
def operandType? (n e : Node) : Option CType :=
  match e with
  | .mk _ (.typename _) [type] => some (s.typeOf type)
  | _ =>
    match e.unwrap.symbol with
    | .mk _ (.ident name) _ => (s.meaning? n name).bind fun b => b.ctype.under e.unwrap.wrap
    | _ => none

end Session

/-- The value of an expression of sizes, products and constants, with these types of operands and
these sizes of types. -/
def sizeValue (typeAt : Node → Node → Option CType) (size : CType → Nat) : Node → Option Int
  | .mk m (.unaryOp .sizeof) [e] =>
    (typeAt (.mk m (.unaryOp .sizeof) [e]) e).map fun t => (size t : Int)
  | .mk _ (.binaryOp .mul) [x, y] => do
    return (← sizeValue typeAt size x) * (← sizeValue typeAt size y)
  | e =>
    match e.intValue with
    | .ok z => z
    | .error _ => none

namespace Session

variable {s : Session} {t : CType} {c : Int} {n type decl : Node} {a : Aggregate} {b : Binding}

/-- A `sizeof` of a type. -/
def IsUnit (s : Session) (t : CType) (n : Node) : Prop :=
  ∃ m e, n = .mk m (.unaryOp .sizeof) [e] ∧ s.operandType? n e = some t

/-- A size is that of `c` objects of a type: a `sizeof`, which may be multiplied by a constant. -/
inductive IsSizeOf (s : Session) (t : CType) : Int → Node → Prop where
  | unit {n : Node} : s.IsUnit t n → IsSizeOf s t 1 n
  | times {m : Mark} {n factor : Node} {c : Int} : s.IsUnit t n → factor.intValue = .ok (some c) →
    IsSizeOf s t c (.mk m (.binaryOp .mul) [n, factor])
  | timesOf {m : Mark} {n factor : Node} {c : Int} : s.IsUnit t n →
    factor.intValue = .ok (some c) → IsSizeOf s t c (.mk m (.binaryOp .mul) [factor, n])

theorem IsUnit.value (h : s.IsUnit t n) (size : CType → Nat) :
    sizeValue s.operandType? size n = some (size t : Int) := by
  obtain ⟨m, e, rfl, ht⟩ := h
  rw [sizeValue, ht]
  rfl

theorem sizeValue_of_intValue {typeAt : Node → Node → Option CType} {size : CType → Nat}
    (h : n.intValue = .ok (some c)) : sizeValue typeAt size n = some c := by
  unfold sizeValue
  split
  · cases h
  · cases h
  · rw [h]

/-- The size of `c` objects is `c` times the size of one. -/
theorem IsSizeOf.value (h : s.IsSizeOf t c n) (size : CType → Nat) :
    sizeValue s.operandType? size n = some (c * (size t : Int)) := by
  cases h with
  | unit hu => rw [hu.value, Int.one_mul]
  | times hu hf =>
    rw [sizeValue, hu.value, sizeValue_of_intValue hf]
    simp [Int.mul_comm]
  | timesOf hu hf =>
    rw [sizeValue, hu.value, sizeValue_of_intValue hf]
    rfl

/-! ### Types under other names -/

/-- A base type that is an aggregate goes by a name of it, where it is defined as well. -/
def Named (s : Session) (type : Node) : Prop :=
  ∀ a ∈ s.aggregates, type.baseType.same a.struct → type.typeName?.any a.names.contains

theorem aggregateOf?_rename (h : s.Named type) (name : Option String) :
    s.aggregateOf? (type.rename name) = s.aggregateOf? type := by
  have hname : (type.rename name).typeName? = type.typeName? := by
    rw [rename, typeName?_setName, typeName?_copy]
  have hsame : ∀ x : Node, (type.rename name).baseType.same x = false := fun x => by
    rw [baseType_rename, same, key_copy]
    rfl
  unfold aggregateOf?
  refine List.find?_congr fun a ha => ?_
  rw [Aggregate.isBaseOf, Aggregate.isBaseOf, hname, hsame, Bool.false_or]
  cases hs : type.baseType.same a.struct with
  | false => rfl
  | true => rw [h a ha hs, Bool.true_or]

theorem headType_rename (h : s.Named type) (name : Option String) :
    s.headType (type.rename name) = s.headType type := by
  have hcls : (type.rename name).isA .funcDecl = type.isA .funcDecl := by
    rw [isA, isA, rename, cls?_setName, cls?_copy]
  rw [headType, headType, aggregateOf?_rename h, hcls, rename_rename]

/-- The declared name is no part of a type. -/
theorem typeOf_rename (h : s.Named type) (name : Option String) :
    s.typeOf (type.rename name) = s.typeOf type := by
  fun_induction s.typeOf type with
  | case1 m quals type ih => exact congrArg CType.pointer (ih h)
  | case2 m quals type dim ih =>
    show CType.array (s.typeOf (type.rename name)) dim.copy.copy = _
    rw [ih h, copy_copy]
  | case3 type hp ha =>
    rw [← headType_rename h name]
    -- another name makes no pointer and no array
    cases type with
    | absent => rfl
    | mk m f ps =>
      cases f
      all_goals first
        | rfl
        | (rcases ps with _ | ⟨p, _ | ⟨q, _ | ⟨r, ps⟩⟩⟩ <;> first
            | rfl
            | exact (hp _ _ _ rfl).elim
            | exact (ha _ _ _ _ rfl).elim)

theorem named_copy (s : Session) (type : Node) : s.Named type.copy := by
  intro a _ hs
  rw [baseType, typeDecl_copy, child_copy, same, key_copy] at hs
  cases hs

/-- The type of a copy is that of the original, and what is declared with it is of that type. -/
theorem typeOf_rename_eq_copy (s : Session) (type : Node) (name : Option String) :
    s.typeOf (type.rename name) = s.typeOf type.copy := by
  rw [← typeOf_rename (named_copy s type) name, rename, rename, copy_copy]

/-! ### Types of bindings -/

theorem typeOf_eq_aggregate (hl : type.layers = some []) (ha : s.aggregateOf? type = some a) :
    s.typeOf type = .aggregate a.struct.key := by
  unfold typeOf
  split
  · simp [layers] at hl
  · simp [layers] at hl
  · have hf : type.isA .funcDecl = false := by
      cases type with
      | absent => rfl
      | mk m f ps => cases f <;> first | rfl | cases hl
    rw [headType, ha, hf]

/-- The kind of a binding tells the declarators around the aggregate. -/
theorem kind_of_verdict {scope : Node} {ls : List Layer}
    (hv : verdict decl a scope ls = .ok (.binding b)) :
    ls = [] ∧ b.kind = .value ∨ ls = [.pointer] ∧ b.kind = .pointer ∨
      ls = [.array] ∧ b.kind = if scope.isA .funcDef then .pointer else .array := by
  unfold verdict at hv
  split at hv
  · cases hv
    exact .inl ⟨rfl, rfl⟩
  · cases hv
    exact .inr (.inl ⟨rfl, rfl⟩)
  · rename_i hparam
    cases hv
    exact .inr (.inr ⟨rfl, by rw [hparam]; rfl⟩)
  · rename_i hparam
    refine .inr (.inr ⟨rfl, ?_⟩)
    cases hr : arrayExtent decl (decl.child .type) with
    | error f =>
      rw [hr] at hv
      cases hv
    | ok r =>
      rw [hr] at hv
      cases r with
      | ok size =>
        cases hv
        rw [hparam]
        rfl
      | error reason => cases hv
  all_goals cases hv

theorem exists_ptrDecl {ls : List Layer} (hl : type.layers = some (.pointer :: ls)) :
    ∃ m quals target, type = .mk m (.ptrDecl quals) [target] ∧ target.layers = some ls := by
  unfold layers at hl
  split at hl
  · simp at hl
  · rename_i m quals target
    exact ⟨m, quals, target, rfl, by simpa using hl⟩
  · cases hl
  · cases hl

theorem exists_arrayDecl {ls : List Layer} (hl : type.layers = some (.array :: ls)) :
    ∃ m quals element dim, type = .mk m (.arrayDecl quals) [element, dim] ∧
      element.layers = some ls := by
  unfold layers at hl
  split at hl
  · rename_i m quals element dim
    exact ⟨m, quals, element, dim, rfl, by simpa using hl⟩
  · simp at hl
  · cases hl
  · cases hl

/-- **A binding has the type that it is declared with**, adjusted if it is a parameter. -/
theorem ctype_of_verdictOn (hv : s.verdictOn decl = .ok (.binding b)) :
    b.ctype = if b.isParam then (s.typeOf (decl.child .type)).adjusted
      else s.typeOf (decl.child .type) := by
  unfold verdictOn at hv
  split at hv
  case h_2 => cases hv
  rename_i hlayers
  split at hv
  case h_2 => cases hv
  rename_i a scope ha _
  split at hv
  · cases hv
  split at hv
  case isFalse => cases hv
  obtain ⟨rfl, hagg, rfl⟩ := verdict_spec hv
  have hobject : b.objectType = .aggregate a.struct.key := by
    rw [Binding.objectType, hagg]
    rfl
  obtain ⟨rfl, hk⟩ | ⟨rfl, hk⟩ | ⟨rfl, hk⟩ := kind_of_verdict hv
  · rw [typeOf_eq_aggregate hlayers ha]
    simp [Binding.ctype, hk, hobject, CType.adjusted]
  · obtain ⟨m, quals, target, htype, hl⟩ := exists_ptrDecl hlayers
    rw [htype] at ha ⊢
    rw [typeOf, typeOf_eq_aggregate hl ha]
    simp [Binding.ctype, hk, hobject, CType.adjusted]
  · obtain ⟨m, quals, element, dim, htype, hl⟩ := exists_arrayDecl hlayers
    rw [Binding.ctype, hk, Binding.isParam, Binding.type, htype]
    rw [htype] at ha
    rw [typeOf, typeOf_eq_aggregate hl ha, hobject]
    cases b.scope.isA .funcDef <;> rfl

end Session

end Fieldwise
