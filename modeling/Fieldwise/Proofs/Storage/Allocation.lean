import Fieldwise.Proofs.Storage.Sizes

/-!
# Allocations keep their number of objects

An allocation of objects of an aggregate is taken apart into one for each field
(`Session.allocation`). The expression for its size is that of some number of objects, and each of
the new calls asks for the size of that many fields (`Session.allocation_keeps_count`). It rests on
what is accepted as the size of an object: a `sizeof` whose operand is of the type of the aggregate
(`Session.isUnit_of_isAggregateSize`).

Types are told apart by their names here, as aggregates are. Where an inner scope defines a tag
again, C tells two structs apart that have one name (`Session.scopedType?`), and then the numbers
of objects may differ (`Session.allocation_mistakes_definedAgain`).
-/

namespace Fieldwise

open Node

namespace Session

variable {s : Session} {b : Binding} {n size left right factor : Node} {line : Option Nat}
  {lone : Bool} {log log' : List Entry} {q : Quantity}

/-! ### What is accepted as a size -/

theorem operandType?_eq {e : Node} {m : Mark} {name : String} {ps : List Node}
    (h : e.unwrap.symbol = .mk m (.ident name) ps) :
    s.operandType? n e = (s.meaning? n name).bind fun b => b.ctype.under e.unwrap.wrap := by
  unfold operandType?
  split
  · cases h
  · rw [h]

/-- Only a `sizeof` of an object of the aggregate is accepted as its size. -/
theorem isUnit_of_isAggregateSize
    (h : (s.isAggregateSize b n).run.run log = (.ok true, log')) : s.IsUnit b.objectType n := by
  unfold isAggregateSize at h
  split at h
  case h_2 => cases h
  rename_i m e
  refine ⟨m, e, rfl, ?_⟩
  split at h
  · -- the name of a type
    rename_i type
    have hcond := Except.ok.inj (congrArg Prod.fst h)
    simp only [Bool.and_eq_true, beq_iff_eq, Option.any_eq_true] at hcond
    obtain ⟨hl, a, ha, hsame⟩ := hcond
    show some (s.typeOf type) = _
    rw [typeOf_eq_aggregate hl ha, Binding.objectType, (same_iff.mp hsame).2]
  · -- a variable under wrappers
    dsimp only at h
    split at h
    case h_2 => cases h
    rename_i name _ hsymbol
    obtain ⟨found, mid, hfound, h⟩ := Report.run_bind_eq_ok.mp h
    cases found with
    | none => cases h
    | some target =>
      have hcond := Except.ok.inj (congrArg Prod.fst h)
      simp only [Bool.and_eq_true, beq_iff_eq] at hcond
      obtain ⟨hsame, hobject⟩ := hcond
      rw [operandType?_eq hsymbol, meaning?_of_run (congrArg Prod.fst hfound), Option.bind_some,
        (target.denotes_operand_iff _ _).mp hobject, Binding.objectType, Binding.objectType,
        (same_iff.mp hsame).2]

/-! ### The number of objects -/

/-- The number of objects that a quantity is. -/
inductive Quantity.Counts : Quantity → Int → Prop where
  | one : Counts .one 1
  | times {factor : Node} {c : Int} : factor.intValue = .ok (some c) → Counts (.times factor) c

/-- The size of as many fields as a quantity says. -/
theorem isSizeOf_size {q : Quantity} {c : Int} (hq : Quantity.Counts q c) (f : Field) :
    s.IsSizeOf (s.typeOf f.type.copy) c (q.size f) := by
  have hunit : s.IsUnit (s.typeOf f.type.copy) (sizeOfNode f.type.typenameOf) :=
    ⟨{}, f.type.typenameOf, rfl, congrArg some (typeOf_rename_eq_copy s f.type none)⟩
  cases hq with
  | one => exact .unit hunit
  | times hc => exact .times hunit ((intValue_congr (form?_copy _)).trans hc)

/-- A factor is what the size of the aggregate is multiplied by. -/
theorem isUnit_of_sizeFactor
    (h : (s.sizeFactor b left right).run.run log = (.ok (some factor), log')) :
    s.IsUnit b.objectType left ∧ factor = right ∨ s.IsUnit b.objectType right ∧ factor = left := by
  unfold sizeFactor at h
  obtain ⟨found, mid, hfound, h⟩ := Report.run_bind_eq_ok.mp h
  cases found with
  | true =>
    obtain rfl := Option.some.inj (Except.ok.inj (congrArg Prod.fst h))
    exact .inl ⟨isUnit_of_isAggregateSize hfound, rfl⟩
  | false =>
    obtain ⟨found, mid', hfound', h⟩ := Report.run_bind_eq_ok.mp h
    cases found with
    | true =>
      obtain rfl := Option.some.inj (Except.ok.inj (congrArg Prod.fst h))
      exact .inr ⟨isUnit_of_isAggregateSize hfound', rfl⟩
    | false => cases h

theorem intValue_of_run {z : Option Int}
    (h : (Report.of n.intValue).run.run log = (.ok z, log')) : n.intValue = .ok z :=
  congrArg Prod.fst h

/-- The quantity that is read off a size other than a constant is the number of objects that it is
the size of. -/
theorem exists_counts (h : (s.quantity b line lone size).run.run log = (.ok (some q), log')) :
    ∃ c, Quantity.Counts q c ∧
      ((∀ z, size.intValue ≠ .ok (some z)) → s.IsSizeOf b.objectType c size) := by
  unfold quantity at h
  split at h
  · -- a product
    rename_i m left right
    obtain ⟨found, mid, hfound, h⟩ := Report.run_bind_eq_ok.mp h
    cases found with
    | none => cases h
    | some factor =>
      obtain ⟨value, mid', hvalue, h⟩ := Report.run_bind_eq_ok.mp h
      cases value with
      | none =>
        obtain ⟨_, _, -, h⟩ := Report.run_bind_eq_ok.mp h
        cases h
      | some c =>
        obtain rfl := Option.some.inj (Except.ok.inj (congrArg Prod.fst h))
        have hc := intValue_of_run hvalue
        refine ⟨c, .times hc, fun _ => ?_⟩
        obtain ⟨hunit, rfl⟩ | ⟨hunit, rfl⟩ := isUnit_of_sizeFactor hfound
        · exact .times hunit hc
        · exact .timesOf hunit hc
  · -- a constant or the size of one object
    obtain ⟨value, mid, hvalue, h⟩ := Report.run_bind_eq_ok.mp h
    split at h
    · rename_i hlone
      obtain ⟨_, _, -, h⟩ := Report.run_bind_eq_ok.mp h
      obtain rfl := Option.some.inj (Except.ok.inj (congrArg Prod.fst h))
      refine ⟨1, .one, fun hlit => ?_⟩
      obtain ⟨z, rfl⟩ := Option.isSome_iff_exists.mp (Bool.and_eq_true_iff.mp hlone).1
      exact absurd (intValue_of_run hvalue) (hlit z)
    · obtain ⟨found, mid', hfound, h⟩ := Report.run_bind_eq_ok.mp h
      cases found with
      | false => cases h
      | true =>
        obtain rfl := Option.some.inj (Except.ok.inj (congrArg Prod.fst h))
        exact ⟨1, .one, fun _ => .unit (isUnit_of_isAggregateSize hfound)⟩

/-! ### Allocations -/

/-- **An allocation that is taken apart keeps its number of objects.** There is one call for each
field, in order, with the function and the leading arguments of the original. If the size is no
constant, it is that of some constant number of objects of the aggregate, and the size in each new
call is that of as many fields, whatever the sizes of types are. -/
theorem allocation_keeps_count {e : Node} {calls : List Node}
    (h : (s.allocation b e).run.run log = (.ok (some calls), log')) :
    ∃ (name : String) (leading : List Node) (size : Node) (sizeFor : Field → Node),
      e.stripCast.callName? = some name ∧ name ∈ s.options.allocators ∧
      e.stripCast.callArgs? = some (leading ++ [size]) ∧
      (calls = b.aggregate.fields.map fun f => .build .cast [f.type.pointerTo.typenameOf,
        .callOf (e.stripCast.child .name).copy (leading.map Node.copy ++ [sizeFor f])]) ∧
      ((∀ z, size.intValue ≠ .ok (some z)) → ∃ c, s.IsSizeOf b.objectType c size ∧
        ∀ sizeOf : CType → Nat,
          sizeValue s.operandType? sizeOf size = some (c * sizeOf b.objectType) ∧
          ∀ f ∈ b.aggregate.fields, sizeValue s.operandType? sizeOf (sizeFor f) =
            some (c * sizeOf (s.typeOf f.type.copy))) := by
  unfold allocation at h
  dsimp only at h
  split at h
  case h_2 => cases h
  rename_i name args hname hargs
  split at h
  case isFalse => cases h
  rename_i hallocator
  obtain ⟨found, mid, hfound, h⟩ := Report.run_bind_eq_ok.mp h
  cases found with
  | none => cases h
  | some q =>
    obtain rfl := Option.some.inj (Except.ok.inj (congrArg Prod.fst h))
    obtain ⟨c, hq, hsize⟩ := exists_counts hfound
    -- without arguments there would be no size
    have hne : args ≠ [] := by
      rintro rfl
      cases hfound
    have hlast : args.getLastD .absent = args.getLast hne := by
      rw [List.getLastD_eq_getLast?, List.getLast?_eq_some_getLast hne, Option.getD_some]
    rw [hlast] at hsize
    refine ⟨name, args.dropLast, args.getLast hne, q.size, hname, by simpa using hallocator, ?_,
      rfl, fun hlit => ⟨c, hsize hlit, fun sizeOf => ⟨?_, fun f _ => ?_⟩⟩⟩
    · rw [List.dropLast_concat_getLast, hargs]
    · exact (hsize hlit).value sizeOf
    · exact (isSizeOf_size hq f).value sizeOf

theorem intValue_ne_of_isA (h : n.isA .constant = false) (z : Int) :
    n.intValue ≠ .ok (some z) := by
  intro hz
  unfold intValue at hz
  split at hz
  · cases h
  · cases hz

/-- The first assignment of a program, in the session before any rewriting: the binding that its
target is, and the value. -/
def firstAssignment? (source : String) : Option (Session × Binding × Node) :=
  match parse source with
  | .error _ => none
  | .ok program =>
    let s := Session.start program {} none
    match s.document.root.ofClass .assignment with
    | .mk _ _ [target, value] :: _ =>
      (s.meaning? target (target.name?.getD "")).map fun b => (s, b, value)
    | _ => none

/-- The calls that an allocation is taken apart into. -/
def callsFor? (s : Session) (b : Binding) (e : Node) : Option (List Node) :=
  match (s.allocation b e).entries.1 with
  | .ok calls => calls
  | .error _ => none

theorem run_of_callsFor? {e : Node} {calls : List Node} (h : s.callsFor? b e = some calls) :
    ∃ log, (s.allocation b e).run.run [] = (.ok (some calls), log) := by
  refine ⟨_, Prod.ext ?_ rfl⟩
  unfold callsFor? at h
  split at h
  · rename_i hcalls
    rw [← h]
    exact hcalls
  · cases h

/-- The entry of a list with one entry. -/
def sole? {α : Type} : List α → Option α
  | [x] => some x
  | _ => none

theorem eq_of_sole? {α : Type} {xs : List α} {x : α} (h : sole? xs = some x) : xs = [x] := by
  unfold sole? at h
  split at h
  · rw [Option.some.inj h]
  · cases h

/-- The argument of a call with one argument, which may be cast. -/
def soleArgument? (e : Node) : Option Node := e.stripCast.callArgs?.bind sole?

theorem callArgs?_of_soleArgument? {e : Node} (h : soleArgument? e = some n) :
    e.stripCast.callArgs? = some [n] := by
  obtain ⟨args, hargs, hn⟩ := Option.bind_eq_some_iff.mp h
  rw [hargs, eq_of_sole? hn]

/-- Memory for two objects, where the size is that of what the pointer points to. -/
def twoObjects : String :=
  "struct S \x7bint v; int w[4];\x7d; void f(struct S *p) \x7b p = malloc(2 * sizeof(*p)); \x7d"

theorem allocation_keeps_count_twoObjects : ∃ (s : Session) (b : Binding) (e size : Node)
    (calls : List Node) (sizeFor : Field → Node) (c : Int),
    firstAssignment? twoObjects = some (s, b, e) ∧ s.callsFor? b e = some calls ∧
      calls.length = 2 ∧ e.stripCast.callArgs? = some [size] ∧ s.IsSizeOf b.objectType c size ∧
      ∀ sizeOf : CType → Nat, ∀ f ∈ b.aggregate.fields,
        sizeValue s.operandType? sizeOf (sizeFor f) =
          some (c * sizeOf (s.typeOf f.type.copy)) := by
  have h : (firstAssignment? twoObjects).any (fun r =>
      (r.1.callsFor? r.2.1 r.2.2).any (·.length == 2) &&
        (soleArgument? r.2.2).any fun size => !size.isA .constant) = true := by decide +kernel
  obtain ⟨⟨s, b, e⟩, hfirst, h⟩ := (Option.any_eq_true _ _).mp h
  simp only [Bool.and_eq_true, Option.any_eq_true, beq_iff_eq, Bool.not_eq_true'] at h
  obtain ⟨⟨calls, hcalls, hlen⟩, size, hsize, hconst⟩ := h
  have hargs := callArgs?_of_soleArgument? hsize
  obtain ⟨log, hrun⟩ := run_of_callsFor? hcalls
  obtain ⟨_, leading, size', sizeFor, -, -, hargs', -, hcount⟩ := allocation_keeps_count hrun
  obtain rfl : size' = size := by
    have happend : leading ++ [size'] = [] ++ [size] := Option.some.inj (hargs'.symm.trans hargs)
    exact List.singleton_inj.mp (List.append_inj_right' happend rfl)
  obtain ⟨c, hc, hvalue⟩ := hcount (intValue_ne_of_isA hconst)
  exact ⟨s, b, e, size', calls, sizeFor, c, hfirst, hcalls, hlen, hargs, hc,
    fun sizeOf => (hvalue sizeOf).2⟩

/-! ### Tags that are defined again -/

/-- The struct with a tag that an item of a scope defines. -/
def definedStruct? (tag : String) (item : Node) : Option Node :=
  let type := item.child .type
  let base := if type.isA .structType then type else type.baseType
  if base.form? == some (.structType (some tag) true) then some base else none

/-- The struct that a tag means below the node `child` by the scopes of C: the one that is defined
before it in the nearest scope that defines one. -/
def taggedIn? (tag : String) (child : Node) : List Node → Option Node
  | [] => none
  | scope :: outer =>
    let earlier := (itemsOf scope).takeWhile fun item => !item.same child
    match earlier.findSome? (definedStruct? tag) with
    | some struct => some struct
    | none => taggedIn? tag scope outer

/-- The type of the operand of a `sizeof`, where tags mean structs by the scopes of C. -/
def scopedType? (s : Session) (n e : Node) : Option CType :=
  match e with
  | .mk _ (.typename _) [.mk _ (.typeDecl _ _) [.mk _ (.structType (some tag) false) _]] =>
    (taggedIn? tag n (s.document.ancestors n)).map fun struct => .aggregate struct.key
  | _ => s.operandType? n e

/-- Sizes that tell the structs of a program apart. -/
def keySize : CType → Nat
  | .aggregate (some key) => key + 1
  | _ => 1

theorem keySize_pos (t : CType) : 0 < keySize t := by
  unfold keySize
  split <;> omega

/-- Memory for an object of a struct that has the tag of another. -/
def definedAgain : String :=
  "struct S \x7bint a;\x7d; void f(struct S *p) \x7b struct S \x7bint a; int b;\x7d; " ++
    "p = malloc(sizeof(struct S)); \x7d"

/-- **By the scopes of C an allocation does not keep its number of objects**, as aggregates are
told apart by their names: where a tag is defined again, the size of the inner struct is accepted
as that of the outer one. -/
theorem allocation_mistakes_definedAgain : ∃ s b e call size size' f,
    firstAssignment? definedAgain = some (s, b, e) ∧ s.callsFor? b e = some [call] ∧
      b.aggregate.fields = [f] ∧ e.stripCast.callArgs? = some [size] ∧
      call.stripCast.callArgs? = some [size'] ∧ (∀ z, size.intValue ≠ .ok (some z)) ∧
      ∃ (sizeOf : CType → Nat) (z : Int), (∀ t, 0 < sizeOf t) ∧
        sizeValue s.scopedType? sizeOf size = some z ∧ ¬ ∃ c : Int, z = c * sizeOf b.objectType ∧
          sizeValue s.scopedType? sizeOf size' = some (c * sizeOf (s.typeOf f.type.copy)) := by
  have h : (firstAssignment? definedAgain).any (fun r =>
      ((r.1.callsFor? r.2.1 r.2.2).bind sole?).any fun call =>
        (soleArgument? call).any fun size' => (soleArgument? r.2.2).any fun size =>
          (sole? r.2.1.aggregate.fields).any fun f =>
            !size.isA .constant && keySize (r.1.typeOf f.type.copy) == 1 &&
              sizeValue r.1.scopedType? keySize size' == some 1 &&
              (sizeValue r.1.scopedType? keySize size).any
                (· != (keySize r.2.1.objectType : Int))) = true := by decide +kernel
  obtain ⟨⟨s, b, e⟩, hfirst, h⟩ := (Option.any_eq_true _ _).mp h
  simp only [Option.any_eq_true, Option.bind_eq_some_iff, Bool.and_eq_true, beq_iff_eq,
    Bool.not_eq_true', bne_iff_ne] at h
  obtain ⟨call, ⟨calls, hcalls, hcall⟩, size', hsize', size, hsize, f, hf, h⟩ := h
  obtain ⟨⟨⟨hconst, hfield⟩, hnew⟩, z, hold, hz⟩ := h
  rw [eq_of_sole? hcall] at hcalls
  refine ⟨s, b, e, call, size, size', f, hfirst, hcalls, eq_of_sole? hf,
    callArgs?_of_soleArgument? hsize, callArgs?_of_soleArgument? hsize',
    intValue_ne_of_isA hconst, keySize, z, keySize_pos, hold, ?_⟩
  rintro ⟨c, hc, hc'⟩
  rw [hnew, hfield] at hc'
  obtain rfl : c = 1 := by simpa using hc'.symm
  exact hz (by rw [hc, Int.one_mul])

end Session

end Fieldwise
