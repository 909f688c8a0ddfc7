import Fieldwise.Proofs.Session.Expanding
import Fieldwise.Proofs.Tree.Built

/-!
# Where the new nodes come from

All that a rewriting builds is built from what stands in the program and from the types of fields
(`Node.BuiltFrom`). This is said here, for any trees `R` to copy from, of the operands of fields,
their declarations (`Binding.TakenFrom.fieldDecls`), allocations, the expansions of initializers
(`Session.Sound.from_initialValues`) and the statements of an assignment
(`Session.builtFrom_assign`).
-/

namespace Fieldwise

open Node

variable {R : Node → Prop} {b : Binding} {f : Field} {o : Operand}

/-! ### Operands -/

/-- The types of the fields of a binding stand in trees with `R`. -/
def Binding.TakenFrom (R : Node → Prop) (b : Binding) : Prop :=
  ∀ f ∈ b.aggregate.fields, Node.TakenFrom R f.type

/-- There are types for the variables of all fields of a binding. -/
def Binding.TakesQuals (b : Binding) : Prop := ∀ f ∈ b.aggregate.fields, f.type.takesQuals

/-- What the operands of fields are made of comes from trees with `R`. -/
structure Operand.TakenFrom (R : Node → Prop) (o : Operand) : Prop where
  binding : o.binding.TakenFrom R
  subscript : BuiltFrom R o.subscript.copy

theorem Node.TakenFrom.dimension {n : Node} (h : TakenFrom R n) : TakenFrom R n.dimension := by
  unfold Node.dimension
  split
  · exact h.of_mem_parts (List.mem_cons_of_mem _ List.mem_cons_self)
  · exact .absent

/-- The subscript in an operand. -/
theorem Node.TakenFrom.subscript {n : Node} (h : TakenFrom R n) :
    TakenFrom R n.unwrap.subscript := by
  unfold unwrap
  split
  · exact (h.of_mem_parts List.mem_cons_self).of_mem_parts
      (List.mem_cons_of_mem _ List.mem_cons_self)
  · exact .absent
  · exact .absent
  · exact h.of_mem_parts (List.mem_cons_of_mem _ List.mem_cons_self)
  · exact .absent

theorem Binding.takenFrom_operand (hb : b.TakenFrom R) (w : Option Wrapper) {n : Node}
    (hn : Node.TakenFrom R n) : (b.operand w n).TakenFrom R := by
  unfold Binding.operand
  split
  · exact ⟨hb, BuiltFrom.intLiteral 0⟩
  · exact ⟨hb, hn.copy⟩

namespace Operand

theorem builtFrom_element (hs : BuiltFrom R o.subscript.copy) (hf : Node.TakenFrom R f.type) :
    BuiltFrom R (o.element f) := by
  unfold element
  split
  · exact (BuiltFrom.ident _).binary (hs.binary hf.dimension.copy _) _
  · exact (BuiltFrom.ident _).arrayRef hs

theorem builtFrom_object (hs : BuiltFrom R o.subscript.copy) (hf : Node.TakenFrom R f.type) :
    BuiltFrom R (o.object f) := by
  unfold object
  split
  · exact .ident _
  · split
    · exact .ident _
    · exact (BuiltFrom.ident _).unary _
  · exact builtFrom_element hs hf

theorem builtFrom_address (hs : BuiltFrom R o.subscript.copy) (hf : Node.TakenFrom R f.type) :
    BuiltFrom R (o.address f) := by
  unfold address
  split
  · split
    · exact builtFrom_element hs hf
    · exact (builtFrom_element hs hf).unary _
  · split
    · exact .ident _
    · split
      · exact (BuiltFrom.ident _).arrayRef (.intLiteral 0)
      · exact .ident _
    · split
      · exact .ident _
      · exact (BuiltFrom.ident _).unary _

theorem builtFrom_expression (hs : BuiltFrom R o.subscript.copy) (hf : Node.TakenFrom R f.type) :
    BuiltFrom R (o.expression f) := by
  unfold expression
  split
  · exact builtFrom_object hs hf
  · exact builtFrom_address hs hf

end Operand

/-! ### Declarations -/

namespace Node

variable {n init : Node}

theorem cls?_setName (name : Option String) (n : Node) : (n.setName name).cls? = n.cls? := by
  unfold setName
  split <;> rfl

theorem cls?_addQuals (more : List String) (n : Node) : (n.addQuals more).cls? = n.cls? := by
  unfold addQuals
  split <;> rfl

theorem func_of_takesQuals (h : n.takesQuals) : n.isA .funcDecl = false := by
  unfold takesQuals at h
  split at h
  · rfl
  · simpa using h

theorem BuiltFrom.addQuals (more : List String) (h : BuiltFrom R n) :
    BuiltFrom R (n.addQuals more) := by
  fun_induction Node.addQuals more n with
  | case1 m quals type dim ih =>
    obtain ⟨key, line⟩ := m
    obtain ⟨rfl, hps⟩ := h.parts
    exact .node rfl (by simpa using ⟨ih (hps type (by simp)), hps dim (by simp)⟩)
  | case2 m quals ps => obtain ⟨key, line⟩ := m; cases h.parts.1; exact .node rfl h.parts.2
  | case3 m name quals ps => obtain ⟨key, line⟩ := m; cases h.parts.1; exact .node rfl h.parts.2
  | case4 n => exact h

theorem TakenFrom.rename (h : TakenFrom R n) (name : Option String) : BuiltFrom R (n.rename name) :=
  h.copy.setName name

theorem TakenFrom.typenameOf (h : TakenFrom R n) : BuiltFrom R n.typenameOf := (h.rename _).typename

/-- The name of the type of a pointer, which is all that one is built for. -/
theorem TakenFrom.typenameOf_pointerTo (h : TakenFrom R n) :
    BuiltFrom R n.pointerTo.typenameOf := by
  have hpointer : BuiltFrom R n.pointerTo := by
    unfold pointerTo
    split
    · exact .node rfl (by simpa using (h.of_mem_parts List.mem_cons_self).copy)
    · exact .node rfl (by simpa using h.copy)
  have hcopy : n.pointerTo.copy = n.pointerTo := by
    unfold pointerTo
    split <;> simp [Node.copy, Node.copyAll, copy_copy]
  rw [Node.typenameOf, Node.rename, hcopy]
  exact (hpointer.setName _).typename

/-- The declaration of a variable. -/
structure IsVariable (R : Node → Prop) (n : Node) : Prop where
  built : BuiltFrom R n
  shape : ∃ line name spec type init, n = mk ⟨none, line⟩ (.decl name spec) [type, init, .absent] ∧
    type.isA .funcDecl = false

theorem isVariable_decl {name : Option String} {spec : Specifiers} {type : Node}
    (ht : BuiltFrom R type) (hf : type.isA .funcDecl = false) (hi : BuiltFrom R init) :
    IsVariable R (build (.decl name spec) [type, init, .absent]) :=
  ⟨.decl hf ht hi, none, name, spec, type, init, rfl, hf⟩

/-- A declaration with another initializer. -/
theorem IsVariable.withInit (h : IsVariable R n) (hi : BuiltFrom R init) :
    IsVariable R (n.withInit init) := by
  obtain ⟨hb, line, name, spec, type, old, rfl, hf⟩ := h
  exact ⟨.decl hf (hb.parts.2 type List.mem_cons_self) hi, line, name, spec, type, init, rfl, hf⟩

end Node

namespace Binding.TakenFrom

theorem fieldType (h : b.TakenFrom R) (ht : Node.TakenFrom R b.type) (hf : f ∈ b.aggregate.fields)
    (hq : f.type.takesQuals) :
    BuiltFrom R (b.fieldType f) ∧ (b.fieldType f).isA .funcDecl = false := by
  have hmember := ((h f hf).rename (some (b.fieldName f))).addQuals b.type.baseQuals
  unfold Binding.fieldType
  dsimp only
  split
  · refine ⟨hmember, ?_⟩
    rw [isA, cls?_addQuals, Node.rename, cls?_setName, cls?_copy]
    exact func_of_takesQuals hq
  · exact ⟨.node rfl (by simpa using hmember.elementType), rfl⟩
  · refine ⟨.node rfl ?_, rfl⟩
    simp only [List.mem_cons, List.not_mem_nil, or_false, forall_eq_or_imp, forall_eq]
    refine ⟨hmember, ?_⟩
    split
    · exact ht.dimension.copy
    · exact .intLiteral _

/-- **The declarations of the field variables are built from types.** -/
theorem fieldDecls (h : b.TakenFrom R) (ht : Node.TakenFrom R b.type) (hq : b.TakesQuals) :
    ∀ c ∈ b.fieldDecls, IsVariable R c := by
  intro c hc
  obtain ⟨f, hf, rfl⟩ := List.mem_map.mp hc
  obtain ⟨hbuilt, hfunc⟩ := h.fieldType ht hf (hq f hf)
  exact isVariable_decl hbuilt hfunc .absent

end Binding.TakenFrom

/-! ### Brace lists -/

/-- The values in a list of them are taken from trees with `R`. -/
def TakenValues (R : Node → Prop) {α : Type} (values : List (α × Node)) : Prop :=
  ∀ p ∈ values, Node.TakenFrom R p.2

namespace TakenValues

variable {α : Type} [BEq α] {key : α} {n : Node} {values : List (α × Node)}

theorem put (h : TakenValues R values) (hn : Node.TakenFrom R n) :
    TakenValues R (put key n values) := fun p hp => by
  rcases mem_put hp with hp | hp
  · exact h p hp
  · exact hp ▸ hn

theorem lookup (h : TakenValues R values) (hn : values.lookup key = some n) :
    Node.TakenFrom R n := by
  obtain ⟨k, hk⟩ := mem_of_lookup hn
  exact h _ hk

end TakenValues

theorem Node.TakenFrom.entryValue {n : Node} (h : TakenFrom R n) :
    TakenFrom R (Fieldwise.entryValue n) := by
  unfold Fieldwise.entryValue
  split
  · exact h.of_mem_parts List.mem_cons_self
  · exact h

namespace Aggregate

theorem takenValues_fieldValuesFrom (a : Aggregate) {entries : List Node}
    (he : ∀ p ∈ entries, Node.TakenFrom R p) : ∀ (found : List (Nat × Node)) (cursor : Nat)
      (values : List (Nat × Node)), TakenValues R found →
      a.fieldValuesFrom found cursor entries = some values → TakenValues R values := by
  induction entries with
  | nil =>
    intro found cursor values hf h
    obtain rfl : found = values := by simpa [fieldValuesFrom] using h
    exact hf
  | cons entry rest ih =>
    intro found cursor values hf h
    have hentry := he entry List.mem_cons_self
    have hrest := ih fun p hp => he p (List.mem_cons_of_mem _ hp)
    unfold fieldValuesFrom at h
    dsimp only at h
    split at h
    · cases h
    · rename_i i value hplaced
      have hv : Node.TakenFrom R value := by
        split at hplaced
        · obtain ⟨j, -, hj⟩ := Option.map_eq_some_iff.mp hplaced
          cases hj
          exact hentry.of_mem_parts List.mem_cons_self
        · cases hplaced
          exact hentry
      split at h
      · cases h
      · split at h
        · exact hrest _ _ _ (hf.put hv) h
        · cases h

theorem takenValues_fieldValues (a : Aggregate) {list : Node} {values : List (Nat × Node)}
    (hl : Node.TakenFrom R list) (h : a.fieldValues list = some values) : TakenValues R values :=
  a.takenValues_fieldValuesFrom hl.items [] 0 values (fun _ hp => nomatch hp) h

variable [Discipline]

theorem takenValues_elementValuesFrom (a : Aggregate) {entries : List Node}
    (he : ∀ p ∈ entries, Node.TakenFrom R p) :
    ∀ (found : List (Int × List (Nat × Node))) (cursor : Int), (∀ e ∈ found, TakenValues R e.2) →
      Settles (a.elementValuesFrom found cursor entries) fun r => ∀ elements, r = some elements →
        ∀ e ∈ elements, TakenValues R e.2 := by
  induction entries with
  | nil => exact fun found cursor hf => .ok fun elements h => by cases h; exact hf
  | cons entry rest ih =>
    intro found cursor hf
    have hentry := he entry List.mem_cons_self
    have hrest := ih fun p hp => he p (List.mem_cons_of_mem _ hp)
    unfold elementValuesFrom
    refine (settles_entryIndex cursor entry).bind fun i _ => ?_
    cases i with
    | none => exact .pure (by simp)
    | some i =>
      dsimp only
      split
      · cases hv : a.fieldValues (entryValue entry) with
        | none => exact .pure (by simp)
        | some values =>
          refine hrest _ _ fun e he => ?_
          rcases mem_put he with he | he
          · exact hf e he
          · rw [he]
            exact a.takenValues_fieldValues hentry.entryValue hv
      · exact .pure (by simp)

theorem takenValues_elementValues (a : Aggregate) {list : Node} (hl : Node.TakenFrom R list) :
    Settles (a.elementValues list) fun r => ∀ elements, r = some elements →
      ∀ e ∈ elements, TakenValues R e.2 :=
  a.takenValues_elementValuesFrom hl.items [] 0 fun _ he => nomatch he

end Aggregate

variable [Discipline]

mutual

/-- The assignments of an element are built from its value. -/
theorem builtFrom_assignElement (name : String) {target : Node} (ht : BuiltFrom R target) :
    ∀ value : Node, Node.TakenFrom R value →
      (assignElement name target value).Settles fun r => ∀ c ∈ r, BuiltFrom R c
  | .absent, h => by
    rw [assignElement]
    · exact .pure (by simpa using ht.assign h.copy)
    · exact fun _ _ h => nomatch h
  | .mk m f ps, h => by
    by_cases hf : f = .initList
    · subst hf
      rw [assignElement]
      exact builtFrom_assignElements name ht 0 ps fun p hp => h.of_mem_parts hp
    · rw [assignElement]
      · split
        · exact (Report.Settles.note _ _).bind fun _ _ => .pure (by simp)
        · exact .pure (by simpa using ht.assign h.copy)
      · intro m' items heq
        cases heq
        exact hf rfl

theorem builtFrom_assignElements (name : String) {target : Node} (ht : BuiltFrom R target)
    (cursor : Int) : ∀ entries : List Node, (∀ p ∈ entries, Node.TakenFrom R p) →
      (assignElements name target cursor entries).Settles fun r => ∀ c ∈ r, BuiltFrom R c
  | [], _ => by
    rw [assignElements]
    exact .pure (by simp)
  | value :: rest, h => by
    have hv := h value List.mem_cons_self
    have hrest := fun cursor => builtFrom_assignElements name ht cursor rest fun p hp =>
      h p (List.mem_cons_of_mem _ hp)
    have hall : ∀ {first more : List Node}, (∀ c ∈ first, BuiltFrom R c) →
        (∀ c ∈ more, BuiltFrom R c) → ∀ c ∈ first ++ more, BuiltFrom R c := fun hf hm c hc =>
      (List.mem_append.mp hc).elim (hf c) (hm c)
    unfold assignElements
    split
    · rename_i heq
      cases heq
    · rename_i m value' names rest' heq
      cases heq
      refine (Report.Settles.of (Aggregate.settles_entryIndex _ _)).bind fun i _ => ?_
      cases i with
      | none => exact (Report.Settles.note _ _).bind fun _ _ => .pure (by simp)
      | some i =>
        have hvalue : Node.TakenFrom R value' := hv.of_mem_parts List.mem_cons_self
        refine (Report.Settles.of (settles_integer i)).bind ?_
        rintro _ rfl
        refine (builtFrom_assignElement name (ht.arrayRef (.intLiteral i)) value' hvalue).bind
          fun first hf => ?_
        exact (hrest _).bind fun more hm => .pure (hall hf hm)
    · rename_i value' rest' _ heq
      cases heq
      refine (Report.Settles.of (settles_integer cursor)).bind ?_
      rintro _ rfl
      refine (builtFrom_assignElement name (ht.arrayRef (.intLiteral cursor)) value hv).bind
        fun first hf => ?_
      exact (hrest _).bind fun more hm => .pure (hall hf hm)

end

/-! ### Allocations -/

omit [Discipline] in
theorem Node.TakenFrom.stripCast {n : Node} (h : TakenFrom R n) : TakenFrom R n.stripCast := by
  fun_induction Node.stripCast n with
  | case1 m t e ih => exact ih (h.of_mem_parts (by simp [Node.parts]))
  | case2 n => exact h

/-- A factor that is taken from trees with `R`. -/
def Quantity.TakenFrom (R : Node → Prop) : Quantity → Prop
  | one => True
  | times factor => Node.TakenFrom R factor

omit [Discipline] in
theorem builtFrom_allocation {callee : Node} {leading : List Node} {q : Quantity}
    (hf : Node.TakenFrom R f.type) (hc : Node.TakenFrom R callee)
    (hl : ∀ p ∈ leading, Node.TakenFrom R p) (hq : q.TakenFrom R) :
    BuiltFrom R (f.allocation callee leading q) := by
  have hunit : BuiltFrom R (Node.sizeOfNode f.type.typenameOf) := hf.typenameOf.sizeOfNode
  have hsize : BuiltFrom R (q.size f) := by
    cases q with
    | one => exact hunit
    | times factor =>
      have hq : Node.TakenFrom R factor := hq
      exact hunit.binary hq.copy _
  have hcall : BuiltFrom R (Node.callOf callee.copy (leading.map Node.copy ++ [q.size f])) := by
    refine hc.copy.callOf fun p hp => ?_
    rcases List.mem_append.mp hp with hp | hp
    · obtain ⟨p', hp', rfl⟩ := List.mem_map.mp hp
      exact (hl p' hp').copy
    · rw [List.mem_singleton.mp hp]
      exact hsize
  exact .node rfl (by simpa using ⟨hf.typenameOf_pointerTo, hcall⟩)

namespace Session.Sound

variable {s : Session}

theorem takenFrom_quantity (h : s.Sound) (b : Binding) (line : Option Nat) (lone : Bool)
    {size : Node} (hs : Node.TakenFrom R size) :
    (s.quantity b line lone size).Settles fun r => ∀ q, r = some q → q.TakenFrom R := by
  unfold quantity
  split
  · rename_i m left right
    have hl : Node.TakenFrom R left := hs.of_mem_parts List.mem_cons_self
    have hr : Node.TakenFrom R right := hs.of_mem_parts (List.mem_cons_of_mem _ List.mem_cons_self)
    refine Report.Settles.bind (Q := fun r => ∀ n, r = some n → Node.TakenFrom R n) ?_
      fun r hfactor => ?_
    · unfold sizeFactor
      refine (h.settles_isAggregateSize b left).bind fun x _ => ?_
      cases x with
      | true => exact .pure (by simpa using hr)
      | false =>
        refine (h.settles_isAggregateSize b right).bind fun y _ => ?_
        cases y with
        | true => exact .pure (by simpa using hl)
        | false => exact .pure (by simp)
    · cases r with
      | none => exact .pure (by simp)
      | some factor =>
        refine (Report.Settles.of (settles_intValue factor)).bind fun z _ => ?_
        split
        · refine .pure fun q hq => ?_
          obtain rfl : Quantity.times factor = q := by simpa using hq
          exact hfactor factor rfl
        · exact (Report.Settles.note _ _).bind fun _ _ => .pure (by simp)
  · refine (Report.Settles.of (settles_intValue size)).bind fun z _ => ?_
    have hone : ∀ q, some Quantity.one = some q → q.TakenFrom R := fun q hq => by
      cases hq
      trivial
    split
    · exact (Report.Settles.note _ _).bind fun _ _ => .pure hone
    · refine (h.settles_isAggregateSize b size).bind fun x _ => ?_
      cases x with
      | true => exact .pure hone
      | false => exact .pure (by simp)

/-- An allocation becomes allocations that are built from it and from types. -/
theorem builtFrom_allocation (h : s.Sound) (hb : b.TakenFrom R) {e : Node}
    (he : Node.TakenFrom R e) :
    (s.allocation b e).Settles fun r => ∀ calls, r = some calls → ∀ c ∈ calls, BuiltFrom R c := by
  have hcall := he.stripCast
  unfold allocation
  dsimp only
  generalize e.stripCast = call at hcall ⊢
  split
  case h_2 => exact .pure (by simp)
  rename_i name args hname hargs
  split
  case isFalse => exact .pure (by simp)
  obtain ⟨m, callee, m', rfl⟩ := exists_of_callArgs? hargs
  have hcallee : Node.TakenFrom R callee := hcall.of_mem_parts List.mem_cons_self
  have hlist : Node.TakenFrom R (Node.mk m' .exprList args) :=
    hcall.of_mem_parts (List.mem_cons_of_mem _ List.mem_cons_self)
  have hargs : ∀ p ∈ args, Node.TakenFrom R p := fun p hp => hlist.of_mem_parts hp
  have hlast : Node.TakenFrom R (args.getLastD .absent) := by
    rw [List.getLastD_eq_getLast?]
    cases hl : args.getLast? with
    | none => exact .absent
    | some p => exact hargs p (List.mem_of_getLast? hl)
  refine (h.takenFrom_quantity b _ _ hlast).bind fun q hq => ?_
  cases q with
  | none => exact .pure (by simp)
  | some q =>
    refine .pure fun calls hc c hm => ?_
    cases hc
    obtain ⟨f, hf, rfl⟩ := List.mem_map.mp hm
    exact Fieldwise.builtFrom_allocation (hb f hf) hcallee
      (fun p hp => hargs p (List.dropLast_subset _ hp)) (hq q rfl)

end Session.Sound

/-! ### Initializers -/

/-- What a plan holds comes from trees with `R`. -/
def Plan.From (R : Node → Prop) : Plan → Prop
  | directList values | pointerList values => TakenValues R values
  | heapAllocation calls => ∀ c ∈ calls, BuiltFrom R c
  | aggregateCopy source => BuiltFrom R source.subscript.copy
  | arrayOfAggregates elements => ∀ e ∈ elements, TakenValues R e.2

omit [Discipline] in
/-- The literal that a pointer is set to the address of. -/
theorem Node.TakenFrom.addressedLiteral? {n type list : Node} (h : TakenFrom R n)
    (hl : n.addressedLiteral? = some (type, list)) : TakenFrom R list := by
  unfold Node.addressedLiteral? at hl
  split at hl
  · cases hl
    exact (h.of_mem_parts List.mem_cons_self).of_mem_parts
      (List.mem_cons_of_mem _ List.mem_cons_self)
  · cases hl

namespace Session.Sound

variable {s : Session}

theorem from_planFor (h : s.Sound) (hb : b.TakenFrom R) (hinit : Node.TakenFrom R b.init)
    (strategy : Strategy) : (s.planFor b strategy).Settles fun r => ∀ p, r = some p → p.From R := by
  have hvalues : ∀ {list : Node} {g : List (Nat × Node) → Plan}, Node.TakenFrom R list →
      (∀ values, TakenValues R values → (g values).From R) →
      ∀ p, (b.aggregate.fieldValues list).map g = some p → p.From R := by
    intro list g hl hg p hp
    obtain ⟨values, hv, rfl⟩ := Option.map_eq_some_iff.mp hp
    exact hg values (b.aggregate.takenValues_fieldValues hl hv)
  cases strategy with
  | directList =>
    rw [planFor]
    split
    · exact .pure (hvalues hinit fun _ hv => hv)
    · exact .pure (by simp)
  | pointerList =>
    rw [planFor]
    split
    · rename_i type list _ hlit
      split
      · exact .pure (hvalues (hinit.addressedLiteral? hlit) fun _ hv => hv)
      · exact .pure (by simp)
    · exact .pure (by simp)
  | heapAllocation =>
    rw [planFor]
    split
    · refine (h.builtFrom_allocation hb hinit).bind fun r hr => .pure fun p hp => ?_
      obtain ⟨calls, rfl, rfl⟩ := Option.map_eq_some_iff.mp hp
      exact hr calls rfl
    · exact .pure (by simp)
  | aggregateCopy =>
    rw [planFor]
    split
    · refine (h.settles_lookup _ _).bind fun r _ => ?_
      cases r with
      | none => exact .pure (by simp)
      | some source =>
        dsimp only
        split
        · refine .pure fun p hp => ?_
          cases hp
          show BuiltFrom R
            (source.operand b.init.unwrap.wrap b.init.unwrap.subscript).subscript.copy
          unfold Binding.operand
          split
          · exact .intLiteral 0
          · exact hinit.subscript.copy
        · exact .pure (by simp)
    · exact .pure (by simp)
  | arrayOfAggregates =>
    rw [planFor]
    split
    · refine (Report.Settles.of (b.aggregate.takenValues_elementValues hinit)).bind fun r hr =>
        .pure fun p hp => ?_
      obtain ⟨elements, rfl, rfl⟩ := Option.map_eq_some_iff.mp hp
      exact hr elements rfl
    · exact .pure (by simp)

theorem from_plan? (h : s.Sound) (hb : b.TakenFrom R) (hinit : Node.TakenFrom R b.init) :
    (s.plan? b).Settles fun r => ∀ p, r = some p → p.From R := by
  unfold plan?
  generalize [Strategy.directList, .pointerList, .heapAllocation, .aggregateCopy,
    .arrayOfAggregates] = strategies
  induction strategies with
  | nil => exact .pure (by simp)
  | cons strategy rest ih =>
    unfold planAmong
    refine (h.from_planFor hb hinit strategy).bind fun r hr => ?_
    cases r with
    | some plan => exact .pure (by simpa using hr plan rfl)
    | none => exact ih

end Session.Sound

section

omit [Discipline]

theorem isVariable_directInits {values : List (Nat × Node)} {decls : List Node}
    (hv : TakenValues R values) (hd : ∀ c ∈ decls, IsVariable R c) :
    ∀ c ∈ directInits values decls, IsVariable R c := by
  intro c hc
  obtain ⟨i, hi, rfl⟩ := List.mem_mapIdx.mp hc
  have hdecl := hd _ (List.getElem_mem hi)
  split
  · rename_i value hl
    exact hdecl.withInit (hv.lookup hl).copy
  · exact hdecl

theorem builtFrom_indexedList {elements : List (Int × List (Nat × Node))}
    (he : ∀ e ∈ elements, TakenValues R e.2) (indices : List Int) (i : Nat) :
    BuiltFrom R (indexedList elements indices i) := by
  unfold indexedList
  dsimp only
  split
  · exact .absent
  · refine .node rfl fun c hc => ?_
    obtain ⟨z, -, hz⟩ := List.mem_filterMap.mp hc
    obtain ⟨value, hv, rfl⟩ := Option.map_eq_some_iff.mp hz
    obtain ⟨values, hl, hlv⟩ := Option.bind_eq_some_iff.mp hv
    obtain ⟨k, hk⟩ := mem_of_lookup hl
    have hvalue : Node.TakenFrom R value := (he _ hk).lookup hlv
    exact .node rfl (by simpa using ⟨hvalue.copy, .intLiteral z⟩)

theorem Options.builtFrom_copyStatement {options : Options} {target source : Node}
    (hf : Node.TakenFrom R f.type) (ht : BuiltFrom R target) (hs : BuiltFrom R source) :
    BuiltFrom R (options.copyStatement f target source) := by
  unfold copyStatement
  split
  · exact .call _ (by simpa using ⟨ht, hs, hf.typenameOf.sizeOfNode⟩)
  · exact ht.assign hs

/-- What is built for a field that is copied. -/
def FieldCopy.From (R : Node → Prop) : FieldCopy → Prop
  | init value => BuiltFrom R value
  | statement stmt => BuiltFrom R stmt
  | unsupported => True

theorem from_fieldCopy {options : Options} {source : Operand}
    (hs : BuiltFrom R source.subscript.copy) (hf : Node.TakenFrom R f.type) :
    (fieldCopy options b source f).From R := by
  unfold fieldCopy
  split
  · exact source.builtFrom_address hs hf
  · split
    · exact source.builtFrom_object hs hf
    · split
      · trivial
      · exact Options.builtFrom_copyStatement hf (.ident _) (source.builtFrom_object hs hf)

end

theorem builtFrom_assignFields {z : Int} {values : List (Nat × Node)} (hv : TakenValues R values)
    (fields : List Field) : ∀ i, (assignFields b z values i fields).Settles fun r =>
      ∀ c ∈ r, BuiltFrom R c := by
  induction fields with
  | nil => exact fun i => .pure (by simp)
  | cons f fs ih =>
    intro i
    unfold assignFields
    split
    · rename_i value hl
      refine (Report.Settles.of (settles_integer z)).bind ?_
      rintro _ rfl
      refine (builtFrom_assignElement b.name ((BuiltFrom.ident _).arrayRef (.intLiteral z)) value
        (hv.lookup hl)).bind fun first hf => (ih _).bind fun more hm => .pure fun c hc => ?_
      exact (List.mem_append.mp hc).elim (hf c) (hm c)
    · exact ih _

theorem builtFrom_assignAll {elements : List (Int × List (Nat × Node))}
    (he : ∀ e ∈ elements, TakenValues R e.2) (indices : List Int) :
    (assignAll b elements indices).Settles fun r => ∀ c ∈ r, BuiltFrom R c := by
  induction indices with
  | nil => exact .pure (by simp)
  | cons z zs ih =>
    unfold assignAll
    have hv : TakenValues R ((elements.lookup z).getD []) := by
      cases hl : elements.lookup z with
      | none =>
        intro p hp
        cases hp
      | some values =>
        obtain ⟨k, hk⟩ := mem_of_lookup hl
        exact he _ hk
    refine (builtFrom_assignFields hv _ 0).bind fun first hf => ih.bind fun more hm =>
      .pure fun c hc => ?_
    exact (List.mem_append.mp hc).elim (hf c) (hm c)

/-- The nodes of an expansion come from trees with `R`. -/
structure Expansion.From (R : Node → Prop) (x : Expansion) : Prop where
  before : ∀ c ∈ x.before, BuiltFrom R c
  decls : ∀ c ∈ x.decls, BuiltFrom R c
  after : ∀ c ∈ x.after, BuiltFrom R c

namespace Session

variable {s : Session}

theorem isVariable_holders {values : List (Nat × Node)} (hv : TakenValues R values)
    (fields : List Field) (hf : ∀ f ∈ fields, Node.TakenFrom R f.type)
    (hq : ∀ f ∈ fields, f.type.takesQuals) :
    ∀ (s : Session) (i : Nat) (decls : List Node), (∀ c ∈ decls, IsVariable R c) →
      s.Settles (Engine.holders b values i fields decls) fun r _ =>
        (∀ c ∈ r.1, IsVariable R c) ∧ ∀ c ∈ r.2, IsVariable R c := by
  induction fields with
  | nil => exact fun s i decls hd => .pure ⟨by simp, hd⟩
  | cons f fs ih =>
    intro s i decls hd
    cases decls with
    | nil => exact .pure ⟨by simp, hd⟩
    | cons decl decls =>
      have hdecl := hd decl List.mem_cons_self
      have hmore := fun t i => ih (fun f hm => hf f (List.mem_cons_of_mem _ hm))
        (fun f hm => hq f (List.mem_cons_of_mem _ hm)) t i decls
        fun c hc => hd c (List.mem_cons_of_mem _ hc)
      unfold Engine.holders
      split
      · rename_i value hl
        refine (settles_freshName _).bind fun name t ht => (hmore t _).bind fun r u hr => .pure ?_
        refine ⟨fun c hc => ?_, fun c hc => ?_⟩
        · rcases List.mem_cons.mp hc with rfl | hc
          · refine isVariable_decl ((hf f List.mem_cons_self).rename _) ?_ (hv.lookup hl).copy
            rw [isA, Node.rename, cls?_setName, cls?_copy]
            exact func_of_takesQuals (hq f List.mem_cons_self)
          · exact hr.1 c hc
        · rcases List.mem_cons.mp hc with rfl | hc
          · refine hdecl.withInit ?_
            split
            · exact .ident _
            · exact (BuiltFrom.ident _).unary _
          · exact hr.2 c hc
      · refine (hmore s _).bind fun r u hr => .pure ?_
        exact ⟨hr.1, fun c hc => (List.mem_cons.mp hc).elim (fun he => he ▸ hdecl) (hr.2 c)⟩

theorem isVariable_copies {source : Operand} (hs : BuiltFrom R source.subscript.copy)
    (fields : List Field) (hf : ∀ f ∈ fields, Node.TakenFrom R f.type) :
    ∀ (s : Session) (decls : List Node), (∀ c ∈ decls, IsVariable R c) →
      s.Settles (Engine.copies b source fields decls) fun r _ =>
        (∀ c ∈ r.1, IsVariable R c) ∧ ∀ c ∈ r.2, BuiltFrom R c := by
  induction fields with
  | nil => exact fun s decls hd => .pure ⟨hd, by simp⟩
  | cons f fs ih =>
    intro s decls hd
    cases decls with
    | nil => exact .pure ⟨hd, by simp⟩
    | cons decl decls =>
      have hdecl := hd decl List.mem_cons_self
      have hcopy : (fieldCopy s.options b source f).From R :=
        from_fieldCopy hs (hf f List.mem_cons_self)
      -- The rest is done for what this field comes to.
      have hrest : ∀ (decl' : Node) (first : List Node) (t : Session), IsVariable R decl' →
          (∀ c ∈ first, BuiltFrom R c) → t.Settles (Engine.copies b source fs decls >>= fun r =>
            return (decl' :: r.1, first ++ r.2)) fun r _ =>
              (∀ c ∈ r.1, IsVariable R c) ∧ ∀ c ∈ r.2, BuiltFrom R c := by
        intro decl' first t hd' hfirst
        refine (ih (fun f hm => hf f (List.mem_cons_of_mem _ hm)) t decls
          fun c hc => hd c (List.mem_cons_of_mem _ hc)).bind fun r' u hr' => .pure ?_
        exact ⟨fun c hc => (List.mem_cons.mp hc).elim (fun he => he ▸ hd') (hr'.1 c),
          fun c hc => (List.mem_append.mp hc).elim (hfirst c) (hr'.2 c)⟩
      unfold Engine.copies
      refine .get_bind ?_
      dsimp only
      generalize fieldCopy s.options b source f = copy at hcopy ⊢
      cases copy with
      | init value => exact hrest _ [] s (hdecl.withInit hcopy) (by simp)
      | statement stmt =>
        have hcopy : BuiltFrom R stmt := hcopy
        exact (settles_requireHeader _).bind fun _ t _ =>
          hrest decl [stmt] t hdecl (by simpa using hcopy)
      | unsupported => exact (settles_note _ _).bind fun _ t _ => hrest decl [] t hdecl (by simp)

/-- What a plan comes to is built from what it holds. -/
theorem from_applyPlan (s : Session) (hb : b.TakenFrom R) (hq : b.TakesQuals) {decls : List Node}
    (hd : ∀ c ∈ decls, IsVariable R c) {plan : Plan} (hp : plan.From R) :
    s.Settles (Engine.applyPlan b decls plan) fun x _ => x.From R := by
  cases plan with
  | directList values =>
    exact .pure ⟨by simp, fun c hc => (isVariable_directInits hp hd c hc).built, by simp⟩
  | pointerList values =>
    refine (isVariable_holders hp _ hb hq s 0 decls hd).bind fun r t hr => .pure ?_
    exact ⟨fun c hc => (hr.1 c hc).built, fun c hc => (hr.2 c hc).built, by simp⟩
  | heapAllocation calls =>
    refine .pure ⟨by simp, fun c hc => ?_, by simp⟩
    obtain ⟨i, hi, rfl⟩ := List.mem_iff_getElem.mp hc
    rw [List.getElem_zipWith]
    exact ((hd _ (List.getElem_mem _)).withInit (hp _ (List.getElem_mem _))).built
  | aggregateCopy source =>
    refine (isVariable_copies hp _ hb s decls hd).bind fun r t hr => .pure ?_
    exact ⟨by simp, fun c hc => (hr.1 c hc).built, hr.2⟩
  | arrayOfAggregates elements =>
    unfold Engine.applyPlan
    dsimp only
    split
    · refine (settles_report (.of (settles_checkIndices elements))).bind fun _ t _ => .pure ?_
      refine ⟨by simp, fun c hc => ?_, by simp⟩
      obtain ⟨i, hi, rfl⟩ := List.mem_mapIdx.mp hc
      exact ((hd _ (List.getElem_mem hi)).withInit (builtFrom_indexedList hp _ _)).built
    · refine (settles_report (builtFrom_assignAll hp _)).bind fun after t ht => .pure ?_
      exact ⟨by simp, fun c hc => (hd c hc).built, ht.2⟩

/-- **What replaces a declaration is built from its initializer and from types.** -/
theorem Sound.from_initialValues (h : s.Sound) (hb : b.TakenFrom R) (hq : b.TakesQuals)
    (hinit : Node.TakenFrom R b.init)
    {decls : List Node} (hd : ∀ c ∈ decls, IsVariable R c) :
    s.Settles (Engine.initialValues b decls) fun x _ => x.From R := by
  have hplain : Expansion.From R { decls } := ⟨by simp, fun c hc => (hd c hc).built, by simp⟩
  unfold Engine.initialValues
  split
  · refine (settles_report (h.from_plan? hb hinit)).bind fun r t hr => ?_
    cases r with
    | none => exact (settles_note _ _).bind fun _ u _ => .pure hplain
    | some plan =>
      exact (settles_note _ _).bind fun _ u _ => from_applyPlan u hb hq hd (hr.2 plan rfl)
  · exact .pure hplain

/-! ### Assignments -/

omit [Discipline] in
theorem builtFrom_statement {options : Options} {target source : Operand}
    (ht : target.TakenFrom R) (hs : source.TakenFrom R) (r : CopyRule) :
    ∀ c ∈ r.statements options target source, BuiltFrom R c := by
  intro c hc
  obtain ⟨f, hf, rfl⟩ := List.mem_map.mp hc
  have hfield := ht.binding f hf
  unfold CopyRule.statement
  split
  · exact (target.builtFrom_address ht.subscript hfield).assign
      (source.builtFrom_address hs.subscript hfield)
  · exact Options.builtFrom_copyStatement hfield (target.builtFrom_object ht.subscript hfield)
      (source.builtFrom_object hs.subscript hfield)

/-- **The statements of an assignment are built from its operands and from types.** -/
theorem builtFrom_assign (s : Session) {target source : Operand} (ht : target.TakenFrom R)
    (hs : source.TakenFrom R)
    (hsame : target.binding.aggregate.same source.binding.aggregate) :
    s.Settles (Engine.assign target source) fun r t => s.Same t ∧
      ∀ stmts, r = some stmts → ∀ c ∈ stmts, BuiltFrom R c := by
  unfold Engine.assign
  rw [if_pos hsame]
  split
  · exact .pure ⟨.refl s, by simp⟩
  · rename_i r _
    refine (settles_note _ _).bind fun _ t hst => .get_bind ?_
    dsimp only
    split
    · exact (settles_requireHeader _).bind fun _ u htu =>
        .pure ⟨hst.trans htu, by simpa using builtFrom_statement ht hs r⟩
    · exact .pure ⟨hst, by simpa using builtFrom_statement ht hs r⟩

end Session

end Fieldwise
