import Fieldwise.Proofs.Document.Renew
import Fieldwise.Proofs.Session.Bindings
import Fieldwise.Session.Decomposition

/-!
# What a rewriting builds

All nodes that a rewriting builds are new, and nothing is wrong with them: the operands of fields,
their declarations, assignments and allocations, and what a plan for an initializer comes to
(`Session.Sound.settles_initialValues`, `Session.Sound.settles_assign`).
-/

namespace Fieldwise

open Node

variable {b : Binding} {f : Field} {o : Operand}

/-- No field variable is named like the assignment operator. -/
theorem Binding.fieldName_ne (b : Binding) (f : Field) : b.fieldName f ≠ "operator=" := by
  intro h
  have hmem : '_' ∈ (b.fieldName f).toList := by simp [fieldName]
  rw [h] at hmem
  exact absurd hmem (by decide)

namespace Node

theorem isInner_ident {name : String} (h : name ≠ "operator=") : (ident name).IsInner :=
  ⟨rfl, rfl, rfl, by simpa [ident, identName?, form?] using h⟩

theorem isInner_unary (op : UnaryOp) (n : Node) : (unary op n).IsInner :=
  ⟨rfl, rfl, rfl, by simp [unary, identName?, form?]⟩

theorem isInner_binary (op : BinaryOp) (n p : Node) : (binary op n p).IsInner :=
  ⟨rfl, rfl, rfl, by simp [binary, identName?, form?]⟩

theorem isInner_arrayRef (n p : Node) : (arrayRef n p).IsInner :=
  ⟨rfl, rfl, rfl, by simp [arrayRef, identName?, form?]⟩

theorem isInner_typenameOf (n : Node) : n.typenameOf.IsInner :=
  ⟨rfl, rfl, rfl, by simp [typenameOf, identName?, form?]⟩

end Node

theorem Operand.isInner_element (o : Operand) (f : Field) : (o.element f).IsInner := by
  unfold element
  split
  · exact isInner_binary _ _ _
  · exact isInner_arrayRef _ _

theorem Operand.isInner_fieldIdent (o : Operand) (f : Field) : (o.fieldIdent f).IsInner :=
  isInner_ident (o.binding.fieldName_ne f)

theorem Operand.isInner_object (o : Operand) (f : Field) : (o.object f).IsInner := by
  unfold object
  split
  · exact isInner_fieldIdent o f
  · split
    · exact isInner_fieldIdent o f
    · exact isInner_unary _ _
  · exact isInner_element o f

theorem mem_of_lookup {α β : Type} [BEq α] {key : α} {value : β} {xs : List (α × β)}
    (h : xs.lookup key = some value) : ∃ k, (k, value) ∈ xs := by
  induction xs with
  | nil => cases h
  | cons x xs ih =>
    obtain ⟨k, v⟩ := x
    rw [List.lookup_cons] at h
    split at h
    · obtain rfl : v = value := by simpa using h
      exact ⟨k, List.mem_cons_self⟩
    · obtain ⟨k', hk⟩ := ih h
      exact ⟨k', List.mem_cons_of_mem _ hk⟩

theorem mem_put {α β : Type} [BEq α] {key : α} {value : β} {xs : List (α × β)} {p : α × β}
    (h : p ∈ put key value xs) : p ∈ xs ∨ p.2 = value := by
  induction xs with
  | nil =>
    rw [List.mem_singleton.mp h]
    exact .inr rfl
  | cons x xs ih =>
    rw [put] at h
    split at h
    · rcases List.mem_cons.mp h with rfl | h
      · exact .inr rfl
      · exact .inl (List.mem_cons_of_mem _ h)
    · rcases List.mem_cons.mp h with rfl | h
      · exact .inl List.mem_cons_self
      · exact (ih h).imp_left (List.mem_cons_of_mem _)

/-! ### Operands -/

namespace Operand

theorem isProduct_element (o : Operand) (f : Field) : (o.element f).isProduct := by
  unfold element
  split <;> rfl

theorem isProduct_object (o : Operand) (f : Field) : (o.object f).isProduct := by
  unfold object
  split
  · rfl
  · split <;> rfl
  · exact o.isProduct_element f

theorem isProduct_address (o : Operand) (f : Field) : (o.address f).isProduct := by
  unfold address
  split
  · split
    · exact o.isProduct_element f
    · rfl
  · split
    · rfl
    · split <;> rfl
    · split <;> rfl

variable [Discipline]

theorem isNewTerm_element (hs : o.subscript.IsTerm) (hf : f.type.IsTerm) :
    (o.element f).IsNewTerm := by
  unfold element
  split
  · exact (isNewTerm_ident _).binary (hs.copy.binary hf.dimension.copy _) _
  · exact (isNewTerm_ident _).arrayRef hs.copy

theorem isNewTerm_object (hs : o.subscript.IsTerm) (hf : f.type.IsTerm) :
    (o.object f).IsNewTerm := by
  unfold object
  split
  · exact isNewTerm_ident _
  · split
    · exact isNewTerm_ident _
    · exact (isNewTerm_ident _).unary _
  · exact isNewTerm_element hs hf

theorem isNewTerm_address (hs : o.subscript.IsTerm) (hf : f.type.IsTerm) :
    (o.address f).IsNewTerm := by
  unfold address
  split
  · split
    · exact isNewTerm_element hs hf
    · exact (isNewTerm_element hs hf).unary _
  · split
    · exact isNewTerm_ident _
    · split
      · exact (isNewTerm_ident _).arrayRef (isNewTerm_intLiteral 0)
      · exact isNewTerm_ident _
    · split
      · exact isNewTerm_ident _
      · exact (isNewTerm_ident _).unary _

theorem isNewTerm_expression (hs : o.subscript.IsTerm) (hf : f.type.IsTerm) :
    (o.expression f).IsNewTerm := by
  unfold expression
  split
  · exact isNewTerm_object hs hf
  · exact isNewTerm_address hs hf

end Operand

variable [Discipline]

namespace Binding

/-- The operand of a binding is one of the binding. -/
theorem operand_spec (b : Binding) (w : Option Wrapper) {n : Node} (hn : n.IsTerm) :
    (b.operand w n).binding = b ∧ (b.operand w n).subscript.IsTerm := by
  unfold operand
  split
  · exact ⟨rfl, (isNewTerm_intLiteral 0).isTerm⟩
  · exact ⟨rfl, hn⟩

end Binding

/-- The subscript in an operand. -/
theorem Node.IsTerm.subscript {n : Node} (h : n.IsTerm) : n.unwrap.subscript.IsTerm := by
  unfold unwrap
  split
  · have harray := h.parts (fun _ => rfl) _ List.mem_cons_self
    exact harray.parts (fun _ => rfl) _ (by simp)
  · exact isTerm_absent
  · exact isTerm_absent
  · exact h.parts (fun _ => rfl) _ (by simp)
  · exact isTerm_absent

/-! ### Declarations -/

namespace Node

theorem IsNewTerm.addQuals (more : List String) {n : Node} (h : n.IsNewTerm) :
    (n.addQuals more).IsNewTerm := by
  fun_induction Node.addQuals more n with
  | case1 m quals type dim ih =>
    refine isNewTerm_mk h.key rfl (by simp [Form.cls]) ?_
    simp only [List.mem_cons, List.not_mem_nil, or_false, forall_eq_or_imp, forall_eq]
    exact ⟨ih (h.parts (fun _ => rfl) (by simp)), h.parts (fun _ => rfl) (by simp)⟩
  | case2 m quals ps =>
    exact isNewTerm_mk h.key rfl (by simp [Form.cls]) fun p hp => h.parts (fun _ => rfl) hp
  | case3 m name quals ps =>
    exact isNewTerm_mk h.key rfl (by simp [Form.cls]) fun p hp => h.parts (fun _ => rfl) hp
  | case4 n => exact h

/-- A new declaration with another initializer. -/
theorem IsNew.withInit {n init : Node} (h : n.IsNew) (hi : init.IsNewTerm) :
    (n.withInit init).IsNew := by
  unfold Node.withInit
  split
  · rename_i m name spec type old bitsize
    have hterm : ∀ p ∈ [type, old, bitsize], p.IsNewTerm := fun p hp => h.parts (fun _ => rfl) hp
    refine isNew_mk h.key rfl ?_
    simp only [List.mem_cons, List.not_mem_nil, or_false, forall_eq_or_imp, forall_eq] at hterm ⊢
    exact ⟨hterm.1, hi, hterm.2.2⟩
  · exact h

end Node

omit [Discipline] in
/-- The declarations for the fields have no initializers. -/
theorem Binding.isInitialized_fieldDecls (b : Binding) :
    ∀ c ∈ b.fieldDecls, c.isInitialized = false := fun c hc => by
  obtain ⟨f, -, rfl⟩ := List.mem_map.mp hc
  rfl

namespace Document.Knows

variable {d : Document}

theorem isTerm_field (h : d.Knows b) (hf : f ∈ b.aggregate.fields) : f.type.IsTerm :=
  (h.fields f hf).isTerm

theorem isNewTerm_fieldType (h : d.Knows b) (hf : f ∈ b.aggregate.fields) :
    (b.fieldType f).IsNewTerm := by
  have hmember := ((h.isTerm_field hf).rename (some (b.fieldName f))).addQuals b.type.baseQuals
  unfold Binding.fieldType
  dsimp only
  split
  · exact hmember
  · exact isNewTerm_mk rfl rfl (by simp [Form.cls]) (by simpa using hmember.elementType)
  · refine isNewTerm_mk rfl rfl (by simp [Form.cls]) ?_
    simp only [List.mem_cons, List.not_mem_nil, or_false, forall_eq_or_imp, forall_eq]
    refine ⟨hmember, ?_⟩
    split
    · exact (h.isTerm_child .type).dimension.copy
    · exact isNewTerm_intLiteral _

theorem isNew_fieldDecls (h : d.Knows b) : ∀ c ∈ b.fieldDecls, c.IsNew := by
  intro c hc
  obtain ⟨f, hf, rfl⟩ := List.mem_map.mp hc
  exact isNew_decl (h.isNewTerm_fieldType hf) isNewTerm_absent

end Document.Knows

/-! ### Brace lists -/

/-- The values in a list of them are terms. -/
def TermValues {α : Type} (values : List (α × Node)) : Prop := ∀ p ∈ values, p.2.IsTerm

theorem TermValues.put {α : Type} [BEq α] {key : α} {n : Node} {values : List (α × Node)}
    (h : TermValues values) (hn : n.IsTerm) : TermValues (put key n values) := fun p hp => by
  rcases mem_put hp with hp | hp
  · exact h p hp
  · exact hp ▸ hn

theorem TermValues.lookup {α : Type} [BEq α] {key : α} {n : Node} {values : List (α × Node)}
    (h : TermValues values) (hn : values.lookup key = some n) : n.IsTerm := by
  obtain ⟨k, hk⟩ := mem_of_lookup hn
  exact h _ hk

/-- The entries of a brace list. -/
theorem Node.IsTerm.items {n : Node} (h : n.IsTerm) (hn : n.isA .initList) :
    ∀ p ∈ n.items, p.IsTerm := by
  cases n with
  | absent => cases hn
  | mk m f ps =>
    have hc : f.cls = .initList := by simpa [isA, cls?, form?] using hn
    intro p hp
    cases f with
    | initList => exact h.parts (fun _ => rfl) p (List.mem_of_mem_drop hp)
    | _ => cases hc

theorem Node.IsTerm.entryValue {n : Node} (h : n.IsTerm) : (entryValue n).IsTerm := by
  unfold Fieldwise.entryValue
  split
  · exact h.parts (fun _ => rfl) _ List.mem_cons_self
  · exact h

namespace Aggregate

theorem termValues_fieldValuesFrom (a : Aggregate) {entries : List Node}
    (he : ∀ p ∈ entries, p.IsTerm) : ∀ (found : List (Nat × Node)) (cursor : Nat)
      (values : List (Nat × Node)), TermValues found →
      a.fieldValuesFrom found cursor entries = some values → TermValues values := by
  induction entries with
  | nil =>
    intro found cursor values hf h
    obtain rfl : found = values := by simpa [fieldValuesFrom] using h
    exact hf
  | cons entry rest ih =>
    intro found cursor values hf h
    have hentry := he entry List.mem_cons_self
    have hrest := ih fun p hp => he p (List.mem_cons_of_mem _ hp)
    unfold fieldValuesFrom at h
    dsimp only at h
    split at h
    · cases h
    · rename_i i value hplaced
      have hv : value.IsTerm := by
        split at hplaced
        · obtain ⟨j, -, hj⟩ := Option.map_eq_some_iff.mp hplaced
          cases hj
          exact hentry.parts (fun _ => rfl) _ List.mem_cons_self
        · cases hplaced
          exact hentry
      split at h
      · cases h
      · split at h
        · exact hrest _ _ _ (hf.put hv) h
        · cases h

theorem termValues_fieldValues (a : Aggregate) {list : Node} {values : List (Nat × Node)}
    (hl : list.IsTerm) (hc : list.isA .initList) (h : a.fieldValues list = some values) :
    TermValues values :=
  a.termValues_fieldValuesFrom (hl.items hc) [] 0 values (fun _ hp => nomatch hp) h

theorem settles_entryIndex (cursor : Int) (n : Node) :
    Settles (entryIndex cursor n) fun _ => True := by
  unfold entryIndex
  split
  · exact settles_intValue _
  · trivial
  · trivial

theorem settles_elementValuesFrom (a : Aggregate) {entries : List Node}
    (he : ∀ p ∈ entries, p.IsTerm) : ∀ (found : List (Int × List (Nat × Node))) (cursor : Int),
      (∀ e ∈ found, TermValues e.2) →
      Settles (a.elementValuesFrom found cursor entries) fun r => ∀ elements, r = some elements →
        ∀ e ∈ elements, TermValues e.2 := by
  induction entries with
  | nil => exact fun found cursor hf => .ok fun elements h => by cases h; exact hf
  | cons entry rest ih =>
    intro found cursor hf
    have hentry := he entry List.mem_cons_self
    have hrest := ih fun p hp => he p (List.mem_cons_of_mem _ hp)
    unfold elementValuesFrom
    refine (settles_entryIndex cursor entry).bind fun i _ => ?_
    cases i with
    | none => exact .pure (by simp)
    | some i =>
      dsimp only
      split
      · rename_i hlist
        cases hv : a.fieldValues (entryValue entry) with
        | none => exact .pure (by simp)
        | some values =>
          refine hrest _ _ fun e he => ?_
          rcases mem_put he with he | he
          · exact hf e he
          · rw [he]
            exact a.termValues_fieldValues hentry.entryValue hlist hv
      · exact .pure (by simp)

theorem settles_elementValues (a : Aggregate) {list : Node} (hl : list.IsTerm)
    (hc : list.isA .initList) :
    Settles (a.elementValues list) fun r => ∀ elements, r = some elements →
      ∀ e ∈ elements, TermValues e.2 :=
  a.settles_elementValuesFrom (hl.items hc) [] 0 fun _ he => nomatch he

end Aggregate

mutual

/-- The assignments of an element are new. -/
theorem settles_assignElement (name : String) {target : Node} (ht : target.IsNewTerm) :
    ∀ value : Node, value.IsTerm →
      (assignElement name target value).Settles fun r => ∀ c ∈ r, c.IsNewTerm
  | .absent, h => by
    rw [assignElement]
    · exact .pure (by simpa using ht.assign h.copy)
    · exact fun _ _ h => nomatch h
  | .mk m f ps, h => by
    by_cases hf : f = .initList
    · subst hf
      rw [assignElement]
      exact settles_assignElements name ht 0 ps (h.parts fun _ => rfl)
    · rw [assignElement]
      · split
        · exact (Report.Settles.note _ _).bind fun _ _ => .pure (by simp)
        · exact .pure (by simpa using ht.assign h.copy)
      · intro m' items heq
        cases heq
        exact hf rfl

theorem settles_assignElements (name : String) {target : Node} (ht : target.IsNewTerm)
    (cursor : Int) : ∀ entries : List Node, (∀ p ∈ entries, p.IsTerm) →
      (assignElements name target cursor entries).Settles fun r => ∀ c ∈ r, c.IsNewTerm
  | [], _ => by
    rw [assignElements]
    exact .pure (by simp)
  | value :: rest, h => by
    have hv := h value List.mem_cons_self
    have hrest := fun cursor => settles_assignElements name ht cursor rest fun p hp =>
      h p (List.mem_cons_of_mem _ hp)
    have hall : ∀ {first more : List Node}, (∀ c ∈ first, c.IsNewTerm) → (∀ c ∈ more, c.IsNewTerm) →
        ∀ c ∈ first ++ more, c.IsNewTerm := fun hf hm c hc =>
      (List.mem_append.mp hc).elim (hf c) (hm c)
    unfold assignElements
    split
    · rename_i heq
      cases heq
    · rename_i m value' names rest' heq
      cases heq
      refine (Report.Settles.of (Aggregate.settles_entryIndex _ _)).bind fun i _ => ?_
      cases i with
      | none => exact (Report.Settles.note _ _).bind fun _ _ => .pure (by simp)
      | some i =>
        have hvalue := hv.parts (fun _ => rfl) value' List.mem_cons_self
        refine (Report.Settles.of (settles_integer i)).bind ?_
        rintro _ rfl
        refine (settles_assignElement name (ht.arrayRef (isNewTerm_intLiteral i)) value'
          hvalue).bind fun first hf => ?_
        exact (hrest _).bind fun more hm => .pure (hall hf hm)
    · rename_i value' rest' _ heq
      cases heq
      refine (Report.Settles.of (settles_integer cursor)).bind ?_
      rintro _ rfl
      refine (settles_assignElement name (ht.arrayRef (isNewTerm_intLiteral cursor)) value hv).bind
        fun first hf => ?_
      exact (hrest _).bind fun more hm => .pure (hall hf hm)

end

end Fieldwise
