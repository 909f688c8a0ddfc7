import Fieldwise.Proofs.Session.Forms
import Fieldwise.Proofs.Session.Outcome
import Fieldwise.Proofs.Session.Sides
import Fieldwise.Proofs.Storage.Assignment

/-!
# How often subscripts are evaluated

The copy of an aggregate becomes one piece of code for each field, be it a statement, an initial
value or an argument, and each of them has a copy of the subscripts in it. So what a subscript does
when it is evaluated (`Node.effects`) is done once for each field. It is done once, as in the copy
of the aggregate, just if there is one field or the subscripts do nothing
(`Session.copies_evaluate_once_iff`).
-/

namespace Fieldwise

open Node

/-! ### What an expression does -/

/-- Whether an expression of the form does something: a call, an assignment, an increment or a
decrement. -/
def Form.isEffect : Form → Bool
  | .funcCall | .assignment _ | .unaryOp .preIncrement | .unaryOp .preDecrement
  | .unaryOp .postIncrement | .unaryOp .postDecrement => true
  | _ => false

/-- Whether the operand of the form is not evaluated. -/
def Form.isMeasure : Form → Bool
  | .unaryOp .sizeof | .unaryOp .alignof => true
  | _ => false

namespace Node

mutual

/-- The calls, assignments, increments and decrements that an expression evaluates, each once. -/
def effects : Node → List Node
  | absent => []
  | mk m f ps =>
    (if f.isEffect then [mk m f ps] else []) ++ if f.isMeasure then [] else effectsAll ps

/-- What several expressions evaluate. -/
def effectsAll : List Node → List Node
  | [] => []
  | p :: ps => p.effects ++ effectsAll ps

end

/-- What the operands of an expression evaluate. -/
def partEffects (n : Node) : List Node := effectsAll n.parts

theorem effectsAll_eq_flatMap (ps : List Node) : effectsAll ps = ps.flatMap effects := by
  induction ps with
  | nil => rfl
  | cons p ps ih => rw [effectsAll, ih, List.flatMap_cons]

/-- A copy does what the expression does. -/
theorem effects_copy (n : Node) : n.copy.effects = n.effects.map copy := by
  induction n using Node.induction with
  | h₀ => rfl
  | h m f ps ih =>
    have hps : effectsAll (copyAll ps) = (effectsAll ps).map copy := by
      rw [copyAll_eq_map, effectsAll_eq_flatMap, effectsAll_eq_flatMap, List.flatMap_map,
        List.map_flatMap]
      exact List.flatMap_congr ih
    rw [copy, effects, effects, List.map_append, hps]
    congr 1
    · split <;> simp [copy]
    · split <;> rfl

@[simp] theorem effects_ident (name : String) : (ident name).effects = [] := rfl

@[simp] theorem effects_intLiteral (z : Int) : (intLiteral z).effects = [] := rfl

@[simp] theorem effects_arrayRef (array subscript : Node) :
    (arrayRef array subscript).effects = array.effects ++ subscript.effects := by
  simp [arrayRef, build, effects, effectsAll, Form.isEffect, Form.isMeasure]

@[simp] theorem effects_binary (op : BinaryOp) (left right : Node) :
    (binary op left right).effects = left.effects ++ right.effects := by
  simp [binary, build, effects, effectsAll, Form.isEffect, Form.isMeasure]

@[simp] theorem effects_deref (e : Node) : (unary .deref e).effects = e.effects := by
  simp [unary, build, effects, effectsAll, Form.isEffect, Form.isMeasure]

@[simp] theorem effects_address (e : Node) : (unary .address e).effects = e.effects := by
  simp [unary, build, effects, effectsAll, Form.isEffect, Form.isMeasure]

@[simp] theorem effects_sizeOfNode (e : Node) : (sizeOfNode e).effects = [] := rfl

@[simp] theorem partEffects_assign (target value : Node) :
    (assign target value).partEffects = target.effects ++ value.effects := by
  simp [partEffects, assign, build, parts, effectsAll]

@[simp] theorem partEffects_call (name : String) (args : List Node) :
    (call name args).partEffects = args.flatMap effects := by
  simp [partEffects, call, callOf, build, parts, effectsAll, effects, Form.isEffect,
    Form.isMeasure, ident, effectsAll_eq_flatMap]

end Node

/-! ### Operands -/

namespace Operand

/-- What an operand evaluates: its subscript, if it has one. -/
def effects (o : Operand) : List Node :=
  match o.wrap with
  | some .element | some .elementAddress => o.subscript.effects
  | _ => []

variable {o : Operand} {f : Field}

theorem effects_element (hf : f.type.dimension.effects = []) :
    (o.element f).effects = o.subscript.effects.map copy := by
  unfold element fieldIdent
  split
  · simp [effects_copy, hf]
  · simp [effects_copy]

/-- The object of a field evaluates a copy of the subscript. -/
theorem effects_object (ho : o.denotes = some .object) (hf : f.type.dimension.effects = []) :
    (o.object f).effects = o.effects.map copy := by
  unfold object effects
  cases hw : o.wrap with
  | none => rfl
  | some w =>
    cases w with
    | deref =>
      dsimp only
      split <;> simp [fieldIdent]
    | element => exact effects_element hf
    | address | elementAddress => cases hk : o.binding.kind <;> simp [denotes, shape, hw, hk] at ho

/-- The address of a field evaluates a copy of the subscript. -/
theorem effects_address (ho : o.denotes = some .address) (hf : f.type.dimension.effects = []) :
    (o.address f).effects = o.effects.map copy := by
  have hplain : ∀ x : Bool, (if x then o.fieldIdent f else .unary .address (o.fieldIdent f)).effects
      = [] := fun x => by cases x <;> simp [fieldIdent]
  unfold address effects
  cases hw : o.wrap with
  | none => cases hk : o.binding.kind <;> simp [fieldIdent] <;> split <;> simp
  | some w =>
    cases w with
    | elementAddress =>
      dsimp only
      rw [if_pos (beq_self_eq_true _)]
      split
      · exact effects_element hf
      · rw [Node.effects_address, effects_element hf]
    | address =>
      cases hk : o.binding.kind with
      | value => exact hplain _
      | pointer | array => simp [denotes, shape, hw, hk] at ho
    | deref | element => cases hk : o.binding.kind <;> simp [denotes, shape, hw, hk] at ho

/-- What an operand stands for, for one field, evaluates a copy of the subscript. -/
theorem effects_expression (ho : o.denotes.isSome) (hf : f.type.dimension.effects = []) :
    (o.expression f).effects = o.effects.map copy := by
  unfold expression
  cases hd : o.denotes with
  | none =>
    rw [hd] at ho
    cases ho
  | some d =>
    cases d with
    | object => exact effects_object hd hf
    | address => exact effects_address hd hf

end Operand

/-- The expression is a name on its own or under a wrapper. -/
def Node.isNameUse (e : Node) : Bool :=
  match e.unwrap.symbol with
  | .mk _ (.ident _) [] => true
  | _ => false

theorem Node.exists_of_isNameUse {e : Node} (h : e.isNameUse) :
    ∃ m name, e.unwrap.symbol = .mk m (.ident name) [] := by
  unfold isNameUse at h
  split at h
  · exact ⟨_, _, ‹_›⟩
  · cases h

/-- An expression that is an operand evaluates what the operand does. -/
theorem Binding.effects_operandIn (b : Binding) {e : Node} (he : e.isNameUse) :
    (b.operandIn e).effects = e.effects := by
  obtain ⟨m, name, hsym⟩ := exists_of_isNameUse he
  have hw := wraps_symbol e
  rw [hsym] at hw
  unfold operandIn operand Operand.effects
  generalize e.unwrap.wrap = wrap, e.unwrap.subscript = subscript at hw
  cases hw with
  | bare => simp [Node.effects, Node.effectsAll, Form.isEffect, Form.isMeasure]
  | deref m' =>
    by_cases hk : b.kind = .array <;>
      simp [hk, Node.effects, Node.effectsAll, Form.isEffect, Form.isMeasure]
  | address m' | element m' | elementAddress m' m'' =>
    simp [Node.effects, Node.effectsAll, Form.isEffect, Form.isMeasure]

/-! ### Pieces of code -/

/-- The pieces evaluate what an expression did, each effect once. -/
def EvaluateOnce (effects original : List Node) : Prop := effects.Perm (original.map copy)

/-- What is done once for each of some fields is done once if there is one field, or nothing to
do. -/
theorem evaluateOnce_iff {pieces original : List Node} {n : Nat}
    (h : pieces.Perm (List.replicate n (original.map copy)).flatten) :
    EvaluateOnce pieces original ↔ n = 1 ∨ original = [] := by
  constructor
  · intro hp
    have hlen := hp.length_eq.symm.trans h.length_eq
    simp only [List.length_map, List.length_flatten, List.map_replicate, List.sum_replicate,
      Nat.nsmul_eq_mul] at hlen
    rcases Nat.eq_zero_or_pos original.length with h0 | h0
    · exact .inr (List.length_eq_zero_iff.mp h0)
    · exact .inl (Nat.eq_of_mul_eq_mul_right h0 (by rw [← hlen, Nat.one_mul]))
  · rintro (rfl | rfl)
    · simpa [EvaluateOnce] using h
    · have hnil : (List.replicate n ([] : List Node)).flatten = [] := by simp
      simpa [EvaluateOnce, hnil] using h

variable {options : Options} {b c : Binding} {l r : Operand} {f : Field} {stmts : List Node}

theorem Options.partEffects_copyStatement (f : Field) (target source : Node) :
    (options.copyStatement f target source).partEffects = target.effects ++ source.effects := by
  unfold copyStatement
  split <;> simp

/-- The statement for one field evaluates the subscripts of both operands. -/
theorem CopyRule.partEffects_statement {rule : CopyRule} (h : rule.applies l r = true)
    (hf : f.type.dimension.effects = []) :
    (rule.statement options l r f).partEffects = (l.effects ++ r.effects).map copy := by
  unfold statement
  cases hm : rule.movesPointers with
  | true =>
    obtain ⟨hl, hr⟩ := CopyRule.denotes_of_moves h hm
    have hl : l.denotes = some .address := by simp [Operand.denotes, hl]
    rw [if_pos rfl, partEffects_assign, Operand.effects_address hl hf,
      Operand.effects_address hr hf, List.map_append]
  | false =>
    obtain ⟨hl, hr⟩ := CopyRule.denotes_of_copies h hm
    rw [if_neg Bool.false_ne_true, Options.partEffects_copyStatement,
      Operand.effects_object hl hf, Operand.effects_object hr hf, List.map_append]

/-- Pieces that all evaluate the same. -/
theorem flatMap_eq_flatten_replicate {α β : Type} {g : α → List β} {xs : List α} {ys : List β}
    (h : ∀ x ∈ xs, g x = ys) : xs.flatMap g = (List.replicate xs.length ys).flatten := by
  rw [← List.map_const', ← List.flatMap_def]
  exact List.flatMap_congr h

namespace Session

variable {s t : Session} {x : Expansion} {target value e : Node}

/-- The statements for an assignment evaluate the subscripts of both sides once for each field. -/
theorem perm_assign (hf : ∀ f ∈ b.aggregate.fields, f.type.dimension.effects = [])
    (ht : target.isNameUse) (hv : value.isNameUse)
    (h : s.run (Engine.assign (b.operandIn target) (c.operandIn value)) = (.ok (some stmts), t)) :
    (stmts.flatMap partEffects).Perm (List.replicate b.aggregate.fields.length
      ((target.effects ++ value.effects).map copy)).flatten := by
  obtain ⟨rule, hr, rfl⟩ := Engine.assign_eq_some h
  rw [CopyRule.statements, b.binding_operandIn, List.flatMap_map]
  refine .of_eq (flatMap_eq_flatten_replicate fun f hm => ?_)
  rw [CopyRule.partEffects_statement hr (hf f hm), b.effects_operandIn ht, c.effects_operandIn hv]

/-- The arguments for the fields of an operand evaluate its subscript once for each field. -/
theorem perm_arguments (hf : ∀ f ∈ b.aggregate.fields, f.type.dimension.effects = [])
    (he : e.isNameUse) (hd : (b.operandIn e).denotes.isSome) :
    ((b.aggregate.fields.map (b.operandIn e).expression).flatMap Node.effects).Perm
      (List.replicate b.aggregate.fields.length (e.effects.map copy)).flatten := by
  rw [List.flatMap_map]
  refine .of_eq (flatMap_eq_flatten_replicate fun f hm => ?_)
  rw [Operand.effects_expression hd (hf f hm), b.effects_operandIn he]

end Session

/-! ### Initializers -/

/-- What an expansion evaluates: the initial values, and the statements after the declarations. -/
def Expansion.effects (x : Expansion) : List Node :=
  (x.decls.flatMap fun d => (d.child .init).effects) ++ x.after.flatMap partEffects

/-- The fields that are copied by an initializer: arrays cannot be copied at file scope. -/
def Binding.copied (b : Binding) (fields : List Field) : List Field :=
  fields.filter fun f => b.kind == .pointer || !f.isArray || !b.isGlobal

/-- What the copy of one field evaluates, if there is one. -/
def FieldCopy.effects : FieldCopy → List Node
  | init value => value.effects
  | statement stmt => stmt.partEffects
  | unsupported => []

/-- The copy of a field evaluates the subscript of the source, if the field is copied. -/
theorem effects_fieldCopy {source : Operand}
    (hd : source.denotes = some (if b.kind == .pointer then .address else .object))
    (hf : f.type.dimension.effects = []) : (fieldCopy options b source f).effects =
      if b.kind == .pointer || !f.isArray || !b.isGlobal then source.effects.map copy else [] := by
  unfold fieldCopy
  cases hk : b.kind == .pointer with
  | true =>
    rw [hk, if_pos rfl] at hd
    simpa [FieldCopy.effects] using Operand.effects_address hd hf
  | false =>
    rw [hk, if_neg Bool.false_ne_true] at hd
    have hobject := Operand.effects_object hd hf
    cases f.isArray with
    | false => simpa [FieldCopy.effects] using hobject
    | true =>
      cases b.isGlobal with
      | true => rfl
      | false => simpa [FieldCopy.effects, Options.partEffects_copyStatement] using hobject

namespace Session

section

variable [Discipline]

/-- The field variables and the statements that copy an operand evaluate its subscript once for each
field that is copied. -/
theorem perm_copies {source : Operand}
    (hd : source.denotes = some (if b.kind == .pointer then .address else .object))
    (fields : List Field) (hf : ∀ f ∈ fields, f.type.dimension.effects = []) :
    ∀ (s : Session) (decls : List Node), decls.length = fields.length →
      (∀ d ∈ decls, d.IsBareDecl) →
      s.Settles (Engine.copies b source fields decls) fun r _ =>
        (Expansion.effects ⟨[], r.1, r.2⟩).Perm
          (List.replicate (b.copied fields).length (source.effects.map copy)).flatten := by
  induction fields with
  | nil =>
    intro s decls hlen _
    obtain rfl := List.length_eq_zero_iff.mp hlen
    exact .pure .rfl
  | cons f fs ih =>
    intro s decls hlen hbare
    obtain ⟨decl, decls, rfl⟩ := List.exists_cons_of_length_eq_add_one hlen
    have hdecl := hbare decl List.mem_cons_self
    have ih := ih fun g hg => hf g (List.mem_cons_of_mem _ hg)
    -- The rest is done for what this field comes to.
    have hrest : ∀ (decl' : Node) (first : List Node) (t : Session),
        (decl'.child .init).effects ++ first.flatMap partEffects =
            (fieldCopy s.options b source f).effects →
        t.Settles (Engine.copies b source fs decls >>= fun r =>
          return (decl' :: r.1, first ++ r.2)) fun r _ =>
            (Expansion.effects ⟨[], r.1, r.2⟩).Perm
              (List.replicate (b.copied (f :: fs)).length (source.effects.map copy)).flatten := by
      intro decl' first t hfirst
      refine (ih t decls (by simpa using hlen) fun d hd =>
        hbare d (List.mem_cons_of_mem _ hd)).bind fun r u hr => .pure ?_
      have hcons : (List.replicate (b.copied (f :: fs)).length (source.effects.map copy)).flatten =
          (fieldCopy s.options b source f).effects ++
            (List.replicate (b.copied fs).length (source.effects.map copy)).flatten := by
        rw [effects_fieldCopy hd (hf f List.mem_cons_self), Binding.copied, Binding.copied,
          List.filter_cons]
        split <;> simp [List.replicate_succ]
      rw [hcons, ← hfirst]
      simp only [Expansion.effects, List.flatMap_cons, List.flatMap_append, List.append_assoc]
        at hr ⊢
      refine .append_left _ (.trans ?_ (.append_left _ hr))
      rw [← List.append_assoc, ← List.append_assoc]
      exact .append_right _ List.perm_append_comm
    unfold Engine.copies
    refine .get_bind ?_
    dsimp only
    generalize fieldCopy s.options b source f = copied at hrest
    cases copied with
    | init value =>
      exact hrest _ [] s (by simp [FieldCopy.effects, hdecl.child_withInit])
    | statement stmt =>
      exact (settles_requireHeader _).bind fun _ t _ => hrest _ [stmt] t
        (by simp [FieldCopy.effects, hdecl.child_init, Node.effects])
    | unsupported =>
      exact (settles_note _ _).bind fun _ t _ => hrest _ [] t
        (by simp [FieldCopy.effects, hdecl.child_init, Node.effects])

end

/-- An initializer that is copied is evaluated once for each field that is copied. -/
theorem perm_initialValues {s t u : Session} {o : Operand} {x : Expansion}
    (hf : ∀ f ∈ b.aggregate.fields, f.type.dimension.effects = []) (hi : b.init.isNameUse)
    (hplan : s.run (Engine.report fun s => s.plan? b) = (.ok (some (.aggregateCopy o)), t))
    (h : s.run (Engine.initialValues b b.fieldDecls) = (.ok x, u)) :
    x.effects.Perm (List.replicate (b.copied b.aggregate.fields).length
      (b.init.effects.map copy)).flatten := by
  let _ : Discipline := ⟨False, False⟩
  have hpresent : b.init.isPresent := by
    obtain ⟨m, name, hsym⟩ := exists_of_isNameUse hi
    cases hb : b.init with
    | absent => simp [hb, unwrap] at hsym
    | mk => rfl
  obtain ⟨c, rfl, hcan⟩ : ∃ c : Binding, o = c.operandIn b.init ∧
      canCopy b.kind b.init.unwrap.wrap c.kind := by
    have hfor := ((settles_report (isFor_plan? ⟨id, id⟩ s b)).of_ok hplan).2
    cases hfor _ rfl with
    | aggregateCopy hc => exact ⟨_, rfl, hc⟩
  obtain ⟨v, h⟩ := exists_run_applyPlan hpresent hplan h
  obtain ⟨r, w, hr, h⟩ := run_bind_eq_ok.mp h
  obtain ⟨rfl, -⟩ : Expansion.mk [] r.1 r.2 = x ∧ w = u := by simpa using h
  rw [← c.effects_operandIn hi]
  exact (perm_copies (Binding.denotes_of_canCopy hcan) _ hf v _ b.length_fieldDecls
    b.isBareDecl_fieldDecls).of_ok hr

/-- **Subscripts are evaluated once for each field.** So the copy of an aggregate, be it an
assignment, an argument or an initializer, does what its subscripts do as often as before just if it
has one piece of code, or the subscripts do nothing. -/
theorem copies_evaluate_once_iff (hf : ∀ f ∈ b.aggregate.fields, f.type.dimension.effects = []) :
    (∀ (s t : Session) (stmts : List Node) (c : Binding) (target value : Node),
      target.isNameUse → value.isNameUse →
      s.run (Engine.assign (b.operandIn target) (c.operandIn value)) = (.ok (some stmts), t) →
      (EvaluateOnce (stmts.flatMap partEffects) (target.effects ++ value.effects) ↔
        b.aggregate.fields.length = 1 ∨ target.effects ++ value.effects = [])) ∧
    (∀ e : Node, e.isNameUse → (b.operandIn e).denotes.isSome →
      (EvaluateOnce ((b.aggregate.fields.map (b.operandIn e).expression).flatMap Node.effects)
          e.effects ↔ b.aggregate.fields.length = 1 ∨ e.effects = [])) ∧
    ∀ (s t u : Session) (o : Operand) (x : Expansion), b.init.isNameUse →
      s.run (Engine.report fun s => s.plan? b) = (.ok (some (.aggregateCopy o)), t) →
      s.run (Engine.initialValues b b.fieldDecls) = (.ok x, u) →
      (EvaluateOnce x.effects b.init.effects ↔
        (b.copied b.aggregate.fields).length = 1 ∨ b.init.effects = []) :=
  ⟨fun _ _ _ _ _ _ ht hv h => evaluateOnce_iff (perm_assign hf ht hv h),
    fun _ he hd => evaluateOnce_iff (perm_arguments hf he hd),
    fun _ _ _ _ _ hi hplan h => evaluateOnce_iff (perm_initialValues hf hi hplan h)⟩

/-- A subscript with an increment in it, where an object of two fields is assigned. -/
def incrementing : String :=
  "struct S \x7bint a; int b;\x7d; void f(int i) \x7b struct S arr[4], x; arr[i++] = x; \x7d"

theorem copies_evaluate_once_iff_incrementing : ∃ (s t : Session) (b c : Binding)
    (target value : Node) (stmts : List Node),
      (∀ f ∈ b.aggregate.fields, f.type.dimension.effects = []) ∧
      target.isNameUse ∧ value.isNameUse ∧
      s.run (Engine.assign (b.operandIn target) (c.operandIn value)) = (.ok (some stmts), t) ∧
      ¬ EvaluateOnce (stmts.flatMap partEffects) (target.effects ++ value.effects) := by
  have h : (firstSearch incrementing).any (fun r =>
      r.1.firstJoin?.any fun (_, b, c, target, value) =>
      b.aggregate.fields.all (fun f => f.type.dimension.effects.isEmpty) &&
      b.aggregate.fields.length == 2 && target.isNameUse && value.isNameUse &&
      !(target.effects ++ value.effects).isEmpty &&
      (r.1.run (Engine.assign (b.operandIn target) (c.operandIn value))).1.toOption.any
        (·.isSome)) = true := by decide +kernel
  obtain ⟨⟨s, _⟩, -, h⟩ := (Option.any_eq_true _ _).mp h
  obtain ⟨⟨_, b, c, target, value⟩, -, h⟩ := (Option.any_eq_true _ _).mp h
  simp only [Bool.and_eq_true, List.all_eq_true, List.isEmpty_iff, beq_iff_eq,
    Bool.not_eq_true', List.isEmpty_eq_false_iff] at h
  obtain ⟨⟨⟨⟨⟨hf, hlen⟩, ht⟩, hv⟩, hne⟩, h⟩ := h
  obtain ⟨r, t, hrun, h⟩ := exists_run_eq_ok h
  obtain ⟨stmts, rfl⟩ := Option.isSome_iff_exists.mp h
  refine ⟨s, t, b, c, target, value, stmts, hf, ht, hv, hrun, fun honce => ?_⟩
  rcases ((copies_evaluate_once_iff hf).1 s t stmts c target value ht hv hrun).mp honce with h1 | h0
  · omega
  · exact hne h0

/-- The increment is there twice in the end. -/
theorem decomposeAll_evaluates_twice : ∃ s t, finished incrementing = some (s, t) ∧
    (s.document.root.effects.filter fun n => n.form? == some (.unaryOp .postIncrement)).length = 1 ∧
    (t.document.root.effects.filter fun n =>
      n.form? == some (.unaryOp .postIncrement)).length = 2 := by
  obtain ⟨s, t, hst, h⟩ := exists_finished incrementing (fun s t =>
    (s.document.root.effects.filter fun n =>
      n.form? == some (.unaryOp .postIncrement)).length == 1 &&
    (t.document.root.effects.filter fun n =>
      n.form? == some (.unaryOp .postIncrement)).length == 2) (by decide +kernel)
  obtain ⟨h1, h2⟩ := Bool.and_eq_true_iff.mp h
  exact ⟨s, t, hst, beq_iff_eq.mp h1, beq_iff_eq.mp h2⟩

end Session

end Fieldwise
