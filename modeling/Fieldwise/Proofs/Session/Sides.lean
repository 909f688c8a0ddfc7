import Fieldwise.Proofs.Session.Worklist
import Fieldwise.Proofs.Session.Wrapping

/-!
# Assignments from either side

An assignment between operands of two bindings of one aggregate (`Session.Joins`) has a use of each,
and either can be the one that is rewritten first. A use is looked at from the name up, the other
side from the expression down, and both come to the same operands
(`Session.Sound.run_rewriteOccurrence`, `Session.IsOperand.run_operandOf?`). So it becomes the same
statements from either side, or is left alone with a warning
(`Session.Working.rewriteOccurrence_either_side`).
-/

namespace Fieldwise

open Node

namespace Node

/-- A statement that assigns the value of an expression to a target: an assignment, or a call that
stands for one. -/
inductive Assigns : Node → Node → Node → Prop where
  | assignment (m : Mark) (target value : Node) :
    Assigns (.mk m (.assignment .plain) [target, value]) target value
  | call (m m' m'' : Mark) (ps : List Node) (target value : Node) :
    Assigns (.mk m .funcCall [.mk m' (.ident "operator=") ps, .mk m'' .exprList [target, value]])
      target value

theorem same_comm {n x : Node} : n.same x ↔ x.same n := by
  rw [same_iff, same_iff]
  exact ⟨fun ⟨hn, hx⟩ => ⟨hx ▸ hn, hx.symm⟩, fun ⟨hx, hn⟩ => ⟨hn ▸ hx, hn.symm⟩⟩

theorem exists_of_isA_assignment {n : Node} (h : n.isA .assignment) :
    ∃ m op ps, n = mk m (.assignment op) ps := by
  cases n with
  | absent => cases h
  | mk m f ps =>
    cases f with
    | assignment op => exact ⟨m, op, ps, rfl⟩
    | _ => cases h

end Node

/-- The assignment of an operand to another one in the place of a statement. What cannot be assigned
is reported as a use of the binding. -/
def Engine.exchange (b : Binding) (statement : Node) (target source : Operand) : Engine Unit := do
  if ← report fun s => Report.of (s.document.isStatement statement) then
    match ← assign target source with
    | some statements => replaceStatement statement statements
    | none => warn b statement .assignment
  else warn b statement .assignmentAsValue

namespace Session

variable {s t : Session} {b c : Binding} {n e P statement target value : Node} {o : Operand}
  {wrap : Option Wrapper} {subscript : Node}

/-- The binding that the symbol means where it stands that an expression is made of. -/
def bindingIn? (s : Session) (e : Node) : Option Binding :=
  match e.unwrap.symbol with
  | .mk m (.ident name) ps => s.meaning? (.mk m (.ident name) ps) name
  | _ => none

/-- The expression is an operand of the binding. -/
def IsOperand (s : Session) (b : Binding) (e : Node) : Prop := s.bindingIn? e = some b

/-- A statement assigns an operand of the binding `c`, its value, to one of the binding `b`. The
bindings are of one aggregate, and the name in the value does not stand for null. -/
structure Joins (s : Session) (statement : Node) (b c : Binding) (target value : Node) : Prop where
  mem : statement ∈ s.document.root.preorder
  assigns : statement.Assigns target value
  left : s.IsOperand b target
  right : s.IsOperand c value
  same : b.aggregate.same c.aggregate
  notNull : ∀ name ∈ s.options.nullNames, value.unwrap.symbol.form? ≠ some (.ident name)

section

variable [Discipline]

/-! ### From a use to the operand around it -/

/-- The operand around a use in an assignment or among arguments. -/
theorem Sound.run_occurrenceOperand (h : s.Sound) (hP : P ∈ s.document.root.preorder)
    (he : e ∈ P.parts) (hc : P.isA .assignment ∨ P.isA .exprList)
    (hw : Wraps n e wrap subscript) (hi : n.isA .ident) :
    s.run (Engine.occurrenceOperand b n) = (.ok (e, b.operand wrap subscript), s) := by
  have hs : n.isSole := isSole_of_isA hi rfl
  unfold Engine.occurrenceOperand
  cases hw with
  | bare =>
    rw [run_bind_of_ok (h.run_parentOf hP he hs)]
    obtain ⟨m, op, ps, rfl⟩ | ⟨m, ps, rfl⟩ := hc.imp exists_of_isA_assignment
      exists_of_isA_exprList <;> rfl
  | deref m | address m =>
    have hmem := mem_preorder_of_part hP he rfl
    rw [run_bind_of_ok (h.run_parentOf hmem List.mem_cons_self hs)]
    rfl
  | element m =>
    have hmem := mem_preorder_of_part hP he rfl
    have hsame := h.same_self (mem_preorder_of_part hmem List.mem_cons_self (isPresent_of_isA hi))
    rw [run_bind_of_ok (h.run_parentOf hmem List.mem_cons_self hs)]
    simp only [hsame, if_true]
    rw [run_bind_of_ok (h.run_parentOf hP he rfl)]
    obtain ⟨m, op, ps, rfl⟩ | ⟨m, ps, rfl⟩ := hc.imp exists_of_isA_assignment
      exists_of_isA_exprList <;> rfl
  | elementAddress m m' =>
    have hmem := mem_preorder_of_part hP he rfl
    have hmem' := mem_preorder_of_part hmem List.mem_cons_self (c := .mk m' .arrayRef _) rfl
    have hsame := h.same_self (mem_preorder_of_part hmem' List.mem_cons_self (isPresent_of_isA hi))
    rw [run_bind_of_ok (h.run_parentOf hmem' List.mem_cons_self hs)]
    simp only [hsame, if_true]
    rw [run_bind_of_ok (h.run_parentOf hmem List.mem_cons_self rfl)]
    rfl

/-- **The operand around a use** in an assignment or among arguments is the one that it is taken
apart into. -/
theorem Sound.run_rewriteOccurrence (h : s.Sound) (hP : P ∈ s.document.root.preorder)
    (he : e ∈ P.parts) (hc : P.isA .assignment ∨ P.isA .exprList)
    (hw : Wraps n e wrap subscript) (hi : n.isA .ident) :
    s.run (Engine.rewriteOccurrence b n) =
      s.run (Engine.operandUse b e (b.operand wrap subscript)) := by
  have hs : n.isSole := isSole_of_isA hi rfl
  have hocc := h.run_occurrenceOperand (b := b) hP he hc hw hi
  have hrun : s.run (do
      let found ← Engine.occurrenceOperand b n
      Engine.operandUse b found.1 found.2) =
        s.run (Engine.operandUse b e (b.operand wrap subscript)) := by
    rw [run_bind_of_ok hocc]
  unfold Engine.rewriteOccurrence
  cases hw with
  | bare =>
    rw [run_bind_of_ok (h.run_parentOf hP he hs), run_bind_of_ok (Session.run_parentOf s _), ← hrun]
    obtain ⟨m, op, ps, rfl⟩ | ⟨m, ps, rfl⟩ := hc.imp exists_of_isA_assignment
      exists_of_isA_exprList <;> rfl
  | deref m | address m | element m =>
    have hmem := mem_preorder_of_part hP he rfl
    rw [run_bind_of_ok (h.run_parentOf hmem List.mem_cons_self hs),
      run_bind_of_ok (h.run_parentOf hP he rfl), ← hrun]
    obtain ⟨m, op, ps, rfl⟩ | ⟨m, ps, rfl⟩ := hc.imp exists_of_isA_assignment
      exists_of_isA_exprList <;> rfl
  | elementAddress m m' =>
    have hmem := mem_preorder_of_part hP he rfl
    have hmem' := mem_preorder_of_part hmem List.mem_cons_self (c := .mk m' .arrayRef _) rfl
    rw [run_bind_of_ok (h.run_parentOf hmem' List.mem_cons_self hs),
      run_bind_of_ok (h.run_parentOf hmem List.mem_cons_self rfl), ← hrun]

/-- A use of an operand in an assignment is rewritten as a side of it. -/
theorem Sound.run_operandUse (h : s.Sound) (hm : statement ∈ s.document.root.preorder)
    (ha : statement.Assigns target value) (he : e = target ∨ e = value) (hs : e.isSole) :
    s.run (Engine.operandUse b e o) = s.run (Engine.assignment b statement target value e o) := by
  have hmem : e ∈ [target, value] := by simpa using he
  unfold Engine.operandUse
  cases ha with
  | assignment m =>
    rw [run_bind_of_ok (h.run_parentOf hm hmem hs), run_bind_of_ok (Session.run_parentOf s _)]
    rfl
  | call m m' m'' ps =>
    have hlist : Node.mk m'' .exprList [target, value] ∈ s.document.root.preorder :=
      mem_preorder_of_part hm (by simp [parts]) rfl
    rw [run_bind_of_ok (h.run_parentOf hlist hmem hs),
      run_bind_of_ok (h.run_parentOf hm (by simp [parts]) rfl)]
    rfl

end

/-! ### Operands -/

namespace IsOperand

theorem exists_symbol (h : s.IsOperand b e) : ∃ m name ps,
    e.unwrap.symbol = .mk m (.ident name) ps ∧ s.meaning? e.unwrap.symbol name = some b := by
  unfold IsOperand bindingIn? at h
  split at h
  · rename_i m name ps hsym
    exact ⟨m, name, ps, hsym, hsym ▸ h⟩
  · cases h

theorem isA_symbol (h : s.IsOperand b e) : e.unwrap.symbol.isA .ident := by
  obtain ⟨m, name, ps, hsym, -⟩ := h.exists_symbol
  rw [hsym]
  rfl

theorem isSole (h : s.IsOperand b e) : e.isSole := isSole_of_isLink (isLink_of_symbol h.isA_symbol)

/-- An operand is no null pointer. -/
theorem isNull (h : s.IsOperand b e) {names : List String}
    (hn : ∀ name ∈ names, e.unwrap.symbol.form? ≠ some (.ident name)) :
    e.isNull names = .ok false := by
  obtain ⟨m, name, ps, hsym, -⟩ := h.exists_symbol
  have hw := wraps_symbol e
  rw [hsym] at hn hw
  generalize e.unwrap.wrap = wrap, e.unwrap.subscript = subscript at hw
  cases hw with
  | bare =>
    have hname : name ∉ names := fun hm => hn name hm rfl
    simp [Node.isNull, stripCast, hname]
  | deref m | address m | element m | elementAddress m m' => rfl

/-- An operand is no call. -/
theorem callName?_stripCast (h : s.IsOperand b e) : e.stripCast.callName? = none := by
  obtain ⟨m, name, ps, hsym, -⟩ := h.exists_symbol
  have hw := wraps_symbol e
  rw [hsym] at hw
  generalize e.unwrap.wrap = wrap, e.unwrap.subscript = subscript at hw
  cases hw <;> rfl

/-- A pointer that is set to an operand is not set to null or to new memory. -/
theorem run_pointerAssignment (h : s.IsOperand c e)
    (hn : ∀ name ∈ s.options.nullNames, e.unwrap.symbol.form? ≠ some (.ident name)) :
    s.run (Engine.pointerAssignment b e) = (.ok none, s) := by
  have hnull : s.run (Engine.report fun s => Report.of (e.isNull s.options.nullNames)) =
      (.ok false, s) := by
    rw [run_report, h.isNull hn]
    rfl
  have halloc : s.run (Engine.report fun s => s.allocation b e) = (.ok none, s) := by
    rw [run_report, allocation, h.callName?_stripCast]
    rfl
  unfold Engine.pointerAssignment
  rw [run_bind_of_ok hnull, if_neg Bool.false_ne_true, run_bind_of_ok halloc]
  rfl

variable [Discipline]

/-- What the other side of an assignment is taken apart into. -/
theorem run_operandOf? (h : s.IsOperand b e) (hs : s.Sound) (he : e ∈ s.document.root.preorder) :
    s.run (Engine.operandOf? e) = (.ok (some (b.operandIn e)), s) := by
  obtain ⟨m, name, ps, hsym, hb⟩ := h.exists_symbol
  have hlookup : s.run (Engine.report fun s => s.lookup e name) = (.ok (some b), s) := by
    rw [run_report, ← hs.lookup_of_wraps he (wraps_symbol e) h.isA_symbol name,
      run_lookup_of_meaning? hb]
  unfold Engine.operandOf?
  dsimp only
  rw [hsym]
  dsimp only
  rw [run_bind_of_ok hlookup]
  rfl

/-- The assignment between a side and the other one, which is an operand of the same aggregate. -/
theorem run_aggregateAssignment (h : s.IsOperand c e) (hs : s.Sound)
    (he : e ∈ s.document.root.preorder) (hsame : c.aggregate.same b.aggregate) (isTarget : Bool) :
    s.run (Engine.aggregateAssignment b o isTarget e) = s.run
      (if isTarget then Engine.assign o (c.operandIn e) else Engine.assign (c.operandIn e) o) := by
  unfold Engine.aggregateAssignment
  rw [run_bind_of_ok (h.run_operandOf? hs he)]
  dsimp only
  rw [c.binding_operandIn, if_pos hsame]

end IsOperand

/-! ### The two sides -/

namespace Joins

variable [Discipline]

/-- Whether an assignment stands where a statement does can be said. -/
theorem run_isStatement (h : s.Joins statement b c target value) (hs : s.Sound) :
    ∃ alone, s.run (Engine.report fun s => Report.of (s.document.isStatement statement)) =
      (.ok alone, s) := by
  have hroot : statement.key ≠ s.document.root.key := fun hk => by
    have hfile := hs.document.file
    rw [← hs.document.eq_of_key h.mem hs.document.root_mem hk] at hfile
    cases h.assigns <;> cases hfile
  obtain ⟨p, hp⟩ := hs.document.place_ok h.mem rfl hroot
  refine ⟨p.isStatement, ?_⟩
  rw [run_report, Document.isStatement, hp]
  rfl

/-- The sides of an assignment are parts of one node, and are not one and the same. -/
theorem sides (h : s.Joins statement b c target value) (hs : s.Sound) :
    (∃ P ∈ s.document.root.preorder, (P.isA .assignment ∨ P.isA .exprList) ∧ target ∈ P.parts ∧
      value ∈ P.parts) ∧ Apart target value := by
  have hm := h.mem
  cases h.assigns with
  | assignment m =>
    refine ⟨⟨_, hm, .inl rfl, by simp [parts], by simp [parts]⟩, ?_⟩
    exact List.rel_of_pairwise_cons (hs.document.woven.siblings _ (Document.mem_trees_of_root hm))
      List.mem_cons_self
  | call m m' m'' ps =>
    have hlist : Node.mk m'' .exprList [target, value] ∈ s.document.root.preorder :=
      mem_preorder_of_part hm (by simp [parts]) rfl
    refine ⟨⟨_, hlist, .inr rfl, by simp [parts], by simp [parts]⟩, ?_⟩
    exact List.rel_of_pairwise_cons
      (hs.document.woven.siblings _ (Document.mem_trees_of_root hlist)) List.mem_cons_self

/-- From the target, the value is what is looked up. -/
theorem run_target (h : s.Joins statement b c target value) (hs : s.Sound) :
    s.run (Engine.rewriteOccurrence b target.unwrap.symbol) =
      s.run (Engine.exchange b statement (b.operandIn target) (c.operandIn value)) := by
  obtain ⟨⟨P, hP, hcls, ht, hv⟩, -⟩ := h.sides hs
  have htm := mem_preorder_of_part hP ht (isPresent_of_isSole h.left.isSole)
  have hvm := mem_preorder_of_part hP hv (isPresent_of_isSole h.right.isSole)
  have hsame : c.aggregate.same b.aggregate := same_comm.mp h.same
  rw [hs.run_rewriteOccurrence hP ht hcls (wraps_symbol target) h.left.isA_symbol,
    hs.run_operandUse h.mem h.assigns (.inl rfl) h.left.isSole]
  obtain ⟨alone, halone⟩ := h.run_isStatement hs
  unfold Engine.assignment Engine.exchange
  rw [run_bind_of_ok halone, run_bind_of_ok halone, hs.same_self htm]
  cases alone with
  | false => rfl
  | true =>
    rw [if_pos rfl, if_pos rfl]
    dsimp only
    split
    · rw [run_bind_of_ok (h.right.run_pointerAssignment h.notNull)]
      exact run_bind_congr (h.right.run_aggregateAssignment hs hvm hsame true)
    · rw [run_bind_of_ok (run_pure _)]
      exact run_bind_congr (h.right.run_aggregateAssignment hs hvm hsame true)

/-- From the value, the target is what is looked up. -/
theorem run_value (h : s.Joins statement b c target value) (hs : s.Sound) :
    s.run (Engine.rewriteOccurrence c value.unwrap.symbol) =
      s.run (Engine.exchange c statement (b.operandIn target) (c.operandIn value)) := by
  obtain ⟨⟨P, hP, hcls, ht, hv⟩, hapart⟩ := h.sides hs
  have htm := mem_preorder_of_part hP ht (isPresent_of_isSole h.left.isSole)
  have hne : value.same target = false := Bool.eq_false_iff.mpr fun hsame =>
    hapart (.inl h.left.isSole) (same_iff.mp hsame).2.symm
  rw [hs.run_rewriteOccurrence hP hv hcls (wraps_symbol value) h.right.isA_symbol,
    hs.run_operandUse h.mem h.assigns (.inr rfl) h.right.isSole]
  obtain ⟨alone, halone⟩ := h.run_isStatement hs
  unfold Engine.assignment Engine.exchange
  rw [run_bind_of_ok halone, run_bind_of_ok halone, hne]
  cases alone with
  | false => rfl
  | true =>
    rw [if_pos rfl, if_pos rfl]
    dsimp only
    rw [Bool.false_and, if_neg Bool.false_ne_true, run_bind_of_ok (run_pure _)]
    exact run_bind_congr (h.left.run_aggregateAssignment hs htm h.same false)

omit [Discipline] in
/-- There are statements for the assignment, or there is no rule for it. -/
theorem run_assign (h : s.Joins statement b c target value) :
    (∃ stmts t, s.run (Engine.assign (b.operandIn target) (c.operandIn value)) =
      (.ok (some stmts), t)) ∨
    s.run (Engine.assign (b.operandIn target) (c.operandIn value)) = (.ok none, s) := by
  unfold Engine.assign
  rw [b.binding_operandIn, c.binding_operandIn, if_pos h.same]
  cases CopyRule.find? (b.operandIn target) (c.operandIn value) with
  | none => exact .inr rfl
  | some r =>
    refine .inl ?_
    dsimp only
    cases r.copiesBytes (b.operandIn target) with
    | true => exact ⟨_, _, rfl⟩
    | false => exact ⟨_, _, rfl⟩

/-- An assignment becomes its statements, or is left alone with a warning. -/
theorem run_exchange (h : s.Joins statement b c target value) (hs : s.Sound) :
    (∃ stmts t, s.run (Engine.assign (b.operandIn target) (c.operandIn value)) =
        (.ok (some stmts), t) ∧
      ∀ x, s.run (Engine.exchange x statement (b.operandIn target) (c.operandIn value)) =
        t.run (Engine.replaceStatement statement stmts)) ∨
    ∃ usage, ∀ x, s.run (Engine.exchange x statement (b.operandIn target) (c.operandIn value)) =
      s.run (Engine.warn x statement usage) := by
  obtain ⟨alone, halone⟩ := h.run_isStatement hs
  unfold Engine.exchange
  cases alone with
  | false => exact .inr ⟨.assignmentAsValue, fun x => by rw [run_bind_of_ok halone]; rfl⟩
  | true =>
    rcases h.run_assign with ⟨stmts, t, ht⟩ | hnone
    · refine .inl ⟨stmts, t, ht, fun x => ?_⟩
      rw [run_bind_of_ok halone, if_pos rfl, run_bind_of_ok ht]
    · refine .inr ⟨.assignment, fun x => ?_⟩
      rw [run_bind_of_ok halone, if_pos rfl, run_bind_of_ok hnone]

end Joins

/-- **An assignment is rewritten the same from either side.** The use in the target and the use in
the value both give way to the statements of the one assignment, or leave it with a warning. -/
theorem Working.rewriteOccurrence_either_side (hw : Working s)
    (h : s.Joins statement b c target value) :
    (∃ stmts t, s.run (Engine.assign (b.operandIn target) (c.operandIn value)) =
        (.ok (some stmts), t) ∧
      s.run (Engine.rewriteOccurrence b target.unwrap.symbol) =
        t.run (Engine.replaceStatement statement stmts) ∧
      s.run (Engine.rewriteOccurrence c value.unwrap.symbol) =
        t.run (Engine.replaceStatement statement stmts)) ∨
    ∃ usage, s.run (Engine.rewriteOccurrence b target.unwrap.symbol) =
        s.run (Engine.warn b statement usage) ∧
      s.run (Engine.rewriteOccurrence c value.unwrap.symbol) =
        s.run (Engine.warn c statement usage) := by
  let _ : Discipline := ⟨False, False⟩
  have hs := hw.sound ⟨id, id⟩
  rw [h.run_target hs, h.run_value hs]
  exact (h.run_exchange hs).imp (fun ⟨stmts, t, ha, hx⟩ => ⟨stmts, t, ha, hx b, hx c⟩)
    fun ⟨usage, hx⟩ => ⟨usage, hx b, hx c⟩

/-- The first assignment in a program, if it assigns one operand to another one of its aggregate. -/
def firstJoin? (s : Session) : Option (Node × Binding × Binding × Node × Node) :=
  match s.document.root.ofClass .assignment with
  | .mk m (.assignment .plain) [target, value] :: _ =>
    match s.bindingIn? target, s.bindingIn? value with
    | some b, some c =>
      if b.aggregate.same c.aggregate &&
          s.options.nullNames.all (fun name => value.unwrap.symbol.form? != some (.ident name)) then
        some (.mk m (.assignment .plain) [target, value], b, c, target, value)
      else none
    | _, _ => none
  | _ => none

theorem joins_of_firstJoin? (h : s.firstJoin? = some (statement, b, c, target, value)) :
    s.Joins statement b c target value := by
  unfold firstJoin? at h
  split at h
  case h_2 => cases h
  rename_i m l r rest hfirst
  have hmem : Node.mk m (.assignment .plain) [l, r] ∈ s.document.root.ofClass .assignment := by
    rw [hfirst]
    exact List.mem_cons_self
  split at h
  case h_2 => cases h
  rename_i b' c' hb hc
  split at h
  case isFalse => cases h
  rename_i hcond
  simp only [Bool.and_eq_true, List.all_eq_true, bne_iff_ne] at hcond
  cases h
  exact ⟨(List.mem_filter.mp hmem).1, .assignment _ _ _, hb, hc, hcond.1, hcond.2⟩

/-- What a pointer points to is copied into a variable. -/
def copying : String :=
  "struct S \x7bint v;\x7d; void f(void) \x7b struct S x, *p = &x, y; y = *p; \x7d"

theorem Working.rewriteOccurrence_either_side_copying : ∃ (s : Session)
    (statement target value : Node) (b c : Binding),
      Working s ∧ s.Joins statement b c target value ∧
      ((∃ stmts t, s.run (Engine.assign (b.operandIn target) (c.operandIn value)) =
          (.ok (some stmts), t) ∧
        s.run (Engine.rewriteOccurrence b target.unwrap.symbol) =
          t.run (Engine.replaceStatement statement stmts) ∧
        s.run (Engine.rewriteOccurrence c value.unwrap.symbol) =
          t.run (Engine.replaceStatement statement stmts)) ∨
      ∃ usage, s.run (Engine.rewriteOccurrence b target.unwrap.symbol) =
          s.run (Engine.warn b statement usage) ∧
        s.run (Engine.rewriteOccurrence c value.unwrap.symbol) =
          s.run (Engine.warn c statement usage)) := by
  have h : (firstSearch copying).any (fun r => r.1.firstJoin?.isSome) = true := by decide +kernel
  obtain ⟨⟨s, x⟩, hf, h⟩ := (Option.any_eq_true _ _).mp h
  obtain ⟨⟨statement, b, c, target, value⟩, hj⟩ := Option.isSome_iff_exists.mp h
  have hw : Working s := .visited (firstSearch_spec hf).1
  have hj := joins_of_firstJoin? hj
  exact ⟨s, statement, target, value, b, c, hw, hj, hw.rewriteOccurrence_either_side hj⟩

end Session

end Fieldwise
