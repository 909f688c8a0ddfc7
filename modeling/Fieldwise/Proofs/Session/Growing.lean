import Fieldwise.Proofs.FreshNames
import Fieldwise.Proofs.Session.Run

/-!
# What computations never undo

A computation on a session may edit the program and report, but it looks at the same aggregates with
the same options all the time, what was logged stays in the log, a name under which a binding was
recorded stays recorded, and names are given out that are free (`Session.Grows`). Every step is of
this kind, and so a session grows by every run of a decomposition (`Engine.Grows.decomposeEach`).
-/

namespace Fieldwise

/-- The names of bindings that are recorded in a session are recorded in another one. -/
def Session.NamesIn (s t : Session) : Prop :=
  ∀ e ∈ s.decomposed, ∃ e' ∈ t.decomposed, e'.binding.name = e.binding.name

theorem Session.NamesIn.trans {s t u : Session} (h : s.NamesIn t) (h' : t.NamesIn u) :
    s.NamesIn u := by
  intro e he
  obtain ⟨e', he', hn⟩ := h e he
  obtain ⟨e'', he'', hn'⟩ := h' e' he'
  exact ⟨e'', he'', hn'.trans hn⟩

theorem Session.NamesIn.of_eq {s t : Session} (h : t.decomposed = s.decomposed) : s.NamesIn t :=
  fun e he => ⟨e, h ▸ he, rfl⟩

/-- Recorded names stay recorded. -/
theorem Session.exists_name_recordIn (b : Binding) {es : List Decomposed} {e : Decomposed}
    (he : e ∈ es) :
    ∃ e' ∈ Session.recordIn b es, e'.binding.name = e.binding.name := by
  induction es with
  | nil => cases he
  | cons e₀ es ih =>
    rw [Session.recordIn]
    split
    · rename_i hfor
      rcases List.mem_cons.mp he with rfl | he
      · simp only [Decomposed.isFor, Bool.and_eq_true, beq_iff_eq] at hfor
        exact ⟨_, List.mem_cons_self, hfor.2.symm⟩
      · exact ⟨e, List.mem_cons_of_mem _ he, rfl⟩
    · rcases List.mem_cons.mp he with rfl | he
      · exact ⟨e, List.mem_cons_self, rfl⟩
      · obtain ⟨e', he', hname⟩ := ih he
        exact ⟨e', List.mem_cons_of_mem _ he', hname⟩

/-! ### Reports -/

namespace Report

variable {α β : Type}

/-- The report adds entries to the log and takes none out. -/
def Grows (r : Report α) : Prop := ∀ log, log <:+ (r.run.run log).2

namespace Grows

theorem pure (x : α) : Grows (Pure.pure x : Report α) := fun _ => List.suffix_refl _

theorem of (r : Except Failure α) : Grows (Report.of r) := fun _ => List.suffix_refl _

theorem note (n : Notice) (line : Option Nat) : Grows (Report.note n line) := fun _ =>
  List.suffix_cons _ _

theorem bind {r : Report α} {f : α → Report β} (h : Grows r) (hf : ∀ x, Grows (f x)) :
    Grows (r >>= f) := by
  intro log
  have hr := h log
  simp only [ExceptT.run_bind, StateT.run_bind]
  generalize StateT.run (ExceptT.run r) log = p at hr ⊢
  obtain ⟨_ | x, log'⟩ := p
  · exact hr
  · exact hr.trans (hf x log')

theorem ite {c : Prop} [Decidable c] {r r' : Report α} (h : Grows r) (h' : Grows r') :
    Grows (if c then r else r') := by
  split
  · exact h
  · exact h'

variable (s : Session)

theorem classify (decl : Node) (quiet : Bool) : Grows (s.classify decl quiet) := by
  unfold Session.classify
  refine (of _).bind fun v => ?_
  split
  · exact pure _
  · exact (note _ _).bind fun _ => pure _
  · exact pure _

theorem lookupIn (name : String) (child : Node) (scopes : List Node) :
    Grows (s.lookupIn name child scopes) := by
  induction scopes generalizing child with
  | nil => exact pure _
  | cons scope outer ih =>
    unfold Session.lookupIn
    split
    · exact pure _
    · split
      · exact classify s _ _
      · exact ih _

theorem lookup (n : Node) (name : String) : Grows (s.lookup n name) := lookupIn s _ _ _

theorem bindings (a : Aggregate) : Grows (s.bindings a) := by
  have hamong : ∀ decls, Grows (s.bindingsAmong a decls) := fun decls => by
    induction decls with
    | nil => exact pure _
    | cons decl decls ih =>
      unfold Session.bindingsAmong
      refine .ite ((classify s _ _).bind fun b => ?_) ih
      split
      · exact ih.bind fun _ => pure _
      · exact ih
  exact (hamong _).bind fun _ => pure _

theorem isAggregateSize (b : Binding) (n : Node) : Grows (s.isAggregateSize b n) := by
  unfold Session.isAggregateSize
  split
  · split
    · exact pure _
    · dsimp only
      split
      · refine (lookup s _ _).bind fun target => ?_
        split <;> exact pure _
      · exact pure _
  · exact pure _

theorem sizeFactor (b : Binding) (left right : Node) : Grows (s.sizeFactor b left right) :=
  (isAggregateSize s b left).bind fun _ => .ite (pure _)
    ((isAggregateSize s b right).bind fun _ => .ite (pure _) (pure _))

theorem quantity (b : Binding) (line : Option Nat) (lone : Bool) (size : Node) :
    Grows (s.quantity b line lone size) := by
  unfold Session.quantity
  split
  · refine (sizeFactor s b _ _).bind fun factor => ?_
    split
    · exact pure _
    · exact (of _).bind fun _ => .ite (pure _) ((note _ _).bind fun _ => pure _)
  · exact (of _).bind fun _ => .ite ((note _ _).bind fun _ => pure _)
      ((isAggregateSize s b _).bind fun _ => .ite (pure _) (pure _))

theorem allocation (b : Binding) (e : Node) : Grows (s.allocation b e) := by
  unfold Session.allocation
  dsimp only
  split
  · refine .ite ((quantity s b _ _ _).bind fun q => ?_) (pure _)
    split <;> exact pure _
  · exact pure _

theorem planFor (b : Binding) (strategy : Strategy) : Grows (s.planFor b strategy) := by
  unfold Session.planFor
  split
  · exact .ite (pure _) (pure _)
  · split
    · exact .ite (pure _) (pure _)
    · exact pure _
  · exact .ite ((allocation s b _).bind fun _ => pure _) (pure _)
  · dsimp only
    split
    · refine (lookup s _ _).bind fun source => ?_
      split
      · exact pure _
      · exact .ite (pure _) (pure _)
    · exact pure _
  · exact .ite ((of _).bind fun _ => pure _) (pure _)

theorem plan? (b : Binding) : Grows (s.plan? b) := by
  have hamong : ∀ strategies, Grows (s.planAmong b strategies) := fun strategies => by
    induction strategies with
    | nil => exact pure _
    | cons strategy rest ih =>
      refine (planFor s b strategy).bind fun plan => ?_
      split
      · exact pure _
      · exact ih
  exact hamong _

mutual

theorem assignElement (name : String) (target : Node) :
    ∀ value, Grows (Fieldwise.assignElement name target value)
  | .absent => by
    rw [Fieldwise.assignElement]
    · exact .ite ((note _ _).bind fun _ => pure _) (pure _)
    · exact fun _ _ h => by cases h
  | .mk m f ps => by
    by_cases hf : f = .initList
    · subst hf
      rw [Fieldwise.assignElement]
      exact assignElements name target 0 ps
    · rw [Fieldwise.assignElement]
      · exact .ite ((note _ _).bind fun _ => pure _) (pure _)
      · intro m' items heq
        cases heq
        exact hf rfl

theorem assignElements (name : String) (target : Node) (cursor : Int) :
    ∀ entries, Grows (Fieldwise.assignElements name target cursor entries)
  | [] => pure _
  | value :: rest => by
    have hrest := fun cursor => assignElements name target cursor rest
    unfold Fieldwise.assignElements
    split
    · exact pure _
    · rename_i m value' names rest' heq
      cases heq
      refine (of _).bind fun i => ?_
      split
      · exact (note _ _).bind fun _ => pure _
      · exact (of _).bind fun _ => (assignElement name _ value').bind fun _ =>
          (hrest _).bind fun _ => pure _
    · rename_i heq
      cases heq
      exact (of _).bind fun _ => (assignElement name _ value).bind fun _ =>
        (hrest _).bind fun _ => pure _

end

theorem assignFields (b : Binding) (z : Int) (values : List (Nat × Node)) (i : Nat)
    (fs : List Field) : Grows (Fieldwise.assignFields b z values i fs) := by
  induction fs generalizing i with
  | nil => exact pure _
  | cons f fs ih =>
    unfold Fieldwise.assignFields
    split
    · exact (of _).bind fun _ => (assignElement _ _ _).bind fun _ => (ih _).bind fun _ => pure _
    · exact ih _

theorem assignAll (b : Binding) (elements : List (Int × List (Nat × Node))) (zs : List Int) :
    Grows (Fieldwise.assignAll b elements zs) := by
  induction zs with
  | nil => exact pure _
  | cons z zs ih => exact (assignFields _ _ _ _ _).bind fun _ => ih.bind fun _ => pure _

end Grows

end Report

/-! ### Sessions -/

/-- The session `t` may come after `s`: nothing that was logged or recorded is lost, and names that
were given out were free. -/
structure Session.Grows (s t : Session) : Prop where
  options : t.options = s.options
  aggregates : t.aggregates = s.aggregates
  log : s.log <:+ t.log
  names : s.NamesIn t
  gives : ∃ given, s.names.Gives given t.names

theorem Session.Grows.refl (s : Session) : s.Grows s :=
  ⟨rfl, rfl, List.suffix_refl _, .of_eq rfl, [], .refl _⟩

theorem Session.Grows.trans {s t u : Session} (h : s.Grows t) (h' : t.Grows u) : s.Grows u :=
  let ⟨_, hg⟩ := h.gives
  let ⟨_, hg'⟩ := h'.gives
  ⟨h'.options.trans h.options, h'.aggregates.trans h.aggregates, h.log.trans h'.log,
    h.names.trans h'.names, _, hg.trans hg'⟩

namespace Engine

variable {α β : Type}

/-- Every session grows by the computation. -/
def Grows (e : Engine α) : Prop := ∀ s : Session, s.Grows (s.run e).2

namespace Grows

theorem of_run {e : Engine α} {s t : Session} {r : Except Failure α} (h : Grows e)
    (hr : s.run e = (r, t)) : s.Grows t := by
  have hs := h s
  rwa [hr] at hs

theorem pure (x : α) : Grows (Pure.pure x : Engine α) := fun s => .refl s

theorem throw (f : Failure) : Grows (MonadExcept.throw f : Engine α) := fun s => .refl s

theorem bind {e : Engine α} {f : α → Engine β} (h : Grows e) (hf : ∀ x, Grows (f x)) :
    Grows (e >>= f) := by
  intro s
  rw [Session.run_bind]
  have he := h s
  generalize s.run e = p at he ⊢
  obtain ⟨_ | x, t⟩ := p
  · exact he
  · exact he.trans (hf x t)

theorem get : Grows (getThe Session : Engine Session) := fun s => .refl s

/-- The session is changed otherwise. -/
theorem put {g : Session → Session} {f : Session → Engine β} (hg : ∀ s : Session, s.Grows (g s))
    (hf : ∀ s, Grows (f s)) :
    Grows (getThe Session >>= fun s => set (g s) >>= fun _ => f s) := fun s =>
  (hg s).trans (hf s (g s))

theorem report {r : Session → Report α} (hr : ∀ s, (r s).Grows) : Grows (Engine.report r) :=
  fun s => ⟨rfl, rfl, hr s s.log, .of_eq rfl, [], .refl _⟩

theorem edit (f : Document → Except Failure Document) : Grows (Engine.edit f) := by
  intro s
  rw [Session.run_edit]
  split
  · exact ⟨rfl, rfl, List.suffix_refl _, .of_eq rfl, [], .refl _⟩
  · exact .refl s

theorem record (b : Binding) : Grows (Engine.record b) := fun _ =>
  ⟨rfl, rfl, List.suffix_refl _, fun _ he => Session.exists_name_recordIn b he, [], .refl _⟩

theorem ite {c : Prop} [Decidable c] {e e' : Engine α} (h : Grows e) (h' : Grows e') :
    Grows (if c then e else e') := by
  split
  · exact h
  · exact h'

theorem note (n : Notice) (line : Option Nat) : Grows (Engine.note n line) :=
  report fun _ => .note n line

theorem requireHeader (header : String) : Grows (Engine.requireHeader header) :=
  fun _ => ⟨rfl, rfl, List.suffix_refl _, .of_eq rfl, [], .refl _⟩

theorem refresh (b : Binding) : Grows (Engine.refresh b) := get.bind fun _ => pure _

theorem warn (b : Binding) (n : Node) (usage : Usage) : Grows (Engine.warn b n usage) :=
  note _ _

theorem parentOf (n : Node) : Grows (Engine.parentOf n) := get.bind fun _ => pure _

theorem replace (n new : Node) : Grows (Engine.replace n new) := edit _

theorem replaceStatement (n : Node) (new : List Node) : Grows (Engine.replaceStatement n new) :=
  (edit _).bind fun _ => edit _

/-! ### Uses -/

theorem member (b : Binding) (ref : Node) (o : Option Operand) :
    Grows (Engine.member b ref o) := by
  unfold Engine.member
  split
  · refine .ite ((parentOf _).bind fun holder => ?_) (warn _ _ _)
    split
    · exact .ite (replace _ _) (replace _ _)
    all_goals exact replace _ _
  · exact warn _ _ _

theorem occurrenceOperand (b : Binding) (n : Node) : Grows (Engine.occurrenceOperand b n) := by
  unfold Engine.occurrenceOperand
  refine (parentOf n).bind fun parent => ?_
  split
  · exact pure _
  · exact pure _
  · refine .ite ((parentOf _).bind fun above => ?_) (pure _)
    split <;> exact pure _
  · exact pure _

theorem operandOf? (e : Node) : Grows (Engine.operandOf? e) := by
  unfold Engine.operandOf?
  dsimp only
  split
  · exact (report fun _ => .lookup _ _ _).bind fun _ => pure _
  · exact pure _

theorem tested (e context : Node) : Grows (Engine.tested e context) := by
  unfold Engine.tested
  split
  · exact .ite (report fun _ => .of _) (pure _)
  · exact pure _
  · exact (report fun _ => .of _).bind fun _ => pure _

theorem testsPointer (e context : Node) (o : Operand) : Grows (Engine.testsPointer e context o) :=
  .ite (tested _ _) (pure _)

theorem pointerAssignment (b : Binding) (value : Node) :
    Grows (Engine.pointerAssignment b value) := by
  unfold Engine.pointerAssignment
  refine (report fun _ => .of _).bind fun _ => .ite (pure _)
    ((report fun _ => .allocation _ _ _).bind fun calls => ?_)
  split <;> exact pure _

theorem assign (target source : Operand) : Grows (Engine.assign target source) := by
  unfold Engine.assign
  refine .ite ?_ (throw _)
  split
  · exact pure _
  · exact (note _ _).bind fun _ => get.bind fun _ =>
      .ite ((requireHeader _).bind fun _ => pure _) (pure _)

theorem aggregateAssignment (b : Binding) (o : Operand) (isTarget : Bool) (other : Node) :
    Grows (Engine.aggregateAssignment b o isTarget other) := by
  unfold Engine.aggregateAssignment
  refine (operandOf? other).bind fun p => ?_
  split
  · exact pure _
  · exact .ite (.ite (assign _ _) (assign _ _)) (pure _)

theorem putStatements (b : Binding) (statement : Node) (stmts : Option (List Node)) :
    Grows (match stmts with
      | some stmts => Engine.replaceStatement statement stmts
      | none => Engine.warn b statement .assignment) := by
  cases stmts with
  | none => exact warn _ _ _
  | some _ => exact replaceStatement _ _

theorem assignment (b : Binding) (statement target value e : Node) (o : Operand) :
    Grows (Engine.assignment b statement target value e o) := by
  unfold Engine.assignment
  have hput := putStatements b statement
  refine (report fun _ => .of _).bind fun _ => ?_
  split
  · dsimp only
    split
    · refine (pointerAssignment _ _).bind fun byPointer => ?_
      split
      · exact (pure _).bind hput
      · exact (aggregateAssignment _ _ _ _).bind hput
    · refine (pure _).bind fun byPointer => ?_
      split
      · exact (pure _).bind hput
      · exact (aggregateAssignment _ _ _ _).bind hput
  · exact warn _ _ _

theorem call (b : Binding) (call : Node) (args : List Node) (e : Node) (o : Operand) :
    Grows (Engine.call b call args e o) := by
  unfold Engine.call
  refine get.bind fun _ => ?_
  split
  · split
    · exact assignment _ _ _ _ _ _
    · exact throw _
  · dsimp only
    split
    · refine (report fun _ => .of _).bind fun alone => ?_
      split
      · exact replaceStatement _ _
      · exact warn _ _ _
    · split
      · exact edit _
      · exact warn _ _ _

theorem operandUse (b : Binding) (e : Node) (o : Operand) :
    Grows (Engine.operandUse b e o) := by
  unfold Engine.operandUse
  refine (parentOf _).bind fun context => (parentOf _).bind fun above => ?_
  split
  · exact .ite (assignment _ _ _ _ _ _) (warn _ _ _)
  · refine .ite ?_ ((testsPointer _ _ _).bind fun _ => .ite (replace _ _)
      (.ite ((report fun _ => .classify _ _ _).bind fun target => ?_) (warn _ _ _)))
    · split
      · exact call _ _ _ _ _
      · exact throw _
    · split
      · exact .ite (note _ _) (warn _ _ _)
      · exact warn _ _ _

theorem rewriteOccurrence (b : Binding) (n : Node) : Grows (Engine.rewriteOccurrence b n) := by
  unfold Engine.rewriteOccurrence
  refine (parentOf _).bind fun parent => (parentOf _).bind fun above => ?_
  dsimp only
  split
  · exact .ite (member _ _ _) (operandUse _ _ _)
  · split
    · exact member _ _ _
    · exact member _ _ _
    · exact warn _ _ _
  · exact .ite (member _ _ _) (operandUse _ _ _)
  · exact (occurrenceOperand _ _).bind fun _ => operandUse _ _ _

theorem rewriteAll (b : Binding) (ns : List Node) : Grows (Engine.rewriteAll b ns) := by
  induction ns with
  | nil => exact pure _
  | cons n ns ih =>
    rw [Engine.rewriteAll]
    refine get.bind fun s => ?_
    split
    · exact (refresh b).bind fun _ => (rewriteOccurrence _ _).bind fun _ => ih
    · exact ih

theorem rewrite (b : Binding) : Grows (Engine.rewrite b) :=
  (refresh b).bind fun _ => get.bind fun _ => (note _ _).bind fun _ => rewriteAll _ _

/-! ### Initial values -/

theorem freshName (base : String) : Grows (Engine.freshName base) := fun _ =>
  ⟨rfl, rfl, List.suffix_refl _, .of_eq rfl, _, .get _ base⟩

theorem holders (b : Binding) (values : List (Nat × Node)) (i : Nat) (fs : List Field)
    (decls : List Node) : Grows (Engine.holders b values i fs decls) := by
  fun_induction Engine.holders b values i fs decls with
  | case1 i f fs decl decls value hv ih =>
    exact (freshName _).bind fun _ => ih.bind fun _ => pure _
  | case2 i f fs decl decls hv ih => exact ih.bind fun _ => pure _
  | case3 => exact pure _

theorem copies (b : Binding) (source : Operand) (fs : List Field) (decls : List Node) :
    Grows (Engine.copies b source fs decls) := by
  fun_induction Engine.copies b source fs decls with
  | case1 f fs decl decls ih =>
    refine get.bind fun _ => ?_
    dsimp only
    split
    · exact (pure _).bind fun _ => ih.bind fun _ => pure _
    · exact (requireHeader _).bind fun _ => (pure _).bind fun _ => ih.bind fun _ => pure _
    · exact (note _ _).bind fun _ => (pure _).bind fun _ => ih.bind fun _ => pure _
  | case2 => exact pure _

theorem initialValues (b : Binding) (decls : List Node) :
    Grows (Engine.initialValues b decls) := by
  have hplan : ∀ plan, Grows (Engine.applyPlan b decls plan) := fun plan => by
    unfold Engine.applyPlan
    split
    · exact pure _
    · exact (holders _ _ _ _ _).bind fun _ => pure _
    · exact pure _
    · exact (copies _ _ _ _).bind fun _ => pure _
    · exact .ite ((report fun _ => .of _).bind fun _ => pure _)
        ((report fun _ => .assignAll _ _ _).bind fun _ => pure _)
  unfold Engine.initialValues
  refine .ite ((report fun _ => .plan? _ _).bind fun plan => ?_) (pure _)
  split
  · exact (note _ _).bind fun _ => hplan _
  · exact (note _ _).bind fun _ => pure _

/-! ### Decompositions -/

theorem synthesize (b : Binding) : Grows (Engine.synthesize b) :=
  (report fun _ => .of _).bind fun _ => (note _ _).bind fun _ => pure _

theorem updateAll (funcDef : Node) (ds : List Node) : Grows (Engine.updateAll funcDef ds) := by
  induction ds with
  | nil => exact pure _
  | cons d ds ih =>
    unfold Engine.updateAll
    exact put (fun _ => ⟨rfl, rfl, List.suffix_refl _, .of_eq rfl, [], .refl _⟩) fun _ =>
      (note _ _).bind fun _ => ih

theorem updatePrototypes (funcDef : Node) : Grows (Engine.updatePrototypes funcDef) :=
  get.bind fun _ => updateAll _ _

theorem removeDeclaration (b : Binding) : Grows (Engine.removeDeclaration b) := by
  unfold Engine.removeDeclaration
  split <;> exact edit _

theorem decomposeBinding (b : Binding) : Grows (Engine.decomposeBinding b) :=
  .ite ((refresh b).bind fun _ => (synthesize _).bind fun _ => (edit _).bind fun _ =>
      (record _).bind fun _ => (note _ _).bind fun _ => (rewrite _).bind fun _ =>
        updatePrototypes _)
    ((refresh b).bind fun _ => (synthesize _).bind fun _ => (initialValues _ _).bind fun _ =>
      (edit _).bind fun _ => (edit _).bind fun _ => (record _).bind fun _ => (rewrite _).bind
        fun _ => (refresh _).bind fun _ => removeDeclaration _)

theorem decomposeAttached (bs : List Binding) : Grows (Engine.decomposeAttached bs) := by
  induction bs with
  | nil => exact pure _
  | cons b bs ih =>
    exact get.bind fun _ => .ite ((decomposeBinding b).bind fun _ => ih.bind fun _ => pure _) ih

theorem decompose (a : Aggregate) : Grows (Engine.decompose a) :=
  (report fun _ => .bindings _ _).bind fun _ => (note _ _).bind fun _ =>
    (decomposeAttached _).bind fun _ => (decomposeAttached _).bind fun _ => pure _

/-- **What was recorded stays recorded** while other aggregates are decomposed. -/
theorem decomposeEach (as : List Aggregate) : Grows (Engine.decomposeEach as) := by
  induction as with
  | nil => exact pure _
  | cons a as ih => exact (decompose a).bind fun _ => ih.bind fun _ => pure _

end Grows

end Engine

end Fieldwise
