import Fieldwise.Proofs.Document.Redraw
import Fieldwise.Proofs.Session.Rewriting
import Fieldwise.Proofs.Session.Sources

/-!
# Rewritings as edits around marked nodes

What is rewritten for the use of a binding is an expression with the use in it, and what is put in
its place is built from what is around it and from the types of fields. So a rewriting is a chain of
edits around marked nodes (`Session.Draws.settles_rewriteOccurrence`,
`Session.Within.redraws_rewrite`). The types of fields stay as they are, as no such edit is within
them (`Session.Steady`).

No discipline is asked of the program here: an edit that fails is none.
-/

namespace Fieldwise

open Node

variable {K N N' : List String} {types : List Node} {b : Binding} {f : Field}

/-- The fields of a binding have types that are among some types. -/
def Binding.IsTyped (types : List Node) (b : Binding) : Prop :=
  ∀ f ∈ b.aggregate.fields, f.type.isPresent → f.type ∈ types

namespace Binding.IsTyped

variable {d : Document} (hb : b.IsTyped types)
include hb

theorem takenFrom {R : Node → Prop} (hR : ∀ T ∈ types, R T) : b.TakenFrom R :=
  fun f hf hp => ⟨_, hR _ (hb f hf hp), self_mem_preorder hp⟩

/-- The types of fields can be copied. -/
theorem quotable : b.TakenFrom (d.Quotable types) := hb.takenFrom fun _ => .inr

theorem quotable_operand (w : Option Wrapper) {subscript : Node}
    (hs : Node.TakenFrom (d.Quotable types) subscript) :
    (b.operand w subscript).TakenFrom (d.Quotable types) :=
  Binding.takenFrom_operand hb.quotable w hs

end Binding.IsTyped

namespace Session

variable {u : Subject} {d : Document} {S : Node} {s t v : Session}
  {e n y P target value statement : Node} {o : Operand}

/-- The session after edits around the uses and declarations of some names. -/
structure Redrawn (N : List String) (types : List Node) (s t : Session) : Prop where
  redraws : Document.Redraws N types s.document t.document
  aggregates : t.aggregates = s.aggregates
  decomposed : t.decomposed = s.decomposed

namespace Redrawn

theorem of_same (h : s.Same t) : Redrawn N types s t :=
  ⟨h.document ▸ .refl, h.aggregates, h.decomposed⟩

theorem trans (h : Redrawn N types s t) (h' : Redrawn N types t v) : Redrawn N types s v :=
  ⟨h.redraws.trans h'.redraws, h'.aggregates.trans h.aggregates, h'.decomposed.trans h.decomposed⟩

theorem mono (h : Redrawn N types s t) (hN : ∀ name ∈ N, name ∈ N') : Redrawn N' types s t :=
  ⟨h.redraws.mono hN, h.aggregates, h.decomposed⟩

end Redrawn

/-- The types of all fields are among some types, which are plain and stand in the document. -/
structure Steady (K N : List String) (types : List Node) (s : Session) : Prop where
  aggregates : ∀ a ∈ s.aggregates, ∀ f ∈ a.fields, f.type.isPresent → f.type ∈ types
  decomposed : ∀ e ∈ s.decomposed, e.binding.IsTyped types
  types : ∀ T ∈ types, T ∈ preorderAll s.document.trees ∧ T.isPlain K N

namespace Steady

theorem same (h : Steady K N types s) (hs : s.Same t) : Steady K N types t := by
  refine ⟨?_, ?_, ?_⟩
  · rw [hs.aggregates]
    exact h.aggregates
  · rw [hs.decomposed]
    exact h.decomposed
  · rw [hs.document]
    exact h.types

theorem mono (h : Steady K N types s) (hN : ∀ name ∈ N', name ∈ N) : Steady K N' types s where
  aggregates := h.aggregates
  decomposed := h.decomposed
  types T hT := (h.types T hT).imp_right (isPlain_mono · hN)

/-- Edits that do not change the types keep this. -/
theorem of_fixes (h : Steady K N types s) (ha : t.aggregates = s.aggregates)
    (hd : ∀ e ∈ t.decomposed, e.binding.IsTyped types) (hf : ∀ T ∈ types, t.document.Fixes T)
    (halive : ∀ T ∈ types, ∃ x ∈ preorderAll t.document.trees, x.key = T.key) :
    Steady K N types t where
  aggregates := ha ▸ h.aggregates
  decomposed := hd
  types T hT := by
    obtain ⟨x, hx, hk⟩ := halive T hT
    exact ⟨(hf T hT).eq x hx hk ▸ hx, (h.types T hT).2⟩

/-- The types stay as they are under edits around the uses and declarations of names. -/
theorem redrawn (h : Steady K N types s) (ht : s.document.Tidy) (hr : Redrawn N types s t)
    (halive : ∀ T ∈ types, ∃ x ∈ preorderAll t.document.trees, x.key = T.key) :
    Steady K N types t :=
  h.of_fixes hr.aggregates (hr.decomposed ▸ h.decomposed) (fun T hT =>
    have ⟨hm, hp⟩ := h.types T hT
    hr.redraws.fixes ht (ht.fixes hm) hp) halive

/-- The type of a field is plain. -/
theorem plain (h : Steady K N types s) {T : Node} (hT : T.isPresent → T ∈ types) :
    T.isPlain K N := by
  cases T with
  | absent => exact isPlain_absent
  | mk => exact (h.types _ (hT rfl)).2

variable (ht : s.document.Tidy)
include ht

/-- A type of a field is the same at all times. -/
theorem current (h : Steady K N types s) {T : Node} (hT : T.isPresent → T ∈ types) :
    s.document.current T = T := by
  cases T with
  | absent => rfl
  | mk => exact ht.current_eq (h.types _ (hT rfl)).1 rfl

theorem fields_refresh (h : Steady K N types s) {a : Aggregate} (ha : a ∈ s.aggregates) :
    (a.refresh s.document).fields = a.fields := by
  refine (List.map_congr_left fun f hf => ?_).trans (List.map_id _)
  rw [h.current ht (h.aggregates a ha f hf)]
  rfl

theorem isTyped_refresh (h : Steady K N types s) (hb : b.IsTyped types) :
    (b.refresh s.document).IsTyped types := by
  intro f hf
  obtain ⟨f', hf', rfl⟩ := List.mem_map.mp hf
  exact (h.current ht (hb f' hf')).symm ▸ hb f' hf'

theorem isTyped_of_isBinding (h : Steady K N types s) (hb : s.IsBinding n b) : b.IsTyped types := by
  obtain ⟨a, ha, hagg⟩ := hb.aggregate
  intro f hf
  rw [hagg] at hf
  obtain ⟨f', hf', rfl⟩ := List.mem_map.mp hf
  exact (h.current ht (h.aggregates a ha f' hf')).symm ▸ h.aggregates a ha f' hf'

variable [Discipline]

theorem settles_classify (h : Steady K N types s) (n : Node) (quiet : Bool) :
    (s.classify n quiet).Settles fun r => ∀ b, r = some b → b.IsTyped types := by
  unfold classify
  refine (Report.Settles.of (settles_verdictOn s n)).bind fun v hv => ?_
  cases v with
  | unrelated => exact .pure (by simp)
  | skipped reason => exact (Report.Settles.note _ _).bind fun _ _ => .pure (by simp)
  | binding b => exact .pure (by simpa using h.isTyped_of_isBinding ht (hv b rfl))

theorem settles_lookupIn (h : Steady K N types s) (name : String) (child : Node)
    (scopes : List Node) :
    (s.lookupIn name child scopes).Settles fun r => ∀ b, r = some b → b.IsTyped types := by
  induction scopes generalizing child with
  | nil => exact .pure (by simp)
  | cons scope outer ih =>
    unfold lookupIn
    split
    · rename_i b hb
      refine .pure fun b' hb' => ?_
      obtain rfl : b = b' := by simpa using hb'
      obtain ⟨e, he, rfl⟩ := Option.map_eq_some_iff.mp hb
      exact h.isTyped_refresh ht (h.decomposed e (List.mem_of_find?_eq_some he))
    · split
      · exact h.settles_classify ht _ true
      · exact ih scope

theorem settles_lookup (h : Steady K N types s) (n : Node) (name : String) :
    (s.lookup n name).Settles fun r => ∀ b, r = some b → b.IsTyped types :=
  h.settles_lookupIn ht name n _

end Steady

variable [Discipline]

/-- An edit that may fail, where failures are allowed. -/
theorem Settles.edit_of_lax (hl : Discipline.IsLax) {f : Document → Except Failure Document}
    {Q : Unit → Session → Prop} (h : ∀ d, f s.document = .ok d → Q () { s with document := d }) :
    s.Settles (Engine.edit f) Q := by
  cases hf : f s.document with
  | ok d => exact .edit hf (h d hf)
  | error x =>
    unfold Settles
    rw [run_edit, hf]
    exact fun hs => (hl.1 hs).elim

theorem Settles.and {α : Type} {x : Engine α} {Q R : α → Session → Prop} (h : s.Settles x Q)
    (h' : s.Settles x R) : s.Settles x fun r t => Q r t ∧ R r t := by
  unfold Settles at h h' ⊢
  generalize s.run x = result at h h' ⊢
  match result with
  | (.ok r, t) => exact ⟨h, h'⟩
  | (.error _, _) => exact h

/-- The session in which the uses of names in a scope are rewritten. -/
structure Draws (K : List String) (u : Subject) (d : Document) (S : Node) (types : List Node)
    (s : Session) : Prop where
  lax : Discipline.IsLax
  keeps : Keeps u d S s
  start : ∀ T ∈ types, T ∈ preorderAll d.trees
  steady : Steady K u.names types s

namespace Draws

theorem tidy (h : Draws K u d S types s) : s.document.Tidy := h.keeps.sound.document.tidy

theorem same (h : Draws K u d S types s) (hs : s.Same t) : Draws K u d S types t :=
  ⟨h.lax, h.keeps.same hs, h.start, h.steady.same hs⟩

/-- A use in the scope is marked. -/
theorem marked (h : Draws K u d S types s) (he : s.IsAt u S e) :
    ∃ p x, s.document.Marked u.names e p x ∧ x.isLink := by
  obtain ⟨p, x, hs, hl, hr⟩ := h.keeps.stands he
  refine ⟨p, x, ⟨hs, .inl ⟨hl, Subject.exists_of_reaches hr⟩, fun hd => ?_⟩, hl⟩
  rw [(isLoose_of_isLink hl).decl] at hd
  cases hd

omit [Discipline] in
/-- What stands in a link can be copied. -/
theorem takenFrom (hP : P ∈ s.document.root.preorder) (hl : P.isLink) :
    Node.TakenFrom (s.document.Quotable types) P :=
  have ⟨_, hfunc, _, hfile⟩ := isBlock_of_isLink hl
  .of_mem (.inl ⟨hP, hfile, hfunc⟩) (self_mem_preorder (isPresent_of_mem_preorder hP))

/-! ### Edits -/

theorem settles_warn (s : Session) (b : Binding) (n : Node) (usage : Usage) :
    s.Settles (Engine.warn b n usage) fun _ t => Redrawn N types s t :=
  (settles_note _ _).mono fun _ _ ht => .of_same ht

theorem settles_replace (h : Draws K u d S types s) (he : s.IsAt u S e)
    (hy : BuiltFrom (s.document.Quotable types) y) (hf : y.isA .funcDecl = false) :
    s.Settles (Engine.replace e y) fun _ t => Redrawn u.names types s t := by
  obtain ⟨p, x, hm, -⟩ := h.marked he
  refine .edit_of_lax h.lax fun d' hd => ⟨?_, rfl, rfl⟩
  obtain ⟨qs, hs⟩ := hm.redrawsAt_replace h.tidy hy hf hd
  exact .single hs

theorem settles_splice (h : Draws K u d S types s) (he : s.IsAt u S e) {new : List Node}
    (hnew : ∀ c ∈ new, BuiltFrom (s.document.Quotable types) c) :
    s.Settles (Engine.edit fun d => d.splice e new) fun _ t => Redrawn u.names types s t := by
  obtain ⟨p, x, hm, -⟩ := h.marked he
  refine .edit_of_lax h.lax fun d' hd => ⟨?_, rfl, rfl⟩
  obtain ⟨qs, hs⟩ := hm.redrawsAt_splice h.tidy hnew hd
  exact .single hs

theorem settles_replaceStatement (h : Draws K u d S types s) (he : s.IsAt u S e) {new : List Node}
    (hnew : ∀ c ∈ new, BuiltFrom (s.document.Quotable types) c) :
    s.Settles (Engine.replaceStatement e new) fun _ t => Redrawn u.names types s t := by
  obtain ⟨p, x, hm, hl⟩ := h.marked he
  unfold Engine.replaceStatement
  refine (Settles.edit_of_lax (Q := fun _ v => ∃ d', s.document.insertAfter e new = .ok d' ∧
    v = { s with document := d' }) h.lax fun d' hd => ⟨d', hd, rfl⟩).bind ?_
  rintro _ _ ⟨d', hd, rfl⟩
  exact .edit_of_lax h.lax fun d'' hd' => ⟨hm.redraws_exchange h.tidy hl hnew hd hd', rfl, rfl⟩

/-! ### Selections of members -/

theorem settles_member (h : Draws K u d S types s) {ref : Node} (hr : s.IsAt u S ref)
    {o : Option Operand} (hb : b.IsTyped types)
    (ho : ∀ o', o = some o' → o'.TakenFrom (s.document.Quotable types)) :
    s.Settles (Engine.member b ref o) fun _ t => Redrawn u.names types s t := by
  unfold Engine.member
  split
  case h_2 => exact settles_warn s b ref _
  rename_i o f hfield
  obtain ⟨name, -, hfield⟩ := Option.bind_eq_some_iff.mp hfield
  have hft : Node.TakenFrom (s.document.Quotable types) f.type :=
    hb.quotable f (List.mem_of_find?_eq_some hfield)
  have hreplace := h.settles_replace hr (Operand.builtFrom_object (ho o rfl).subscript hft)
    (o.isInner_object f).func
  split
  case isFalse => exact settles_warn s b ref _
  refine (Keeps.settles_parentOf s ref).bind ?_
  rintro holder _ ⟨rfl, hholder⟩
  split
  · split
    · exact h.settles_replace hr hft.typenameOf rfl
    · exact hreplace
  · rename_i operand pointer hunary hpointer
    -- The operator in front of the selection goes with it.
    obtain ⟨m, rfl⟩ := unary?_eq_some hunary
    have hat := h.keeps.parent hr (parent?_eq hholder rfl).1 (isLink_mk rfl)
    rw [o.unary?_object f hpointer]
    exact h.settles_replace hat (.ident _) rfl
  · exact hreplace

/-! ### Assignments -/

theorem settles_operandOf? (h : Draws K u d S types s)
    (he : Node.TakenFrom (s.document.Quotable types) e) :
    s.Settles (Engine.operandOf? e) fun r t => s.Same t ∧
      ∀ p, r = some p → p.TakenFrom (s.document.Quotable types) := by
  unfold Engine.operandOf?
  dsimp only
  split
  · refine (settles_report (h.steady.settles_lookup h.tidy _ _)).bind fun r t hr =>
      .pure ⟨hr.1, ?_⟩
    intro p hp
    obtain ⟨b, hb, rfl⟩ := Option.map_eq_some_iff.mp hp
    exact (hr.2 b hb).quotable_operand _ he.subscript
  · exact .pure ⟨.refl s, by simp⟩

/-- The statements that were found, if any were, are built from some trees. -/
def AllFrom (R : Node → Prop) (r : Option (List Node)) : Prop :=
  ∀ stmts, r = some stmts → ∀ c ∈ stmts, BuiltFrom R c

theorem settles_pointerAssignment (h : Draws K u d S types s) (hb : b.IsTyped types)
    (hv : Node.TakenFrom (s.document.Quotable types) value) :
    s.Settles (Engine.pointerAssignment b value) fun r t =>
      s.Same t ∧ AllFrom (s.document.Quotable types) r := by
  unfold Engine.pointerAssignment
  refine (settles_report (Session.Sound.settles_isNull value)).bind fun x t ht => ?_
  obtain ⟨hst, -⟩ := ht
  cases x with
  | true =>
    refine .pure ⟨hst, fun stmts hs c hc => ?_⟩
    cases hs
    obtain ⟨name, -, rfl⟩ := List.mem_map.mp hc
    exact (BuiltFrom.ident name).assign hv.copy
  | false =>
    refine (settles_report ((h.same hst).keeps.sound.builtFrom_allocation hb.quotable
      hv)).bind fun r v hr => ?_
    obtain ⟨htv, hcalls⟩ := hr
    cases r with
    | none => exact .pure ⟨hst.trans htv, fun _ hs => nomatch hs⟩
    | some calls =>
      refine .pure ⟨hst.trans htv, fun stmts hs c hc => ?_⟩
      cases hs
      obtain ⟨i, hi, rfl⟩ := List.mem_iff_getElem.mp hc
      rw [List.getElem_zipWith]
      exact (BuiltFrom.ident _).assign (hcalls calls rfl _ (List.getElem_mem _))

theorem settles_aggregateAssignment (h : Draws K u d S types s) (hb : o.binding = b)
    (ho : o.TakenFrom (s.document.Quotable types)) (isTarget : Bool)
    (he : Node.TakenFrom (s.document.Quotable types) e) :
    s.Settles (Engine.aggregateAssignment b o isTarget e) fun r t =>
      s.Same t ∧ AllFrom (s.document.Quotable types) r := by
  unfold Engine.aggregateAssignment
  refine (h.settles_operandOf? he).bind fun r t hr => ?_
  obtain ⟨hst, hp⟩ := hr
  cases r with
  | none => exact .pure ⟨hst, fun _ hs => nomatch hs⟩
  | some p =>
    have hp := hp p rfl
    dsimp only
    split
    case isFalse => exact .pure ⟨hst, fun _ hs => nomatch hs⟩
    rename_i hsame
    have hsame : p.binding.aggregate.same o.binding.aggregate := by rw [hb]; exact hsame
    split
    · refine (builtFrom_assign t ho hp ?_).mono fun r v hv => ⟨hst.trans hv.1, hv.2⟩
      have hk : p.binding.aggregate.struct.key.isSome ∧
          p.binding.aggregate.struct.key = o.binding.aggregate.struct.key := by
        simpa [Aggregate.same, Node.same] using hsame
      simp [Aggregate.same, Node.same, ← hk.2, hk.1]
    · exact (builtFrom_assign t hp ho hsame).mono fun r v hv => ⟨hst.trans hv.1, hv.2⟩

theorem settles_putStatements (h : Draws K u d S types s) (b : Binding) (hs : s.IsAt u S statement)
    {stmts : Option (List Node)} (hnew : AllFrom (s.document.Quotable types) stmts) :
    s.Settles (match stmts with
      | some stmts => Engine.replaceStatement statement stmts
      | none => Engine.warn b statement .assignment) fun _ t => Redrawn u.names types s t := by
  cases stmts with
  | none => exact settles_warn s b statement _
  | some stmts => exact h.settles_replaceStatement hs (hnew stmts rfl)

theorem settles_putAssignment (h : Draws K u d S types s) (hb : o.binding = b)
    (ho : o.TakenFrom (s.document.Quotable types)) (hs : s.IsAt u S statement) (isTarget : Bool)
    (he : Node.TakenFrom (s.document.Quotable types) e) {byPointer : Option (List Node)}
    (hnew : AllFrom (s.document.Quotable types) byPointer) :
    s.Settles (match byPointer with
      | some stmts => do
        let stmts ← pure (some stmts)
        match stmts with
        | some stmts => Engine.replaceStatement statement stmts
        | none => Engine.warn b statement .assignment
      | none => do
        let stmts ← Engine.aggregateAssignment b o isTarget e
        match stmts with
        | some stmts => Engine.replaceStatement statement stmts
        | none => Engine.warn b statement .assignment) fun _ t => Redrawn u.names types s t := by
  cases byPointer with
  | some stmts => exact h.settles_putStatements b hs hnew
  | none =>
    refine (h.settles_aggregateAssignment hb ho isTarget he).bind fun stmts t ht => ?_
    exact ((h.same ht.1).settles_putStatements b (hs.same ht.1) (ht.1.document ▸ ht.2)).mono
      fun _ _ hv => (Redrawn.of_same ht.1).trans hv

theorem settles_assignment (h : Draws K u d S types s) (hb : o.binding = b)
    (ho : o.TakenFrom (s.document.Quotable types)) (hbt : b.IsTyped types)
    (hs : s.IsAt u S statement) (ht : Node.TakenFrom (s.document.Quotable types) target)
    (hv : Node.TakenFrom (s.document.Quotable types) value) :
    s.Settles (Engine.assignment b statement target value e o) fun _ t =>
      Redrawn u.names types s t := by
  unfold Engine.assignment
  refine (h.keeps.settles_isStatement hs).bind fun x t hx => ?_
  obtain ⟨hst, hx⟩ := hx
  cases x with
  | false => exact (settles_warn t b statement _).mono fun _ _ hv => (Redrawn.of_same hst).trans hv
  | true =>
    have hother : Node.TakenFrom (s.document.Quotable types)
        (if e.same target then value else target) := by
      split
      · exact hv
      · exact ht
    rw [if_pos rfl]
    dsimp only
    split
    · refine ((h.same hst).settles_pointerAssignment hbt (hst.document ▸ hv)).bind
        fun byPointer v hr => ?_
      have hsv := hst.trans hr.1
      exact ((h.same hsv).settles_putAssignment hb (hsv.document ▸ ho) (hs.same hsv) _
        (hsv.document ▸ hother) (hr.1.document ▸ hr.2)).mono
        fun _ _ hv => (Redrawn.of_same hsv).trans hv
    · have hnone : AllFrom (t.document.Quotable types) none := fun _ hs => nomatch hs
      exact ((h.same hst).settles_putAssignment hb (hst.document ▸ ho) (hs.same hst) _
        (hst.document ▸ hother) hnone).mono fun _ _ hv => (Redrawn.of_same hst).trans hv

/-! ### Calls -/

theorem settles_call (h : Draws K u d S types s) (hb : o.binding = b)
    (ho : o.TakenFrom (s.document.Quotable types)) (hbt : b.IsTyped types) (he : s.IsAt u S e)
    {list call : Node} (hl : s.document.parent? e = some list) (hlist : list.isA .exprList)
    (hc : s.document.parent? list = some call) (hcall : call.isA .funcCall) {args : List Node}
    (hargs : call.callArgs? = some args) :
    s.Settles (Engine.call b call args e o) fun _ t => Redrawn u.names types s t := by
  have hla := h.keeps.parent he hl (isLink_of_isA hlist rfl)
  have hca := h.keeps.parent hla hc (isLink_of_isA hcall rfl)
  obtain ⟨m, hslot⟩ := exists_mem_parts_of_callArgs? hargs
  have hitems : ∀ a ∈ args, Node.TakenFrom (s.document.Quotable types) a := fun a ha =>
    (takenFrom (mem_preorder_of_part (Document.of_parent? hc).1 hslot rfl)
      (isLink_mk rfl)).of_mem_parts ha
  unfold Engine.call
  refine .get_bind ?_
  dsimp only
  split
  · split
    · rename_i target value
      exact h.settles_assignment hb ho hbt hca (hitems target (by simp)) (hitems value (by simp))
    · exact fun hs => (h.lax.1 hs).elim
  · split
    · refine (h.keeps.settles_isStatement hca).bind fun alone t ht => ?_
      have hdraws := h.same ht.1
      split
      · refine (hdraws.settles_replaceStatement (hca.same ht.1) fun c hc => ?_).mono
          fun _ _ hv => (Redrawn.of_same ht.1).trans hv
        obtain ⟨v, -, rfl⟩ := List.mem_map.mp hc
        exact .call _ (by simpa using BuiltFrom.ident v)
      · exact (settles_warn t b call _).mono fun _ _ hv => (Redrawn.of_same ht.1).trans hv
    · split
      · refine h.settles_splice he fun c hc => ?_
        obtain ⟨f, hf, rfl⟩ := List.mem_map.mp hc
        exact Operand.builtFrom_expression ho.subscript (hbt.quotable f hf)
      · exact settles_warn s b e _

/-! ### Operands -/

theorem settles_operandUse (h : Draws K u d S types s) (hb : o.binding = b)
    (ho : o.TakenFrom (s.document.Quotable types)) (hbt : b.IsTyped types) (he : s.IsAt u S e) :
    s.Settles (Engine.operandUse b e o) fun _ t => Redrawn u.names types s t := by
  unfold Engine.operandUse
  refine (Keeps.settles_parentOf s e).bind ?_
  rintro context _ ⟨rfl, hcontext⟩
  refine (Keeps.settles_parentOf _ context).bind ?_
  rintro above _ ⟨rfl, habove⟩
  split
  · rename_i m op target value
    obtain ⟨hparent, hm⟩ := parent?_eq hcontext rfl
    have hparts : ∀ n ∈ [target, value], Node.TakenFrom (Document.Quotable _ types) n := fun n hn =>
      (takenFrom hm (isLink_mk rfl)).of_mem_parts hn
    split
    · exact h.settles_assignment hb ho hbt (h.keeps.parent he hparent (isLink_mk rfl))
        (hparts _ (by simp)) (hparts _ (by simp))
    · exact settles_warn _ b _ _
  · split
    · rename_i hlist
      obtain ⟨hlist, hcall⟩ : context.isA .exprList = true ∧ above.isA .funcCall = true := by
        simpa using hlist
      have hl := (parent?_eq hcontext (isPresent_of_isA hlist)).1
      have hc := (parent?_eq habove (isPresent_of_isA hcall)).1
      split
      · rename_i args hargs
        exact h.settles_call hb ho hbt he hl hlist hc hcall hargs
      · exact .throw (by decide)
    · refine (h.keeps.settles_testsPointer he context).bind fun x t ht => ?_
      have hwarn : t.Settles (Engine.warn b e .plain) fun _ v => Redrawn u.names types _ v :=
        (settles_warn t b e _).mono fun _ _ hv => (Redrawn.of_same ht).trans hv
      split
      · exact ((h.same ht).settles_replace (he.same ht) (.ident _) rfl).mono
          fun _ _ hv => (Redrawn.of_same ht).trans hv
      · split
        · have hdraws := h.same ht
          refine (settles_report (hdraws.steady.settles_classify hdraws.tidy context true)).bind
            fun r v hv => ?_
          have hsv := ht.trans hv.1
          have hwarn' : v.Settles (Engine.warn b e .plain) fun _ w => Redrawn u.names types _ w :=
            (settles_warn v b e _).mono fun _ _ hw => (Redrawn.of_same hsv).trans hw
          cases r with
          | none => exact hwarn'
          | some target =>
            dsimp only
            split
            · exact (settles_note _ _).mono fun _ _ hw => .of_same (hsv.trans hw)
            · exact hwarn'
        · exact hwarn

/-- The operand around an occurrence is made of what is there. -/
theorem takenFrom_occurrenceOperand (h : Draws K u d S types s) (hbt : b.IsTyped types)
    (hn : s.IsAt u S n) :
    s.Settles (Engine.occurrenceOperand b n) fun r _ =>
      r.2.TakenFrom (s.document.Quotable types) := by
  have hop : ∀ w, (b.operand w .absent).TakenFrom (s.document.Quotable types) := fun w =>
    hbt.quotable_operand w .absent
  unfold Engine.occurrenceOperand
  refine (Keeps.settles_parentOf s n).bind ?_
  rintro parent _ ⟨rfl, hparent⟩
  split
  · exact .pure (hop _)
  · exact .pure (hop _)
  · rename_i m array subscript
    have hsub : Node.TakenFrom (Document.Quotable _ types) subscript :=
      (takenFrom (parent?_eq hparent rfl).2 (isLink_mk rfl)).of_mem_parts
        (List.mem_cons_of_mem _ List.mem_cons_self)
    split
    · refine (Keeps.settles_parentOf _ _).bind ?_
      rintro above _ ⟨rfl, -⟩
      split
      · exact .pure (hbt.quotable_operand _ hsub)
      · exact .pure (hbt.quotable_operand _ hsub)
    · exact .pure (hop _)
  · exact .pure (hop _)

/-! ### Occurrences -/

omit [Discipline] in
theorem takenFrom_accessed (hbt : b.IsTyped types) {access : Access}
    (ho : b.accessed access = some o) : o.TakenFrom (s.document.Quotable types) := by
  unfold Binding.accessed at ho
  split at ho
  · cases ho
    exact hbt.quotable_operand _ .absent
  · cases ho
    exact hbt.quotable_operand _ .absent
  · cases ho
    unfold Binding.operand
    rw [if_neg (by simp)]
    exact ⟨hbt.quotable, BuiltFrom.intLiteral 0⟩
  · cases ho

/-- **The rewriting of an occurrence is a chain of edits around marked nodes.** -/
theorem settles_rewriteOccurrence (h : Draws K u d S types s) (hb : s.document.Knows b)
    (hbt : b.IsTyped types) (hn : s.IsAt u S n) :
    s.Settles (Engine.rewriteOccurrence b n) fun _ t => Redrawn u.names types s t := by
  have hbare := h.settles_operandUse (b.operand_spec none isTerm_absent).1
    (hbt.quotable_operand none .absent) hbt hn
  unfold Engine.rewriteOccurrence
  refine (Keeps.settles_parentOf s n).bind ?_
  rintro parent _ ⟨rfl, hparent⟩
  refine (Keeps.settles_parentOf _ parent).bind ?_
  rintro above _ ⟨rfl, habove⟩
  dsimp only
  split
  · split
    · exact h.settles_member (h.keeps.parent hn (parent?_eq hparent rfl).1 (isLink_mk rfl)) hbt
        fun o ho => takenFrom_accessed hbt ho
    · exact hbare
  · rename_i hselected
    split at hselected
    case h_2 => cases hselected
    have hat := h.keeps.parent hn (parent?_eq hparent rfl).1 (isLink_mk rfl)
    have hat' := h.keeps.parent hat (parent?_eq habove rfl).1 (isLink_mk rfl)
    split
    · exact h.settles_member hat' hbt fun o ho => takenFrom_accessed hbt ho
    · exact h.settles_member hat' hbt fun o ho => takenFrom_accessed hbt ho
    · exact settles_warn _ b _ _
  · rename_i m array subscript hselected
    split at hselected
    case h_2 => cases hselected
    obtain ⟨hp, hm⟩ := parent?_eq hparent rfl
    have hat := h.keeps.parent hn hp (isLink_mk rfl)
    have hat' := h.keeps.parent hat (parent?_eq habove rfl).1 (isLink_mk rfl)
    split
    · refine h.settles_member hat' hbt fun o ho => ?_
      cases ho
      exact hbt.quotable_operand _ ((takenFrom hm (isLink_mk rfl)).of_mem_parts
        (List.mem_cons_of_mem _ List.mem_cons_self))
    · exact hbare
  · refine ((h.keeps.settles_occurrenceOperand hb hn).and
      (h.takenFrom_occurrenceOperand hbt hn)).bind
      ?_
    rintro r _ ⟨⟨rfl, he, ho⟩, hr⟩
    exact h.settles_operandUse ho.of hr hbt he

/-- After edits around uses of the names the others can be rewritten still. -/
theorem redrawn (h : Draws K u d S types s) (hk : Keeps u d S t) (hr : Redrawn u.names types s t) :
    Draws K u d S types t where
  lax := h.lax
  keeps := hk
  start := h.start
  steady := h.steady.redrawn h.tidy hr fun T hT => hk.continues.alive T (h.start T hT)

theorem settles_rewriteAll (h : Draws K u d S types s) (hb : d.Knows b) (hbt : b.IsTyped types)
    {ns : List Node} {name : String} (hu : name ∈ u.names)
    (hn : ∀ n ∈ ns, n ∈ preorderAll d.trees ∧ n.form? = some (.ident name) ∧
      (n ∈ d.root.preorder → n ∈ preorderAll S.parts)) :
    s.Settles (Engine.rewriteAll b ns) fun _ t => Redrawn u.names types s t := by
  induction ns generalizing s with
  | nil => exact .pure (.of_same (.refl s))
  | cons n ns ih =>
    have hns := fun m hm => hn m (List.mem_cons_of_mem _ hm)
    obtain ⟨hnm, hnf, hni⟩ := hn n List.mem_cons_self
    unfold Engine.rewriteAll
    refine .get_bind ?_
    split
    · rename_i ha
      have hat := h.keeps.isAt hnm hnf hu hni ha
      have hsound := h.keeps.sound.document
      have hknows := (hb.continues h.keeps.continues hsound).refresh hsound
      refine Settles.get_bind ?_
      refine ((h.keeps.settles_rewriteOccurrence hknows hat).and (h.settles_rewriteOccurrence hknows
        (h.steady.isTyped_refresh h.tidy hbt) hat)).bind fun _ t ht => ?_
      exact (ih (h.redrawn ht.1 ht.2) hns).mono fun _ _ hv => ht.2.trans hv
    · exact ih h hns

end Draws

/-- **The rewriting of the uses of a binding is a chain of edits around marked nodes.** -/
theorem Within.redraws_rewrite (h : Within u s) (hl : Discipline.IsLax)
    (hb : s.document.Knows b) (hu : u.Covers b) (hs : Steady K u.names types s)
    (hbt : b.IsTyped types) (hd : b.isParam = false → s.document.attached b.decl) :
    s.Settles (Engine.rewrite b) fun _ t => Redrawn u.names types s t := by
  obtain ⟨S, hS, hoccur, -⟩ := h.exists_keeps hb hd
  have hdraws : Draws K u s.document S types s := ⟨hl, hS, fun T hT => (hs.types T hT).1, hs⟩
  unfold Engine.rewrite
  refine .get_bind (.get_bind ((settles_note _ _).bind fun _ t ht => ?_))
  exact ((hdraws.same ht).settles_rewriteAll (hb.refresh h.sound.document)
    (hs.isTyped_refresh hdraws.tidy hbt) hu.name hoccur).mono fun _ _ hv =>
      (Redrawn.of_same ht).trans hv

end Session

end Fieldwise
