import Fieldwise.Proofs.Session.Keeping
import Fieldwise.Proofs.Tree.Path

/-!
# Rewriting the uses of a binding

Whatever a use of a binding looks like, its rewriting breaks no assertion and keeps the declarations
of the scope (`Session.Keeps.settles_rewriteOccurrence`). The uses were found before the first of
them was rewritten, and an earlier rewriting may have taken out a later one, copied it or put it
into a block: one that is still attached is still inside the scope. So the invariant goes through
all of them (`Session.Keeps.settles_rewriteAll`).
-/

namespace Fieldwise

open Node

variable {b : Binding} {f : Field}

namespace Node

variable {n e : Node}

theorem unary?_eq_some {op : UnaryOp} (h : n.unary? = some (op, e)) :
    ∃ m, n = mk m (.unaryOp op) [e] := by
  unfold unary? at h
  split at h
  · cases h
    exact ⟨_, rfl⟩
  · cases h

theorem exists_of_isA_exprList (h : n.isA .exprList) : ∃ m ps, n = mk m .exprList ps := by
  cases n with
  | absent => cases h
  | mk m f ps =>
    cases f with
    | exprList => exact ⟨m, ps, rfl⟩
    | _ => cases h

end Node

/-- What is dereferenced as the field of an object is the variable for it. -/
theorem Operand.unary?_object (o : Operand) (f : Field) {p : Node}
    (h : (o.object f).unary? = some (.deref, p)) : p = o.fieldIdent f := by
  have hident : (o.fieldIdent f).unary? = none := rfl
  unfold object at h
  split at h
  · rw [hident] at h
    cases h
  · split at h
    · rw [hident] at h
      cases h
    · simpa [unary, build, Node.unary?] using h.symm
  · unfold element at h
    split at h <;> cases h

theorem Binding.isInner_headD_fieldNames (b : Binding) :
    (ident (b.fieldNames.headD "")).IsInner := by
  refine isInner_ident fun h => ?_
  unfold fieldNames at h
  cases hf : b.aggregate.fields with
  | nil =>
    rw [hf] at h
    have h : "" = "operator=" := h
    exact absurd h (by decide)
  | cons f fs =>
    rw [hf] at h
    exact b.fieldName_ne f h

namespace Session

variable {u : Subject} {d : Document} {S : Node} {s t : Session}
  {e n P target value statement : Node}
  {o : Operand}

/-- The occurrences of a binding are names in its scope. -/
theorem mem_occurrences (hn : n ∈ s.occurrences b) :
    n ∈ (if b.isParam then b.scope.child .body else b.scope).preorder ∧
      n.form? = some (.ident b.name) := by
  unfold occurrences Document.references at hn
  obtain ⟨hn, hform⟩ := List.mem_filter.mp hn
  obtain ⟨hform, -⟩ : n.form? = some (.ident b.name) ∧ _ := by simpa using hform
  exact ⟨mem_preorder_of_mem_search hn, hform⟩

variable [Discipline]

/-- An operand of a binding that the session knows. -/
structure Uses (s : Session) (b : Binding) (o : Operand) : Prop extends
    o.IsSound s.document where
  of : o.binding = b

theorem Uses.same (h : s.Uses b o) (hs : s.Same t) : t.Uses b o where
  binding := hs.document ▸ h.binding
  subscript := h.subscript
  of := h.of

theorem uses_operand (hb : s.document.Knows b) (w : Option Wrapper) {subscript : Node}
    (h : subscript.IsTerm) : s.Uses b (b.operand w subscript) :=
  ⟨b.isSound_operand hb w h, (b.operand_spec w h).1⟩

theorem uses_bare (hb : s.document.Knows b) : s.Uses b b.bare := uses_operand hb none isTerm_absent

theorem uses_accessed (hb : s.document.Knows b) {access : Access}
    (h : b.accessed access = some o) : s.Uses b o := by
  unfold Binding.accessed at h
  split at h
  · cases h
    exact uses_bare hb
  · cases h
    exact uses_operand hb _ isTerm_absent
  · cases h
    exact uses_operand hb _ (isNewTerm_intLiteral 0).isTerm
  · cases h

theorem isTerm_of_mem_parts (h : s.Sound) (hP : P ∈ s.document.root.preorder)
    (hf : ∀ f, P.form? = some f → f.holdsTerms) (hn : n ∈ P.parts) : n.IsTerm := by
  have hreg := h.document.regular.of_mem_preorderAll (Document.mem_trees_of_root hP)
  cases P with
  | absent => cases hn
  | mk m f ps => exact hreg.isTerm_of_mem (hf f rfl) hn

namespace Keeps

theorem settles_warn (h : Keeps u d S s) (b : Binding) (n : Node) (usage : Usage) :
    s.Settles (Engine.warn b n usage) fun _ t => Keeps u d S t :=
  (settles_note _ _).mono fun _ _ ht => h.same ht

/-! ### Selections of members -/

/-- The selection of a member gives way to the variable for it. -/
theorem settles_member (h : Keeps u d S s) {ref : Node} (hr : s.IsAt u S ref) {o : Option Operand}
    (ho : ∀ o', o = some o' → s.Uses b o') :
    s.Settles (Engine.member b ref o) fun _ t => Keeps u d S t := by
  unfold Engine.member
  split
  case h_2 => exact h.settles_warn b ref _
  rename_i o f hfield
  have ho := ho o rfl
  obtain ⟨name, -, hfield⟩ := Option.bind_eq_some_iff.mp hfield
  have hft : f.type.IsTerm :=
    (ho.of ▸ ho.binding).isTerm_field (List.mem_of_find?_eq_some hfield)
  have hnew := o.isNewTerm_object ho.subscript hft
  have hreplace := h.settles_replace hr hnew (o.isInner_object f)
  split
  case isFalse => exact h.settles_warn b ref _
  refine (settles_parentOf s ref).bind ?_
  rintro holder _ ⟨rfl, hholder⟩
  split
  · split
    · exact h.settles_replace hr hft.typenameOf (isInner_typenameOf _)
    · exact hreplace
  · rename_i operand pointer hunary hpointer
    -- The operator in front of the selection goes with it.
    obtain ⟨m, rfl⟩ := unary?_eq_some hunary
    have hat := h.parent hr (parent?_eq hholder rfl).1
      (isLink_mk rfl)
    rw [o.unary?_object f hpointer]
    exact h.settles_replace hat (isNewTerm_ident _) (o.isInner_fieldIdent f)
  · exact hreplace

/-! ### Assignments -/

theorem settles_operandOf? (h : Keeps u d S s) (he : e.IsTerm) :
    s.Settles (Engine.operandOf? e) fun r t => s.Same t ∧
      ∀ p, r = some p → p.IsSound s.document := by
  unfold Engine.operandOf?
  dsimp only
  split
  · refine (settles_report (h.sound.settles_lookup _ _)).bind fun r t hr => .pure ⟨hr.1, ?_⟩
    intro p hp
    obtain ⟨b, hb, rfl⟩ := Option.map_eq_some_iff.mp hp
    exact b.isSound_operand (hr.2 b hb) _ he.subscript
  · exact .pure ⟨.refl s, by simp⟩

/-- What the assignment of a new value to a pointer becomes. -/
theorem settles_pointerAssignment (h : Keeps u d S s) (hb : s.document.Knows b)
    (hv : value.IsTerm) : s.Settles (Engine.pointerAssignment b value) fun r t =>
      s.Same t ∧ AllNew r := by
  unfold Engine.pointerAssignment
  refine (settles_report (Session.Sound.settles_isNull value)).bind fun x t ht => ?_
  obtain ⟨hst, -⟩ := ht
  cases x with
  | true =>
    refine .pure ⟨hst, fun stmts hs => ?_⟩
    cases hs
    refine ⟨by simpa [Binding.setAll, Binding.fieldNames] using hb.nonempty, fun c hc => ?_⟩
    obtain ⟨name, -, rfl⟩ := List.mem_map.mp hc
    exact ⟨(isNewTerm_ident name).assign hv.copy, rfl⟩
  | false =>
    refine (settles_report ((h.same hst).sound.settles_allocation
      (hst.document ▸ hb : t.document.Knows b) hv)).bind fun r v hr => ?_
    obtain ⟨htv, hcalls⟩ := hr
    cases r with
    | none => exact .pure ⟨hst.trans htv, allNew_none⟩
    | some calls =>
      obtain ⟨hne, hcalls⟩ := hcalls calls rfl
      refine .pure ⟨hst.trans htv, fun stmts hs => ?_⟩
      cases hs
      refine ⟨by simpa [List.zipWith_eq_nil_iff, Binding.fieldNames] using ⟨hb.nonempty, hne⟩,
        fun c hc => ?_⟩
      obtain ⟨i, hi, rfl⟩ := List.mem_iff_getElem.mp hc
      rw [List.getElem_zipWith]
      exact ⟨(isNewTerm_ident _).assign (hcalls _ (List.getElem_mem _)), rfl⟩

/-- What an assignment between two operands becomes. Both are of one aggregate. -/
theorem settles_aggregateAssignment (h : Keeps u d S s) (ho : s.Uses b o) (isTarget : Bool)
    (he : e.IsTerm) : s.Settles (Engine.aggregateAssignment b o isTarget e) fun r t =>
      s.Same t ∧ AllNew r := by
  unfold Engine.aggregateAssignment
  refine (h.settles_operandOf? he).bind fun r t hr => ?_
  obtain ⟨hst, hp⟩ := hr
  cases r with
  | none => exact .pure ⟨hst, allNew_none⟩
  | some p =>
    have hp := hp p rfl
    have ht := (h.same hst).sound
    dsimp only
    split
    case isFalse => exact .pure ⟨hst, allNew_none⟩
    rename_i hsame
    have hsame : p.binding.aggregate.same o.binding.aggregate := by rw [ho.of]; exact hsame
    split
    · refine (ht.settles_assign ho.toIsSound hp ?_).mono fun r v hv => ⟨hst.trans hv.1, hv.2⟩
      have hk : p.binding.aggregate.struct.key.isSome ∧
          p.binding.aggregate.struct.key = o.binding.aggregate.struct.key := by
        simpa [Aggregate.same, Node.same] using hsame
      simp [Aggregate.same, Node.same, ← hk.2, hk.1]
    · exact (ht.settles_assign hp ho.toIsSound hsame).mono fun r v hv => ⟨hst.trans hv.1, hv.2⟩

/-- The statements that an assignment becomes, if there are any, take its place. -/
theorem settles_putStatements (h : Keeps u d S s) (b : Binding) (hs : s.IsAt u S statement)
    (hst : s.document.isStatement statement = .ok true) {stmts : Option (List Node)}
    (hnew : AllNew stmts) :
    s.Settles (match stmts with
      | some stmts => Engine.replaceStatement statement stmts
      | none => Engine.warn b statement .assignment) fun _ t => Keeps u d S t := by
  cases stmts with
  | none => exact h.settles_warn b statement _
  | some stmts =>
    exact h.settles_replaceStatement hs hst fun c hc => ((hnew stmts rfl).2 c hc).1

/-- Unless a pointer gets a new value, one of the operands is assigned to the other. -/
theorem settles_putAssignment (h : Keeps u d S s) (ho : s.Uses b o) (hs : s.IsAt u S statement)
    (hst : s.document.isStatement statement = .ok true) (isTarget : Bool) (he : e.IsTerm)
    {byPointer : Option (List Node)} (hnew : AllNew byPointer) :
    s.Settles (match byPointer with
      | some stmts => do
        let stmts ← pure (some stmts)
        match stmts with
        | some stmts => Engine.replaceStatement statement stmts
        | none => Engine.warn b statement .assignment
      | none => do
        let stmts ← Engine.aggregateAssignment b o isTarget e
        match stmts with
        | some stmts => Engine.replaceStatement statement stmts
        | none => Engine.warn b statement .assignment) fun _ t => Keeps u d S t := by
  cases byPointer with
  | some stmts => exact h.settles_putStatements b hs hst hnew
  | none =>
    refine (h.settles_aggregateAssignment ho isTarget he).bind fun stmts t ht => ?_
    exact (h.same ht.1).settles_putStatements b (hs.same ht.1) (ht.1.document ▸ hst) ht.2

/-- An assignment gives way to one statement for each field, if it can. -/
theorem settles_assignment (h : Keeps u d S s) (ho : s.Uses b o) (hs : s.IsAt u S statement)
    (ht : target.IsTerm) (hv : value.IsTerm) :
    s.Settles (Engine.assignment b statement target value e o) fun _ t => Keeps u d S t := by
  unfold Engine.assignment
  refine (h.settles_isStatement hs).bind fun x t hx => ?_
  obtain ⟨hst, hx⟩ := hx
  cases x with
  | false => exact (h.same hst).settles_warn b statement _
  | true =>
    have hother : (if e.same target then value else target).IsTerm := by
      split
      · exact hv
      · exact ht
    rw [if_pos rfl]
    dsimp only
    split
    · refine ((h.same hst).settles_pointerAssignment (hst.document ▸ ho.of ▸ ho.binding) hv).bind
        fun byPointer v hv => ?_
      have htv := hst.trans hv.1
      exact (h.same htv).settles_putAssignment (ho.same htv) (hs.same htv) (hv.1.document ▸ hx) _
        hother hv.2
    · exact (h.same hst).settles_putAssignment (ho.same hst) (hs.same hst) hx _ hother allNew_none

/-! ### Calls -/

/-- A call that an operand is an argument of: an assignment, a release, or any other call. -/
theorem settles_call (h : Keeps u d S s) (ho : s.Uses b o) (he : s.IsAt u S e) {list call : Node}
    (hl : s.document.parent? e = some list) (hlist : list.isA .exprList)
    (hc : s.document.parent? list = some call) (hcall : call.isA .funcCall) {args : List Node}
    (hargs : call.callArgs? = some args) :
    s.Settles (Engine.call b call args e o) fun _ t => Keeps u d S t := by
  have hlm := (Document.of_parent? hl).1
  obtain ⟨hcm, list', hlc, hlk, -⟩ := Document.of_parent? hc
  have hla := h.parent he hl (isLink_of_isA hlist rfl)
  have hca := h.parent hla hc (isLink_of_isA hcall rfl)
  obtain rfl : list' = list := by
    obtain ⟨k, hk⟩ := h.sound.document.exists_key hlm
    exact h.sound.document.eq_of_key
      (mem_preorder_of_part hcm hlc (isPresent_of_key (hlk.trans hk))) hlm hlk
  -- The arguments are not in the list itself where that is the callee.
  obtain ⟨m, hslot⟩ := exists_mem_parts_of_callArgs? hargs
  have hitems : ∀ a ∈ args, a.IsTerm := fun a ha =>
    isTerm_of_mem_parts h.sound (mem_preorder_of_part hcm hslot rfl)
      (fun f hf => by cases hf; exact fun _ => rfl) ha
  unfold Engine.call
  refine .get_bind ?_
  dsimp only
  split
  · rename_i hname
    split
    · rename_i target value
      exact h.settles_assignment ho hca (hitems target (by simp)) (hitems value (by simp))
    · rename_i hne
      intro hs
      -- By the discipline such a call has got two arguments.
      have hlen : args.length = 2 := (h.sound.document.regular _
        (Document.mem_trees_of_root hcm)).call hs hname _ hslot args.length rfl
      match args, hlen, hne with
      | [target, value], _, hne => exact (hne target value rfl).elim
  · rename_i hname
    split
    · rename_i name hfilter _
      have hcn : call.callName? = some name := (Option.filter_eq_some_iff.mp hfilter).1
      refine (h.settles_isStatement hca).bind fun alone t ht => ?_
      have hkeeps := h.same ht.1
      split
      · rename_i hcond
        simp only [Bool.and_eq_true] at hcond
        refine hkeeps.settles_replaceStatement (hca.same ht.1) (hcond.2 ▸ ht.2) fun c hc => ?_
        obtain ⟨v, -, rfl⟩ := List.mem_map.mp hc
        refine isNewTerm_call (fun _ hn => hname ?_) (by simpa using isNewTerm_ident v)
        rw [hcn, hn]
      · exact hkeeps.settles_warn b call _
    · split
      · refine h.settles_splice he hl hlist (fun q hq hqc hn => hname ?_) fun c hc => ?_
        · have hqk := h.sound.document.woven.sole q hq call (Document.mem_trees_of_root hcm) _
            hqc _ hlc (isSole_of_isLink (isLink_of_isA hlist rfl)) rfl
          rwa [← h.sound.document.woven.eq_of_key hq (Document.mem_trees_of_root hcm) hqk]
        · obtain ⟨f, hf, rfl⟩ := List.mem_map.mp hc
          exact o.isNewTerm_expression ho.subscript
            ((ho.of ▸ ho.binding : s.document.Knows b).isTerm_field hf)
      · exact h.settles_warn b e _

/-! ### Operands -/

/-- Whether an expression is tested can be said. -/
theorem settles_testsPointer (h : Keeps u d S s) (he : s.IsAt u S e) (context : Node) :
    s.Settles (Engine.testsPointer e context o) fun _ t => s.Same t := by
  unfold Engine.testsPointer
  split
  case isFalse => exact .pure (.refl s)
  unfold Engine.tested
  split
  · split
    · exact (settles_report (Session.Sound.settles_isNull _)).mono fun _ _ ht => ht.1
    · exact .pure (.refl s)
  · exact .pure (.refl s)
  · obtain ⟨p, x, hs, -⟩ := h.stands he
    refine (settles_report (P := fun _ => True) ?_).bind fun _ t ht => .pure ht.1
    rw [hs.place]
    exact .of trivial

/-- What a use becomes depends on what is around it. -/
theorem settles_operandUse (h : Keeps u d S s) (ho : s.Uses b o) (he : s.IsAt u S e) :
    s.Settles (Engine.operandUse b e o) fun _ t => Keeps u d S t := by
  unfold Engine.operandUse
  refine (settles_parentOf s e).bind ?_
  rintro context _ ⟨rfl, hcontext⟩
  refine (settles_parentOf _ context).bind ?_
  rintro above _ ⟨rfl, habove⟩
  split
  · rename_i m op target value
    obtain ⟨hparent, hm⟩ := parent?_eq hcontext rfl
    have hterm : ∀ n ∈ [target, value], n.IsTerm := fun n hn =>
      isTerm_of_mem_parts h.sound hm (fun f hf => by cases hf; exact fun _ => rfl) hn
    split
    · exact h.settles_assignment ho (h.parent he hparent (isLink_mk rfl)) (hterm _ (by simp))
        (hterm _ (by simp))
    · exact h.settles_warn b _ _
  · split
    · rename_i hlist
      obtain ⟨hlist, hcall⟩ : context.isA .exprList = true ∧ above.isA .funcCall = true := by
        simpa using hlist
      have hl := (parent?_eq hcontext (isPresent_of_isSole (isSole_of_isLink
        (isLink_of_isA hlist rfl)))).1
      have hc := (parent?_eq habove (isPresent_of_isSole (isSole_of_isLink
        (isLink_of_isA hcall rfl)))).1
      split
      · rename_i args hargs
        exact h.settles_call ho he hl hlist hc hcall hargs
      · exact .throw (by decide)
    · refine (h.settles_testsPointer he context).bind fun x t ht => ?_
      have hkeeps := h.same ht
      split
      · exact hkeeps.settles_replace (he.same ht) (isNewTerm_ident _) b.isInner_headD_fieldNames
      · split
        · rename_i hdecl
          obtain ⟨hdecl, -⟩ : context.isA .decl = true ∧ (context.child .init).same e = true := by
            simpa using hdecl
          have hp : context.isPresent := by
            cases context with
            | absent => cases hdecl
            | mk => rfl
          have hm := (parent?_eq hcontext hp).2
          refine (settles_report (hkeeps.sound.settles_classify (ht.document ▸ hm) hdecl true)).bind
            fun r u hu => ?_
          have hkeeps' := hkeeps.same hu.1
          cases r with
          | none => exact hkeeps'.settles_warn b e _
          | some target =>
            dsimp only
            split
            · exact (settles_note _ _).mono fun _ _ hv => hkeeps'.same hv
            · exact hkeeps'.settles_warn b e _
        · exact hkeeps.settles_warn b e _

/-- The operand around an occurrence is in the scope with it. -/
theorem settles_occurrenceOperand (h : Keeps u d S s) (hb : s.document.Knows b)
    (hn : s.IsAt u S n) :
    s.Settles (Engine.occurrenceOperand b n) fun r t => t = s ∧ s.IsAt u S r.1 ∧ s.Uses b r.2 := by
  unfold Engine.occurrenceOperand
  refine (settles_parentOf s n).bind ?_
  rintro parent _ ⟨rfl, hparent⟩
  split
  · have hat := h.parent hn (parent?_eq hparent rfl).1 (isLink_mk rfl)
    exact .pure ⟨rfl, hat, uses_operand hb _ isTerm_absent⟩
  · have hat := h.parent hn (parent?_eq hparent rfl).1 (isLink_mk rfl)
    exact .pure ⟨rfl, hat, uses_operand hb _ isTerm_absent⟩
  · rename_i m array subscript
    obtain ⟨hp, hm⟩ := parent?_eq hparent rfl
    have hat := h.parent hn hp (isLink_mk rfl)
    have hsub : subscript.IsTerm := isTerm_of_mem_parts h.sound hm
      (fun f hf => by cases hf; exact fun _ => rfl) (List.mem_cons_of_mem _ List.mem_cons_self)
    split
    · refine (settles_parentOf _ _).bind ?_
      rintro above _ ⟨rfl, habove⟩
      split
      · rename_i operand hunary
        obtain ⟨m', rfl⟩ := unary?_eq_some hunary
        exact .pure ⟨rfl, h.parent hat (parent?_eq habove rfl).1 (isLink_mk rfl),
          uses_operand hb _ hsub⟩
      · exact .pure ⟨rfl, hat, uses_operand hb _ hsub⟩
    · exact .pure ⟨rfl, hn, uses_bare hb⟩
  · exact .pure ⟨rfl, hn, uses_bare hb⟩

/-! ### Occurrences -/

/-- **An occurrence in the scope is rewritten.** -/
theorem settles_rewriteOccurrence (h : Keeps u d S s) (hb : s.document.Knows b)
    (hn : s.IsAt u S n) :
    s.Settles (Engine.rewriteOccurrence b n) fun _ t => Keeps u d S t := by
  have hbare := h.settles_operandUse (uses_bare hb) hn
  unfold Engine.rewriteOccurrence
  refine (settles_parentOf s n).bind ?_
  rintro parent _ ⟨rfl, hparent⟩
  refine (settles_parentOf _ parent).bind ?_
  rintro above _ ⟨rfl, habove⟩
  dsimp only
  split
  · split
    · exact h.settles_member (h.parent hn (parent?_eq hparent rfl).1 (isLink_mk rfl))
        fun o ho => uses_accessed hb ho
    · exact hbare
  · rename_i hselected
    split at hselected
    case h_2 => cases hselected
    have hat := h.parent hn (parent?_eq hparent rfl).1 (isLink_mk rfl)
    have hat' := h.parent hat (parent?_eq habove rfl).1 (isLink_mk rfl)
    split
    · exact h.settles_member hat' fun o ho => uses_accessed hb ho
    · exact h.settles_member hat' fun o ho => uses_accessed hb ho
    · exact h.settles_warn b _ _
  · rename_i m array subscript hselected
    split at hselected
    case h_2 => cases hselected
    obtain ⟨hp, hm⟩ := parent?_eq hparent rfl
    have hat := h.parent hn hp (isLink_mk rfl)
    have hat' := h.parent hat (parent?_eq habove rfl).1 (isLink_mk rfl)
    have hsub : subscript.IsTerm := isTerm_of_mem_parts h.sound hm
      (fun f hf => by cases hf; exact fun _ => rfl) (List.mem_cons_of_mem _ List.mem_cons_self)
    split
    · refine h.settles_member hat' fun o ho => ?_
      cases ho
      exact uses_operand hb _ hsub
    · exact hbare
  · refine (h.settles_occurrenceOperand hb hn).bind ?_
    rintro r _ ⟨rfl, he, ho⟩
    exact h.settles_operandUse ho he

/-- An occurrence that is still attached is in the scope still. -/
theorem isAt (h : Keeps u d S s) {name : String} (hn : n ∈ preorderAll d.trees)
    (hf : n.form? = some (.ident name)) (hu : name ∈ u.names)
    (hi : n ∈ d.root.preorder → n ∈ preorderAll S.parts) (ha : s.document.attached n) :
    s.IsAt u S n := by
  obtain ⟨x, hx, hk, -⟩ := Document.attached_iff.mp ha
  have hold : IsOld d.next x := isOld_of_key (h.start.bound n hn) hk.symm
  obtain ⟨x₁, hx₁, hk₁, hf₁, -⟩ := h.continues.forms x (Document.mem_trees_of_root hx) hold
  obtain rfl : x₁ = n := h.start.woven.eq_of_key hx₁ hn (hk₁.trans hk)
  obtain ⟨x₀, hx₀, hk₀, -⟩ := h.continues.node x hx hold
  obtain rfl : x₀ = x₁ := h.start.woven.eq_of_key (Document.mem_trees_of_root hx₀) hn
    (hk₀.trans hk)
  have hxf : x.form? = some (.ident name) := hf₁.symm.trans hf
  have hxm : u.mentions x := by simp [Subject.mentions, identName?, hxf, hu]
  exact ⟨⟨x, hx, hk, Subject.reaches_of_mentions hxm⟩, x₀, hi hx₀, rfl⟩

/-- **All occurrences in the scope are rewritten**, or passed over where they are gone. -/
theorem settles_rewriteAll (h : Keeps u d S s) (hb : d.Knows b) {ns : List Node} {name : String}
    (hu : name ∈ u.names)
    (hn : ∀ n ∈ ns, n ∈ preorderAll d.trees ∧ n.form? = some (.ident name) ∧
      (n ∈ d.root.preorder → n ∈ preorderAll S.parts)) :
    s.Settles (Engine.rewriteAll b ns) fun _ t => Keeps u d S t := by
  induction ns generalizing s with
  | nil => exact .pure h
  | cons n ns ih =>
    have hns := fun m hm => hn m (List.mem_cons_of_mem _ hm)
    obtain ⟨hnm, hnf, hni⟩ := hn n List.mem_cons_self
    unfold Engine.rewriteAll
    refine .get_bind ?_
    split
    · rename_i ha
      have hat := h.isAt hnm hnf hu hni ha
      have hknows := (hb.continues h.continues h.sound.document).refresh h.sound.document
      refine Settles.get_bind ?_
      exact (h.settles_rewriteOccurrence hknows hat).bind fun _ t ht => ih ht hns
    · exact ih h hns

end Keeps

/-- The scope of a variable that is declared in the program is above its declaration. -/
theorem exists_scope (h : s.Sound) (hb : s.document.Knows b) (hp : b.isParam = false)
    (hd : s.document.attached b.decl) :
    s.document.current b.scope ∈ s.document.root.preorder ∧
      ∃ D ∈ (s.document.current b.scope).parts, D.key = b.decl.key := by
  obtain ⟨D, hD, hk, -⟩ := Document.attached_iff.mp hd
  have hroot : b.decl.key ≠ s.document.root.key := fun hr => by
    have := h.document.eq_of_key hD h.document.root_mem (hk.trans hr)
    have hcls := hb.decl.cls (Document.mem_trees_of_root hD) hk
    have hfile := h.document.file
    rw [← this, isA, hcls, beq_iff_eq] at hfile
    have hdecl := hb.isDecl
    rw [isA, hfile] at hdecl
    cases hdecl
  obtain ⟨P, hP⟩ := h.document.exists_parent? hD hk hroot
  obtain ⟨hPm, c, hc, hck, -⟩ := Document.of_parent? hP
  rw [h.document.current_eq (Document.mem_trees_of_root hPm) (hb.home hp P hPm c hc hck)]
  exact ⟨hPm, c, hc, hck⟩

/-- A link is below the top of the file. -/
theorem Sound.mem_below_root (h : s.Sound) (hn : n ∈ s.document.root.preorder) (hl : n.isLink) :
    n ∈ preorderAll s.document.root.parts := by
  rcases (mem_preorder_iff (isPresent_of_preorder hn)).mp hn with rfl | hn
  · have hfile := h.document.file
    rw [(isBlock_of_isLink hl).2.2.2] at hfile
    cases hfile
  · exact hn

/-- The declarations at the top of the file are there when nothing was done yet. -/
theorem Within.keeps_root (h : Within u s) : Keeps u s.document s.document.root s := by
  have hcls : s.document.root.cls? = some .file := by simpa [isA] using h.sound.document.file
  exact .refl h h.sound.document.root_mem (.inr (by simp [isBlock, hcls, Class.isBlock]))

/-- The uses of a binding are below a node in which all declarations stay: the scope of a variable,
or the file. Parameters are replaced before their uses are rewritten, and so nothing else is kept
for them. -/
theorem Within.exists_keeps (h : Within u s) (hb : s.document.Knows b)
    (hd : b.isParam = false → s.document.attached b.decl) :
    ∃ S, Keeps u s.document S s ∧
      (∀ n ∈ s.occurrences (b.refresh s.document), n ∈ preorderAll s.document.trees ∧
        n.form? = some (.ident b.name) ∧ (n ∈ s.document.root.preorder → n ∈ preorderAll S.parts)) ∧
      (b.isParam = false → ∃ D ∈ S.parts, D.key = b.decl.key) := by
  have hds := h.sound.document
  have hrefresh := hb.refresh hds
  have hform : ∀ {n}, n ∈ s.occurrences (b.refresh s.document) →
      n.form? = some (.ident b.name) := fun hn => hb.name_refresh ▸ (mem_occurrences hn).2
  have hlink : ∀ {n}, n ∈ s.occurrences (b.refresh s.document) → n.isLink := fun hn =>
    isLink_of_isA (c := .ident) (by simp [isA, cls?, hform hn, Form.cls]) rfl
  obtain ⟨x, hx, hxk⟩ := hb.there
  have hscope : s.document.current b.scope ∈ preorderAll s.document.trees := by
    rw [hds.current_eq hx hxk]
    exact hx
  have hbelow : ∀ {n}, n ∈ s.occurrences (b.refresh s.document) →
      n ∈ (s.document.current b.scope).preorder := fun hn => by
    obtain ⟨hn, -⟩ := mem_occurrences hn
    split at hn
    · exact mem_preorder_trans hn (child_mem_preorder (isPresent_of_preorder hn))
    · exact hn
  cases hp : b.isParam with
  | true =>
    exact ⟨s.document.root, h.keeps_root, fun n hn => ⟨mem_preorderAll_trans (hbelow hn) hscope,
      hform hn, fun hnr => h.sound.mem_below_root hnr (hlink hn)⟩, fun h => by cases h⟩
  | false =>
    obtain ⟨hSm, D, hD, hDk⟩ := exists_scope h.sound hb hp (hd hp)
    refine ⟨s.document.current b.scope, .refl h hSm ?_, fun n hn => ⟨?_, hform hn, fun _ => ?_⟩,
      fun _ => ⟨D, hD, hDk⟩⟩
    · exact hrefresh.block
    · exact mem_preorderAll_trans (hbelow hn) hscope
    · rcases (mem_preorder_iff (isPresent_of_preorder (hbelow hn))).mp (hbelow hn) with hn' | hn'
      · obtain ⟨hblock, hfunc, -⟩ := isBlock_of_isLink (hlink hn)
        rw [hn'] at hblock hfunc
        rcases hrefresh.block with hS | hS
        · exact absurd hS (by simp [Binding.refresh, hfunc])
        · exact absurd hS (by simp [Binding.refresh, hblock])
      · exact hn'

/-- **The uses of a binding are rewritten**, and the declaration of a variable stays. -/
theorem Within.settles_rewrite (h : Within u s) (hb : s.document.Knows b) (hu : u.Covers b)
    (hd : b.isParam = false → s.document.attached b.decl) :
    s.Settles (Engine.rewrite b) fun _ t => Proceeds u s t ∧
      (b.isParam = false → t.document.attached b.decl) := by
  obtain ⟨S, hS, hoccur, hdecl⟩ := h.exists_keeps hb hd
  unfold Engine.rewrite
  refine .get_bind (.get_bind ((settles_note _ _).bind fun _ t ht => ?_))
  refine ((hS.same ht).settles_rewriteAll (hb.refresh h.sound.document) hu.name hoccur).mono
    fun _ v hv => ?_
  refine ⟨⟨hv.within, hv.continues⟩, fun hp => ?_⟩
  obtain ⟨D, hD, hDk⟩ := hdecl hp
  have hDm := mem_preorder_of_part hS.scope hD (by
    obtain ⟨k, hk⟩ := Option.isSome_iff_exists.mp hb.keyed
    exact isPresent_of_key (hDk.trans hk))
  have hDd : D.isA .decl := by
    rw [isA, hb.decl.cls (Document.mem_trees_of_root hDm) hDk]
    exact hb.isDecl
  obtain ⟨x, hx, hxk⟩ := hv.kept D hD hDd
  exact Document.attached_iff.mpr ⟨x, hx, hxk.trans hDk, hb.keyed⟩

end Session

end Fieldwise
