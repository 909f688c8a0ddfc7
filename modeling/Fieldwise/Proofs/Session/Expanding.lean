import Fieldwise.Proofs.Session.Building

/-!
# What initializers and assignments become

A plan for an initializer holds nodes that are new, or terms to be copied (`Plan.IsSound`), and what
it comes to is new (`Session.Sound.settles_initialValues`). So is what an allocation or an
assignment between operands becomes (`Session.Sound.settles_allocation`,
`Session.Sound.settles_assign`).
-/

namespace Fieldwise

open Node

variable [Discipline] {b : Binding} {f : Field} {d : Document}

/-! ### Allocations -/

theorem Node.IsTerm.stripCast {n : Node} (h : n.IsTerm) : n.stripCast.IsTerm := by
  fun_induction Node.stripCast n with
  | case1 m t e ih => exact ih (h.parts (fun _ => rfl) e (by simp))
  | case2 n => exact h

/-- A factor that is a term. -/
def Quantity.IsSound : Quantity → Prop
  | one => True
  | times factor => factor.IsTerm

theorem isNewTerm_allocation {callee : Node} {leading : List Node} {q : Quantity}
    (hf : f.type.IsTerm) (hc : callee.IsTerm) (hl : ∀ p ∈ leading, p.IsTerm) (hq : q.IsSound)
    (hn : Discipline.strict → callee.identName? = some "operator=" → leading.length = 1) :
    (f.allocation callee leading q).IsNewTerm := by
  have hunit : (Node.sizeOfNode f.type.typenameOf).IsNewTerm := hf.typenameOf.sizeOfNode
  have hsize : (q.size f).IsNewTerm := by
    cases q with
    | one => exact hunit
    | times factor =>
      have hq : factor.IsTerm := hq
      exact hunit.binary hq.copy _
  have hcast : f.type.pointerTo.typenameOf.IsNewTerm := hf.pointerTo.isTerm.typenameOf
  have hcall : (Node.callOf callee.copy (leading.map Node.copy ++ [q.size f])).IsNewTerm := by
    refine hc.copy.callOf (fun p hp => ?_) fun hs h => ?_
    · rcases List.mem_append.mp hp with hp | hp
      · obtain ⟨p', hp', rfl⟩ := List.mem_map.mp hp
        exact (hl p' hp').copy
      · rw [List.mem_singleton.mp hp]
        exact hsize
    · rw [identName?_congr (form?_copy callee)] at h
      simp [hn hs h]
  exact isNewTerm_mk rfl rfl (by simp [Form.cls]) (by simp [hcast, hcall])

namespace Session.Sound

variable {s : Session}

theorem settles_isAggregateSize (h : s.Sound) (b : Binding) (n : Node) :
    (s.isAggregateSize b n).Settles fun _ => True := by
  unfold isAggregateSize
  split
  · split
    · exact .pure trivial
    · dsimp only
      split
      · refine (h.settles_lookup _ _).bind fun r _ => ?_
        cases r with
        | none => exact .pure trivial
        | some target => exact .pure trivial
      · exact .pure trivial
  · exact .pure trivial

theorem settles_quantity (h : s.Sound) (b : Binding) (line : Option Nat) (lone : Bool) {size : Node}
    (hs : size.IsTerm) :
    (s.quantity b line lone size).Settles fun r => ∀ q, r = some q → q.IsSound := by
  unfold quantity
  split
  · rename_i m left right
    have hl : left.IsTerm := hs.parts (fun _ => rfl) _ (by simp)
    have hr : right.IsTerm := hs.parts (fun _ => rfl) _ (by simp)
    refine Report.Settles.bind (Q := fun r => ∀ n, r = some n → n.IsTerm) ?_ fun r hfactor => ?_
    · unfold sizeFactor
      refine (h.settles_isAggregateSize b left).bind fun x _ => ?_
      cases x with
      | true => exact .pure (by simpa using hr)
      | false =>
        refine (h.settles_isAggregateSize b right).bind fun y _ => ?_
        cases y with
        | true => exact .pure (by simpa using hl)
        | false => exact .pure (by simp)
    · cases r with
      | none => exact .pure (by simp)
      | some factor =>
        refine (Report.Settles.of (settles_intValue factor)).bind fun z _ => ?_
        split
        · refine .pure fun q hq => ?_
          obtain rfl : Quantity.times factor = q := by simpa using hq
          exact hfactor factor rfl
        · exact (Report.Settles.note _ _).bind fun _ _ => .pure (by simp)
  · refine (Report.Settles.of (settles_intValue size)).bind fun z _ => ?_
    have hone : ∀ q, some Quantity.one = some q → q.IsSound := fun q hq => by
      cases hq
      trivial
    split
    · exact (Report.Settles.note _ _).bind fun _ _ => .pure hone
    · refine (h.settles_isAggregateSize b size).bind fun x _ => ?_
      cases x with
      | true => exact .pure hone
      | false => exact .pure (by simp)

/-- **An allocation becomes new allocations.** -/
theorem settles_allocation (h : s.Sound) (hb : d.Knows b) {e : Node} (he : e.IsTerm) :
    (s.allocation b e).Settles fun r => ∀ calls, r = some calls →
      calls ≠ [] ∧ ∀ c ∈ calls, c.IsNewTerm := by
  have hcall := he.stripCast
  unfold allocation
  dsimp only
  generalize e.stripCast = call at hcall ⊢
  split
  case h_2 => exact .pure (by simp)
  rename_i name args hname hargs
  split
  case isFalse => exact .pure (by simp)
  -- The call is a name with a list of arguments.
  obtain ⟨m, callee, m', rfl⟩ := exists_of_callArgs? hargs
  have hcallee : callee.IsTerm := hcall.parts (fun _ => rfl) _ List.mem_cons_self
  have hlist := hcall.parts (fun _ => rfl) (Node.mk m' .exprList args) (by simp)
  have hargs : ∀ p ∈ args, p.IsTerm := hlist.parts fun _ => rfl
  have hlast : (args.getLastD .absent).IsTerm := by
    rw [List.getLastD_eq_getLast?]
    cases hl : args.getLast? with
    | none => exact isTerm_absent
    | some p => exact hargs p (List.mem_of_getLast? hl)
  refine (h.settles_quantity b _ _ hlast).bind fun q hq => ?_
  cases q with
  | none => exact .pure (by simp)
  | some q =>
    refine .pure fun calls hc => ?_
    cases hc
    refine ⟨by simpa using hb.nonempty, fun c hm => ?_⟩
    obtain ⟨f, hf, rfl⟩ := List.mem_map.mp hm
    show (f.allocation callee args.dropLast q).IsNewTerm
    refine isNewTerm_allocation (hb.isTerm_field hf) hcallee
      (fun p hp => hargs p (List.dropLast_subset _ hp)) (hq q rfl) fun hs hn => ?_
    have hreg := hcall.regular _ (mem_preorderAll_singleton.mpr (self_mem_preorder rfl))
    have hcount := hreg.call hs (callName?_eq_some.mpr ⟨rfl, callee, rfl, hn⟩)
      (.mk m' .exprList args) (List.mem_cons_of_mem _ List.mem_cons_self) args.length rfl
    simp [hcount]

theorem settles_isNull {names : List String} (n : Node) :
    (Report.of (n.isNull names)).Settles fun _ => True :=
  .of (Node.settles_isNull names n)

end Session.Sound

/-! ### Plans -/

/-- The nodes of a plan are new, or terms. -/
def Plan.IsSound : Plan → Prop
  | directList values | pointerList values => TermValues values
  | heapAllocation calls => ∀ c ∈ calls, c.IsNewTerm
  | aggregateCopy source => source.subscript.IsTerm
  | arrayOfAggregates elements => ∀ e ∈ elements, TermValues e.2

/-- The literal that a pointer is set to the address of. -/
theorem Node.IsTerm.addressedLiteral? {n type list : Node} (h : n.IsTerm)
    (hl : n.addressedLiteral? = some (type, list)) : list.IsTerm ∧ list.isA .initList := by
  unfold Node.addressedLiteral? at hl
  split at hl
  · cases hl
    have hlit := h.parts (fun _ => rfl) _ List.mem_cons_self
    exact ⟨hlit.parts (fun _ => rfl) _ (by simp), rfl⟩
  · cases hl

namespace Session.Sound

variable {s : Session}

theorem settles_planFor (h : s.Sound) (hb : d.Knows b) (strategy : Strategy) :
    (s.planFor b strategy).Settles fun r => ∀ p, r = some p → p.IsSound := by
  have hinit : b.init.IsTerm := hb.isTerm_child .init
  have hvalues : ∀ {list : Node} {g : List (Nat × Node) → Plan}, list.IsTerm → list.isA .initList →
      (∀ values, TermValues values → (g values).IsSound) →
      ∀ p, (b.aggregate.fieldValues list).map g = some p → p.IsSound := by
    intro list g hl hc hg p hp
    obtain ⟨values, hv, rfl⟩ := Option.map_eq_some_iff.mp hp
    exact hg values (b.aggregate.termValues_fieldValues hl hc hv)
  cases strategy with
  | directList =>
    rw [planFor]
    split
    · rename_i hc
      have hc : (b.kind == .value) = true ∧ b.init.isA .initList = true := by simpa using hc
      exact .pure (hvalues hinit hc.2 fun _ hv => hv)
    · exact .pure (by simp)
  | pointerList =>
    rw [planFor]
    split
    · rename_i type list _ hlit
      obtain ⟨hl, hc⟩ := hinit.addressedLiteral? hlit
      split
      · exact .pure (hvalues hl hc fun _ hv => hv)
      · exact .pure (by simp)
    · exact .pure (by simp)
  | heapAllocation =>
    rw [planFor]
    split
    · refine (h.settles_allocation hb hinit).bind fun r hr => .pure fun p hp => ?_
      obtain ⟨calls, rfl, rfl⟩ := Option.map_eq_some_iff.mp hp
      exact (hr calls rfl).2
    · exact .pure (by simp)
  | aggregateCopy =>
    rw [planFor]
    split
    · refine (h.settles_lookup _ _).bind fun r _ => ?_
      cases r with
      | none => exact .pure (by simp)
      | some source =>
        dsimp only
        split
        · refine .pure fun p hp => ?_
          cases hp
          exact (source.operand_spec b.init.unwrap.wrap hinit.subscript).2
        · exact .pure (by simp)
    · exact .pure (by simp)
  | arrayOfAggregates =>
    rw [planFor]
    split
    · rename_i hc
      have hc : (b.kind == .array) = true ∧ b.init.isA .initList = true := by simpa using hc
      refine (Report.Settles.of (b.aggregate.settles_elementValues hinit hc.2)).bind fun r hr =>
        .pure fun p hp => ?_
      obtain ⟨elements, rfl, rfl⟩ := Option.map_eq_some_iff.mp hp
      exact hr elements rfl
    · exact .pure (by simp)

theorem settles_plan? (h : s.Sound) (hb : d.Knows b) :
    (s.plan? b).Settles fun r => ∀ p, r = some p → p.IsSound := by
  unfold plan?
  generalize [Strategy.directList, .pointerList, .heapAllocation, .aggregateCopy,
    .arrayOfAggregates] = strategies
  induction strategies with
  | nil => exact .pure (by simp)
  | cons strategy rest ih =>
    unfold planAmong
    refine (h.settles_planFor hb strategy).bind fun r hr => ?_
    cases r with
    | some plan => exact .pure (by simpa using hr plan rfl)
    | none => exact ih

end Session.Sound

/-! ### Carrying out a plan -/

theorem isNew_directInits {values : List (Nat × Node)} {decls : List Node} (hv : TermValues values)
    (hd : ∀ c ∈ decls, c.IsNew) : ∀ c ∈ directInits values decls, c.IsNew := by
  intro c hc
  obtain ⟨i, hi, rfl⟩ := List.mem_mapIdx.mp hc
  have hdecl := hd _ (List.getElem_mem hi)
  split
  · rename_i value hl
    exact hdecl.withInit (hv.lookup hl).copy
  · exact hdecl

theorem isNewTerm_indexedList {elements : List (Int × List (Nat × Node))}
    (he : ∀ e ∈ elements, TermValues e.2) (indices : List Int) (i : Nat) :
    (indexedList elements indices i).IsNewTerm := by
  unfold indexedList
  dsimp only
  split
  · exact isNewTerm_absent
  · refine isNewTerm_mk rfl rfl (by simp [Form.cls]) fun c hc => ?_
    obtain ⟨z, -, hz⟩ := List.mem_filterMap.mp hc
    obtain ⟨value, hv, rfl⟩ := Option.map_eq_some_iff.mp hz
    obtain ⟨values, hl, hlv⟩ := Option.bind_eq_some_iff.mp hv
    obtain ⟨k, hk⟩ := mem_of_lookup hl
    have hvalue : value.IsTerm := (he _ hk).lookup hlv
    exact isNewTerm_mk rfl rfl (by simp [Form.cls])
      (by simp [hvalue.copy, isNewTerm_intLiteral])

theorem Options.isNewTerm_copyStatement {options : Options} {target source : Node}
    (ho : Discipline.strict → options.copyFunction ≠ "operator=") (hf : f.type.IsTerm)
    (ht : target.IsNewTerm) (hs : source.IsNewTerm) :
    (options.copyStatement f target source).IsNewTerm := by
  unfold copyStatement
  split
  · exact isNewTerm_call ho (by simp [ht, hs, hf.typenameOf.sizeOfNode])
  · exact ht.assign hs

theorem settles_assignFields {z : Int} {values : List (Nat × Node)} (hv : TermValues values)
    (fields : List Field) : ∀ i, (assignFields b z values i fields).Settles fun r =>
      ∀ c ∈ r, c.IsNewTerm := by
  induction fields with
  | nil => exact fun i => .pure (by simp)
  | cons f fs ih =>
    intro i
    unfold assignFields
    split
    · rename_i value hl
      refine (Report.Settles.of (settles_integer z)).bind ?_
      rintro _ rfl
      refine (settles_assignElement b.name ((isNewTerm_ident _).arrayRef (isNewTerm_intLiteral z))
        value (hv.lookup hl)).bind fun first hf => (ih _).bind fun more hm => .pure fun c hc => ?_
      exact (List.mem_append.mp hc).elim (hf c) (hm c)
    · exact ih _

theorem settles_checkIndices (elements : List (Int × List (Nat × Node))) :
    Settles (checkIndices elements) fun _ => True := by
  unfold checkIndices
  split
  · exact .ok trivial
  · exact .error (by decide)

theorem settles_assignAll {elements : List (Int × List (Nat × Node))}
    (he : ∀ e ∈ elements, TermValues e.2) (indices : List Int) :
    (assignAll b elements indices).Settles fun r => ∀ c ∈ r, c.IsNewTerm := by
  induction indices with
  | nil => exact .pure (by simp)
  | cons z zs ih =>
    unfold assignAll
    have hv : TermValues ((elements.lookup z).getD []) := by
      cases hl : elements.lookup z with
      | none => exact fun p hp => nomatch hp
      | some values =>
        obtain ⟨k, hk⟩ := mem_of_lookup hl
        exact he _ hk
    refine (settles_assignFields hv _ 0).bind fun first hf => ih.bind fun more hm =>
      .pure fun c hc => ?_
    exact (List.mem_append.mp hc).elim (hf c) (hm c)

/-- What is built for a field that is copied. -/
def FieldCopy.IsSound : FieldCopy → Prop
  | init value => value.IsNewTerm
  | statement stmt => stmt.IsNewTerm
  | unsupported => True

theorem isSound_fieldCopy {options : Options} {source : Operand}
    (ho : Discipline.strict → options.copyFunction ≠ "operator=")
    (hs : source.subscript.IsTerm) (hf : f.type.IsTerm) :
    (fieldCopy options b source f).IsSound := by
  unfold fieldCopy
  split
  · exact source.isNewTerm_address hs hf
  · split
    · exact source.isNewTerm_object hs hf
    · split
      · trivial
      · exact Options.isNewTerm_copyStatement ho hf (isNewTerm_ident _)
          (source.isNewTerm_object hs hf)

/-- The nodes of an expansion are new. -/
structure Expansion.IsNew (x : Expansion) : Prop where
  before : ∀ c ∈ x.before, c.IsNew
  decls : ∀ c ∈ x.decls, c.IsNew
  after : ∀ c ∈ x.after, c.IsNewTerm

namespace Session

variable {s : Session}

theorem settles_holders {values : List (Nat × Node)} (hv : TermValues values) (fields : List Field)
    (hf : ∀ f ∈ fields, f.type.IsTerm) : ∀ (s : Session) (i : Nat) (decls : List Node),
      (∀ c ∈ decls, c.IsNew) → s.Settles (Engine.holders b values i fields decls) fun r t =>
        s.Same t ∧ (∀ c ∈ r.1, c.IsNew) ∧ ∀ c ∈ r.2, c.IsNew := by
  induction fields with
  | nil => exact fun s i decls hd => .pure ⟨.refl s, by simp, hd⟩
  | cons f fs ih =>
    intro s i decls hd
    cases decls with
    | nil => exact .pure ⟨.refl s, by simp, hd⟩
    | cons decl decls =>
      have hdecl := hd decl List.mem_cons_self
      have hmore := fun t i => ih (fun f hm => hf f (List.mem_cons_of_mem _ hm)) t i decls
        fun c hc => hd c (List.mem_cons_of_mem _ hc)
      unfold Engine.holders
      split
      · rename_i value hl
        refine (settles_freshName _).bind fun name t ht => (hmore t _).bind fun r u hr => .pure ?_
        obtain ⟨hs, hb, ha⟩ := hr
        have hvalue := hv.lookup hl
        refine ⟨ht.trans hs, fun c hc => ?_, fun c hc => ?_⟩
        · rcases List.mem_cons.mp hc with rfl | hc
          · exact isNew_decl ((hf f List.mem_cons_self).rename _) hvalue.copy
          · exact hb c hc
        · rcases List.mem_cons.mp hc with rfl | hc
          · refine hdecl.withInit ?_
            split
            · exact isNewTerm_ident _
            · exact (isNewTerm_ident _).unary _
          · exact ha c hc
      · refine (hmore s _).bind fun r u hr => .pure ?_
        obtain ⟨hs, hb, ha⟩ := hr
        exact ⟨hs, hb, fun c hc => (List.mem_cons.mp hc).elim (fun he => he ▸ hdecl) (ha c)⟩

theorem settles_copies {source : Operand} (hs : source.subscript.IsTerm) (fields : List Field)
    (hf : ∀ f ∈ fields, f.type.IsTerm) : ∀ (s : Session) (decls : List Node),
      (Discipline.strict → s.options.copyFunction ≠ "operator=") → (∀ c ∈ decls, c.IsNew) →
      s.Settles (Engine.copies b source fields decls) fun r t =>
        s.Same t ∧ (∀ c ∈ r.1, c.IsNew) ∧ ∀ c ∈ r.2, c.IsNewTerm := by
  induction fields with
  | nil => exact fun s decls _ hd => .pure ⟨.refl s, hd, by simp⟩
  | cons f fs ih =>
    intro s decls ho hd
    cases decls with
    | nil => exact .pure ⟨.refl s, hd, by simp⟩
    | cons decl decls =>
      have hdecl := hd decl List.mem_cons_self
      have hcopy := isSound_fieldCopy (b := b) ho hs (hf f List.mem_cons_self)
      -- The rest is done for what this field comes to.
      have hrest : ∀ (decl' : Node) (first : List Node) (t : Session), s.Same t → decl'.IsNew →
          (∀ c ∈ first, c.IsNewTerm) → t.Settles (Engine.copies b source fs decls >>= fun r =>
            return (decl' :: r.1, first ++ r.2)) fun r u =>
              s.Same u ∧ (∀ c ∈ r.1, c.IsNew) ∧ ∀ c ∈ r.2, c.IsNewTerm := by
        intro decl' first t hst hd' hfirst
        refine (ih (fun f hm => hf f (List.mem_cons_of_mem _ hm)) t decls
          (by rw [hst.options]; exact ho) fun c hc => hd c (List.mem_cons_of_mem _ hc)).bind
          fun r' u hr' => .pure ?_
        obtain ⟨htu, hds, hafter⟩ := hr'
        exact ⟨hst.trans htu, fun c hc => (List.mem_cons.mp hc).elim (fun he => he ▸ hd') (hds c),
          fun c hc => (List.mem_append.mp hc).elim (hfirst c) (hafter c)⟩
      unfold Engine.copies
      refine .get_bind ?_
      dsimp only
      generalize fieldCopy s.options b source f = copy at hcopy ⊢
      cases copy with
      | init value => exact hrest _ [] s (.refl s) (hdecl.withInit hcopy) (by simp)
      | statement stmt =>
        have hcopy : stmt.IsNewTerm := hcopy
        exact (settles_requireHeader _).bind fun _ t ht =>
          hrest decl [stmt] t ht hdecl (by simpa using hcopy)
      | unsupported =>
        exact (settles_note _ _).bind fun _ t ht => hrest decl [] t ht hdecl (by simp)

namespace Sound

/-- What a plan comes to is new. -/
theorem settles_applyPlan (h : s.Sound) (hb : d.Knows b) {decls : List Node}
    (hd : ∀ c ∈ decls, c.IsNew) {plan : Plan} (hp : plan.IsSound) :
    s.Settles (Engine.applyPlan b decls plan) fun x t => s.Same t ∧ x.IsNew := by
  have hfields : ∀ f ∈ b.aggregate.fields, f.type.IsTerm := fun f hf => hb.isTerm_field hf
  cases plan with
  | directList values =>
    exact .pure ⟨.refl s, by simp, isNew_directInits hp hd, by simp⟩
  | pointerList values =>
    refine (settles_holders hp _ hfields s 0 decls hd).bind fun r t hr => .pure ?_
    exact ⟨hr.1, hr.2.1, hr.2.2, by simp⟩
  | heapAllocation calls =>
    refine .pure ⟨.refl s, by simp, fun c hc => ?_, by simp⟩
    obtain ⟨i, hi, rfl⟩ := List.mem_iff_getElem.mp hc
    rw [List.getElem_zipWith]
    exact (hd _ (List.getElem_mem _)).withInit (hp _ (List.getElem_mem _))
  | aggregateCopy source =>
    refine (settles_copies hp _ hfields s decls h.copy hd).bind fun r t hr => .pure ?_
    exact ⟨hr.1, by simp, hr.2.1, hr.2.2⟩
  | arrayOfAggregates elements =>
    unfold Engine.applyPlan
    dsimp only
    split
    · refine (settles_report (.of (settles_checkIndices elements))).bind fun _ t ht => .pure ?_
      refine ⟨ht.1, by simp, fun c hc => ?_, by simp⟩
      obtain ⟨i, hi, rfl⟩ := List.mem_mapIdx.mp hc
      exact (hd _ (List.getElem_mem hi)).withInit (isNewTerm_indexedList hp _ _)
    · refine (settles_report (settles_assignAll hp _)).bind fun after t ht => .pure ?_
      exact ⟨ht.1, by simp, hd, ht.2⟩

/-- **What replaces a declaration is new.** -/
theorem settles_initialValues (h : s.Sound) (hb : d.Knows b) {decls : List Node}
    (hd : ∀ c ∈ decls, c.IsNew) :
    s.Settles (Engine.initialValues b decls) fun x t => s.Same t ∧ x.IsNew := by
  have hplain : Expansion.IsNew { decls } := ⟨by simp, hd, by simp⟩
  unfold Engine.initialValues
  split
  · refine (settles_report (h.settles_plan? hb)).bind fun r t hr => ?_
    obtain ⟨hst, hr⟩ := hr
    cases r with
    | none => exact (settles_note _ _).bind fun _ u hu => .pure ⟨hst.trans hu, hplain⟩
    | some plan =>
      refine (settles_note _ _).bind fun _ u hu => ?_
      refine ((h.same (hst.trans hu)).settles_applyPlan hb hd (hr plan rfl)).mono fun x v hv => ?_
      exact ⟨(hst.trans hu).trans hv.1, hv.2⟩
  · exact .pure ⟨.refl s, hplain⟩

end Sound

end Session

/-! ### Assignments -/

/-- An operand of a binding that a document knows. -/
structure Operand.IsSound (d : Document) (o : Operand) : Prop where
  binding : d.Knows o.binding
  subscript : o.subscript.IsTerm

theorem Binding.isSound_operand (hb : d.Knows b) (w : Option Wrapper) {n : Node} (hn : n.IsTerm) :
    (b.operand w n).IsSound d := by
  obtain ⟨hbinding, hsub⟩ := b.operand_spec w hn
  exact ⟨hbinding.symm ▸ hb, hsub⟩

omit [Discipline] in
theorem CopyRule.isProduct_statement (r : CopyRule) (options : Options) (target source : Operand)
    (f : Field) : (r.statement options target source f).isProduct := by
  unfold statement Options.copyStatement
  split
  · rfl
  · split <;> rfl

theorem CopyRule.isNewTerm_statement {options : Options} {target source : Operand}
    (ho : Discipline.strict → options.copyFunction ≠ "operator=") (ht : target.subscript.IsTerm)
    (hs : source.subscript.IsTerm) (hf : f.type.IsTerm) (r : CopyRule) :
    (r.statement options target source f).IsNewTerm := by
  unfold statement
  split
  · exact (target.isNewTerm_address ht hf).assign (source.isNewTerm_address hs hf)
  · exact Options.isNewTerm_copyStatement ho hf (target.isNewTerm_object ht hf)
      (source.isNewTerm_object hs hf)

/-- The statements that were found, if any were, are new ones that a use can give way to, and there
is one at least. -/
def AllNew (r : Option (List Node)) : Prop :=
  ∀ stmts, r = some stmts → stmts ≠ [] ∧ ∀ c ∈ stmts, c.IsNewTerm ∧ c.isProduct

theorem allNew_none : AllNew none := fun _ h => nomatch h

/-- **An assignment between operands of one aggregate becomes new statements.** -/
theorem Session.Sound.settles_assign {s : Session} (h : s.Sound) {target source : Operand}
    (ht : target.IsSound d) (hs : source.IsSound d)
    (hsame : target.binding.aggregate.same source.binding.aggregate) :
    s.Settles (Engine.assign target source) fun r t => s.Same t ∧ AllNew r := by
  unfold Engine.assign
  rw [if_pos hsame]
  split
  · exact .pure ⟨.refl s, allNew_none⟩
  · rename_i r _
    refine (settles_note _ _).bind fun _ t hst => .get_bind ?_
    have hstmts : ∀ {o : Options}, (Discipline.strict → o.copyFunction ≠ "operator=") →
        AllNew (some (r.statements o target source)) := fun ho stmts hs => by
      cases hs
      refine ⟨by simpa [CopyRule.statements] using ht.binding.nonempty, fun c hc => ?_⟩
      obtain ⟨f, hf, rfl⟩ := List.mem_map.mp hc
      exact ⟨r.isNewTerm_statement ho ht.subscript hs.subscript (ht.binding.isTerm_field hf),
        r.isProduct_statement _ target source f⟩
    have ho : Discipline.strict → t.options.copyFunction ≠ "operator=" := by
      rw [hst.options]
      exact h.copy
    dsimp only
    split
    · exact (settles_requireHeader _).bind fun _ u hu => .pure ⟨hst.trans hu, hstmts ho⟩
    · exact .pure ⟨hst, hstmts ho⟩

end Fieldwise
