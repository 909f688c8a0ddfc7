import Fieldwise.Proofs.Session.Redrawing

/-!
# The forms of what replaces a declaration

Whatever the initializer of a variable is, its expansion has declarations before it, and the field
variables keep their names and their words for the storage (`Session.forms_initialValues`): initial
values are all that a plan adds to them. None of them gets lost, as an allocation is taken apart
into one call for each field (`Session.calls_allocation`). A plan that copies an operand has that of
the initializer, and only if its kind can be copied (`Session.isFor_plan?`).
-/

namespace Fieldwise

open Node

variable {b : Binding} {decls : List Node}

namespace Node

@[simp] theorem form?_withInit (decl init : Node) : (decl.withInit init).form? = decl.form? := by
  unfold withInit
  split <;> rfl

theorem map_form?_mapIdx {g : Nat → Node → Node} (h : ∀ i c, (g i c).form? = c.form?) :
    (decls.mapIdx g).map form? = decls.map form? := by
  refine List.ext_getElem (by simp) fun i _ _ => ?_
  simp [h]

theorem map_form?_zipWith {calls : List Node} (h : calls.length = decls.length) :
    (decls.zipWith (fun d c => d.withInit c) calls).map form? = decls.map form? := by
  refine List.ext_getElem (by simp [h]) fun i _ _ => ?_
  simp

/-- A declaration without an initial value. -/
def IsBareDecl (d : Node) : Prop :=
  ∃ m name spec type bitsize, d = .mk m (.decl name spec) [type, .absent, bitsize]

namespace IsBareDecl

variable {d : Node}

theorem child_init (h : d.IsBareDecl) : d.child .init = .absent := by
  obtain ⟨m, name, spec, type, bitsize, rfl⟩ := h
  rfl

theorem child_withInit (h : d.IsBareDecl) (init : Node) : (d.withInit init).child .init = init := by
  obtain ⟨m, name, spec, type, bitsize, rfl⟩ := h
  rfl

theorem type_withInit (h : d.IsBareDecl) (init : Node) :
    (d.withInit init).child .type = d.child .type := by
  obtain ⟨m, name, spec, type, bitsize, rfl⟩ := h
  rfl

end IsBareDecl

end Node

theorem Binding.isBareDecl_fieldDecl (b : Binding) (f : Field) : (b.fieldDecl f).IsBareDecl :=
  ⟨_, _, _, _, _, rfl⟩

theorem Binding.isBareDecl_fieldDecls (b : Binding) : ∀ d ∈ b.fieldDecls, d.IsBareDecl := by
  intro d hd
  obtain ⟨f, -, rfl⟩ := List.mem_map.mp hd
  exact b.isBareDecl_fieldDecl f

/-- What comes in the place of some declarations: declarations before them, and declarations of the
same forms. -/
structure Expansion.Fits (x : Expansion) (decls : List Node) : Prop where
  before : ∀ c ∈ x.before, c.isA .decl
  decls : x.decls.map form? = decls.map form?

/-- A plan that takes an allocation apart has one call for each field. -/
def Plan.IsFull (b : Binding) : Plan → Prop
  | heapAllocation calls => calls.length = b.aggregate.fields.length
  | _ => True

/-- Whatever can be copied denotes what the copy needs. -/
theorem Binding.denotes_of_canCopy {b c : Binding} {wrap : Option Wrapper} {subscript : Node}
    (h : canCopy b.kind wrap c.kind) :
    (c.operand wrap subscript).denotes =
      some (if b.kind == .pointer then .address else .object) := by
  unfold operand Operand.denotes Operand.shape
  cases hb : b.kind <;> cases hc : c.kind <;> rcases wrap with _ | w <;> try cases w
  all_goals simp [canCopy, hb, hc] at h ⊢

/-- Nothing can be copied into an array. -/
theorem Binding.ne_array_of_canCopy {wrap : Option Wrapper} {source : Kind}
    (h : canCopy b.kind wrap source) : b.kind ≠ .array := fun hk => by
  rw [hk] at h
  cases h

/-- The plans that there are for a binding: only pointers are given new objects, an allocation has
one call for each field, and what is copied is the operand in the initializer, of a kind that can be
copied. -/
inductive Plan.IsFor (b : Binding) : Plan → Prop where
  | directList (values : List (Nat × Node)) : IsFor b (.directList values)
  | pointerList (values : List (Nat × Node)) : b.kind = .pointer → IsFor b (.pointerList values)
  | heapAllocation (callee : Node) (leading : List Node) (q : Quantity) : b.kind = .pointer →
    IsFor b (.heapAllocation (b.aggregate.fields.map fun f => f.allocation callee leading q))
  | aggregateCopy {c : Binding} : canCopy b.kind b.init.unwrap.wrap c.kind →
    IsFor b (.aggregateCopy (c.operand b.init.unwrap.wrap b.init.unwrap.subscript))
  | arrayOfAggregates (elements : List (Int × List (Nat × Node))) :
    IsFor b (.arrayOfAggregates elements)

theorem Plan.IsFor.isFull {p : Plan} (h : p.IsFor b) : p.IsFull b := by
  cases h with
  | heapAllocation => exact List.length_map _
  | directList | pointerList | aggregateCopy | arrayOfAggregates => trivial

/-! ### Plans -/

variable [Discipline]

/-- Failures are allowed without discipline. -/
theorem Report.Settles.of_lax (hl : Discipline.IsLax) {α : Type} (r : Report α) :
    r.Settles fun _ => True := by
  intro log
  generalize (StateT.run (ExceptT.run r) log).1 = result
  cases result with
  | ok => trivial
  | error => exact fun hs => absurd hs hl.1

namespace Session

variable {s : Session} (hl : Discipline.IsLax)
include hl

/-- An allocation is taken apart into one call for each field. -/
theorem calls_allocation (b : Binding) (e : Node) : (s.allocation b e).Settles fun r =>
    ∀ calls, r = some calls → ∃ callee leading q,
      calls = b.aggregate.fields.map fun f => f.allocation callee leading q := by
  unfold allocation
  dsimp only
  split
  · split
    · refine (Report.Settles.of_lax hl _).bind fun q _ => ?_
      cases q with
      | some q => exact .pure fun calls hc => ⟨_, _, q, (Option.some.inj hc).symm⟩
      | none => exact .pure (by simp)
    · exact .pure (by simp)
  · exact .pure (by simp)

theorem isFor_planFor (b : Binding) (strategy : Strategy) :
    (s.planFor b strategy).Settles fun r => ∀ p, r = some p → p.IsFor b := by
  have hmap : ∀ {α : Type} {g : α → Plan}, (∀ x, (g x).IsFor b) → ∀ r : Option α, ∀ p,
      r.map g = some p → p.IsFor b := by
    intro α g hg r p hp
    obtain ⟨x, -, rfl⟩ := Option.map_eq_some_iff.mp hp
    exact hg x
  cases strategy with
  | directList =>
    rw [planFor]
    split
    · exact .pure (hmap .directList _)
    · exact .pure (by simp)
  | pointerList =>
    rw [planFor]
    split
    · rename_i hk _
      split
      · exact .pure (hmap (fun values => .pointerList values hk) _)
      · exact .pure (by simp)
    · exact .pure (by simp)
  | heapAllocation =>
    rw [planFor]
    split
    · rename_i hk
      refine (calls_allocation hl b b.init).bind fun r hr => .pure fun p hp => ?_
      obtain ⟨calls, rfl, rfl⟩ := Option.map_eq_some_iff.mp hp
      obtain ⟨callee, leading, q, rfl⟩ := hr calls rfl
      exact .heapAllocation callee leading q (eq_of_beq hk)
    · exact .pure (by simp)
  | aggregateCopy =>
    rw [planFor]
    split
    · refine (Report.Settles.of_lax hl _).bind fun r _ => ?_
      cases r with
      | none => exact .pure (by simp)
      | some source =>
        dsimp only
        split
        · rename_i hc
          refine .pure fun p hp => ?_
          obtain rfl := Option.some.inj hp
          exact .aggregateCopy (Bool.and_eq_true_iff.mp hc).2
        · exact .pure (by simp)
    · exact .pure (by simp)
  | arrayOfAggregates =>
    rw [planFor]
    split
    · exact (Report.Settles.of_lax hl _).bind fun r _ => .pure (hmap .arrayOfAggregates r)
    · exact .pure (by simp)

theorem isFor_plan? (s : Session) (b : Binding) :
    (s.plan? b).Settles fun r => ∀ p, r = some p → p.IsFor b := by
  unfold plan?
  generalize [Strategy.directList, .pointerList, .heapAllocation, .aggregateCopy,
    .arrayOfAggregates] = strategies
  induction strategies with
  | nil => exact .pure (by simp)
  | cons strategy rest ih =>
    unfold planAmong
    refine (isFor_planFor hl b strategy).bind fun r hr => ?_
    cases r with
    | some plan => exact .pure (by simpa using hr plan rfl)
    | none => exact ih

/-! ### Carrying out a plan -/

omit hl

omit [Discipline] in
/-- Where there is a plan for an initializer, it is carried out. -/
theorem exists_run_applyPlan {t u : Session} {plan : Plan} {x : Expansion}
    (hi : b.init.isPresent)
    (hplan : s.run (Engine.report fun s => s.plan? b) = (.ok (some plan), t))
    (h : s.run (Engine.initialValues b decls) = (.ok x, u)) :
    ∃ v : Session, v.run (Engine.applyPlan b decls plan) = (.ok x, u) := by
  rw [Engine.initialValues, if_pos hi, run_bind_of_ok hplan] at h
  obtain ⟨⟨⟩, v, -, h⟩ := run_bind_eq_ok.mp h
  exact ⟨v, h⟩

theorem forms_holders (b : Binding) (values : List (Nat × Node)) (fields : List Field) :
    ∀ (s : Session) (i : Nat) (decls : List Node),
      s.Settles (Engine.holders b values i fields decls) fun r _ =>
        (∀ c ∈ r.1, c.isA .decl) ∧ r.2.map form? = decls.map form? := by
  induction fields with
  | nil => exact fun s i decls => .pure ⟨by simp, rfl⟩
  | cons f fs ih =>
    intro s i decls
    cases decls with
    | nil => exact .pure ⟨by simp, rfl⟩
    | cons decl decls =>
      unfold Engine.holders
      split
      · refine (settles_freshName _).bind fun name t _ => (ih t _ decls).bind fun r u hr => .pure ?_
        exact ⟨by simpa [Node.declare] using ⟨rfl, hr.1⟩, by simp [hr.2]⟩
      · refine (ih s _ decls).bind fun r u hr => .pure ?_
        exact ⟨hr.1, by simp [hr.2]⟩

theorem forms_copies (b : Binding) (source : Operand) (fields : List Field) :
    ∀ (s : Session) (decls : List Node),
      s.Settles (Engine.copies b source fields decls) fun r _ =>
        r.1.map form? = decls.map form? := by
  induction fields with
  | nil => exact fun s decls => .pure rfl
  | cons f fs ih =>
    intro s decls
    cases decls with
    | nil => exact .pure rfl
    | cons decl decls =>
      -- The rest is done for what this field comes to.
      have hrest : ∀ (decl' : Node) (first : List Node) (t : Session),
          decl'.form? = decl.form? → t.Settles (Engine.copies b source fs decls >>= fun r =>
            return (decl' :: r.1, first ++ r.2)) fun r _ =>
              r.1.map form? = (decl :: decls).map form? := fun decl' first t hd =>
        (ih t decls).bind fun r u hr => .pure (by simp [hr, hd])
      unfold Engine.copies
      refine .get_bind ?_
      dsimp only
      cases fieldCopy s.options b source f with
      | init value => exact hrest _ [] s (form?_withInit _ _)
      | statement stmt => exact (settles_requireHeader _).bind fun _ t _ => hrest _ [stmt] t rfl
      | unsupported => exact (settles_note _ _).bind fun _ t _ => hrest _ [] t rfl

include hl

theorem fits_applyPlan (s : Session) {plan : Plan} (hp : plan.IsFull b)
    (hd : decls.length = b.aggregate.fields.length) :
    s.Settles (Engine.applyPlan b decls plan) fun x _ => x.Fits decls := by
  cases plan with
  | directList values =>
    exact .pure ⟨by simp, map_form?_mapIdx fun i c => by split <;> simp⟩
  | pointerList values =>
    exact (forms_holders b values _ s 0 decls).bind fun r t hr => .pure ⟨hr.1, hr.2⟩
  | heapAllocation calls =>
    exact .pure ⟨by simp, map_form?_zipWith ((show calls.length = _ from hp).trans hd.symm)⟩
  | aggregateCopy source =>
    exact (forms_copies b source _ s decls).bind fun r t hr => .pure ⟨by simp, hr⟩
  | arrayOfAggregates elements =>
    unfold Engine.applyPlan
    dsimp only
    split
    · exact (settles_report (.of (settles_checkIndices elements))).bind fun _ t _ =>
        .pure ⟨by simp, map_form?_mapIdx fun i c => form?_withInit _ _⟩
    · exact (settles_report (Report.Settles.of_lax hl _)).bind fun after t _ =>
        .pure ⟨by simp, rfl⟩

/-- **The field variables keep their forms**, and before them there are declarations. -/
theorem forms_initialValues (s : Session) (hd : decls.length = b.aggregate.fields.length) :
    s.Settles (Engine.initialValues b decls) fun x _ => x.Fits decls := by
  have hplain : Expansion.Fits { decls } decls := ⟨by simp, rfl⟩
  unfold Engine.initialValues
  split
  · refine (settles_report (isFor_plan? hl s b)).bind fun r t hr => ?_
    cases r with
    | none => exact (settles_note _ _).bind fun _ u _ => .pure hplain
    | some plan =>
      exact (settles_note _ _).bind fun _ u _ => fits_applyPlan hl u (hr.2 plan rfl).isFull hd
  · exact .pure hplain

end Session

end Fieldwise
