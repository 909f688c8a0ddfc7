import Fieldwise.Proofs.Session.Decomposing

/-!
# Which bindings are found

A session finds those bindings of an aggregate that its declarations are, and no others
(`Session.settles_findBindings_iff`).
-/

namespace Fieldwise

variable [Discipline]

/-- What a result that settles is. -/
theorem Settles.eq_ok {α : Type} {r : Except Failure α} {Q : α → Prop} (h : Settles r Q) :
    Settles r fun x => r = .ok x := by
  cases r with
  | error f => exact h
  | ok x => exact rfl

namespace Session

variable {s : Session} {a : Aggregate} {decls : List Node} {decl : Node} {b : Binding}

/-- A declaration is a binding of an aggregate. -/
def Finds (s : Session) (a : Aggregate) (decl : Node) (b : Binding) : Prop :=
  (s.aggregateOf? (decl.child .type)).any a.same ∧ s.verdictOn decl = .ok (.binding b)

theorem settles_classify_iff (s : Session) (decl : Node) (quiet : Bool) :
    (s.classify decl quiet).Settles fun r =>
      ∀ b, r = some b ↔ s.verdictOn decl = .ok (.binding b) := by
  unfold classify
  refine (Report.Settles.of (settles_verdictOn s decl).eq_ok).bind fun v hv => ?_
  rw [hv]
  cases v with
  | unrelated => exact .pure (by simp)
  | skipped reason => exact (Report.Settles.note _ _).bind fun _ _ => .pure (by simp)
  | binding b => exact .pure (by simp)

theorem settles_bindingsAmong_iff (s : Session) (a : Aggregate) (decls : List Node) :
    (s.bindingsAmong a decls).Settles fun bs => ∀ b, b ∈ bs ↔ ∃ decl ∈ decls, s.Finds a decl b := by
  induction decls with
  | nil => exact .pure (by simp)
  | cons decl decls ih =>
    unfold bindingsAmong
    simp only [List.mem_cons, or_and_right, exists_or, exists_eq_left]
    split
    · rename_i hcond
      simp only [Bool.and_eq_true] at hcond
      refine (settles_classify_iff s decl false).bind fun r hr => ?_
      have hfind : ∀ b, s.Finds a decl b ↔ r = some b := fun b => by
        rw [Finds, and_iff_right hcond.2, hr]
      cases r with
      | none => exact ih.mono fun bs hbs b => by simp [hbs b, hfind b]
      | some b' =>
        exact ih.bind fun bs hbs => .pure fun b => by simp [hbs b, hfind b, eq_comm]
    · rename_i hcond
      refine ih.mono fun bs hbs b => ?_
      rw [hbs b, or_iff_right]
      intro ⟨hagg, hv⟩
      have hb := verdictOn_spec hv
      exact hcond (by simp [hb.named, hb.layers, hagg])

/-- **The bindings that are found** are what the declarations of the program are. -/
theorem settles_findBindings_iff (s : Session) (a : Aggregate) :
    s.Settles (Engine.findBindings a) fun bs t => s.Same t ∧
      ∀ b, b ∈ bs ↔ ∃ decl ∈ s.document.root.ofClass .decl, s.Finds a decl b := by
  unfold Engine.findBindings
  have hfound : (s.bindings a).Settles fun found =>
      ∀ b, b ∈ found.1 ++ found.2 ↔ ∃ decl ∈ s.document.root.ofClass .decl, s.Finds a decl b := by
    unfold bindings
    refine (settles_bindingsAmong_iff s a _).bind fun bs hbs => .pure fun b => ?_
    rw [← hbs b]
    cases hp : b.isParam <;> simp [hp]
  exact (settles_report hfound).bind fun found t ht =>
    (settles_note _ _).bind fun _ v hv => .pure ⟨ht.1.trans hv, ht.2⟩

end Session

end Fieldwise
