import Fieldwise.Proofs.Session.Run
import Fieldwise.Proofs.Tree.Regular

/-!
# Computations that break no assertion

A computation `Settles` with a property of its results if it gives such a result or fails, and where
the `Discipline` is strict it breaks no assertion: it fails on a number that cannot be converted, or
on a node that lacks what it is asked for. This is said of plain results, of reports
(`Report.Settles`) and of computations on a session (`Session.Settles`), with one rule for each way
to compose them.
-/

namespace Fieldwise

namespace Session

variable {s t : Session}

/-- The sessions agree but for headers, names and the log. -/
structure Same (s t : Session) : Prop where
  document : t.document = s.document
  options : t.options = s.options
  aggregates : t.aggregates = s.aggregates
  decomposed : t.decomposed = s.decomposed

namespace Same

theorem refl (s : Session) : s.Same s := ⟨rfl, rfl, rfl, rfl⟩

theorem trans {u : Session} (h : s.Same t) (h' : t.Same u) : s.Same u :=
  ⟨h'.document.trans h.document, h'.options.trans h.options, h'.aggregates.trans h.aggregates,
    h'.decomposed.trans h.decomposed⟩

end Same

end Session

variable [Discipline] {α β : Type}

/-- A result with a property, or a failure that the discipline allows. -/
def Settles (r : Except Failure α) (Q : α → Prop) : Prop :=
  match r with
  | .ok x => Q x
  | .error f => Discipline.strict → f.kind ≠ .assertion

namespace Settles

variable {r : Except Failure α} {Q R : α → Prop}

theorem ok {x : α} (h : Q x) : Settles (.ok x) Q := h

theorem pure {x : α} (h : Q x) : Settles (Pure.pure x) Q := h

theorem error {f : Failure} (h : f.kind ≠ .assertion) : Settles (.error f) Q := fun _ => h

theorem mono (h : Settles r Q) (hQ : ∀ x, Q x → R x) : Settles r R := by
  cases r with
  | ok x => exact hQ x h
  | error f => exact h

theorem bind {f : α → Except Failure β} {R : β → Prop} (h : Settles r Q)
    (hf : ∀ x, Q x → Settles (f x) R) : Settles (r >>= f) R := by
  cases r with
  | ok x => exact hf x h
  | error f => exact h

theorem forM {f : α → Except Failure Unit} {xs : List α} {P : α → Prop}
    (h : ∀ x ∈ xs, Settles (f x) fun _ => P x) : Settles (xs.forM f) fun _ => ∀ x ∈ xs, P x := by
  induction xs with
  | nil => exact pure nofun
  | cons x xs ih =>
    exact (h x List.mem_cons_self).bind fun _ hx =>
      (ih fun y hy => h y (List.mem_cons_of_mem _ hy)).mono fun _ hxs =>
        List.forall_mem_cons.mpr ⟨hx, hxs⟩

end Settles

theorem settles_integer (z : Int) : Settles (Node.integer z) fun n => n = .intLiteral z := by
  unfold Node.integer
  split
  · exact .ok rfl
  · exact .error (by decide)

namespace Report

/-- The report settles, whatever the log is. -/
def Settles (r : Report α) (Q : α → Prop) : Prop := ∀ log, Fieldwise.Settles (r.run.run log).1 Q

namespace Settles

variable {r : Report α} {Q R : α → Prop}

theorem pure {x : α} (h : Q x) : Settles (Pure.pure x : Report α) Q := fun _ => h

theorem mono (h : Settles r Q) (hQ : ∀ x, Q x → R x) : Settles r R := fun log => (h log).mono hQ

theorem bind {f : α → Report β} {R : β → Prop} (h : Settles r Q)
    (hf : ∀ x, Q x → Settles (f x) R) : Settles (r >>= f) R := by
  intro log
  have hr := h log
  simp only [ExceptT.run_bind, StateT.run_bind]
  generalize StateT.run (ExceptT.run r) log = p at hr ⊢
  obtain ⟨_ | x, log'⟩ := p
  · exact hr
  · exact hf x hr log'

theorem note (n : Notice) (line : Option Nat) : Settles (Report.note n line) fun _ => True :=
  fun _ => trivial

theorem of {r : Except Failure α} (h : Fieldwise.Settles r Q) : Settles (Report.of r) Q :=
  fun _ => h

end Settles

end Report

namespace Session

variable {s t : Session}

/-- The computation settles from this session, with a property of the result and the session after
it. -/
def Settles (s : Session) (e : Engine α) (Q : α → Session → Prop) : Prop :=
  match s.run e with
  | (.ok x, t) => Q x t
  | (.error f, _) => Discipline.strict → f.kind ≠ .assertion

namespace Settles

variable {e : Engine α} {Q R : α → Session → Prop}

theorem pure {x : α} (h : Q x s) : s.Settles (Pure.pure x) Q := h

theorem mono (h : s.Settles e Q) (hQ : ∀ x t, Q x t → R x t) : s.Settles e R := by
  unfold Settles at h ⊢
  generalize s.run e = p at h ⊢
  obtain ⟨_ | x, t⟩ := p
  · exact h
  · exact hQ x t h

theorem bind {f : α → Engine β} {R : β → Session → Prop} (h : s.Settles e Q)
    (hf : ∀ x t, Q x t → t.Settles (f x) R) : s.Settles (e >>= f) R := by
  unfold Settles at h ⊢
  rw [run_bind]
  generalize s.run e = p at h ⊢
  obtain ⟨_ | x, t⟩ := p
  · exact h
  · exact hf x t h

theorem throw {f : Failure} (h : f.kind ≠ .assertion) : s.Settles (MonadExcept.throw f) Q :=
  fun _ => h

/-- Looking at the session first. -/
theorem get_bind {f : Session → Engine β} {R : β → Session → Prop} (h : s.Settles (f s) R) :
    s.Settles (getThe Session >>= f) R := by
  refine bind (Q := fun x t => x = s ∧ t = s) ⟨rfl, rfl⟩ ?_
  rintro x t ⟨rfl, rfl⟩
  exact h

theorem modify {f : Session → Session} {Q : Unit → Session → Prop} (h : Q () (f s)) :
    s.Settles (modifyThe Session f) Q := h

theorem edit {f : Document → Except Failure Document} {d : Document} {Q : Unit → Session → Prop}
    (hd : f s.document = .ok d) (h : Q () { s with document := d }) :
    s.Settles (Engine.edit f) Q := by
  unfold Settles
  rw [run_edit, hd]
  exact h

theorem report {r : Session → Report α} {P : α → Prop} (hr : (r s).Settles P)
    (h : ∀ x log, P x → Q x { s with log }) : s.Settles (Engine.report r) Q := by
  unfold Settles
  rw [run_report]
  have := hr s.log
  generalize StateT.run (ExceptT.run (r s)) s.log = p at this ⊢
  obtain ⟨_ | x, log⟩ := p
  · exact this
  · exact h x log this

end Settles

/-! ### Computations that leave the program alone -/

theorem settles_report {r : Session → Report α} {P : α → Prop} (hr : (r s).Settles P) :
    s.Settles (Engine.report r) fun x t => s.Same t ∧ P x :=
  .report hr fun _ _ h => ⟨⟨rfl, rfl, rfl, rfl⟩, h⟩

theorem settles_note (n : Notice) (line : Option Nat) :
    s.Settles (Engine.note n line) fun _ t => s.Same t :=
  (settles_report (r := fun _ => Report.note n line) (.note n line)).mono fun _ _ h => h.1

theorem settles_requireHeader (header : String) :
    s.Settles (Engine.requireHeader header) fun _ t => s.Same t :=
  .modify ⟨rfl, rfl, rfl, rfl⟩

theorem settles_freshName (base : String) : s.Settles (Engine.freshName base) fun _ t => s.Same t :=
  .get_bind ⟨rfl, rfl, rfl, rfl⟩

end Session

end Fieldwise
