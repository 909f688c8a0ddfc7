import Fieldwise.Session.Decomposition

/-!
# Runs of computations on a session

What `Session.run` does for each operation that computations on a session are made of. A computation
that is built from others runs them one after the other until one fails (`Session.run_bind`,
`Session.run_bind_eq_ok`).
-/

namespace Fieldwise

namespace Session

variable {α β : Type} {s s' : Session}

@[simp] theorem run_pure (x : α) : s.run (pure x : Engine α) = (.ok x, s) := rfl

@[simp] theorem run_throw (f : Failure) : s.run (throw f : Engine α) = (.error f, s) := rfl

@[simp] theorem run_get : s.run (getThe Session : Engine Session) = (.ok s, s) := rfl

@[simp] theorem run_modify (f : Session → Session) :
    s.run (modifyThe Session f : Engine Unit) = (.ok (), f s) := rfl

theorem run_bind (e : Engine α) (f : α → Engine β) :
    s.run (e >>= f) = match s.run e with
      | (.ok x, t) => t.run (f x)
      | (.error x, t) => (.error x, t) := by
  simp only [Session.run, ExceptT.run_bind, StateT.run_bind]
  rcases StateT.run (ExceptT.run e) s with ⟨_ | _, t⟩ <;> rfl

/-- A computation in two parts gives a result if both do. -/
theorem run_bind_eq_ok {e : Engine α} {f : α → Engine β} {y : β} :
    s.run (e >>= f) = (.ok y, s') ↔
      ∃ x t, s.run e = (.ok x, t) ∧ t.run (f x) = (.ok y, s') := by
  rw [run_bind]
  rcases s.run e with ⟨_ | x, t⟩ <;> simp [and_assoc]

/-- A computation that begins with one that gives a result. -/
theorem run_bind_of_ok {e : Engine α} {f : α → Engine β} {x : α} (h : s.run e = (.ok x, s')) :
    s.run (e >>= f) = s'.run (f x) := by
  rw [run_bind, h]

/-- Computations that begin alike. -/
theorem run_bind_congr {e e' : Engine α} {f : α → Engine β} (h : s.run e = s.run e') :
    s.run (e >>= f) = s.run (e' >>= f) := by
  rw [run_bind, run_bind, h]

@[simp] theorem run_edit (e : Document → Except Failure Document) :
    s.run (Engine.edit e) = match e s.document with
      | .ok document => (.ok (), { s with document })
      | .error f => (.error f, s) := rfl

@[simp] theorem run_report (r : Session → Report α) :
    s.run (Engine.report r) =
      (((r s).run.run s.log).1, { s with log := ((r s).run.run s.log).2 }) := rfl

/-- The aggregates are those that are collected from the program. -/
theorem run_collect : s.run Engine.collect =
    match (Aggregate.collect s.document.root).run.run s.log with
    | (.ok aggregates, log) => (.ok (), { s with aggregates, log })
    | (.error f, log) => (.error f, { s with log }) := by
  rw [Engine.collect, run_bind, run_report]
  rcases StateT.run (ExceptT.run (Aggregate.collect s.document.root)) s.log with ⟨_ | _, log⟩ <;>
    rfl

@[simp] theorem run_requireHeader (header : String) :
    s.run (Engine.requireHeader header) =
      (.ok (), { s with headers := insertSorted header s.headers }) := rfl

end Session

end Fieldwise
