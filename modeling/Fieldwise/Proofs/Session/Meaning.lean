import Fieldwise.Session.Scope

/-!
# What a name means

The binding that a name means at a place (`Session.meaning?`), apart from what the lookup reports on
its way. What a lookup finds does not depend on the log, and one that finds a binding reports
nothing (`Session.run_lookup_of_meaning?`).
-/

namespace Fieldwise

/-- A report in two parts gives a result if both do. -/
theorem Report.run_bind_eq_ok {α β : Type} {r : Report α} {f : α → Report β} {y : β}
    {log log' : List Entry} :
    (r >>= f).run.run log = (.ok y, log') ↔
      ∃ x mid, r.run.run log = (.ok x, mid) ∧ (f x).run.run mid = (.ok y, log') := by
  have hrun : (r >>= f).run.run log = match r.run.run log with
      | (.ok x, mid) => (f x).run.run mid
      | (.error x, mid) => (.error x, mid) := by
    simp only [ExceptT.run_bind, StateT.run_bind]
    rcases StateT.run (ExceptT.run r) log with ⟨_ | _, mid⟩ <;> rfl
  rw [hrun]
  rcases r.run.run log with ⟨f | x, mid⟩
  · exact ⟨fun h => (nomatch h), fun ⟨_, _, h, _⟩ => (nomatch h)⟩
  · constructor
    · exact fun h => ⟨x, mid, rfl, h⟩
    · rintro ⟨x', mid', h, h'⟩
      cases h
      exact h'

namespace Session

variable {s : Session} {n : Node} {name : String} {b : Binding} {log : List Entry}

/-- A lookup has one result and reports the same, whatever the log is; nothing if it finds a
binding. -/
def Steadily (r : Report (Option Binding)) : Prop :=
  ∃ found noted, (∀ log, r.run.run log = (found, noted ++ log)) ∧
    ∀ b, found = .ok (some b) → noted = []

theorem steadily_classify (s : Session) (decl : Node) : Steadily (s.classify decl true) := by
  unfold classify
  cases s.verdictOn decl with
  | error f => exact ⟨.error f, [], fun _ => rfl, fun _ _ => rfl⟩
  | ok v =>
    cases v with
    | unrelated => exact ⟨.ok none, [], fun _ => rfl, fun _ _ => rfl⟩
    | skipped reason => exact ⟨.ok none, [_], fun _ => rfl, fun b h => by cases h⟩
    | binding b => exact ⟨.ok (some b), [], fun _ => rfl, fun _ _ => rfl⟩

theorem steadily_lookupIn (s : Session) (name : String) (child : Node) (scopes : List Node) :
    Steadily (s.lookupIn name child scopes) := by
  induction scopes generalizing child with
  | nil => exact ⟨.ok none, [], fun _ => rfl, fun _ _ => rfl⟩
  | cons scope outer ih =>
    unfold lookupIn
    cases s.decomposedIn? scope name with
    | some b => exact ⟨.ok (some b), [], fun _ => rfl, fun _ _ => rfl⟩
    | none =>
      cases declaredAmong name child (itemsOf scope) with
      | some decl => exact steadily_classify s decl
      | none => exact ih scope

/-- The binding that a name means at a node. -/
def meaning? (s : Session) (n : Node) (name : String) : Option Binding :=
  match ((s.lookup n name).run.run []).1 with
  | .ok found => found
  | .error _ => none

/-- A lookup that finds a binding finds what the name means. -/
theorem meaning?_of_run (h : ((s.lookup n name).run.run log).1 = .ok (some b)) :
    s.meaning? n name = some b := by
  obtain ⟨found, noted, hrun, -⟩ := steadily_lookupIn s name n (s.document.ancestors n)
  rw [lookup, hrun] at h
  rw [meaning?, lookup, hrun, show found = .ok (some b) from h]

/-- A name that means a binding is looked up without a report. -/
theorem run_lookup_of_meaning? (h : s.meaning? n name = some b) (log : List Entry) :
    (s.lookup n name).run.run log = (.ok (some b), log) := by
  obtain ⟨found, noted, hrun, hquiet⟩ := steadily_lookupIn s name n (s.document.ancestors n)
  rw [meaning?, lookup, hrun] at h
  obtain rfl : found = .ok (some b) := by
    cases found with
    | error f => cases h
    | ok r => rw [show r = some b from h]
  rw [lookup, hrun, hquiet b rfl]
  rfl

end Session

end Fieldwise
