import Fieldwise.Proofs.Session.Outcome

/-!
# Places of statements

A program whose statements stand where statements do is one of which that is true after all
decompositions, but for the branches of conditional expressions (`Session.sorted_decomposeAll`).
These have the slots that the branches of a conditional statement have. So an assignment or a call
that is one of them is taken for a statement, and a block comes to stand in an expression
(`Session.decomposeAll_blocks_branch`).
-/

namespace Fieldwise

open Node

namespace Node

/-- Statements stand where statements do: no expression is made of any. -/
def KeepsStatements (program : Node) : Prop :=
  ∀ n ∈ program.preorder, ∀ f ∈ n.form?, ∀ i, (h : i < n.parts.length) → n.parts[i].isStatement →
    f.holdsStatement i

instance (program : Node) : Decidable program.KeepsStatements :=
  inferInstanceAs (Decidable (∀ n ∈ program.preorder, ∀ f ∈ n.form?, ∀ i,
    (h : i < n.parts.length) → n.parts[i].isStatement → f.holdsStatement i))

theorem KeepsStatements.isSorted {program n : Node} (h : program.KeepsStatements)
    (hn : n ∈ program.preorder) : n.IsSorted := by
  intro f hf i c hc hst
  obtain ⟨hi, rfl⟩ := List.getElem?_eq_some_iff.mp hc
  exact .inl (h n hn f hf i hi hst)

end Node

namespace Session

variable {root program : Node} {options : Options} {taken : Option (List String)}
variable {source : String} {names : List String} {t : Session}

/-- **Decompositions keep declarations and statements where they belong**, but for blocks and empty
statements that are branches of conditional expressions. -/
theorem sorted_decomposeAll (hroot : root.IsSource) (hs : root.KeepsStatements)
    (hr : (Session.start root options taken).run Engine.decomposeAll = (.ok names, t)) :
    ∀ x ∈ t.document.root.preorder, x.IsPlaced ∧ x.IsSorted := by
  -- No assertion has to hold, as the run has come to an end.
  let _ : Discipline := ⟨False, True⟩
  have hsound : (Session.start root options taken).Sound :=
    sound_of_isSource hroot False.elim False.elim False.elim fun _ _ hn => hs.isSorted hn
  have hsettles : (Session.start root options taken).Settles Engine.decomposeAll
      fun _ t => t.Sound := .get_bind (hsound.settles_decomposeEach _)
  intro x hx
  have hreg := (hsettles.of_ok hr).document.regular x (Document.mem_trees_of_root hx)
  exact ⟨hreg.placed, hreg.sorted trivial⟩

/-- A program of which a check is true, with the session that decomposing all its aggregates ends
with. -/
theorem exists_decomposeAll (source : String) (check : Node → Session → Bool)
    (h : (finished source).any (fun p => (parse source).toOption.any (check · p.2)) = true) :
    ∃ program names t, parse source = .ok program ∧
      (Session.start program {} none).run Engine.decomposeAll = (.ok names, t) ∧
      check program t := by
  obtain ⟨s, t, hst, h⟩ := exists_finished source
    (fun _ t => (parse source).toOption.any (check · t)) h
  obtain ⟨program, names, hp, rfl, hr⟩ := finished_spec hst
  rw [hp] at h
  exact ⟨program, names, t, hp, hr, h⟩

/-- Assignments that are branches of a conditional statement and the body of a loop. -/
def branches : String :=
  "struct S \x7bint a, b;\x7d; void f(int c) \x7b struct S x, y; " ++
    "if (c) x = y; else while (c) y = x; \x7d"

theorem sorted_decomposeAll_branches : ∃ program names t, parse branches = .ok program ∧
    program.KeepsStatements ∧
    (Session.start program {} none).run Engine.decomposeAll = (.ok names, t) ∧
    (∃ x ∈ t.document.root.preorder, x.isA .whileLoop ∧ (x.child .stmt).isA .compound) ∧
    ∀ x ∈ t.document.root.preorder, x.IsPlaced ∧ x.IsSorted := by
  obtain ⟨program, names, t, hp, hr, h⟩ := exists_decomposeAll branches (fun program t =>
    decide program.KeepsStatements && t.document.root.preorder.any fun x =>
      x.isA .whileLoop && (x.child .stmt).isA .compound) (by decide +kernel)
  simp only [Bool.and_eq_true, decide_eq_true_eq, List.any_eq_true] at h
  exact ⟨program, names, t, hp, h.1, hr, h.2, sorted_decomposeAll (isSource_of_parse hp) h.1 hr⟩

/-- Assignments that are branches of a conditional expression. -/
def conditional : String :=
  "struct S \x7bint a;\x7d; void f(int c) \x7b struct S x, y; c ? (x = y) : (y = x); \x7d"

theorem decomposeAll_blocks_branch : ∃ program names t, parse conditional = .ok program ∧
    program.KeepsStatements ∧
    (Session.start program {} none).run Engine.decomposeAll = (.ok names, t) ∧
    t.entries .warning = [] ∧ ∃ x ∈ t.document.root.preorder, x.isA .ternaryOp ∧
      (x.child .ifTrue).isA .compound ∧ (x.child .ifFalse).isA .compound := by
  obtain ⟨program, names, t, hp, hr, h⟩ := exists_decomposeAll conditional (fun program t =>
    decide program.KeepsStatements && (t.entries .warning).isEmpty &&
      t.document.root.preorder.any fun x => x.isA .ternaryOp &&
        ((x.child .ifTrue).isA .compound && (x.child .ifFalse).isA .compound)) (by decide +kernel)
  simp only [Bool.and_eq_true, decide_eq_true_eq, List.isEmpty_iff, List.any_eq_true] at h
  exact ⟨program, names, t, hp, h.1.1, hr, h.1.2, h.2⟩

end Session

end Fieldwise
