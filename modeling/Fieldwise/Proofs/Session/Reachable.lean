import Fieldwise.Proofs.Session.Opening

/-!
# The sessions that decompositions lead to

The sessions that decompositions of a program lead to (`Session.Reachable`) are sound, whatever the
program is (`Session.Reachable.sound`). So each further decomposition leaves alone what is not its
business: the items of blocks in which none of its bindings is named or declared stay where they
are, as they are (`Session.Reachable.decompose_spares`).
-/

namespace Fieldwise

open Node

namespace Session

variable {s t : Session} {a : Aggregate} {names : List String}

/-- The sessions that any number of decompositions lead to, from that for a program. -/
inductive Reachable : Session → Prop where
  | start {root : Node} (options : Options) (taken : Option (List String)) : root.IsSource →
    Reachable (Session.start root options taken)
  | decompose {s t : Session} {a : Aggregate} {names : List String} : Reachable s →
    s.run (Engine.decompose a) = (.ok names, t) → Reachable t

/-- The session of a program that can be read, the first aggregate of it, and the session after that
was decomposed. -/
def firstStep (source : String) : Option (Session × Aggregate × Session) :=
  match parse source with
  | .error _ => none
  | .ok program =>
    match (Session.start program {} none).aggregates with
    | [] => none
    | a :: _ =>
      match (Session.start program {} none).run (Engine.decompose a) with
      | (.ok _, t) => some (Session.start program {} none, a, t)
      | (.error _, _) => none

theorem firstStep_spec {source : String} (h : firstStep source = some (s, a, t)) :
    Reachable s ∧ ∃ names, s.run (Engine.decompose a) = (.ok names, t) := by
  unfold firstStep at h
  cases hp : parse source with
  | error e => simp [hp] at h
  | ok program =>
    simp only [hp] at h
    have hstart : Reachable (Session.start program {} none) := 
      .start {} none (isSource_of_parse hp)
    generalize Session.start program {} none = s' at h hstart
    split at h
    case h_1 => cases h
    split at h
    case h_2 => cases h
    rename_i hr
    obtain ⟨rfl, rfl, rfl⟩ : s' = s ∧ _ = a ∧ _ = t := by simpa using h
    exact ⟨hstart, _, hr⟩

/-- A computation that settles and has a result. -/
theorem Settles.of_ok [Discipline] {α : Type} {e : Engine α} {Q : α → Session → Prop} {x : α}
    (h : s.Settles e Q) (hr : s.run e = (.ok x, t)) : Q x t := by
  unfold Settles at h
  rwa [hr] at h

namespace Reachable

/-- **Nothing is wrong with a session that decompositions lead to.** No discipline is asked of the
program: a decomposition that breaks an assertion has no result. -/
theorem sound [Discipline] (hd : Discipline.IsLax) (h : Reachable s) : s.Sound := by
  induction h with
  | start options taken hroot =>
    exact sound_of_isSource hroot (absurd · hd.1) (absurd · hd.1) (absurd · hd.1) (absurd · hd.2)
  | decompose _ hr ih => exact ((ih.settles_decompose _).of_ok hr).sound

/-- Several decompositions, one after the other. -/
theorem decomposeEach (h : Reachable s) {as : List Aggregate}
    (hr : s.run (Engine.decomposeEach as) = (.ok names, t)) : Reachable t := by
  induction as generalizing s names with
  | nil =>
    obtain ⟨-, rfl⟩ : [] = names ∧ s = t := by simpa [Engine.decomposeEach] using hr
    exact h
  | cons a as ih =>
    unfold Engine.decomposeEach at hr
    obtain ⟨_, v, hv, hr⟩ := run_bind_eq_ok.mp hr
    obtain ⟨_, w, hw, hr⟩ := run_bind_eq_ok.mp hr
    obtain ⟨-, rfl⟩ : _ ∧ w = t := by simpa using hr
    exact ih (h.decompose hv) hw

theorem decomposeAll (h : Reachable s) (hr : s.run Engine.decomposeAll = (.ok names, t)) :
    Reachable t := by
  unfold Engine.decomposeAll at hr
  obtain ⟨_, _, hs, hr⟩ := run_bind_eq_ok.mp hr
  rw [run_get] at hs
  cases hs
  exact h.decomposeEach hr

/-- **A decomposition leaves alone what is not its business.** It changes or takes out declarations
of bindings and of the functions whose parameters they are, and rewrites expressions that are made
of a use of a binding. What is in no such declaration, and in no such expression that is gone,
stays, and keeps those of its parts in which nothing is named or declared like this, in order: in
particular a file, a block or a case keeps such items. -/
theorem decompose_spares (h : Reachable s) (hr : s.run (Engine.decompose a) = (.ok names, t)) :
    ∀ L ∈ s.document.root.search fun _ n => (s.subject (s.boundTo a)).rewrites t.document n,
      ∃ L' ∈ t.document.root.preorder, L'.key = L.key ∧ L'.form? = L.form? ∧
        (L.parts.filter (s.subject (s.boundTo a)).spares).Sublist L'.parts := by
  let _ : Discipline := ⟨False, False⟩
  have hs : s.Sound := h.sound ⟨id, id⟩
  have hp := (hs.settles_decompose a).of_ok hr
  generalize hu : s.subject (s.boundTo a) = u at hp ⊢
  have hstart : u.start = s.document := by rw [← hu]; rfl
  have hroot : u.declares s.document.root = false := by
    rw [Subject.declares, isA_of_ne hs.document.file (by decide)]
    rfl
  -- A node that is reached stays, and is none of the declarations.
  have hreach : ∀ L ∈ s.document.root.search fun _ n => u.rewrites t.document n,
      L ∈ s.document.root.preorder ∧ u.declares L = false ∧
        ∃ L' ∈ t.document.root.preorder, L'.key = L.key := by
    refine search_induction ⟨hs.document.root_mem, hroot, t.document.root,
      hp.sound.document.root_mem, hp.continues.root⟩ fun q _ hq c hc hcp hct => ?_
    obtain ⟨hqm, hqd, q', hq', hk⟩ := hq
    have hcm := mem_preorder_of_part hqm hc hcp
    obtain ⟨k, hkc⟩ := hs.document.exists_key hcm
    have hcd : u.declares c = false := Bool.eq_false_iff.mpr fun hd => by
      simp [Subject.rewrites, Subject.touches, hd] at hct
    obtain ⟨c', hc', hck⟩ | ⟨hr, hgone⟩ :=
      hp.frames.parts q (hstart ▸ hqm) hqd q' hq' hk c hc hcp hcd
    · exact ⟨hcm, hcd, c', mem_preorder_of_part hq' hc' (isPresent_of_key (hck.trans hkc)), hck⟩
    · -- An expression that was passed is not gone.
      have ha : t.document.attached c := by
        simpa [Subject.rewrites, Subject.touches, hcd, hr] using hct
      obtain ⟨y, hy, hyk, -⟩ := Document.attached_iff.mp ha
      exact (hgone y hy hyk).elim
  intro L hL
  obtain ⟨hLm, hLd, L', hL', hk⟩ := hreach L hL
  refine ⟨L', hL', hk, ?_, hp.frames.spared L (hstart ▸ hLm) hLd L' hL' hk⟩
  exact hp.frames.form?_eq (hstart ▸ hLm) (Document.mem_trees_of_root hL') hk

/-- A block that is an expression, with a use of a parameter between two statements. -/
def betweenStatements : String :=
  "struct S \x7bint v;\x7d; int f(struct S *p) \x7b return (\x7b 1; p->v; 2; \x7d); \x7d"

theorem decompose_spares_betweenStatements : ∃ s a t, firstStep betweenStatements = some (s, a, t) ∧
    ∀ L ∈ s.document.root.search fun _ n => (s.subject (s.boundTo a)).rewrites t.document n,
      ∃ L' ∈ t.document.root.preorder, L'.key = L.key ∧ L'.form? = L.form? ∧
        (L.parts.filter (s.subject (s.boundTo a)).spares).Sublist L'.parts := by
  have h : (firstStep betweenStatements).isSome := by decide +kernel
  obtain ⟨⟨s, a, t⟩, hf⟩ := Option.isSome_iff_exists.mp h
  obtain ⟨hs, names, hr⟩ := firstStep_spec hf
  exact ⟨s, a, t, hf, hs.decompose_spares hr⟩

/-- A block that is assigned to a field of a parameter, and one that is an argument next to it. -/
def besideUses : String :=
  "struct S \x7bint v;\x7d; int g(struct S s, int n); int f(struct S x) \x7b " ++
    "x.v = (\x7b 1; 2; \x7d); return g(x, (\x7b 3; 4; \x7d)); \x7d"

/-- Both blocks stay, like the body of the function. -/
example : (firstStep besideUses).any (fun r =>
    ((r.1.document.root.search fun _ n =>
      (r.1.subject (r.1.boundTo r.2.1)).rewrites r.2.2.document n).filter
        (·.isA .compound)).length == 3) = true := by decide +kernel

/-- A block that is a subscript of a parameter. -/
def withinSubscript : String :=
  "struct S \x7bint a; int w[4];\x7d; void g(int t); " ++
    "int f(struct S *p) \x7b return sizeof(p[(\x7b int t; t = 1; g(t); t; \x7d)].w); \x7d"

/-- The statements of a block that is a subscript do not stay where the subscript is rewritten. -/
theorem decompose_loses_withinSubscript : ∃ s a t, firstStep withinSubscript = some (s, a, t) ∧
    ∃ L ∈ s.document.root.preorder, L.isA .compound ∧ ∃ i ∈ L.parts,
      (s.subject (s.boundTo a)).spares i ∧ t.document.attached i = false := by
  have h : (match firstStep withinSubscript with
    | some (s, a, t) => decide (∃ L ∈ s.document.root.preorder, L.isA .compound ∧ ∃ i ∈ L.parts,
        (s.subject (s.boundTo a)).spares i ∧ t.document.attached i = false)
    | none => false) = true := by decide +kernel
  cases hf : firstStep withinSubscript with
  | none => simp [hf] at h
  | some r =>
    obtain ⟨s, a, t⟩ := r
    simp only [hf] at h
    exact ⟨s, a, t, rfl, of_decide_eq_true h⟩

end Reachable

end Session

end Fieldwise
