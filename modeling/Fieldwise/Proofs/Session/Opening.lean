import Fieldwise.Proofs.Aggregate.Collecting
import Fieldwise.Proofs.Document.Start
import Fieldwise.Proofs.Session.Decomposing
import Fieldwise.Proofs.Source.Program
import Fieldwise.Proofs.Tree.Callee

/-!
# Decompositions of programs

The session that begins with a program is sound (`Session.sound_of_isSource`). If the calls of the
assignment operator have two arguments and the function definitions declare functions, the program
keeps to the discipline (`Node.regular_of_placed`), and so its aggregates are found and all of them
decomposed without breaking an assertion (`Session.run_decomposeAll`). Without the condition on
function definitions this is not so: the head of one may be a variable with a type of its own.
-/

namespace Fieldwise

open Node

namespace Node

variable {n program : Node}

/-- Calls of the assignment operator have two arguments. -/
def AssignsPairs (program : Node) : Prop :=
  ∀ n ∈ program.preorder, n.callName? = some "operator=" →
    ∀ args ∈ n.parts, args.isA .exprList → args.parts.length = 2

/-- Function definitions declare functions. -/
def DefinesFunctions (program : Node) : Prop :=
  ∀ n ∈ program.preorder, n.isA .funcDef → (n.child .decl).declaresFunction

instance (program : Node) : Decidable program.AssignsPairs :=
  inferInstanceAs (Decidable (∀ n ∈ program.preorder, n.callName? = some "operator=" →
    ∀ args ∈ n.parts, args.isA .exprList → args.parts.length = 2))

instance (program : Node) : Decidable program.DefinesFunctions :=
  inferInstanceAs (Decidable (∀ n ∈ program.preorder, n.isA .funcDef →
    (n.child .decl).declaresFunction))

/-- **A program is regular if declarations stand where they can**, and if the two conditions hold
where the discipline is strict, and statements stand where they can where it is sorted. -/
theorem regular_of_placed [Discipline] (h : ∀ n ∈ program.preorder, n.IsPlaced)
    (hc : Discipline.strict → program.AssignsPairs)
    (hf : Discipline.strict → program.DefinesFunctions)
    (hs : Discipline.sorted → ∀ n ∈ program.preorder, n.IsSorted) : Regular [program] := by
  intro n hn
  have hm := mem_preorderAll_singleton.mp hn
  refine ⟨h n hm, fun hs hcall a ha k hk => ?_, fun hs hfunc d hd => ?_, fun hsort => hs hsort n hm⟩
  · unfold exprCount? at hk
    split at hk
    · rename_i hl
      obtain rfl : a.parts.length = k := by simpa using hk
      exact hc hs n hm hcall a ha hl
    · cases hk
  · have hfunc' := hf hs n hm hfunc
    cases n with
    | absent => cases hfunc
    | mk m f ps =>
      have hcls : f.cls = .funcDef := by simpa [isA, cls?, form?] using hfunc
      have hidx : Class.funcDef.slots.idxOf .decl = 0 := by decide
      have hd : ps[0]? = some d := hd
      rwa [child_mk, hcls, hidx, hd] at hfunc'

/-- Where the calls of a function are taken for assignments, declarations stand where they did. -/
theorem IsSource.asOperator (h : program.IsSource) (function : String) :
    (program.asOperator function).IsSource := by
  obtain ⟨⟨next, hdraft⟩, hprogram⟩ := h
  exact ⟨⟨next, hdraft.asOperator function⟩, hprogram.asOperator function⟩

end Node

/-- The types of the fields of an aggregate are in the program. -/
theorem Aggregate.IsOf.isTermOf [Discipline] {d : Document} {a : Aggregate} {known : List String}
    (ha : a.IsOf known d.root) (h : d.Sound) : ∀ f ∈ a.fields, d.IsTermOf f.type := by
  intro f hf
  obtain ⟨m, spec, rest, hdecl⟩ := ha.exists_member hf
  have hterm : f.type.IsTerm := (h.regular.of_mem_preorderAll
    (Document.mem_trees_of_root hdecl)).isTerm_of_mem (fun _ => rfl) List.mem_cons_self
  refine ⟨?_, hterm.decl, hterm.inner⟩
  cases ht : f.type with
  | absent => exact .absent h
  | mk m' f' ps' => exact .of_mem h (Document.mem_trees_of_root
      (mem_preorder_of_part hdecl (ht ▸ List.mem_cons_self) rfl))

namespace Session

variable {root program : Node} {options : Options} {taken : Option (List String)}

/-- The session at the start is that for the program, with the aggregates that are found in it; with
none, if the search failed. -/
theorem start_spec (root : Node) (options : Options) (taken : Option (List String)) :
    ∃ aggregates log, Session.start root options taken =
        { ofProgram root options taken with aggregates, log } ∧
      (aggregates = [] ∨
        (Aggregate.collect (ofProgram root options taken).document.root).run.run [] =
          (.ok aggregates, log)) := by
  rw [start, opening, run_collect]
  have hlog : (ofProgram root options taken).log = [] := rfl
  rw [hlog]
  rcases StateT.run (ExceptT.run (Aggregate.collect _)) [] with ⟨f | aggregates, log⟩
  · exact ⟨[], log, rfl, .inl rfl⟩
  · exact ⟨aggregates, log, rfl, .inr rfl⟩

theorem document_start (root : Node) (options : Options) (taken : Option (List String)) :
    (Session.start root options taken).document = (ofProgram root options taken).document := by
  obtain ⟨aggregates, log, h, -⟩ := start_spec root options taken
  rw [h]

theorem names_start (root : Node) (options : Options) (taken : Option (List String)) :
    (Session.start root options taken).names = (ofProgram root options taken).names := by
  obtain ⟨aggregates, log, h, -⟩ := start_spec root options taken
  rw [h]

theorem decomposed_start (root : Node) (options : Options) (taken : Option (List String)) :
    (Session.start root options taken).decomposed = [] := by
  obtain ⟨aggregates, log, h, -⟩ := start_spec root options taken
  rw [h]
  rfl

/-- The aggregates of a session at the start are those of its program. -/
theorem isOf_start (root : Node) (options : Options) (taken : Option (List String)) :
    ∃ known, ∀ a ∈ (Session.start root options taken).aggregates,
      a.IsOf known (Session.start root options taken).document.root := by
  let _ : Discipline := ⟨False, False⟩
  rw [document_start]
  obtain ⟨aggregates, log, hs, rfl | hrun⟩ := start_spec root options taken
  · rw [hs]
    exact ⟨[], nofun⟩
  · have hcollect := Aggregate.settles_collect (ofProgram root options taken).document.root []
    rw [hrun] at hcollect
    rw [hs]
    exact hcollect

/-- **The session for a regular program is sound**, before its aggregates are found. -/
theorem sound_ofProgram [Discipline] {a b : Nat} (h : Draft a b [root]) (hf : root.isA .file)
    (hr : Regular [root]) (ho : Discipline.strict → options.copyFunction ≠ "operator=") :
    (ofProgram root options taken).Sound :=
  ⟨Splitting.sound_run (Document.sound_ofRoot h hf hr), nofun, nofun, nofun, nofun, ho⟩

/-- With the aggregates of its program a session is sound still. -/
theorem Sound.with_aggregates [Discipline] {s : Session} (h : s.Sound) {known : List String}
    {aggregates : List Aggregate} (ha : ∀ a ∈ aggregates, a.IsOf known s.document.root)
    (log : List Entry) : Sound { s with aggregates, log } :=
  { h with
    nonempty := fun a hm => (ha a hm).nonempty
    aggregates := fun a hm => (ha a hm).isTermOf h.document }

/-- **The session that begins with a regular program is sound.** -/
theorem sound_start [Discipline] {a b : Nat} (h : Draft a b [root]) (hf : root.isA .file)
    (hr : Regular [root]) (ho : Discipline.strict → options.copyFunction ≠ "operator=") :
    (Session.start root options taken).Sound := by
  obtain ⟨known, ha⟩ := isOf_start root options taken
  rw [document_start] at ha
  obtain ⟨aggregates, log, hs, -⟩ := start_spec root options taken
  rw [hs] at ha ⊢
  exact (sound_ofProgram h hf hr ho).with_aggregates ha log

/-- The search for aggregates breaks no assertion, and what it finds is in the program. -/
theorem Sound.settles_collect [Discipline] {s : Session} (h : s.Sound) :
    s.Settles Engine.collect fun _ t => t.Sound := by
  refine (settles_report (Aggregate.settles_collect _)).bind ?_
  rintro aggregates t ⟨hst, known, ha⟩
  exact .modify ((h.same hst).with_aggregates (hst.document ▸ ha) t.log)

/-- **The session that begins with a program is sound.** -/
theorem sound_of_isSource [Discipline] (h : root.IsSource)
    (hc : Discipline.strict → root.AssignsPairs) (hf : Discipline.strict → root.DefinesFunctions)
    (ho : Discipline.strict → options.copyFunction ≠ "operator=")
    (hs : Discipline.sorted → ∀ n ∈ root.preorder, n.IsSorted) :
    (Session.start root options taken).Sound := by
  obtain ⟨⟨next, hdraft⟩, hprogram⟩ := h
  exact sound_start hdraft hprogram.file
    (regular_of_placed (fun _ => hprogram.isPlaced) hc hf hs) ho

/-- **Functions are defined at the top of a document** that begins with a program. -/
theorem definesAtTop_of_isSource (h : root.IsSource) :
    (Session.start root options taken).document.root.DefinesAtTop := by
  let _ : Discipline := ⟨False, False⟩
  obtain ⟨⟨next, hdraft⟩, hprogram⟩ := h
  rw [document_start]
  exact Splitting.definesAtTop_run (Document.sound_ofRoot hdraft hprogram.file
    (regular_of_placed (fun _ => hprogram.isPlaced) False.elim False.elim False.elim))
    (hprogram.definesAtTop.stamp _)

/-- **Decomposing all aggregates of a program breaks no assertion.** It comes to an end or fails on
a number that cannot be converted, or on a node that lacks what it is asked for. -/
theorem run_decomposeAll (h : root.IsSource) (hc : root.AssignsPairs) (hf : root.DefinesFunctions)
    (ho : options.copyFunction ≠ "operator=") (taken : Option (List String)) :
    (∃ names t, (ofProgram root options taken).run (do Engine.collect; Engine.decomposeAll) =
        (.ok names, t)) ∨
      ∃ f t, (ofProgram root options taken).run (do Engine.collect; Engine.decomposeAll) =
        (.error f, t) ∧ (f.kind = .value ∨ f.kind = .missing) := by
  let _ : Discipline := ⟨True, False⟩
  obtain ⟨⟨next, hdraft⟩, hprogram⟩ := h
  have hsound : (ofProgram root options taken).Sound := sound_ofProgram hdraft hprogram.file
    (regular_of_placed (fun _ => hprogram.isPlaced) (fun _ => hc) (fun _ => hf) False.elim)
    fun _ => ho
  have hsettles : (ofProgram root options taken).Settles
      (do Engine.collect; Engine.decomposeAll) fun _ _ => True :=
    hsound.settles_collect.bind fun _ t ht =>
      .get_bind ((ht.settles_decomposeEach _).mono fun _ _ _ => trivial)
  unfold Settles at hsettles
  cases hr : (ofProgram root options taken).run (do Engine.collect; Engine.decomposeAll) with
  | mk result t =>
    rw [hr] at hsettles
    cases result with
    | ok names => exact .inl ⟨names, t, rfl⟩
    | error f =>
      refine .inr ⟨f, t, rfl, ?_⟩
      cases hk : f.kind with
      | assertion => exact (hsettles trivial hk).elim
      | value => exact .inl rfl
      | missing => exact .inr rfl

/-- Two structs, one of which is assigned to the other by a function. -/
def assignedBy : String :=
  "struct S \x7bint v;\x7d; void f(void) \x7b struct S a, b; b.v = 1; set(a, b); \x7d"

theorem run_decomposeAll_assignedBy : ∃ program, parse assignedBy = .ok program ∧
    (program.asOperator "set").IsSource ∧ (program.asOperator "set").AssignsPairs ∧
    (program.asOperator "set").DefinesFunctions ∧
    ((∃ names t, (ofProgram (program.asOperator "set") {} none).run
        (do Engine.collect; Engine.decomposeAll) = (.ok names, t)) ∨
      ∃ f t, (ofProgram (program.asOperator "set") {} none).run
        (do Engine.collect; Engine.decomposeAll) = (.error f, t) ∧
          (f.kind = .value ∨ f.kind = .missing)) := by
  have h : (match parse assignedBy with
      | .ok program => decide (program.asOperator "set").AssignsPairs &&
          decide (program.asOperator "set").DefinesFunctions
      | .error _ => false) = true := by decide +kernel
  cases hp : parse assignedBy with
  | error e =>
    rw [hp] at h
    cases h
  | ok program =>
    rw [hp] at h
    obtain ⟨hc, hf⟩ : (program.asOperator "set").AssignsPairs ∧
        (program.asOperator "set").DefinesFunctions := by simpa using h
    have hs := (isSource_of_parse hp).asOperator "set"
    exact ⟨program, rfl, hs, hc, hf, run_decomposeAll hs hc hf (by decide) none⟩

/-- Whether the calls of a program that stand for assignments have two arguments, and decomposing
all its aggregates stops at a failure all the same. -/
def stopsAt (source : String) (options : Options) (f : Failure) : Bool :=
  match parse source with
  | .error _ => false
  | .ok program => decide program.AssignsPairs &&
      match ((ofProgram program options none).run
        (do Engine.collect; Engine.decomposeAll : Engine (List String))).1 with
      | .error f' => f' == f
      | .ok _ => false

theorem stopsAt_spec {source : String} {f : Failure} (h : stopsAt source options f) :
    ∃ program t, parse source = .ok program ∧ program.AssignsPairs ∧
      (ofProgram program options none).run (do Engine.collect; Engine.decomposeAll) =
        (.error f, t) := by
  unfold stopsAt at h
  cases hp : parse source with
  | error e => simp [hp] at h
  | ok program =>
    rw [hp] at h
    cases hr : (ofProgram program options none).run (do Engine.collect; Engine.decomposeAll) with
    | mk result t =>
      simp only [hr] at h
      cases result with
      | ok names => simp at h
      | error f' =>
        obtain ⟨hc, rfl⟩ : program.AssignsPairs ∧ f' = f := by simpa using h
        exact ⟨program, t, rfl, hc, hr⟩

/-- The head of a function definition may declare a variable, which stands in no list. And if the
function that copies is named like an assignment, calls that copy a field have three arguments. -/
theorem run_decomposeAll_stops :
    (∃ program t, parse "struct S \x7bint a;\x7d; struct S x \x7b \x7d" = .ok program ∧
      program.AssignsPairs ∧
      (ofProgram program {} none).run (do Engine.collect; Engine.decomposeAll) =
        (.error (.notInList .decl), t)) ∧
    ∃ program t, parse ("struct S \x7bint w[2];\x7d; struct T \x7bint i;\x7d; " ++
        "void f(void) \x7b struct T x_w; struct S x, y; x = y; \x7d") = .ok program ∧
      program.AssignsPairs ∧
      (ofProgram program { copyFunction := "operator=" } none).run
        (do Engine.collect; Engine.decomposeAll) = (.error .operandCount, t) :=
  ⟨stopsAt_spec (by decide +kernel), stopsAt_spec (by decide +kernel)⟩

end Session

end Fieldwise
