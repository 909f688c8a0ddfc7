import Fieldwise.Proofs.Session.Bases

/-!
# Decompositions one binding at a time

Bindings are found and decomposed one after the other (`Session.Reached`). Whatever was found and
decomposed before, the session is sound, it knows the bindings, and each of them is based on a
struct or on the name of a type (`Session.Reached.ready`). Every session between the decompositions
of aggregates is reached like this (`Session.Reachable.exists_reached`).
-/

namespace Fieldwise

open Node

namespace Session

variable {s t : Session} {a : Aggregate} {b : Binding} {bs cs : List Binding} {decl : Node}

/-- The sessions that searches for bindings and decompositions of bindings lead to, from that for a
program, with the bindings that were found. -/
inductive Reached : Session → List Binding → Prop where
  | start {root : Node} (options : Options) (taken : Option (List String)) : root.IsSource →
    Reached (Session.start root options taken) []
  | find {s t : Session} {a : Aggregate} {bs cs : List Binding} : Reached s bs →
    s.run (Engine.findBindings a) = (.ok cs, t) → Reached t (bs ++ cs)
  | decompose {s t : Session} {b : Binding} {bs : List Binding} : Reached s bs → b ∈ bs →
    s.document.attached b.decl → s.run (Engine.decomposeBinding b) = (.ok (), t) → Reached t bs

namespace Reached

/-- Those of the bindings that are attached are decomposed, one after the other. -/
theorem decomposeAttached (h : Reached s bs) (hc : ∀ c ∈ cs, c ∈ bs) {names : List String}
    (hr : s.run (Engine.decomposeAttached cs) = (.ok names, t)) : Reached t bs := by
  induction cs generalizing s names with
  | nil =>
    cases hr
    exact h
  | cons c cs ih =>
    have hcs := fun b hb => hc b (List.mem_cons_of_mem _ hb)
    unfold Engine.decomposeAttached at hr
    obtain ⟨_, _, hget, hr⟩ := run_bind_eq_ok.mp hr
    cases hget
    split at hr
    · rename_i ha
      obtain ⟨⟨⟩, v, hv, hr⟩ := run_bind_eq_ok.mp hr
      obtain ⟨_, w, hw, hr⟩ := run_bind_eq_ok.mp hr
      cases hr
      exact ih (h.decompose (hc c List.mem_cons_self) ha hv) hcs hw
    · exact ih h hcs hr

end Reached

/-- **Between the decompositions of aggregates** the session is one that is reached like this. -/
theorem Reachable.exists_reached (h : Reachable s) : ∃ bs, Reached s bs := by
  induction h with
  | start options taken hroot => exact ⟨[], .start options taken hroot⟩
  | decompose _ hr ih =>
    obtain ⟨bs, ih⟩ := ih
    rw [Engine.decompose_eq] at hr
    obtain ⟨cs, v, hv, hr⟩ := run_bind_eq_ok.mp hr
    exact ⟨_, (ih.find hv).decomposeAttached (fun c hc => List.mem_append_right _ hc) hr⟩

/-- The session in which the bindings of the first aggregate of a program were found, with them,
and the session in which the first of them was decomposed. -/
def firstDecomposition (source : String) : Option (Session × List Binding × Binding × Session) :=
  match parse source with
  | .error _ => none
  | .ok program =>
    match (Session.start program {} none).aggregates with
    | [] => none
    | a :: _ =>
      match (Session.start program {} none).run (Engine.findBindings a) with
      | (.ok (b :: bs), s) =>
        if s.document.attached b.decl then
          match s.run (Engine.decomposeBinding b) with
          | (.ok (), t) => some (s, b :: bs, b, t)
          | (.error _, _) => none
        else none
      | _ => none

theorem firstDecomposition_spec {source : String}
    (h : firstDecomposition source = some (s, bs, b, t)) : Reached s bs ∧ b ∈ bs ∧
      s.document.attached b.decl ∧ s.run (Engine.decomposeBinding b) = (.ok (), t) := by
  unfold firstDecomposition at h
  cases hp : parse source with
  | error e => simp [hp] at h
  | ok program =>
    simp only [hp] at h
    have hstart : Reached (Session.start program {} none) [] := 
      .start {} none (isSource_of_parse hp)
    generalize Session.start program {} none = s' at h hstart
    split at h
    case h_1 => cases h
    split at h
    case h_2 => cases h
    rename_i hfound
    split at h
    case isFalse => cases h
    rename_i ha
    split at h
    case h_2 => cases h
    rename_i hr
    cases h
    exact ⟨hstart.find hfound, List.mem_cons_self, ha, hr⟩

variable [Discipline]

/-- What is known of a session and of bindings that were found in it. -/
structure Ready (s : Session) (bs : List Binding) : Prop where
  sound : s.Sound
  structs : s.HasStructs
  definitions : ∀ a ∈ s.aggregates, a.struct.isA .structType
  knows : ∀ b ∈ bs, s.document.Knows b
  bases : ∀ b ∈ bs, s.document.HasStructBase b.decl

namespace Ready

theorem same (h : s.Ready bs) (hst : s.Same t) : t.Ready bs := by
  obtain ⟨h₁, h₂, h₃, h₄, h₅⟩ := h
  refine ⟨h₁.same hst, fun a ha => ?_, hst.aggregates ▸ h₃, hst.document ▸ h₄, hst.document ▸ h₅⟩
  rw [hst.document]
  exact h₂ a (hst.aggregates ▸ ha)

theorem within (h : s.Ready bs) : Within (s.subject bs) s := ⟨h.sound, .refl h.sound.document⟩

theorem covers (h : s.Ready bs) (hb : b ∈ bs) : (s.subject bs).Covers b :=
  covers_subject h.sound h.knows hb

/-- A declaration whose type is that of an aggregate is based on a struct or on a name. -/
theorem hasStructBase (h : s.Ready bs) (hm : decl ∈ s.document.root.preorder)
    (hagg : (s.aggregateOf? (decl.child .type)).isSome) : decl.hasStructBase := by
  obtain ⟨a, ha⟩ := Option.isSome_iff_exists.mp hagg
  have ham := List.mem_of_find?_eq_some ha
  unfold aggregateOf? at ha
  have hat := List.find?_some ha
  rcases Bool.or_eq_true_iff.mp hat with hsame | hname
  · -- The base is the struct of the aggregate.
    obtain ⟨hsome, hk⟩ := same_iff.mp hsame
    obtain ⟨k, hkey⟩ := Option.isSome_iff_exists.mp hsome
    have hp := isPresent_of_key hkey
    have htype := isPresent_of_preorder (baseType_mem hp)
    have hbase := mem_preorder_trans (mem_preorder_trans (baseType_mem hp)
      (child_mem_preorder htype)) hm
    have hcls := (h.structs a ham).1.cls (Document.mem_trees_of_root hbase) hk
    have hstruct := h.definitions a ham
    rw [isA, ← hcls, ← isA] at hstruct
    rw [Node.hasStructBase, hstruct, Bool.true_or]
  · unfold typeName? at hname
    unfold Node.hasStructBase
    generalize (decl.child .type).baseType = base at hname ⊢
    cases base with
    | absent => cases hname
    | mk m f ps => cases f <;> first | rfl | cases hname

theorem find (h : s.Ready bs) (hr : s.run (Engine.findBindings a) = (.ok cs, t)) :
    t.Ready (bs ++ cs) := by
  obtain ⟨hst, hfound⟩ := (s.settles_findBindings_iff a).of_ok hr
  obtain ⟨-, -, hknows⟩ := (h.sound.settles_findBindings a).of_ok hr
  have ht := h.same hst
  refine ⟨ht.sound, ht.structs, ht.definitions, fun b hb => ?_, fun b hb => ?_⟩
  · rcases List.mem_append.mp hb with hb | hb
    · exact ht.knows b hb
    · exact hst.document ▸ hknows b hb
  · rcases List.mem_append.mp hb with hb | hb
    · exact ht.bases b hb
    · obtain ⟨decl, hdecl, hagg, hv⟩ := (hfound b).mp hb
      have hm := (List.mem_filter.mp hdecl).1
      obtain rfl := (verdictOn_spec hv).declares
      rw [hst.document]
      intro y hy hk
      rw [h.sound.document.eq_of_key hy hm hk]
      refine h.hasStructBase hm ?_
      cases ha : s.aggregateOf? (b.decl.child .type) with
      | some a => rfl
      | none =>
        rw [ha] at hagg
        cases hagg

theorem decompose (hl : Discipline.IsLax) (h : s.Ready bs) (hb : b ∈ bs)
    (ha : s.document.attached b.decl)
    (hr : s.run (Engine.decomposeBinding b) = (.ok (), t)) : t.Ready bs := by
  have hst := (h.within.settles_decomposeBinding (h.knows b hb) (h.covers hb) ha).of_ok hr
  have hgrows := (Engine.Grows.decomposeBinding b).of_run hr
  refine ⟨hst.sound, h.structs.continues hst.continues hst.sound.document hgrows,
    hgrows.aggregates ▸ h.definitions, fun c hc => hst.knows (h.knows c hc), fun c hc => ?_⟩
  exact h.within.hasStructBase_decomposeBinding hl (h.knows b hb) (h.covers hb) ha (h.knows c hc)
    (h.bases c hc) hr

end Ready

/-- **All is well in a session that is reached**, and with the bindings that were found. -/
theorem Reached.ready (hl : Discipline.IsLax) (h : Reached s bs) : s.Ready bs := by
  induction h with
  | @start root options taken hroot =>
    have hreach := Reachable.start options taken hroot
    refine ⟨hreach.sound hl, hreach.hasStructs hl, fun a ha => ?_, by simp, by simp⟩
    have hnamed : Aggregate.Named (Session.start root options taken).document.root []
        (Session.start root options taken).aggregates :=
      aggregates_start .nil (Aggregate.ensures_collect _)
    obtain ⟨tag, htag⟩ := Aggregate.form?_of_mem_definitions (hnamed.struct a ha)
    simp [isA, cls?, htag, Form.cls]
  | find _ hr ih => exact ih.find hr
  | decompose _ hb ha hr ih => exact ih.decompose hl hb ha hr

end Session

end Fieldwise
