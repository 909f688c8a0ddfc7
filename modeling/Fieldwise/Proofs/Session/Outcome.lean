import Fieldwise.Proofs.Session.Reachable
import Fieldwise.Proofs.Session.Replacing

/-!
# Signatures after all decompositions

Each decomposition keeps to what it may do to signatures (`Session.Stage.decomposeBinding`), and so
do all of them, one after the other (`Session.Stage.decomposeEach`). In the end every parameter that
can be decomposed is gone.
-/

namespace Fieldwise

open Node

namespace Node

/-- The forms of the nodes of a tree. -/
def forms (n : Node) : List (Option Form) := n.preorder.map form?

theorem forms_copy (n : Node) : n.copy.forms = n.forms := by
  rw [forms, preorder_copy, List.map_map]
  exact List.map_congr_left fun x _ => form?_copy x

end Node

namespace Session

variable {s v t w : Session} {N known names : List String} {b b₀ : Binding} {bs : List Binding}
  {a : Aggregate} {F F' p : Node}

/-! ### Signatures when no parameter is left that can be decomposed -/

/-- What has become of a function definition: every parameter that can be decomposed has given way
to those for its fields, and if there is one, all declarations of the function have the type of the
definition. -/
structure Flattened (s : Session) (d : Document) (F F' : Node) : Prop where
  key : F'.key = F.key
  name : F'.headName? = F.headName?
  params : (itemsOf F').map copy = ((itemsOf F).flatMap (s.fieldParams F)).map copy
  agrees : (∃ p ∈ itemsOf F, (s.parameter? F p).isSome) → d.Agrees F'

/-- The function definitions of a session have become those of another one. -/
structure Flattens (s t : Session) : Prop where
  kept : ∀ F ∈ s.document.root.ofClass .funcDef, ∃ F' ∈ t.document.root.ofClass .funcDef,
    s.Flattened t.document F F'
  only : ∀ F' ∈ t.document.root.ofClass .funcDef, ∃ F ∈ s.document.root.ofClass .funcDef,
    s.Flattened t.document F F'

theorem map_flatten_of_forall₂ {α β : Type} {f : α → β} {g : α → List α} {ps : List α}
    {gs : List (List α)} (h : List.Forall₂ (fun p b => b.map f = (g p).map f) ps gs) :
    gs.flatten.map f = (ps.flatMap g).map f := by
  induction h with
  | nil => rfl
  | cons hpb _ ih =>
    rw [List.flatten_cons, List.flatMap_cons, List.map_append, List.map_append, hpb, ih]

/-- A parameter for a field is there. -/
theorem isPresent_of_map_copy {g : List Node} (hg : g.map copy = b.fieldDecls.map copy) {c : Node}
    (hc : c ∈ g) : c.isPresent := by
  obtain ⟨y, hy, hyc⟩ := List.mem_map.mp (hg ▸ List.mem_map_of_mem hc)
  obtain ⟨f, -, rfl⟩ := List.mem_map.mp hy
  cases c with
  | absent => cases hyc
  | mk => rfl

/-- **The signature of a function at the end**, if all parameters to be decomposed are gone. -/
theorem Signs.flattened {d : Document} (h : s.Signs N none d)
    (hall : ∀ a ∈ s.aggregates, a.IsOf known s.document.root) (hF' : F' ∈ d.root.preorder)
    (hd' : F'.isA .funcDef) (hsig : s.Signed d F F') (hgone : ∀ p ∈ itemsOf F, ∀ b,
      s.parameter? F p = some b → d.attached p = false) : s.Flattened d F F' := by
  obtain ⟨blocks, hblocks, hblock⟩ := hsig.params
  -- No parameter that can be decomposed is its own block.
  have hown : ∀ p ∈ itemsOf F, p ∈ itemsOf F' → s.parameter? F p = none := by
    intro p hp hp'
    refine Option.eq_none_iff_forall_ne_some.mpr fun b hb => ?_
    have hpm := mem_preorder_trans (mem_preorder_of_itemsOf hp'
      (isPresent_of_isA (parameter?_eq_some.mp hb).1)) hF'
    obtain ⟨k, hk⟩ := h.tidy.woven.exists_key (Document.mem_trees_of_root hpm)
    have hat := Document.attached_iff.mpr ⟨p, hpm, rfl, hk ▸ rfl⟩
    rw [hgone p hp b hb] at hat
    cases hat
  have hsub : ∀ g ∈ blocks, ∀ x ∈ g, x ∈ itemsOf F' := fun g hg x hx =>
    hblocks ▸ List.mem_flatten.mpr ⟨g, hg, hx⟩
  refine ⟨hsig.key, hsig.name, ?_, ?_⟩
  · rw [hblocks]
    refine map_flatten_of_forall₂ (forall₂_of_mem hblock fun p hp g hg hr => ?_)
    rcases hr with rfl | ⟨-, -, hcopy, -⟩
    · rw [fieldParams, hown p hp (hsub _ hg p (List.mem_singleton_self p))]
    · exact hcopy
  · rintro ⟨p, hp, hsome⟩
    obtain ⟨k, hk'⟩ := h.tidy.woven.exists_key (Document.mem_trees_of_root hF')
    refine h.protos F' hF' hd' (by simp [hk']) ?_
    obtain ⟨g, hg, rfl | ⟨-, -, hcopy, hnew⟩⟩ := exists_block hblock hp
    · rw [hown p hp (hsub _ hg p (List.mem_singleton_self p))] at hsome
      cases hsome
    · obtain ⟨b, hb⟩ := Option.isSome_iff_exists.mp hsome
      simp only [fieldParams, hb] at hcopy
      obtain ⟨f, fs, hfs⟩ := List.exists_cons_of_ne_nil
        (hall _ (List.mem_of_find?_eq_some (parameter?_eq_some.mp hb).2.2.1)).nonempty
      cases g with
      | nil =>
        rw [Binding.fieldDecls, hfs] at hcopy
        cases hcopy
      | cons c g =>
        have hc := isPresent_of_map_copy hcopy List.mem_cons_self
        have hcn := hnew c (mem_preorderAll_of_mem List.mem_cons_self hc)
        exact ⟨c, hsub _ hg c List.mem_cons_self, hc, hcn⟩

/-! ### Signatures at the start -/

/-- Functions are defined in prototype style, once each, and nothing matters in the types of
functions and fields: they declare no function with parameters that can be decomposed, use none of
some names and declare none of them in a block. -/
structure HasPlainSignatures (s : Session) (N : List String) : Prop where
  prototyped : ∀ F ∈ s.document.root.ofClass .funcDef, F.isPrototyped
  once : s.document.root.DefinesOnce
  functions : ∀ x ∈ s.document.root.ofClass .decl, x.declaresFunction →
    (x.child .type).isPlain s.flattenable N
  fields : ∀ T ∈ s.fieldTypes, T.isPlain s.flattenable N

instance (s : Session) (N : List String) : Decidable (s.HasPlainSignatures N) :=
  decidable_of_iff ((∀ F ∈ s.document.root.ofClass .funcDef, F.isPrototyped) ∧
    s.document.root.DefinesOnce ∧
    (∀ x ∈ s.document.root.ofClass .decl, x.declaresFunction →
      (x.child .type).isPlain s.flattenable N) ∧
    ∀ T ∈ s.fieldTypes, T.isPlain s.flattenable N)
    ⟨fun ⟨hp, ho, hs, hf⟩ => ⟨hp, ho, hs, hf⟩, fun ⟨hp, ho, hs, hf⟩ => ⟨hp, ho, hs, hf⟩⟩

namespace HasPlainSignatures

/-- Nothing has been replaced at the start. -/
theorem signs (h : s.HasPlainSignatures N) (ht : s.document.Tidy) (hf : s.document.root.isA .file)
    (htop : s.document.root.DefinesAtTop) : s.Signs N none s.document where
  tidy := ht
  file := hf
  next := Nat.le_refl _
  plain x hx hxf := h.functions x (List.mem_filter.mpr ⟨hx, (Bool.and_eq_true _ _ ▸ hxf).1⟩) hxf
  tops _ := htop.mem_parts hf
  defs F hF hd := by
    refine ⟨F, hF, hd, rfl, h.prototyped F (List.mem_filter.mpr ⟨hF, hd⟩), rfl, rfl,
      (itemsOf F).map fun p => [p], ?_, ?_⟩
    · rw [← List.flatMap_def, List.flatMap_singleton']
    · exact List.forall₂_map_right_iff.mpr (List.forall₂_same.mpr fun p _ => .inl rfl)
  kept F hF hd := ⟨F, hF, hd, rfl⟩
  protos F hF _ _ := fun ⟨c, hc, hcp, hn⟩ => absurd (ht.bound c (Document.mem_trees_of_root
    (mem_preorder_trans (mem_preorder_of_itemsOf hc hcp) hF))) hn

theorem underway (h : s.HasPlainSignatures N) (ht : s.document.Tidy)
    (hf : s.document.root.isA .file) (htop : s.document.root.DefinesAtTop)
    (hall : ∀ a ∈ s.aggregates, a.IsOf known s.document.root) (hd : s.decomposed = []) :
    s.Underway N none s where
  signs := h.signs ht hf htop
  aggregates := rfl
  steady :=
    { aggregates := fun a ha f hfm hp => mem_fieldTypes.mpr ⟨hp, a, ha, f, hfm, rfl⟩
      decomposed := fun e he => by
        rw [hd] at he
        cases he
      types := fun T hT => by
        obtain ⟨hp, a, ha, f, hfm, rfl⟩ := mem_fieldTypes.mp hT
        obtain ⟨m, spec, rest, hm⟩ := (hall a ha).exists_member hfm
        exact ⟨Document.mem_trees_of_root (mem_preorder_of_part hm List.mem_cons_self hp),
          h.fields _ hT⟩ }

end HasPlainSignatures

/-! ### Decompositions -/

section

variable [Discipline]

/-- What is known of a binding that was found while signatures were replaced. -/
structure Found (s v : Session) (b : Binding) : Prop where
  knows : v.document.Knows b
  named : b.decl.name?.isSome
  typed : b.IsTyped s.fieldTypes
  parameter : b.isParam → ∃ F b₀, s.IsParameter b F b₀

theorem Found.continues (h : Found s v b) (hc : Document.Continues v.document t.document)
    (ht : t.Sound) : Found s t b :=
  ⟨h.knows.continues hc ht.document, h.named, h.typed, h.parameter⟩

/-- A later session, in which signatures were replaced as well. -/
structure Stage (s : Session) (N : List String) (v t : Session) : Prop extends
    s.Underway N none t where
  sound : t.Sound
  continues : Document.Continues v.document t.document

theorem Stage.refl (h : s.Underway N none v) (hv : v.Sound) : s.Stage N v v :=
  ⟨h, hv, .refl _ hv.document⟩

theorem Stage.trans (h : s.Stage N v w) (h' : s.Stage N w t) : s.Stage N v t :=
  ⟨h'.toUnderway, h'.sound, h.continues.trans h'.continues h.sound.document⟩

variable (hl : Discipline.IsLax) (h₀ : s.Signs N none s.document)
  (hone : s.document.root.DefinesOnce) (hall : ∀ a ∈ s.aggregates, a.IsOf known s.document.root)
include hl h₀ hone hall

namespace Stage

/-- **A decomposition of one binding.** -/
theorem decomposeBinding (h : s.Underway N none v) (hv : v.Sound) (hb : Found s v b)
    (ha : v.document.attached b.decl) (hr : v.run (Engine.decomposeBinding b) = (.ok (), t))
    (hN : ∀ e ∈ t.decomposed, e.binding.name ∈ N) :
    s.Stage N v t ∧ (b.isParam → t.document.attached b.decl = false) := by
  have hw : Within (v.subject [b]) v := ⟨hv, .refl hv.document⟩
  have hu : (v.subject [b]).Covers b := covers_subject hv
    (fun c hc => List.mem_singleton.mp hc ▸ hb.knows) (List.mem_singleton_self b)
  obtain ⟨e, he, hname⟩ := (hw.records_decomposeBinding hl hb.knows hu ha).of_ok hr
  have hsub : ∀ name ∈ (v.subject [b]).names, name ∈ N := fun name hn => by
    obtain rfl : name = b.name := by simpa [subject] using hn
    exact hname ▸ hN e he
  unfold Engine.decomposeBinding at hr
  split at hr
  · rename_i hp
    obtain ⟨F, b₀, hpar⟩ := hb.parameter hp
    obtain ⟨hvt, hut, hgone⟩ := (h.settles_decomposeParam hl h₀ hone hall hw hpar hp hb.knows hu ha
      hsub).of_ok hr
    exact ⟨⟨hut, hvt.sound, hvt.continues⟩, fun _ => hgone⟩
  · rename_i hp
    have hp := Bool.eq_false_iff.mpr hp
    have hvt := (hw.settles_decomposeVariable hb.knows hu ha hp).of_ok hr
    have hadv := (hw.redraws_decomposeVariable hl hb.knows hu ha hp hb.named (h.steady.mono hsub)
      hb.typed).of_ok hr
    refine ⟨⟨⟨h.signs.redraws h₀.tidy h.isPlain (hadv.redraws.mono hsub), ?_,
      hadv.aggregates.trans h.aggregates⟩, hvt.sound, hvt.continues⟩, fun hp' => ?_⟩
    · exact { hadv.steady with
        types := fun T hT => ⟨(hadv.steady.types T hT).1, (h.steady.types T hT).2⟩ }
    · rw [hp] at hp'
      cases hp'

/-- The decompositions of bindings that were found. Parameters among them are gone afterwards. -/
theorem decomposeAttached (h : s.Underway N none v) (hv : v.Sound) (hbs : ∀ b ∈ bs, Found s v b)
    (hr : v.run (Engine.decomposeAttached bs) = (.ok names, t))
    (hN : ∀ e ∈ t.decomposed, e.binding.name ∈ N) :
    s.Stage N v t ∧ ∀ b ∈ bs, b.isParam → t.document.attached b.decl = false := by
  induction bs generalizing v names with
  | nil =>
    obtain ⟨-, rfl⟩ : [] = names ∧ v = t := by simpa [Engine.decomposeAttached] using hr
    exact ⟨.refl h hv, by simp⟩
  | cons b bs ih =>
    have hb := hbs b List.mem_cons_self
    have hrest := fun c hc => hbs c (List.mem_cons_of_mem _ hc)
    unfold Engine.decomposeAttached at hr
    obtain ⟨v', w₀, hget, hr⟩ := run_bind_eq_ok.mp hr
    rw [run_get] at hget
    cases hget
    split at hr
    · rename_i ha
      obtain ⟨_, w, hw, hr⟩ := run_bind_eq_ok.mp hr
      obtain ⟨_, t', ht, hr⟩ := run_bind_eq_ok.mp hr
      obtain ⟨-, rfl⟩ : _ ∧ t' = t := by simpa using hr
      -- What is recorded now is so to the end.
      have hNw := names_mem_of_run (Engine.Grows.decomposeAttached bs).remembers ht hN
      obtain ⟨hvw, hgone⟩ := decomposeBinding hl h₀ hone hall h hv hb ha hw hNw
      obtain ⟨hwt, hall⟩ := ih hvw.toUnderway hvw.sound
        (fun c hc => (hrest c hc).continues hvw.continues hvw.sound) ht
      refine ⟨hvw.trans hwt, fun c hc hp => ?_⟩
      rcases List.mem_cons.mp hc with rfl | hc
      · exact hwt.continues.not_attached (hgone hp)
          (hb.continues hvw.continues hvw.sound).knows.decl.old
      · exact hall c hc hp
    · rename_i ha
      obtain ⟨hvt, hall⟩ := ih h hv hrest hr
      refine ⟨hvt, fun c hc hp => ?_⟩
      rcases List.mem_cons.mp hc with rfl | hc
      · exact hvt.continues.not_attached (Bool.eq_false_iff.mpr ha) hb.knows.decl.old
      · exact hall c hc hp

/-- **The decomposition of an aggregate.** Its parameters are gone afterwards. -/
theorem decompose (h : s.Underway N none v) (hv : v.Sound)
    (hr : v.run (Engine.decompose a) = (.ok names, t))
    (hN : ∀ e ∈ t.decomposed, e.binding.name ∈ N) :
    s.Stage N v t ∧ ∀ F ∈ s.document.root.preorder, F.isA .funcDef → ∀ p ∈ itemsOf F, ∀ b₀,
      s.parameter? F p = some b₀ → b₀.aggregate = a → t.document.attached p = false := by
  rw [Engine.decompose_eq] at hr
  obtain ⟨bs, w, hfind, hr⟩ := run_bind_eq_ok.mp hr
  obtain ⟨hsame, hbs⟩ := (settles_findBindings_iff v a).of_ok hfind
  have hw : s.Underway N none w := ⟨hsame.document ▸ h.signs, h.steady.same hsame,
    hsame.aggregates.trans h.aggregates⟩
  have hfound : ∀ b ∈ bs, Found s w b := fun b hb => by
    obtain ⟨decl, hmem, -, hverdict⟩ := (hbs b).mp hb
    obtain ⟨hm, hd⟩ := List.mem_filter.mp hmem
    have hbind := verdictOn_spec hverdict
    exact ⟨hsame.document ▸ hv.knows_of_isBinding hbind hm hd, hbind.declares ▸ hbind.named,
      h.steady.isTyped_of_isBinding h.signs.tidy hbind,
      h.signs.exists_parameter h₀.tidy hall h.aggregates hv h.steady hm hd hverdict⟩
  obtain ⟨hwt, hgone⟩ := decomposeAttached hl h₀ hone hall hw (hv.same hsame) hfound hr hN
  refine ⟨⟨hwt.toUnderway, hwt.sound, hsame.document ▸ hwt.continues⟩,
    fun F hF hd p hp b₀ hb₀ hagg => ?_⟩
  cases hat : v.document.attached p with
  | true =>
    obtain ⟨hm, b, rfl, hbp, hfinds⟩ := h.signs.exists_finds h₀.tidy hall h.aggregates hv hF hd hp
      hb₀ hat
    have hpd := (parameter?_eq_some.mp hb₀).1
    exact hgone b ((hbs b).mpr ⟨_, List.mem_filter.mpr ⟨hm, hpd⟩, hagg ▸ hfinds⟩) hbp
  | false =>
    exact hwt.continues.not_attached (hsame.document ▸ hat) (hw.signs.item_old h₀.tidy hF hp)

/-- **The decompositions of several aggregates**, one after the other. -/
theorem decomposeEach {as : List Aggregate} (h : s.Underway N none v) (hv : v.Sound)
    (hr : v.run (Engine.decomposeEach as) = (.ok names, t))
    (hN : ∀ e ∈ t.decomposed, e.binding.name ∈ N) :
    s.Stage N v t ∧ ∀ F ∈ s.document.root.preorder, F.isA .funcDef → ∀ p ∈ itemsOf F, ∀ b₀,
      s.parameter? F p = some b₀ → b₀.aggregate ∈ as → t.document.attached p = false := by
  induction as generalizing v names with
  | nil =>
    obtain ⟨-, rfl⟩ : [] = names ∧ v = t := by simpa [Engine.decomposeEach] using hr
    exact ⟨.refl h hv, by simp⟩
  | cons a as ih =>
    unfold Engine.decomposeEach at hr
    obtain ⟨_, w, hw, hr⟩ := run_bind_eq_ok.mp hr
    obtain ⟨_, t', ht, hr⟩ := run_bind_eq_ok.mp hr
    obtain ⟨-, rfl⟩ : _ ∧ t' = t := by simpa using hr
    have hNw := names_mem_of_run (Engine.Grows.decomposeEach as).remembers ht hN
    obtain ⟨hvw, hgone⟩ := decompose hl h₀ hone hall h hv hw hNw
    obtain ⟨hwt, hrest⟩ := ih hvw.toUnderway hvw.sound ht
    refine ⟨hvw.trans hwt, fun F hF hd p hp b₀ hb₀ hagg => ?_⟩
    rcases List.mem_cons.mp hagg with hagg | hagg
    · exact hwt.continues.not_attached (hgone F hF hd p hp b₀ hb₀ hagg)
        (hvw.signs.item_old h₀.tidy hF hp)
    · exact hrest F hF hd p hp b₀ hb₀ hagg

end Stage

end

/-- **The signatures of a program after all decompositions.** Every function definition is what it
was, with the parameters that can be decomposed replaced by those for their fields, in place, and if
it had such a parameter, all declarations of the function have its type. -/
theorem run_decomposeAll_flattens {root : Node} {options : Options}
    {taken : Option (List String)} (hroot : root.IsSource)
    (hs : s = Session.start root options taken)
    (hrun : s.run Engine.decomposeAll = (.ok names, t))
    (h : s.HasPlainSignatures (t.decomposed.map (·.binding.name))) : s.Flattens t := by
  let _ : Discipline := ⟨False, False⟩
  have hl : Discipline.IsLax := ⟨id, id⟩
  have hsound : s.Sound := hs ▸ (Reachable.start options taken hroot).sound hl
  obtain ⟨known, hall⟩ : ∃ known, ∀ a ∈ s.aggregates, a.IsOf known s.document.root :=
    hs ▸ isOf_start root options taken
  have ht := hsound.document.tidy
  have hstart := h.underway ht hsound.document.file
    (hs ▸ definesAtTop_of_isSource hroot) hall (hs ▸ decomposed_start root options taken)
  unfold Engine.decomposeAll at hrun
  obtain ⟨_, _, hget, hrun⟩ := run_bind_eq_ok.mp hrun
  rw [run_get] at hget
  cases hget
  obtain ⟨hst, hgone⟩ := Stage.decomposeEach hl hstart.signs h.once hall hstart hsound hrun
    fun e he => List.mem_map_of_mem he
  have hflat : ∀ F ∈ s.document.root.preorder, F.isA .funcDef → ∀ F' ∈ t.document.root.preorder,
      F'.isA .funcDef → F'.key = F.key → s.Flattened t.document F F' := by
    intro F hF hd F' hF' hd' hk
    obtain ⟨F₁, hF₁, -, hsig⟩ := hst.signs.defs F' hF' hd'
    obtain rfl := ht.eq_of_key (Document.mem_trees_of_root hF₁) (Document.mem_trees_of_root hF)
      (hsig.key.symm.trans hk)
    exact hst.signs.flattened hall hF' hd' hsig fun p hp b hb => hgone F₁ hF hd p hp b hb
      (List.mem_of_find?_eq_some (parameter?_eq_some.mp hb).2.2.1)
  constructor
  · intro F hF
    obtain ⟨hF, hd⟩ := List.mem_filter.mp hF
    obtain ⟨F', hF', hd', hk⟩ := hst.signs.kept F hF hd
    exact ⟨F', List.mem_filter.mpr ⟨hF', hd'⟩, hflat F hF hd F' hF' hd' hk⟩
  · intro F' hF'
    obtain ⟨hF', hd'⟩ := List.mem_filter.mp hF'
    obtain ⟨F, hF, hd, hsig⟩ := hst.signs.defs F' hF' hd'
    exact ⟨F, List.mem_filter.mpr ⟨hF, hd⟩, hflat F hF hd F' hF' hd' hsig.key⟩

/-! ### Programs -/

/-- The session of a program that can be read, and the session after all decompositions of it. -/
def finished (source : String) : Option (Session × Session) :=
  match parse source with
  | .error _ => none
  | .ok program =>
    match (Session.start program {} none).run Engine.decomposeAll with
    | (.ok _, t) => some (Session.start program {} none, t)
    | (.error _, _) => none

theorem finished_spec {source : String} (h : finished source = some (s, t)) :
    ∃ program names, parse source = .ok program ∧ s = Session.start program {} none ∧
      s.run Engine.decomposeAll = (.ok names, t) := by
  unfold finished at h
  cases hp : parse source with
  | error e => simp [hp] at h
  | ok program =>
    simp only [hp] at h
    split at h
    case h_2 => cases h
    rename_i names t' hr
    obtain ⟨rfl, rfl⟩ : Session.start program {} none = s ∧ t' = t := by simpa using h
    exact ⟨program, names, rfl, rfl, hr⟩

theorem exists_finished (source : String) (check : Session → Session → Bool)
    (h : (finished source).any (fun p => check p.1 p.2) = true) :
    ∃ s t, finished source = some (s, t) ∧ check s t := by
  cases hf : finished source with
  | none =>
    rw [hf] at h
    cases h
  | some p =>
    rw [hf] at h
    exact ⟨p.1, p.2, rfl, h⟩

/-- A run whose result is looked at has one. -/
theorem exists_run_eq_ok {α : Type} {e : Engine α} {check : α → Bool}
    (h : (s.run e).1.toOption.any check = true) : ∃ x t, s.run e = (.ok x, t) ∧ check x := by
  obtain ⟨x, hx, hcheck⟩ := (Option.any_eq_true _ _).mp h
  generalize hr : s.run e = r at hx
  obtain ⟨r, t⟩ := r
  cases r with
  | error f => cases hx
  | ok y =>
    obtain rfl : y = x := Option.some.inj hx
    exact ⟨y, t, rfl, hcheck⟩

/-- A function with parameters of two aggregates among others. -/
def mixedParameters : String :=
  "struct S \x7bint v; int *w;\x7d; struct T \x7bchar c;\x7d; " ++
    "int f(struct S s, int n, struct T *t, struct S q[2]); " ++
    "int f(struct S s, int n, struct T *t, struct S q[2]) \x7b return s.v + n; \x7d "

theorem run_decomposeAll_flattens_mixedParameters : ∃ s t,
    finished mixedParameters = some (s, t) ∧
    s.HasPlainSignatures (t.decomposed.map (·.binding.name)) ∧ s.Flattens t ∧
    (t.document.root.ofClass .funcDef).map (fun F => (itemsOf F).map (·.name?)) =
      [[some "s_v", some "s_w", some "n", some "t_c", some "q_v", some "q_w"]] := by
  obtain ⟨s, t, hst, hcheck⟩ := exists_finished mixedParameters (fun s t =>
    decide (s.HasPlainSignatures (t.decomposed.map (·.binding.name))) &&
      (t.document.root.ofClass .funcDef).map (fun F => (itemsOf F).map (·.name?)) ==
        [[some "s_v", some "s_w", some "n", some "t_c", some "q_v", some "q_w"]])
    (by decide +kernel)
  obtain ⟨hplain, hnames⟩ := Bool.and_eq_true _ _ ▸ hcheck
  obtain ⟨program, names, hp, hs, hrun⟩ := finished_spec hst
  exact ⟨s, t, hst, of_decide_eq_true hplain,
    run_decomposeAll_flattens (isSource_of_parse hp) hs hrun (of_decide_eq_true hplain),
    eq_of_beq hnames⟩

/-! ### Signatures that are not plain -/

/-- Functions are defined in prototype style, once each, no parameter of a function is declared with
a function declarator, and no identifier is used in the type of a function. -/
def HasBareSignatures (s : Session) : Prop :=
  (∀ F ∈ s.document.root.ofClass .funcDef, F.isPrototyped) ∧ s.document.root.DefinesOnce ∧
    ∀ x ∈ s.document.root.ofClass .decl, x.declaresFunction →
      (∀ p ∈ ((x.child .type).child .args).parts, p.declaresFunction = false) ∧
        ∀ y ∈ (x.child .type).preorder, y.identName? = none

instance (s : Session) : Decidable s.HasBareSignatures :=
  inferInstanceAs (Decidable (_ ∧ _))

/-- Whether the signatures of two sessions have the forms that they have by `Flattens`. -/
def flattensForms (s t : Session) : Bool :=
  (t.document.root.ofClass .funcDef).all fun F' => (s.document.root.ofClass .funcDef).any fun F =>
    F'.key == F.key &&
      (itemsOf F').map forms == ((itemsOf F).flatMap (s.fieldParams F)).map forms &&
      (!(itemsOf F).any (fun p => (s.parameter? F p).isSome) ||
        t.document.root.preorder.all fun x => !(x.declaresFunction && x.name? == F'.headName?) ||
          (x.child .type).forms == ((F'.child .decl).child .type).forms)

theorem Flattens.forms (h : s.Flattens t) : s.flattensForms t := by
  refine List.all_eq_true.mpr fun F' hF' => ?_
  obtain ⟨F, hF, hflat⟩ := h.only F' hF'
  have hparams := congrArg (List.map Node.forms) hflat.params
  have hmap : ∀ ps : List Node, (ps.map copy).map Node.forms = ps.map Node.forms := fun ps => by
    rw [List.map_map]
    exact List.map_congr_left fun p _ => forms_copy p
  rw [hmap, hmap] at hparams
  refine List.any_eq_true.mpr ⟨F, hF, ?_⟩
  rw [hflat.key, hparams, beq_self_eq_true, beq_self_eq_true, Bool.true_and, Bool.true_and]
  cases hany : (itemsOf F).any fun p => (s.parameter? F p).isSome with
  | false => rfl
  | true =>
    obtain ⟨p, hp, hsome⟩ := List.any_eq_true.mp hany
    refine List.all_eq_true.mpr fun x hx => ?_
    cases hx' : x.declaresFunction && x.name? == F'.headName? with
    | false => rfl
    | true =>
      obtain ⟨hf, hn⟩ := Bool.and_eq_true _ _ ▸ hx'
      have hcopy := hflat.agrees ⟨p, hp, hsome⟩ x hx hf (eq_of_beq hn)
      rw [← forms_copy, hcopy, forms_copy]
      exact beq_self_eq_true _

/-- A field whose type has an identifier in it that is the name of a variable where the function is
declared, and a function to be redeclared that is declared within a signature or within the type of
a field: each is enough for a signature to become another one. -/
theorem run_decomposeAll_not_flattens :
    (∃ s t, finished ("union U \x7bint a;\x7d y; struct S \x7bint w[sizeof(y.a)];\x7d; " ++
        "struct T \x7bint a;\x7d; void g(void) \x7b struct T y; void f(struct S s); \x7d " ++
        "void f(struct S s) \x7b \x7d") = some (s, t) ∧ s.HasBareSignatures ∧ ¬ s.Flattens t) ∧
    (∃ s t, finished ("struct S \x7bint a;\x7d; " ++
        "void f(struct S s, int n[(\x7b void g(struct S t); 3; \x7d)]) \x7b \x7d " ++
        "void g(struct S t) \x7b \x7d") = some (s, t) ∧ s.HasBareSignatures ∧ ¬ s.Flattens t) ∧
    ∃ s t, finished ("struct T \x7bint v;\x7d; " ++
        "struct S \x7bint a[(\x7b void g(struct T t); 3; \x7d)];\x7d; " ++
        "void f(struct S s) \x7b \x7d void g(struct T t) \x7b \x7d") = some (s, t) ∧
      s.HasBareSignatures ∧ ¬ s.Flattens t := by
  have hnot : ∀ {source : String}, (finished source).any (fun p => decide p.1.HasBareSignatures &&
      !p.1.flattensForms p.2) = true → ∃ s t, finished source = some (s, t) ∧
        s.HasBareSignatures ∧ ¬ s.Flattens t := by
    intro source h
    obtain ⟨s, t, hst, hcheck⟩ := exists_finished source
      (fun s t => decide s.HasBareSignatures && !s.flattensForms t) h
    obtain ⟨hbare, hforms⟩ := Bool.and_eq_true _ _ ▸ hcheck
    refine ⟨s, t, hst, of_decide_eq_true hbare, fun hflat => ?_⟩
    rw [hflat.forms] at hforms
    cases hforms
  exact ⟨hnot (by decide +kernel), hnot (by decide +kernel), hnot (by decide +kernel)⟩

end Session

end Fieldwise
