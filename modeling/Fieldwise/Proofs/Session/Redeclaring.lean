import Fieldwise.Proofs.Session.Decomposing
import Fieldwise.Proofs.Session.Redrawing

/-!
# Decompositions of variables as edits around marked nodes

The field variables of a variable are declared around its declaration in a block, its uses are
rewritten, and its declaration is taken out: all of these are edits around marked nodes
(`Session.Within.redraws_decomposeVariable`).
-/

namespace Fieldwise

open Node

variable {K N : List String} {types : List Node} {b : Binding}

namespace Session

variable {u : Subject} {s t v : Session} {p : Place} {x : Node} {new : List Node}

/-- The session after edits around the uses and declarations of names, and after bindings were
recorded. -/
structure Advances (K N : List String) (types : List Node) (s t : Session) : Prop where
  redraws : Document.Redraws N types s.document t.document
  aggregates : t.aggregates = s.aggregates
  steady : Steady K N types t

namespace Advances

theorem trans (h : Advances K N types s t) (h' : Advances K N types t v) :
    Advances K N types s v where
  redraws := h.redraws.trans h'.redraws
  aggregates := h'.aggregates.trans h.aggregates
  steady := h'.steady

end Advances

/-- The types of the fields of a recorded binding are among the types of fields. -/
theorem Steady.record (h : Steady K N types s) (hb : b.IsTyped types) :
    Steady K N types { s with decomposed := recordIn b s.decomposed } where
  aggregates := h.aggregates
  decomposed e he := (mem_recordIn he).elim (h.decomposed e) fun ⟨heb, _⟩ => heb ▸ hb
  types := h.types

theorem Redrawn.advances (h : Redrawn N types s t) (hs : Steady K N types s) (hd : s.document.Tidy)
    (hp : Document.Continues s.document t.document) : Advances K N types s t where
  redraws := h.redraws
  aggregates := h.aggregates
  steady := hs.redrawn hd h fun T hT => hp.alive T (hs.types T hT).1

variable [Discipline]

/-- The declaration of a variable stands in a block, where it is marked. -/
theorem Declared.marked (hd : s.Declared b p x) (h : s.Sound) (hb : s.document.Knows b)
    (hp : b.isParam = false) (hn : b.decl.name?.isSome) (hN : b.name ∈ N) :
    s.document.Marked N b.decl p x := by
  have hparent := hd.block hb hp
  refine ⟨hd.stands, .inr ⟨?_, hd.decl, ?_⟩, fun _ =>
    (h.document.stands_decl hd.stands hd.decl fun hf => by rw [hparent] at hf; cases hf).1⟩
  · exact hb.isBlock_home hp hd.stands.parent hd.stands.mem_parts hd.stands.key
  · obtain ⟨name, hname⟩ := Option.isSome_iff_exists.mp hn
    have hx : x.name? = some name := (name?_congr (hb.decl.form x
      (Document.mem_trees_of_root hd.stands.mem) hd.stands.key)).trans hname
    have : b.name = name := by rw [Binding.name, hname]; rfl
    simpa [hx, ← this] using hN

/-- New nodes are put next to a marked node. -/
theorem settles_insert_marked (hl : Discipline.IsLax) (h : s.document.Tidy) {n : Node}
    (hm : s.document.Marked N n p x) (hnew : ∀ c ∈ new, BuiltFrom (s.document.Quotable types) c)
    (after : Bool) :
    s.Settles (Engine.edit fun d => d.insert n new after) fun _ t =>
      ∃ d, t = { s with document := d } ∧ (d = s.document ∨
        ∃ qs, Document.RedrawsAt N types s.document d p.parent qs) :=
  .edit_of_lax hl fun d hd => ⟨d, rfl, hm.redrawsAt_insert h hnew hd⟩

/-- The session in which the uses of a variable are looked for, after edits around its
declaration. -/
theorem Within.redraws_declareVariable (hl : Discipline.IsLax) (h : Within u s)
    (hb : s.document.Knows b) (hu : u.Covers b) (ha : s.document.attached b.decl)
    (hp : b.isParam = false) (hn : b.decl.name?.isSome) (hs : Steady K u.names types s)
    (hbt : b.IsTyped types) :
    s.Settles (Engine.declareVariable b) fun _ t => Advances K u.names types s t := by
  unfold Engine.declareVariable
  refine (settles_refresh s b).bind fun b' t ht => ?_
  obtain ⟨ht, hb'⟩ := ht
  subst t
  have hds := h.sound.document
  have hknows := hb'.symm ▸ hb.refresh hds
  have hp' : b'.isParam = false := hb'.symm ▸ hb.isParam_refresh.trans hp
  have hu' : u.Covers b' := hb'.symm ▸ hu.refresh hb
  have ha' : s.document.attached b'.decl := by
    rw [hb', attached_refresh]
    exact ha
  have hbt' : b'.IsTyped types := hb'.symm ▸ hs.isTyped_refresh hds.tidy hbt
  have hn' : b'.decl.name?.isSome := by
    rw [hb', Binding.refresh, name?_congr hb.decl.form?_current]
    exact hn
  obtain ⟨p, x, hd⟩ := h.sound.exists_declared hknows ha'
  have hm := hd.marked h.sound hknows hp' hn' hu'.name
  -- All that is put in is built from the declaration and from the types of fields.
  have hx : b'.decl = x := by
    rw [hb']
    exact hds.current_eq (Document.mem_trees_of_root hd.stands.mem)
      (hd.stands.key.trans (by rw [hb']; exact Document.key_current _ _))
  let R : Node → Prop := fun t => t = x ∨ t ∈ types
  have hfrom : Node.TakenFrom R b'.decl := by
    rw [hx]
    exact .of_mem (.inl rfl) (self_mem_preorder hd.stands.isPresent)
  have hRb : b'.TakenFrom R := hbt'.takenFrom fun _ => .inr
  have hR : ∀ {d : Document}, x ∈ d.root.preorder → ∀ t, R t → d.Quotable types t := by
    rintro d hxm t (rfl | ht)
    · have hcls : t.cls? = some .decl := by simpa [isA] using hd.decl
      exact .inl ⟨hxm, by simp [isA, hcls], by simp [isA, hcls]⟩
    · exact .inr ht
  refine ((settles_synthesize _ b').and (settles_synthesize_takesQuals _ b')).bind ?_
  rintro _ t ⟨⟨hst, rfl⟩, hq⟩
  have ht := h.same hst
  refine ((ht.sound.settles_initialValues (hst.document ▸ hknows) hknows.isNew_fieldDecls).and
    (ht.sound.from_initialValues hRb hq (hfrom.child .init)
      (hRb.fieldDecls (hfrom.child .type) hq))).bind fun y v hy => ?_
  obtain ⟨⟨htv, hy⟩, hfromy⟩ := hy
  have hsv := hst.trans htv
  have hv := h.same hsv
  have hmv : v.document.Marked u.names b'.decl p x := hsv.document ▸ hm
  refine ((hv.settles_insert (hsv.document ▸ hknows) hu' hp' (hsv.document ▸ ha')
    (fun c hc => (List.mem_append.mp hc).elim (hy.decls c) fun hc => (hy.after c hc).toIsNew)
    true).and
    (settles_insert_marked hl hv.sound.document.tidy hmv (fun c hc => ((List.mem_append.mp hc).elim
      (hfromy.decls c) (hfromy.after c)).mono (hR hmv.stands.mem)) true)).bind fun _ w hw => ?_
  obtain ⟨⟨hvw, haw⟩, d₁, rfl, hedit⟩ := hw
  -- The declaration is the same still, and what goes before it can be built from it.
  have hsw := (Proceeds.same h hsv).trans hvw
  have hkw := hsw.knows hknows
  obtain ⟨p₁, x₁, hd₁⟩ := hsw.sound.exists_declared hkw haw
  have hm₁ := hd₁.marked hsw.sound hkw hp' hn' hu'.name
  have hx₁ : x ∈ d₁.root.preorder := by
    rcases hedit with rfl | ⟨qs, hedit⟩
    · exact hmv.stands.mem
    · exact (hmv.stands.of_puts hv.sound.document.tidy hedit.toPuts hm₁.stands.place).mem
  refine ((hsw.settles_insert hkw hu' hp' haw hy.before false).and
    (settles_insert_marked hl hsw.sound.document.tidy hm₁
      (fun c hc => (hfromy.before c hc).mono (hR hx₁)) false)).bind fun _ z hz => ?_
  obtain ⟨⟨hwz, -⟩, d₂, rfl, hedit'⟩ := hz
  have hadv : Advances K u.names types s { v with document := d₂ } := by
    refine Redrawn.advances ⟨?_, hsv.aggregates, hsv.decomposed⟩ hs hds.tidy
      (hsw.trans hwz).continues
    rw [← hsv.document]
    exact (Document.Redraws.of_eq_or hedit).trans (.of_eq_or hedit')
  refine Settles.bind (.modify (Q := fun _ t => t = _) rfl) ?_
  rintro - _ rfl
  exact .pure ⟨hadv.redraws, hadv.aggregates, hadv.steady.record hbt'⟩

/-- The declaration of a variable is taken out, but for the type that it defines. -/
theorem Within.redraws_removeDeclaration (hl : Discipline.IsLax) (h : Within u s)
    (hb : s.document.Knows b) (hp : b.isParam = false) (ha : s.document.attached b.decl)
    (hn : b.decl.name?.isSome) (hN : b.name ∈ N) :
    s.Settles (Engine.removeDeclaration (b.refresh s.document)) fun _ t =>
      Redrawn N types s t := by
  have hds := h.sound.document
  have hknows := hb.refresh hds
  have hp' := hb.isParam_refresh.trans hp
  have hn' : (b.refresh s.document).decl.name?.isSome := by
    rw [Binding.refresh, name?_congr hb.decl.form?_current]
    exact hn
  obtain ⟨p, x, hd⟩ := h.sound.exists_declared hknows (by rwa [attached_refresh])
  have hm := hd.marked h.sound hknows hp' hn' (hb.name_refresh.symm ▸ hN)
  have hx : (b.refresh s.document).decl = x :=
    hds.current_eq (Document.mem_trees_of_root hd.stands.mem)
      (hd.stands.key.trans (Document.key_current _ _))
  unfold Engine.removeDeclaration
  split
  · rename_i type htype
    obtain ⟨hT, hTs, -⟩ := definedType?_spec htype
    rw [hx] at hT
    refine .edit_of_lax hl fun d hrep => ⟨?_, rfl, rfl⟩
    obtain ⟨qs, hs⟩ := hm.redrawsAt_bare hds.tidy hd.decl hT hTs hrep
    exact .single hs
  · refine .edit_of_lax hl fun d hdet => ⟨?_, rfl, rfl⟩
    obtain ⟨qs, hs⟩ := hm.redrawsAt_detach hds.tidy hdet
    exact .single hs

/-- **The decomposition of a variable is a chain of edits around marked nodes.** -/
theorem Within.redraws_decomposeVariable (hl : Discipline.IsLax) (h : Within u s)
    (hb : s.document.Knows b) (hu : u.Covers b) (ha : s.document.attached b.decl)
    (hp : b.isParam = false) (hn : b.decl.name?.isSome) (hs : Steady K u.names types s)
    (hbt : b.IsTyped types) :
    s.Settles (Engine.decomposeVariable b) fun _ t => Advances K u.names types s t := by
  rw [Engine.decomposeVariable_eq]
  refine ((h.settles_declareVariable hb hu ha hp).and
    (h.redraws_declareVariable hl hb hu ha hp hn hs hbt)).bind fun b' t ht => ?_
  obtain ⟨⟨hst, rfl, -, hat⟩, hadv⟩ := ht
  have hds := h.sound.document
  have hknows := hst.knows (hb.refresh hds)
  have hp' := hb.isParam_refresh.trans hp
  have hbt' := hs.isTyped_refresh hds.tidy hbt
  have hn' : (b.refresh s.document).decl.name?.isSome := by
    rw [Binding.refresh, name?_congr hb.decl.form?_current]
    exact hn
  have hu' := hu.refresh hb
  refine ((hst.settles_rewrite hknows hu' fun _ => hat hp).and
    (hst.redraws_rewrite hl hknows hu' hadv.steady hbt' fun _ => hat hp)).bind fun _ v hv => ?_
  obtain ⟨⟨htv, hav⟩, hred⟩ := hv
  have hsv := hst.trans htv
  have hadv' := hadv.trans (hred.advances hadv.steady hst.sound.document.tidy htv.continues)
  -- At last the declaration is taken out.
  refine (settles_refresh v _).bind ?_
  rintro _ v ⟨rfl, rfl⟩
  have hkv := hsv.knows (hb.refresh hds)
  refine ((hsv.settles_removeDeclaration hkv hu' hp' (hav hp')).and
    (hsv.redraws_removeDeclaration hl hkv hp' (hav hp') hn' hu'.name)).mono
      fun _ w (hw : _ ∧ Redrawn u.names types v w) => ?_
  exact hadv'.trans (hw.2.advances hadv'.steady hsv.sound.document.tidy hw.1.continues)

end Session

end Fieldwise
