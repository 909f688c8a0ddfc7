import Fieldwise.Proofs.Document.Items
import Fieldwise.Proofs.Session.Forms
import Fieldwise.Proofs.Session.Stepwise

/-!
# Variables are replaced in place

A variable gives way to what its initializer asks for before it, the definition of the type in its
declaration, the variables for the fields and what its initializer asks for after them, all in its
place and in this order (`Session.Reached.decomposeBinding_in_place`). What stood before it and
after it in the block stays there in order, or gives way to new expressions where it is made of a
use of the variable.
-/

namespace Fieldwise

open Node

/-- The variables for the fields have their names, and the words for the storage of the variable. -/
theorem Document.Knows.forms_fieldDecls_refresh [Discipline] {d : Document} {b : Binding}
    (h : d.Knows b) (hp : b.isParam = false) : (b.refresh d).fieldDecls.map form? =
      b.aggregate.fields.map fun f =>
        some (.decl (some (b.fieldName f)) { storage := b.storage }) := by
  have hstorage : (b.refresh d).storage = b.storage := by
    rw [Binding.storage, Binding.storage, Binding.refresh, h.decl.form?_current]
  have hfields : (b.refresh d).aggregate.fields =
      b.aggregate.fields.map fun f => { f with type := d.current f.type } := rfl
  rw [Binding.fieldDecls, hfields, List.map_map, List.map_map]
  refine List.map_congr_left fun f _ => ?_
  have hform : ((b.refresh d).fieldDecl { f with type := d.current f.type }).form? =
      some (.decl (some ((b.refresh d).name ++ "_" ++ f.name))
        { storage := if (b.refresh d).isParam then [] else (b.refresh d).storage }) := rfl
  rw [Function.comp_apply, Function.comp_apply, hform, h.name_refresh, h.isParam_refresh, hp,
    hstorage]
  rfl

namespace Session

variable {u : Subject} {s t v w : Session} {b b' : Binding} {bs : List Binding} {x : Expansion}

/-- What stands in the place of the declaration `D` of a variable that was decomposed: declarations
`hs` that its initializer asks for, the bare definition of the type in it, declarations `fs` for the
fields in order, with its words for the storage, and what the initializer asks for after them. -/
structure Replacement (s : Session) (b : Binding) (D : Node) (x : Expansion)
    (hs bare fs cs : List Node) : Prop where
  before : s.document.Placed b.name x.before hs
  holders : ∀ c ∈ hs, c.isA .decl
  bare : D.Leaves bare
  decls : s.document.Placed b.name x.decls fs
  fields : fs.map form? = b.aggregate.fields.map fun f =>
    some (.decl (some (b.fieldName f)) { storage := b.storage })
  after : s.document.Placed b.name x.after cs
  statements : ∀ c ∈ x.after, c.isA .decl = false

section

variable [Discipline]

/-- What a variable gives way to is put around its declaration. -/
theorem Within.between_declareVariable (h : Within u s) (hb : s.document.Knows b) (hu : u.Covers b)
    (ha : s.document.attached b.decl) (hp : b.isParam = false)
    (hr : s.run (Engine.declareVariable b) = (.ok b', w)) :
    ∃ x r L us D vs L' hs fs cs, s.run (Engine.expand b) = (.ok (b', x), r) ∧
      s.document.Between b.decl L us D vs ∧ D.isA .decl ∧
      w.document.Between b'.decl L' (us ++ hs) D (fs ++ cs ++ vs) ∧
      L'.key = L.key ∧ L'.form? = L.form? ∧ hs.map copy = x.before.map copy ∧
      fs.map copy = x.decls.map copy ∧ cs.map copy = x.after.map copy := by
  obtain ⟨x, d₁, ⟨r, hx⟩, rfl, hdecl⟩ := h.of_declareVariable hb hu ha hp hr
  have hds := h.sound.document
  have hknows := hb.refresh hds
  have hp' := hb.isParam_refresh.trans hp
  obtain ⟨p, D, hD⟩ := h.sound.exists_declared hknows (by rwa [attached_refresh])
  have hbetween := Document.Between.of_stands hD.stands
  have hafter : ∀ c ∈ x.decls ++ x.after, c.IsNew := fun c hc => (List.mem_append.mp hc).elim
    (hdecl.isNew.decls c) fun hc => (hdecl.isNew.after c hc).toIsNew
  obtain ⟨-, L₁, hL₁, hk₁, hf₁, hparts₁⟩ := hbetween.insert hD.decl hD.stands hds.tidy
    (hD.isInList h.sound hknows hp') (keyless_of_forall hafter) hdecl.after
  -- The declaration stands there still, and the rest is put before it.
  obtain ⟨v, hsv, rfl, hav⟩ := hdecl.between
  obtain ⟨p₁, D₁, hD₁⟩ := hsv.sound.exists_declared (hsv.knows hknows) hav
  have hbetween₁ : v.document.Between (b.refresh s.document).decl L₁ _ D _ :=
    ⟨hL₁, by simpa using hparts₁, hD.stands.key⟩
  obtain ⟨-, L₂, hL₂, hk₂, hf₂, hparts₂⟩ := hbetween₁.insert hD.decl hD₁.stands
    hsv.sound.document.tidy (hD₁.isInList hsv.sound (hsv.knows hknows) hp')
    (keyless_of_forall hdecl.isNew.before) hdecl.before
  refine ⟨x, r, _, _, D, _, L₂, _, _, _, hx, ⟨hbetween.mem, hbetween.parts,
    hD.stands.key.trans (Document.key_current _ _)⟩, hD.decl, ⟨hL₂, ?_, hD.stands.key⟩,
    hk₂.trans hk₁, hf₂.trans hf₁, map_copy_stampAll v.document.next _,
    map_copy_stampAll s.document.next _, map_copy_stampAll (stampAll s.document.next x.decls).2 _⟩
  rw [hparts₂, stampAll_append]
  simp

/-- While the uses of a variable are rewritten its declaration stays between the same items, or what
became of them, and defines the same type. -/
theorem Within.between_rewrite (hl : Discipline.IsLax) (h : Within u s)
    (hb : s.document.Knows b) (hu : u.Covers b) (ha : s.document.attached b.decl)
    (hp : b.isParam = false) {L D : Node} {us vs : List Node}
    (hbetween : s.document.Between b.decl L us D vs) (hD : D.isA .decl) (hbase : D.hasStructBase)
    (hr : s.run (Engine.rewrite b) = (.ok (), t)) :
    ∃ L' us' D' vs', t.document.Between b.decl L' us' D' vs' ∧ L'.key = L.key ∧
      L'.form? = L.form? ∧ D'.isA .decl ∧ Rows (s.document.Becomes b.name) us us' ∧
      Rows (s.document.Becomes b.name) vs vs' ∧ ∀ bare, D'.Leaves bare → D.Leaves bare := by
  obtain ⟨hst, hat⟩ := (h.settles_rewrite hb hu fun _ => ha).of_ok hr
  have hrewrites := (h.rewrites_rewrite hl hb hu fun _ => ha).of_ok hr
  obtain ⟨L', us', D', vs', hbetween', hk, hf, hform, hus, hvs⟩ :=
    hbetween.rewrite hD (hb.isBlock_home hp hbetween.mem
      (by simp [hbetween.parts]) hbetween.key) h.sound.document.tidy hrewrites
      (h.of_mem_occurrences hb fun _ => ha) (hat hp)
  have hD' : D'.isA .decl := by rwa [isA, cls?_congr hform, ← isA]
  exact ⟨L', us', D', vs', hbetween', hk, hf, hD', hus, hvs, fun bare hbare => hbare.congr <|
    hrewrites.rewrites.definedType? h.sound.document.tidy hst.sound.document.tidy
      (hbetween.declared_mem hD) (hbetween'.declared_mem hD')
      (hbetween'.key.trans hbetween.key.symm) hD hbase⟩

/-- The definition of the type in a declaration is left in its place. -/
theorem Within.leaves_removeDeclaration (h : Within u s) (hb : s.document.Knows b)
    (ha : s.document.attached b.decl) (hp : b.isParam = false) {L D : Node} {us vs : List Node}
    (hbetween : s.document.Between b.decl L us D vs) (hD : D.isA .decl)
    (hr : s.run (Engine.removeDeclaration (b.refresh s.document)) = (.ok (), t)) :
    (∃ L' ∈ t.document.root.preorder, L'.key = L.key ∧ L'.form? = L.form? ∧
      ∃ bare, D.Leaves bare ∧ L'.parts = us ++ bare ++ vs) ∧
      t.document.attached b.decl = false := by
  have hds := h.sound.document
  have hknows := hb.refresh hds
  obtain ⟨p, y, hdecl⟩ := h.sound.exists_declared hknows (by rwa [attached_refresh])
  have hlist := hdecl.isInList h.sound hknows (hb.isParam_refresh.trans hp)
  have hbetween' : s.document.Between (b.refresh s.document).decl L us D vs :=
    ⟨hbetween.mem, hbetween.parts, hbetween.key.trans (Document.key_current _ _).symm⟩
  have hcur : (b.refresh s.document).decl = D :=
    hds.current_eq (Document.mem_trees_of_root (hbetween.declared_mem hD)) hbetween.key
  unfold Engine.removeDeclaration at hr
  split at hr
  · rename_i T hT
    obtain ⟨d, hd, rfl⟩ := run_edit_eq_ok.mp hr
    obtain ⟨hTm, hTs, -⟩ := definedType?_spec hT
    obtain ⟨⟨L', hL', hk, hf, hparts⟩, hgone⟩ := hbetween'.bare hD hdecl.stands hds.tidy
      (hcur ▸ hTm) hTs hd
    exact ⟨⟨L', hL', hk, hf, _, .definition (hcur ▸ hT) rfl rfl, hparts⟩,
      attached_refresh _ d b ▸ hgone⟩
  · rename_i hT
    obtain ⟨d, hd, rfl⟩ := run_edit_eq_ok.mp hr
    obtain ⟨⟨L', hL', hk, hf, hparts⟩, hgone⟩ := hbetween'.detach hD hdecl.stands hds.tidy hlist hd
    exact ⟨⟨L', hL', hk, hf, [], .nothing (hcur ▸ hT), by simpa using hparts⟩,
      attached_refresh _ d b ▸ hgone⟩

/-- A variable gives way to declarations for its fields. -/
theorem fits_expand (hl : Discipline.IsLax)
    (hr : s.run (Engine.expand b) = (.ok (b', x), t)) :
    x.Fits (b.refresh s.document).fieldDecls := by
  suffices hs : s.Settles (Engine.expand b) fun r _ => r.2.Fits (b.refresh s.document).fieldDecls
    from hs.of_ok hr
  unfold Engine.expand
  refine (settles_refresh s b).bind ?_
  rintro _ s ⟨rfl, rfl⟩
  refine (settles_synthesize _ _).bind ?_
  rintro _ t ⟨-, rfl⟩
  exact (forms_initialValues hl t (Binding.length_fieldDecls _)).bind fun x v hx => .pure hx

/-- What a variable gives way to has the forms of its replacement. -/
theorem Within.replacement (hl : Discipline.IsLax) (h : Within u s) (hb : s.document.Knows b)
    (hp : b.isParam = false) (hr : s.run (Engine.expand b) = (.ok (b', x), t)) {D : Node}
    {hs bare fs cs : List Node} (hbefore : s.document.Placed b.name x.before hs)
    (hbare : D.Leaves bare) (hdecls : s.document.Placed b.name x.decls fs)
    (hafter : s.document.Placed b.name x.after cs) : s.Replacement b D x hs bare fs cs := by
  obtain ⟨-, -, hnew⟩ := h.of_expand hb hr
  have hfits := fits_expand hl hr
  have hvars : ∀ c ∈ x.decls, c.isA .decl := isA_of_map_form? hfits.decls fun c hc => by
    obtain ⟨f, -, rfl⟩ := List.mem_map.mp hc
    rfl
  have hforms := isA_of_map_form? (hbefore.map_form? hfits.before) hfits.before
  refine ⟨hbefore, hforms, hbare, hdecls, ?_, hafter, fun c hc => (hnew.after c hc).decl⟩
  rw [hdecls.map_form? hvars, hfits.decls, hb.forms_fieldDecls_refresh hp]

end

/-- **A variable is replaced in place.** What its initializer asks for before it, the definition of
the type in its declaration, the variables for the fields and what its initializer asks for after
them stand next to each other where the declaration was, and that is gone. What was before it and
after it is so still, in order, but for items that are made of a use of it: new expressions, at
least one, may have come in the place of each. -/
theorem Reached.decomposeBinding_in_place (hs : Reached s bs) (hb : b ∈ bs)
    (hp : b.isParam = false) (ha : s.document.attached b.decl)
    (hr : s.run (Engine.decomposeBinding b) = (.ok (), t)) :
    ∃ b' x r L us D vs L' us' hs bare fs cs vs', s.run (Engine.expand b) = (.ok (b', x), r) ∧
      s.document.Between b.decl L us D vs ∧ s.Replacement b D x hs bare fs cs ∧
      L' ∈ t.document.root.preorder ∧ L'.key = L.key ∧ L'.form? = L.form? ∧
      L'.parts = us' ++ (hs ++ bare ++ fs ++ cs) ++ vs' ∧
      Rows (s.document.Becomes b.name) us us' ∧ Rows (s.document.Becomes b.name) vs vs' ∧
      t.document.attached b.decl = false := by
  let _ : Discipline := ⟨False, False⟩
  have hl : Discipline.IsLax := ⟨id, id⟩
  have hready := hs.ready hl
  have h := hready.within
  have hknows := hready.knows b hb
  have hu := hready.covers hb
  have hds := hready.sound.document
  rw [Engine.decomposeBinding, hp, if_neg (by simp), Engine.decomposeVariable_eq] at hr
  obtain ⟨b', w, hw, hr⟩ := run_bind_eq_ok.mp hr
  obtain ⟨⟨⟩, v, hv, hr⟩ := run_bind_eq_ok.mp hr
  obtain ⟨_, _, hrefresh, hr⟩ := run_bind_eq_ok.mp hr
  cases hrefresh
  obtain ⟨x, r, L, us, D, vs, L₁, hs₁, fs₁, cs₁, hx, hbetween, hD, hbetween₁, hk₁, hf₁, hh, hf,
    hc⟩ := h.between_declareVariable hknows hu ha hp hw
  obtain ⟨hsw, rfl, -, haw⟩ := (h.settles_declareVariable hknows hu ha hp).of_ok hw
  have hkw := hsw.knows (hknows.refresh hds)
  have hp' := hknows.isParam_refresh.trans hp
  have hu' := hu.refresh hknows
  have hbase := hready.bases b hb D (hbetween.declared_mem hD) hbetween.key
  -- The items stay in order while the uses are rewritten.
  obtain ⟨hwv, hav⟩ := (hsw.settles_rewrite hkw hu' fun _ => haw hp).of_ok hv
  obtain ⟨L₂, us₂, D₂, vs₂, hbetween₂, hk₂, hf₂, hD₂, hleft, hright, hleaves⟩ :=
    hsw.between_rewrite hl hkw hu' (haw hp) hp' hbetween₁ hD hbase hv
  rw [hknows.name_refresh] at hleft hright
  have hmono : ∀ {as row : List Node}, Rows (w.document.Becomes b.name) as row →
      Rows (s.document.Becomes b.name) as row := fun hrows =>
    hrows.imp fun _ _ _ _ hrow => hrow.mono hsw.continues.next
  obtain ⟨us', hs', rfl, hus, hhs⟩ := hleft.exists_append
  obtain ⟨fs, cs, vs', rfl, hfs, hcs, hvs⟩ := hright.exists_between
  -- At last the declaration is taken out.
  obtain ⟨⟨L', hL', hk', hf', bare, hbare, hparts⟩, hgone⟩ := hwv.leaves_removeDeclaration
    (hwv.knows hkw) (hav hp') hp' hbetween₂ hD₂ hr
  have hreplaced : s.Replacement b D x hs' bare fs cs := h.replacement hl hknows hp hx
    ⟨hs₁, hh, hmono hhs⟩ (hleaves bare hbare) ⟨fs₁, hf, hmono hfs⟩ ⟨cs₁, hc, hmono hcs⟩
  refine ⟨_, x, r, L, us, D, vs, L', us', hs', bare, fs, cs, vs', hx, hbetween, hreplaced, hL',
    hk'.trans (hk₂.trans hk₁), hf'.trans (hf₂.trans hf₁), ?_, hmono hus, hmono hvs, ?_⟩
  · rw [hparts]
    simp
  · rwa [attached_refresh] at hgone

/-- A pointer whose declaration defines its type and whose value is in no variable, and an
assignment to its target after another item of the list. -/
def definedInPlace : String :=
  "void f(void) \x7b struct S \x7bint a; int b;\x7d *p = &(struct S)\x7b1, 2\x7d; struct S q; " ++
    "*p = q; \x7d"

theorem Reached.decomposeBinding_in_place_definedInPlace : ∃ s bs b t,
    firstDecomposition definedInPlace = some (s, bs, b, t) ∧
    ∃ b' x r L us D vs L' us' hs bare fs cs vs', s.run (Engine.expand b) = (.ok (b', x), r) ∧
      s.document.Between b.decl L us D vs ∧ s.Replacement b D x hs bare fs cs ∧
      L' ∈ t.document.root.preorder ∧ L'.key = L.key ∧ L'.form? = L.form? ∧
      L'.parts = us' ++ (hs ++ bare ++ fs ++ cs) ++ vs' ∧
      Rows (s.document.Becomes b.name) us us' ∧ Rows (s.document.Becomes b.name) vs vs' ∧
      t.document.attached b.decl = false := by
  have h : (firstDecomposition definedInPlace).any (fun r => !r.2.2.1.isParam) = true := by
    decide +kernel
  obtain ⟨⟨s, bs, b, t⟩, hf, hp⟩ := (Option.any_eq_true _ _).mp h
  obtain ⟨hs, hb, ha, hr⟩ := firstDecomposition_spec hf
  exact ⟨s, bs, b, t, hf, hs.decomposeBinding_in_place hb (by simpa using hp) ha hr⟩

end Session

end Fieldwise
