import Fieldwise.Proofs.Document.Frame
import Fieldwise.Proofs.Session.Expanding

/-!
# Edits below a scope

While the uses of a binding are rewritten, the document goes on from what it was when they were
found, and all declarations in the scope of the binding stay where they are. `Session.Keeps` is this
invariant. A use and what it is made of are links, and above a link inside the scope there are links
of the scope only (`Session.Keeps.parent`). So an edit of a link takes out no declaration of the
scope (`Session.Keeps.step`), and each primitive edit of one succeeds and keeps the invariant. What
is not the subject's business is left alone.
-/

namespace Fieldwise

open Node

/-- The subject has the name of a binding, its declaration, and if it is a parameter the
declarations of functions that are named like that of the parameter. -/
structure Subject.Covers (u : Subject) (b : Binding) : Prop where
  name : b.name ∈ u.names
  decl : b.decl.key.any u.decls.contains
  functions : b.isParam → ∀ x ∈ u.start.root.preorder, x.declaresFunction →
    x.name? = b.scope.headName? → x.key.any u.decls.contains

theorem Subject.Covers.refresh [Discipline] {u : Subject} {d : Document} {b : Binding}
    (h : u.Covers b) (hb : d.Knows b) : u.Covers (b.refresh d) where
  name := hb.name_refresh ▸ h.name
  decl := (Document.key_current d b.decl).symm ▸ h.decl
  functions hp x hx hf hn :=
    h.functions (hb.isParam_refresh ▸ hp) x hx hf
      (hn.trans (headName?_congr hb.scope.head?_current))

namespace Session

variable {u : Subject} {d : Document} {S : Node} {s t : Session} {e n P : Node}

/-- A node with the key of one below `S`. -/
def IsInside (S n : Node) : Prop := ∃ x ∈ preorderAll S.parts, x.key = n.key

/-- A node that is attached and inside a scope, and is made of a use of a name of the subject's. The
node may be out of date. -/
structure IsAt (s : Session) (u : Subject) (S n : Node) : Prop where
  attached : ∃ x ∈ s.document.root.preorder, x.key = n.key ∧ u.reaches x
  inside : IsInside S n

theorem IsAt.same (h : s.IsAt u S n) (hs : s.Same t) : t.IsAt u S n where
  attached := hs.document ▸ h.attached
  inside := h.inside

theorem IsAt.isInside_of_stands {p : Place} {x : Node} (he : s.IsAt u S e)
    (hs : s.document.Stands e p x) : IsInside S x :=
  he.inside.imp fun _ hy => ⟨hy.1, hy.2.trans hs.key.symm⟩

/-- The node above one, if it is known to be a node. -/
theorem parent?_eq (hP : P = (s.document.parent? n).getD .absent) (hp : P.isPresent) :
    s.document.parent? n = some P ∧ P ∈ s.document.root.preorder := by
  cases h : s.document.parent? n with
  | none =>
    subst hP
    simp [h, isPresent] at hp
  | some Q =>
    obtain rfl : P = Q := by simpa [h] using hP
    exact ⟨rfl, (Document.of_parent? h).1⟩

variable [Discipline]

/-- Nothing is wrong with a session, and what is not the subject's business was left alone. -/
structure Within (u : Subject) (s : Session) : Prop where
  sound : s.Sound
  frames : u.Frames s.document

theorem Within.same (h : Within u s) (hs : s.Same t) : Within u t :=
  ⟨h.sound.same hs, hs.document ▸ h.frames⟩

/-- An edit that is the subject's business. -/
theorem Within.follows (h : Within u s) {d : Document} {r x : Node}
    (hf : Document.Follows s.document d r x) (hx : x ∈ preorderAll s.document.trees)
    (hm : u.Minds d x) : Within u { s with document := d } :=
  ⟨h.sound.continues hf.continues hf.sound,
    h.frames.step h.sound.document hx hm hf.continues hf.alters⟩

/-- The session after a computation, whose document went on. -/
structure Proceeds (u : Subject) (s t : Session) : Prop extends Within u t where
  continues : Document.Continues s.document t.document

namespace Proceeds

theorem refl (h : Within u s) : Proceeds u s s := ⟨h, .refl _ h.sound.document⟩

theorem same (h : Within u s) (hs : s.Same t) : Proceeds u s t :=
  ⟨h.same hs, by rw [hs.document]; exact .refl _ h.sound.document⟩

theorem follows (h : Within u s) {d : Document} {r x : Node}
    (hf : Document.Follows s.document d r x) (hx : x ∈ preorderAll s.document.trees)
    (hm : u.Minds d x) : Proceeds u s { s with document := d } :=
  ⟨h.follows hf hx hm, hf.continues⟩

theorem trans {v : Session} (h : Proceeds u s t) (h' : Proceeds u t v) : Proceeds u s v :=
  ⟨h'.toWithin, h.continues.trans h'.continues h.sound.document⟩

theorem knows {b : Binding} (h : Proceeds u s t) (hb : s.document.Knows b) : t.document.Knows b :=
  hb.continues h.continues h.sound.document

end Proceeds

/-- The session went on from the document `d`, and the declarations in its node `S` are still
there. -/
structure Keeps (u : Subject) (d : Document) (S : Node) (s : Session) : Prop where
  start : d.Sound
  scope : S ∈ d.root.preorder
  block : S.isA .funcDef ∨ S.isBlock
  within : Within u s
  continues : Document.Continues d s.document
  kept : ∀ D ∈ S.parts, D.isA .decl → ∃ x ∈ s.document.root.preorder, x.key = D.key

namespace Keeps

theorem sound (h : Keeps u d S s) : s.Sound := h.within.sound

/-- What a session keeps when nothing was done yet. -/
theorem refl (h : Within u s) (hS : S ∈ s.document.root.preorder)
    (hb : S.isA .funcDef ∨ S.isBlock) : Keeps u s.document S s where
  start := h.sound.document
  scope := hS
  block := hb
  within := h
  continues := .refl _ h.sound.document
  kept D hD hd := ⟨D, mem_preorder_of_part hS hD (by
    cases D with
    | absent => cases hd
    | mk => rfl), rfl⟩

theorem same (h : Keeps u d S s) (hs : s.Same t) : Keeps u d S t where
  start := h.start
  scope := h.scope
  block := h.block
  within := h.within.same hs
  continues := hs.document ▸ h.continues
  kept := hs.document ▸ h.kept

/-- What is inside a scope is old. -/
theorem isOld (h : Keeps u d S s) (hn : IsInside S n) : IsOld d.next n := by
  obtain ⟨x, hx, hk⟩ := hn
  exact isOld_of_key (h.start.bound x (Document.mem_trees_of_root
    (mem_preorder_of_mem_preorderAll h.scope hx))) hk

/-- A node inside a scope was of the same class at the start, and had all old nodes below it that
are below it now. -/
theorem below (h : Keeps u d S s) (hn : n ∈ s.document.root.preorder) (hi : IsInside S n) :
    ∃ x ∈ preorderAll S.parts, x.key = n.key ∧ x.cls? = n.cls? ∧
      ∀ y' ∈ n.preorder, IsOld d.next y' → ∃ y ∈ x.preorder, y.key = y'.key := by
  obtain ⟨x₀, hx₀, hk₀, hc, -, -, hb⟩ := h.continues.node n hn (h.isOld hi)
  obtain ⟨x, hx, hk⟩ := hi
  obtain rfl : x = x₀ := h.start.eq_of_key (mem_preorder_of_mem_preorderAll h.scope hx) hx₀
    (hk.trans hk₀.symm)
  exact ⟨x, hx, hk, hc, hb⟩

/-- **Above a link inside a scope there are links inside the scope only.** -/
theorem parent (h : Keeps u d S s) (he : s.IsAt u S e) (hp : s.document.parent? e = some P)
    (hP : P.isLink) : s.IsAt u S P := by
  obtain ⟨hPm, c, hc, hck, -⟩ := Document.of_parent? hp
  obtain ⟨e', he', hek, her⟩ := he.attached
  have hel := (Subject.reaches_iff.mp her).1
  have hci : IsInside S c := he.inside.imp fun x hx => ⟨hx.1, hx.2.trans hck.symm⟩
  obtain ⟨x, hx, hxk, hxc, -⟩ := h.below he' (he.inside.imp fun x hx => ⟨hx.1, hx.2.trans hek.symm⟩)
  obtain ⟨hblock, hfunc, hcomp, -⟩ := isBlock_of_isLink hP
  have hPo : IsOld d.next P := by
    -- A new node with an old part is a block or a declaration.
    refine Classical.byContradiction fun hn => ?_
    rcases (h.continues.fresh P hPm hn c hc (h.isOld hci)).1 with hcl | hcl
    · rw [hcomp] at hcl
      cases hcl
    · rw [(isLoose_of_isLink hP).decl] at hcl
      cases hcl
  obtain ⟨p, hpm, hpk, hpc, -, hparts, -⟩ := h.continues.node P hPm hPo
  obtain ⟨c₀, hc₀, hck₀⟩ := hparts c hc (h.isOld hci)
  -- At the start the node had one parent only, below the scope or the scope itself.
  obtain ⟨q, hq, hxq⟩ := exists_parent_of_mem hx
  have hxl : x.isLink := (isLink_congr hxc).trans hel
  have hqm := mem_preorder_trans hq h.scope
  obtain rfl : p = q := h.start.eq_of_key hpm hqm
    (h.start.woven.sole q (Document.mem_trees_of_root hqm) p (Document.mem_trees_of_root hpm) x hxq
      c₀ hc₀ (isSole_of_isLink hxl) (by rw [hck₀, hck, hxk, hek])).symm
  have hpl : p.isLink := (isLink_congr hpc).trans hP
  have hcm : c ∈ P.preorder := mem_preorder_of_mem_parts hc (self_mem_preorder (by
    obtain ⟨k, hk⟩ := h.sound.document.exists_key he'
    exact isPresent_of_key (hck.trans (hek.symm.trans hk))))
  obtain rfl : e' = c := h.sound.document.eq_of_key he' (mem_preorder_trans hcm hPm)
    (hek.trans hck.symm)
  refine ⟨⟨P, hPm, rfl, Subject.reaches_iff.mpr ⟨hP, .inr ⟨_, hc, her⟩⟩⟩, ?_⟩
  rcases (mem_preorder_iff (isPresent_of_preorder hq)).mp hq with rfl | hq
  · obtain ⟨hblock, hfunc, -⟩ := isBlock_of_isLink hpl
    rcases h.block with hS | hS
    · rw [hfunc] at hS
      cases hS
    · rw [hblock] at hS
      cases hS
  · exact ⟨p, hq, hpk⟩

/-- **An edit that takes out what is made of a use inside the scope keeps the declarations.** -/
theorem step {d' : Document} {r : Node} (h : Keeps u d S s)
    (hf : Document.Follows s.document d' r r) (hrm : r ∈ s.document.root.preorder)
    (hrr : u.reaches r) (hri : IsInside S r) (hgone : ∀ y ∈ d'.root.preorder, y.key ≠ r.key) :
    Keeps u d S { s with document := d' } where
  start := h.start
  scope := h.scope
  block := h.block
  within := h.within.follows hf (Document.mem_trees_of_root hrm) (.replaced hrr hgone)
  continues := h.continues.trans hf.continues h.sound.document
  kept D hD hd := by
    obtain ⟨x, hx, hk⟩ := h.kept D hD hd
    rcases hf.kept x hx with ⟨x', hx', hk'⟩ | hxr
    · exact ⟨x', hx', hk'.trans hk⟩
    -- Otherwise the scope would be below what was taken out.
    refine (?_ : False).elim
    have hDs : D.isSole := isSole_of_isA hd rfl
    have hDm := mem_preorder_of_part h.scope hD (isPresent_of_isSole hDs)
    obtain ⟨r₀, hr₀, -, hrc, hbelow⟩ := h.below hrm hri
    have hold : IsOld d.next x := isOld_of_key
      (h.start.bound D (Document.mem_trees_of_root hDm)) hk.symm
    obtain ⟨y, hy, hyk⟩ := hbelow x hxr hold
    have hr₀m := mem_preorder_of_mem_preorderAll h.scope hr₀
    obtain rfl : y = D := h.start.eq_of_key (mem_preorder_trans hy hr₀m) hDm (hyk.trans hk)
    rcases (mem_preorder_iff (isPresent_of_preorder hy)).mp hy with rfl | hy
    · have hrl := (isLink_congr hrc).trans (Subject.reaches_iff.mp hrr).1
      have := (isLoose_of_isLink hrl).decl
      rw [hd] at this
      cases this
    · obtain ⟨q, hq, hyq⟩ := exists_parent_of_mem hy
      have hqm := mem_preorder_trans hq hr₀m
      obtain rfl : q = S := h.start.eq_of_key hqm h.scope
        (h.start.woven.sole q (Document.mem_trees_of_root hqm) S
          (Document.mem_trees_of_root h.scope) y hyq y hD hDs rfl)
      exact not_mem_preorderAll_parts hr₀ hq

/-! ### Primitive edits -/

/-- A link stands somewhere. -/
theorem stands (h : Keeps u d S s) (he : s.IsAt u S e) :
    ∃ p x, s.document.Stands e p x ∧ x.isLink ∧ u.reaches x := by
  obtain ⟨x, hx, hk, hr⟩ := he.attached
  have hl := (Subject.reaches_iff.mp hr).1
  have hroot : e.key ≠ s.document.root.key := fun hr => by
    have := h.sound.document.eq_of_key hx h.sound.document.root_mem (hk.trans hr)
    have hfile := h.sound.document.file
    rw [← this, (isBlock_of_isLink hl).2.2.2] at hfile
    cases hfile
  obtain ⟨p, hs⟩ := h.sound.document.exists_stands hx hk hroot
  exact ⟨p, x, hs, hl, hr⟩

/-- Something else is put in the place of a link. -/
theorem settles_replace (h : Keeps u d S s) (he : s.IsAt u S e) {y : Node} (hy : y.IsNewTerm)
    (hi : y.IsInner) : s.Settles (Engine.replace e y) fun _ t => Keeps u d S t := by
  obtain ⟨p, x, hs, hl, hr⟩ := h.stands he
  obtain ⟨d', hd', hf⟩ := h.sound.document.replace_ok hs (isLoose_of_isLink hl) hy hi
  exact .edit hd' (h.step hf hs.mem hr (he.isInside_of_stands hs)
    (hs.swaps_replace h.sound.document.tidy (isSole_of_isLink hl) hy.keyless hd').2)

/-- Any number of arguments is put in the place of one. -/
theorem settles_splice (h : Keeps u d S s) (he : s.IsAt u S e)
    (hP : s.document.parent? e = some P) (hl : P.isA .exprList)
    (hc : ∀ q ∈ preorderAll s.document.trees, P ∈ q.parts → q.callName? ≠ some "operator=")
    {new : List Node} (hnew : ∀ c ∈ new, c.IsNewTerm) :
    s.Settles (Engine.edit fun d => d.splice e new) fun _ t => Keeps u d S t := by
  obtain ⟨p, x, hs, hxl, hr⟩ := h.stands he
  obtain rfl : p.parent = P := by simpa [hs.parent?] using hP
  have hlist : p.isInList := by
    rw [Document.isInList_iff]
    obtain ⟨f, hf, hfc⟩ : ∃ f, p.parent.form? = some f ∧ f.cls = .exprList := by
      simpa [isA, cls?] using hl
    exact ⟨f, hf, by rw [hfc]; rfl, by rw [hfc]; exact Nat.zero_le _⟩
  obtain ⟨d', hd', hf⟩ := h.sound.document.splice_ok hs (fun c hc => (hnew c hc).toIsNew)
    ⟨hlist, .inl fun c hc => (hnew c hc).decl, .inr hc⟩
  exact .edit hd' (h.step hf hs.mem hr (he.isInside_of_stands hs)
    (hs.swaps_splice h.sound.document.tidy (isSole_of_isLink hxl)
      (keyless_of_forall fun c hc => (hnew c hc).toIsNew) hd').2)

end Keeps

namespace Keeps

/-- Statements are put in the place of one that is a link. -/
theorem settles_replaceStatement (h : Keeps u d S s) (he : s.IsAt u S e)
    (hst : s.document.isStatement e = .ok true) {new : List Node} (hnew : ∀ c ∈ new, c.IsNewTerm) :
    s.Settles (Engine.replaceStatement e new) fun _ t => Keeps u d S t := by
  obtain ⟨p, x, hs, hl, hr⟩ := h.stands he
  obtain ⟨d₁, d₂, hd₁, hd₂, hf⟩ := h.sound.document.exchange_ok hs (isLoose_of_isLink hl)
    (isSole_of_isLink hl) (Except.ok.inj (hs.isStatement_eq.symm.trans hst)) hnew
  refine Settles.bind (.edit (Q := fun _ t => t = { s with document := d₁ }) hd₁ rfl) ?_
  rintro - _ rfl
  exact .edit hd₂ (h.step hf hs.mem hr (he.isInside_of_stands hs)
    (hs.swaps_exchange h.sound.document.tidy (isSole_of_isLink hl) (isLoose_of_isLink hl).decl
      (keyless_of_forall fun c hc => (hnew c hc).toIsNew) hd₁ hd₂).2)

/-! ### What is around a link -/

/-- Looking at the node above one. -/
theorem settles_parentOf (s : Session) (n : Node) : s.Settles (Engine.parentOf n) fun P t =>
    t = s ∧ P = (s.document.parent? n).getD .absent :=
  .get_bind (.pure ⟨rfl, rfl⟩)

/-- Whether a link is a statement can be said. -/
theorem settles_isStatement (h : Keeps u d S s) (he : s.IsAt u S e) :
    s.Settles (Engine.report fun s => Report.of (s.document.isStatement e)) fun x t =>
      s.Same t ∧ t.document.isStatement e = .ok x := by
  obtain ⟨p, x, hs, -⟩ := h.stands he
  refine (settles_report (P := fun x => s.document.isStatement e = .ok x) ?_).mono fun x t ht => ?_
  · refine .of ?_
    rw [hs.isStatement_eq]
    exact rfl
  · exact ⟨ht.1, by rw [ht.1.document]; exact ht.2⟩

end Keeps

end Session

end Fieldwise
