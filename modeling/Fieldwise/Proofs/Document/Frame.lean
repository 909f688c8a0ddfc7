import Fieldwise.Proofs.Document.Edit

/-!
# What a decomposition leaves alone

A decomposition has a `Subject`: the names of the bindings that are decomposed, their declarations,
and the declarations of the functions whose parameters they are. It touches these declarations, and
the expressions that are made of a use of such a name (`Subject.touches`). `Subject.Frames` says
that all other nodes of the document at the start have kept those of their parts that have nothing
to do with the subject, as they were and in order, and that a part of one is a part of it still,
unless it is such an expression and gone. An edit that is the subject's business keeps this
(`Subject.Frames.step`).
-/

namespace Fieldwise

open Node

/-- The classes of names, of what selects or uses objects, and of lists of arguments. -/
def Class.isLink : Class → Bool
  | .ident | .structRef | .unaryOp | .arrayRef | .assignment | .exprList | .funcCall => true
  | _ => false

namespace Node

/-- Whether a node is what a use of a name is made of. -/
def isLink (n : Node) : Bool := n.cls?.any Class.isLink

variable {n x : Node}

theorem exists_of_isLink (h : n.isLink) : ∃ m f ps, n = mk m f ps ∧ f.cls.isLink := by
  cases n with
  | absent => cases h
  | mk m f ps => exact ⟨m, f, ps, rfl, by simpa [isLink, cls?, form?] using h⟩

theorem isSole_of_isLink (h : n.isLink) : n.isSole := by
  obtain ⟨m, f, ps, rfl, hf⟩ := exists_of_isLink h
  cases f <;> first | rfl | cases hf

theorem isLoose_of_isLink (h : n.isLink) : n.IsLoose := by
  obtain ⟨m, f, ps, rfl, hf⟩ := exists_of_isLink h
  cases f <;> first | exact ⟨rfl, rfl, rfl⟩ | cases hf

theorem isBlock_of_isLink (h : n.isLink) : n.isBlock = false ∧ n.isA .funcDef = false ∧
    n.isA .compound = false ∧ n.isA .file = false := by
  obtain ⟨m, f, ps, rfl, hf⟩ := exists_of_isLink h
  cases f <;> first | exact ⟨rfl, rfl, rfl, rfl⟩ | cases hf

theorem isLink_mk {m : Mark} {f : Form} {ps : List Node} (h : f.cls.isLink) :
    (mk m f ps).isLink := h

theorem isLink_of_isA {c : Class} (h : n.isA c) (hc : c.isLink) : n.isLink := by
  have : n.cls? = some c := by simpa [isA] using h
  simp [isLink, this, hc]

theorem isLink_congr (h : x.cls? = n.cls?) : x.isLink = n.isLink := by rw [isLink, isLink, h]

/-- Links are no lists of declarations. -/
theorem isA_decl_of_isLink {c : Node} (h : n.isLink) (hp : n.IsPlaced) (hc : c ∈ n.parts) :
    c.isA .decl = false := by
  obtain ⟨m, f, ps, rfl, hf⟩ := exists_of_isLink h
  obtain ⟨i, hi⟩ := List.getElem?_of_mem hc
  refine Bool.eq_false_iff.mpr fun hd => ?_
  have hholds := hp.holds f rfl i c hi hd
  cases f with
  | ident | structRef | unaryOp | arrayRef | assignment | exprList | funcCall =>
    simp [Form.holdsDecl] at hholds
  | _ => cases hf

end Node

/-- What a decomposition is about: the document that it begins with, the names that it rewrites, and
the keys of the declarations that it changes or takes out. -/
structure Subject where
  start : Document
  names : List String
  decls : List Nat

namespace Subject

variable (u : Subject)

/-- Whether a node is a use of one of the names. -/
def mentions (n : Node) : Bool := n.identName?.any u.names.contains

/-- Whether a node is one of the declarations. -/
def declares (n : Node) : Bool := n.isA .decl && n.key.any u.decls.contains

/-- Whether a node is a use of one of the names, or one of the declarations. -/
def concerns (n : Node) : Bool := u.mentions n || u.declares n

/-- Whether a tree has nothing to do with the subject. -/
def spares (n : Node) : Bool := n.preorder.all fun x => !u.concerns x

mutual

/-- Whether a node is made of a use of one of the names: whether links lead down to it. -/
def reaches : Node → Bool
  | .absent => false
  | .mk m f ps => f.cls.isLink && (u.mentions (.mk m f ps) || reachesAny ps)

/-- Whether one of several nodes is made of a use of one of the names. -/
def reachesAny : List Node → Bool
  | [] => false
  | p :: ps => reaches p || reachesAny ps

end

/-- Whether a node is one that a decomposition may rewrite: one of the declarations, or made of a
use of one of the names. -/
def touches (n : Node) : Bool := u.declares n || u.reaches n

/-- Whether a node is one that a decomposition did rewrite: one of the declarations, or made of a
use of one of the names and in the program no more. -/
def rewrites (d : Document) (n : Node) : Bool := u.touches n && (u.declares n || !d.attached n)

variable {u} {n x c : Node}

theorem spares_iff : u.spares n ↔ ∀ x ∈ n.preorder, u.concerns x = false := by
  simp [spares]

theorem spares_of_mem (h : u.spares n) (hx : x ∈ n.preorder) : u.spares x :=
  spares_iff.mpr fun y hy => spares_iff.mp h y (mem_preorder_trans hy hx)

/-- What holds something of the subject's has to do with it. -/
theorem not_spares_of_mem (h : u.spares x = false) (hx : x ∈ n.preorder) : u.spares n = false :=
  Bool.eq_false_iff.mpr fun hn => Bool.eq_false_iff.mp h (spares_of_mem hn hx)

theorem not_spares_of_concerns (h : u.concerns n) (hn : n.isPresent) : u.spares n = false :=
  Bool.eq_false_iff.mpr fun hs => by
    rw [spares_iff.mp hs n (self_mem_preorder hn)] at h
    cases h

theorem reachesAny_iff {ps : List Node} : u.reachesAny ps ↔ ∃ p ∈ ps, u.reaches p := by
  induction ps with
  | nil => simp [reachesAny]
  | cons p ps ih => simp [reachesAny, ih]

theorem reaches_iff : u.reaches n ↔ n.isLink ∧ (u.mentions n ∨ ∃ p ∈ n.parts, u.reaches p) := by
  cases n with
  | absent => simp [reaches, isLink, cls?, form?]
  | mk m f ps => simp [reaches, isLink, cls?, form?, parts, reachesAny_iff]

theorem reaches_of_mentions (h : u.mentions n) : u.reaches n := by
  refine reaches_iff.mpr ⟨?_, .inl h⟩
  cases hn : n.identName? with
  | none => simp [mentions, hn] at h
  | some name => simp [isLink, cls?, identName?_eq_some.mp hn, Form.cls, Class.isLink]

theorem isPresent_of_reaches (h : u.reaches n) : n.isPresent := by
  cases n with
  | absent => cases h
  | mk => rfl

/-- What is made of a use of a name has the use in it. -/
theorem exists_of_reaches (h : u.reaches n) : ∃ x ∈ n.preorder, u.mentions x := by
  induction n using induction with
  | h₀ => cases h
  | h m f ps ih =>
    obtain ⟨-, hm | ⟨p, hp, hr⟩⟩ := reaches_iff.mp h
    · exact ⟨_, self_mem_preorder rfl, hm⟩
    · obtain ⟨x, hx, hm⟩ := ih p hp hr
      exact ⟨x, mem_preorder_of_mem_parts hp hx, hm⟩

theorem not_spares_of_reaches (h : u.reaches n) : u.spares n = false := by
  obtain ⟨x, hx, hm⟩ := exists_of_reaches h
  exact not_spares_of_mem (not_spares_of_concerns (by simp [concerns, hm])
    (isPresent_of_mem_preorder hx)) hx

theorem not_spares_of_touches (h : u.touches n) (hn : n.isPresent) : u.spares n = false := by
  rcases Bool.or_eq_true_iff.mp h with h | h
  · exact not_spares_of_concerns (by simp [concerns, h]) hn
  · exact not_spares_of_reaches h

theorem mentions_congr (hf : x.form? = n.form?) : u.mentions x = u.mentions n := by
  rw [mentions, mentions, identName?_congr hf]

theorem declares_congr (hf : x.form? = n.form?) (hk : x.key = n.key) :
    u.declares x = u.declares n := by
  rw [declares, declares, isA, isA, cls?_congr hf, hk]

end Subject

namespace Subject

variable [Discipline] {u : Subject} {d d' : Document} {n x : Node}

/-- The document is what became of the one at the start: a node in which nothing is of the subject's
is the same, and any but the declarations has kept such parts, in order, and all other parts but
declarations and what is made of a use of a name and gone. A link that is not made of such a use has
no new parts. -/
structure Frames (u : Subject) (d : Document) : Prop where
  start : u.start.Sound
  continues : Document.Continues u.start d
  whole : ∀ q ∈ u.start.root.preorder, u.spares q → ∀ q' ∈ d.root.preorder, q'.key = q.key → q' = q
  spared : ∀ q ∈ u.start.root.preorder, u.declares q = false →
    ∀ q' ∈ d.root.preorder, q'.key = q.key → (q.parts.filter u.spares).Sublist q'.parts
  parts : ∀ q ∈ u.start.root.preorder, u.declares q = false →
    ∀ q' ∈ d.root.preorder, q'.key = q.key → ∀ c ∈ q.parts, c.isPresent → u.declares c = false →
      (∃ c' ∈ q'.parts, c'.key = c.key) ∨
        u.reaches c ∧ ∀ y ∈ d.root.preorder, y.key ≠ c.key
  old : ∀ q ∈ u.start.root.preorder, q.isLink → u.reaches q = false →
    ∀ q' ∈ d.root.preorder, q'.key = q.key → ∀ c' ∈ q'.parts, ∃ c ∈ q.parts, c.key = c'.key

/-- An edit around a node that leads to the document `d` is the subject's business: the node is new,
or one of the declarations, or it is made of a use of one of the names and gone. -/
inductive Minds (u : Subject) (d : Document) (x : Node) : Prop where
  | new : ¬ IsOld u.start.next x → Minds u d x
  | declared : u.declares x → Minds u d x
  | replaced : u.reaches x → (∀ y ∈ d.root.preorder, y.key ≠ x.key) → Minds u d x

omit [Discipline] in
theorem Minds.touches (h : u.Minds d x) (ho : IsOld u.start.next x) : u.touches x := by
  cases h with
  | new hn => exact absurd ho hn
  | declared hd => simp [Subject.touches, hd]
  | replaced hr _ => simp [Subject.touches, hr]

namespace Frames

theorem refl (h : u.start.Sound) : u.Frames u.start where
  start := h
  continues := .refl _ h
  whole q hq _ q' hq' hk := h.eq_of_key hq' hq hk
  spared q hq _ q' hq' hk := by
    rw [h.eq_of_key hq' hq hk]
    exact List.filter_sublist
  parts q hq _ q' hq' hk c hc _ _ := .inl ⟨c, h.eq_of_key hq' hq hk ▸ hc, rfl⟩
  old q hq _ _ q' hq' hk c' hc' := ⟨c', h.eq_of_key hq' hq hk ▸ hc', rfl⟩

/-- A node has the form that it had at the start. -/
theorem form?_eq (h : u.Frames d) {q : Node} (hq : q ∈ u.start.root.preorder)
    (hn : n ∈ preorderAll d.trees) (hk : n.key = q.key) : n.form? = q.form? := by
  have hqm := Document.mem_trees_of_root hq
  obtain ⟨q₀, hq₀, hk₀, hf, -⟩ := h.continues.forms n hn
    (isOld_of_key (h.start.bound q hqm) hk.symm)
  rw [← hf, h.start.woven.eq_of_key hq₀ hqm (hk₀.trans hk)]

/-- **What is made of a use of a name was so at the start.** -/
theorem reaches (h : u.Frames d) (hd : d.Sound) {q : Node} (hq : q ∈ u.start.root.preorder)
    (hn : n ∈ d.root.preorder) (hk : n.key = q.key) (hr : u.reaches n) : u.reaches q := by
  induction n using induction generalizing q with
  | h₀ => cases hr
  | h m f ps ih =>
    obtain ⟨hl, hm⟩ := reaches_iff.mp hr
    have hf := (h.form?_eq hq (Document.mem_trees_of_root hn) hk).symm
    have hql : q.isLink := (isLink_congr (cls?_congr hf)).trans hl
    rcases hm with hm | ⟨p, hp, hr⟩
    · exact reaches_of_mentions ((mentions_congr hf).trans hm)
    · refine Classical.byContradiction fun hno => ?_
      obtain ⟨c, hc, hck⟩ := h.old q hq hql (by simpa using hno) _ hn hk p hp
      have hpm := mem_preorder_of_part hn hp (isPresent_of_reaches hr)
      obtain ⟨k, hpk⟩ := hd.exists_key hpm
      have hcm := mem_preorder_of_part hq hc (isPresent_of_key (hck.trans hpk))
      exact hno (reaches_iff.mpr ⟨hql, .inr ⟨c, hc, ih p hp hcm hpm hck.symm hr⟩⟩)

/-- What is edited is not in a tree of the start that has nothing to do with the subject. -/
theorem occursIn_eq_false (h : u.Frames d) (hd : d.Sound) (hx : x ∈ preorderAll d.trees)
    (hm : u.Minds d' x) {t : Node} (ht : t.isPresent → t ∈ u.start.root.preorder)
    (ht' : t.isPresent → t ∈ d.root.preorder) (hs : u.spares t) : x.occursIn t = false := by
  rw [Node.occursIn, List.any_eq_false]
  intro y hy hk
  rw [beq_iff_eq] at hk
  have htp := isPresent_of_preorder hy
  have hold := isOld_of_key (h.start.bound y
    (Document.mem_trees_of_root (mem_preorder_trans hy (ht htp)))) hk
  obtain rfl : y = x := hd.woven.eq_of_key
    (Document.mem_trees_of_root (mem_preorder_trans hy (ht' htp))) hx hk
  have := not_spares_of_touches (hm.touches hold) (isPresent_of_mem_preorder hy)
  rw [spares_of_mem hs hy] at this
  cases this

/-- What is edited is none of the declarations, and is gone. -/
theorem key_ne (h : u.Frames d) (hd : d.Sound) (hx : x ∈ preorderAll d.trees) (hm : u.Minds d' x)
    {q q' q'' : Node} (hq : q ∈ u.start.root.preorder) (hqd : u.declares q = false)
    (hq' : q' ∈ d.root.preorder) (hk : q'.key = q.key) (hq'' : q'' ∈ d'.root.preorder)
    (hk' : q''.key = q'.key) : q'.key ≠ x.key := by
  intro hkx
  obtain rfl : q' = x := hd.woven.eq_of_key (Document.mem_trees_of_root hq') hx hkx
  cases hm with
  | new hn =>
    exact hn (isOld_of_key (h.start.bound q (Document.mem_trees_of_root hq)) hk.symm)
  | declared hdecl =>
    rw [declares_congr (h.form?_eq hq hx hk) hk, hqd] at hdecl
    cases hdecl
  | replaced _ hgone => exact hgone q'' hq'' hk'

/-- **An edit that is the subject's business leaves the rest alone.** -/
theorem step (h : u.Frames d) (hd : d.Sound) (hx : x ∈ preorderAll d.trees) (hm : u.Minds d' x)
    (hc : Document.Continues d d') (ha : Document.Alters d d' x) : u.Frames d' := by
  -- A node of the start that is there after the edit was there before it.
  have hmid : ∀ q ∈ u.start.root.preorder, ∀ q'' ∈ d'.root.preorder, q''.key = q.key →
      ∃ q' ∈ d.root.preorder, q'.key = q.key := fun q hq q'' hq'' hk => by
    obtain ⟨q', hq', hk', -⟩ := hc.node q'' hq'' (isOld_mono (isOld_of_key
      (h.start.bound q (Document.mem_trees_of_root hq)) hk.symm) h.continues.next)
    exact ⟨q', hq', hk'.trans hk⟩
  refine ⟨h.start, h.continues.trans hc hd, fun q hq hs q'' hq'' hk => ?_,
    fun q hq hqd q'' hq'' hk => ?_, fun q hq hqd q'' hq'' hk c hcq hcp hcd => ?_,
    fun q hq hl hr q'' hq'' hk c'' hc'' => ?_⟩
  · obtain ⟨q', hq', hk'⟩ := hmid q hq q'' hq'' hk
    obtain rfl : q' = q := h.whole q hq hs q' hq' hk'
    exact ha.same q' hq' (h.occursIn_eq_false hd hx hm (fun _ => hq) (fun _ => hq') hs) q'' hq'' hk
  · obtain ⟨q', hq', hk'⟩ := hmid q hq q'' hq'' hk
    have hsub := h.spared q hq hqd q' hq' hk'
    have hfilter : q.parts.filter u.spares =
        (q.parts.filter u.spares).filter fun c => !x.occursIn c := by
      refine (List.filter_eq_self.mpr fun c hc => ?_).symm
      obtain ⟨hcq, hs⟩ := List.mem_filter.mp hc
      rw [h.occursIn_eq_false hd hx hm (fun hp => mem_preorder_of_part hq hcq hp)
        (fun hp => mem_preorder_of_part hq' (hsub.subset hc) hp) hs]
      rfl
    rw [hfilter]
    have hkk := hk.trans hk'.symm
    exact (hsub.filter _).trans
      (ha.spared q' hq' (h.key_ne hd hx hm hq hqd hq' hk' hq'' hkk) q'' hq'' hkk)
  · obtain ⟨q', hq', hk'⟩ := hmid q hq q'' hq'' hk
    have hkk := hk.trans hk'.symm
    have hcm := mem_preorder_of_part hq hcq hcp
    have hold := h.start.bound c (Document.mem_trees_of_root hcm)
    rcases h.parts q hq hqd q' hq' hk' c hcq hcp hcd with ⟨c', hc', hck⟩ | ⟨hr, hgone⟩
    · obtain ⟨k, hkc⟩ := h.start.exists_key hcm
      have hcp' := isPresent_of_key (hck.trans hkc)
      have hcm' := mem_preorder_of_part hq' hc' hcp'
      by_cases hcx : c'.key = x.key
      · -- The part is what is edited.
        obtain rfl : c' = x := hd.woven.eq_of_key (Document.mem_trees_of_root hcm') hx hcx
        cases hm with
        | new hn => exact absurd (isOld_of_key hold hck.symm) hn
        | declared hdecl =>
          rw [declares_congr (h.form?_eq hcm hx hck) hck, hcd] at hdecl
          cases hdecl
        | replaced hr hgone =>
          exact .inr ⟨h.reaches hd hcm hcm' hck hr, fun y hy => hck ▸ hgone y hy⟩
      · obtain ⟨c'', hc'', hck'⟩ := ha.parts q' hq' (h.key_ne hd hx hm hq hqd hq' hk' hq'' hkk) q''
          hq'' hkk c' hc' hcp' hcx
        exact .inl ⟨c'', hc'', hck'.trans hck⟩
    · refine .inr ⟨hr, fun y hy hyk => ?_⟩
      obtain ⟨y', hy', hyk', -⟩ := hc.node y hy
        (isOld_mono (isOld_of_key hold hyk.symm) h.continues.next)
      exact hgone y' hy' (hyk'.trans hyk)
  · obtain ⟨q', hq', hk'⟩ := hmid q hq q'' hq'' hk
    have hkk := hk.trans hk'.symm
    have hold := h.old q hq hl hr q' hq' hk'
    have hqd : u.declares q = false := by simp [declares, (isLoose_of_isLink hl).decl]
    -- What is edited is no part of it: it would be a declaration, or made of a use of a name.
    have hparts : ∀ c' ∈ q'.parts, c'.key ≠ x.key := fun c' hc' hcx => by
      obtain ⟨c, hc, hck⟩ := hold c' hc'
      obtain ⟨k, hxk⟩ := hd.woven.exists_key hx
      have hcp := isPresent_of_key (hcx.trans hxk)
      have hcm := mem_preorder_of_part hq' hc' hcp
      obtain rfl : c' = x := hd.woven.eq_of_key (Document.mem_trees_of_root hcm) hx hcx
      have hcq := mem_preorder_of_part hq hc (isPresent_of_key (hck.trans hxk))
      cases hm with
      | new hn =>
        exact hn (isOld_of_key (h.start.bound c (Document.mem_trees_of_root hcq)) hck)
      | declared hdecl =>
        have hregular := hd.regular q' (Document.mem_trees_of_root hq')
        have hlink := isLink_congr (cls?_congr (h.form?_eq hq (Document.mem_trees_of_root hq') hk'))
        have hno := isA_decl_of_isLink (hlink.trans hl) hregular.placed hc'
        simp [declares, hno] at hdecl
      | replaced hreach _ =>
        have := reaches_iff.mpr ⟨hl, .inr ⟨c, hc, h.reaches hd hcq hcm hck.symm hreach⟩⟩
        rw [hr] at this
        cases this
    obtain ⟨c', hc', hck'⟩ := ha.old q' hq' (h.key_ne hd hx hm hq hqd hq' hk' hq'' hkk) hparts q''
      hq'' hkk c'' hc''
    obtain ⟨c, hc, hck⟩ := hold c' hc'
    exact ⟨c, hc, hck.trans hck'⟩

end Frames

end Subject

end Fieldwise
