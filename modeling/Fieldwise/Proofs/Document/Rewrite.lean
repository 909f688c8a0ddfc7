import Fieldwise.Proofs.Document.Renew

/-!
# Rewritings of expressions

While expressions are rewritten, links are lost for good and nothing else is
(`Document.Rewrites`). So what is attached has the parent that it had
(`Document.Rewrites.exists_parent`), and a single child of a node is what it was unless it was a
link and is gone (`Document.Rewrites.forall_fixed`). In particular a declared type keeps its
declarators, and an operand the symbol that it is made of, as long as the symbol is there
(`Document.Rewrites.type`, `Document.Rewrites.exists_operand`).

While certain uses are rewritten, the links that are lost have one of these uses in them, and items
of blocks give way to new expressions (`Document.RewritesAt`). So a tree without these uses stays as
it is (`Document.RewritesAt.eq_of_not_occurs`).
-/

namespace Fieldwise

open Node

namespace Node

variable {n x y : Node} {us vs : List Node}

/-- What is related one by one is so at each position. -/
theorem getD_of_forall₂ {S : Node → Node → Prop} (h : List.Forall₂ S us vs) (h₀ : S absent absent)
    (i : Nat) : S (us.getD i absent) (vs.getD i absent) := by
  induction h generalizing i with
  | nil => exact h₀
  | cons hc _ ih =>
    cases i with
    | zero => exact hc
    | succ i => exact ih i

theorem exists_pair_of_forall₂ {S : Node → Node → Prop} {a b : Node}
    (h : List.Forall₂ S [a, b] vs) : ∃ a' b', vs = [a', b'] ∧ S a a' := by
  cases h with
  | cons ha h =>
    cases h with
    | cons hb h =>
      cases h
      exact ⟨_, _, rfl, ha⟩

/-- A name is the symbol of itself. -/
theorem symbol_unwrap_ident {name : String} (h : n.form? = some (.ident name)) :
    n.unwrap.symbol = n := by
  cases n with
  | absent => cases h
  | mk m f ps =>
    obtain rfl : f = .ident name := by simpa [form?] using h
    rfl

/-- A name whose address is taken is the symbol. -/
theorem symbol_unwrap_address {m : Mark} {name : String} (h : n.form? = some (.ident name)) :
    (mk m (.unaryOp .address) [n]).unwrap.symbol = n := by
  cases n with
  | absent => cases h
  | mk m f ps =>
    obtain rfl : f = .ident name := by simpa [form?] using h
    rfl

theorem typeDecl_of_isLink (h : n.isLink) : n.typeDecl = absent := by
  obtain ⟨m, f, ps, rfl, hf⟩ := exists_of_isLink h
  cases f <;> first | rfl | cases hf

theorem isPresent_of_typeDecl (h : n.typeDecl.isPresent) : n.isPresent := by
  cases n with
  | absent => cases h
  | mk => rfl

end Node

namespace Document

variable {d d' d'' : Document} {x c e P Q T T' : Node}

/-- The key is that of a link, and nothing in the program has it any more. -/
def Lost (d d' : Document) (k : Option Nat) : Prop :=
  (∃ c ∈ d.root.preorder, c.key = k ∧ c.isLink) ∧ ∀ y ∈ d'.root.preorder, y.key ≠ k

/-- A document after edits that took out links for good. -/
def Rewrites (d d' : Document) : Prop := Swaps d d' (Lost d d')

/-- The node `c` became `c'`, unless it is a link and gone. -/
def Stays (d d' : Document) (c c' : Node) : Prop :=
  (c.isLink → ∃ y ∈ d'.root.preorder, y.key = c.key) → c'.key = c.key ∧ c'.form? = c.form? ∧
    (c.isPresent → c ∈ d.root.preorder ∧ c' ∈ d'.root.preorder)

/-- What is gone does not come back, as its key is in use. -/
theorem Lost.later {k : Option Nat} (h : Lost d d' k) (ht : d.Tidy) (hn : d.next ≤ d'.next)
    (h' : Rewrites d' d'') : Lost d d'' k := by
  refine ⟨h.1, fun y hy hyk => ?_⟩
  obtain ⟨⟨c, hc, hck, -⟩, hgone⟩ := h
  obtain ⟨q, hq, hqk, -⟩ := h'.node y hy (isOld_mono (isOld_of_key
    (ht.bound c (mem_trees_of_root hc)) (hck.trans hyk.symm)) hn)
  exact hgone q hq (hqk.trans hyk)

/-- What is lost later was there before, if its key is not new. -/
theorem Lost.earlier {k : Option Nat} (h' : Lost d' d'' k) (hk : ∃ j, k = some j ∧ j < d.next)
    (h : Rewrites d d') : Lost d d'' k := by
  obtain ⟨j, rfl, hj⟩ := hk
  obtain ⟨⟨c, hc, hck, hl⟩, hgone⟩ := h'
  obtain ⟨q, hq, hqk, hqf, -⟩ := h.node c hc ⟨j, hck, hj⟩
  exact ⟨⟨q, hq, hqk.trans hck, (isLink_congr (cls?_congr hqf)).trans hl⟩, hgone⟩

theorem not_lost_none (ht : d.Tidy) : ¬ Lost d d' none := by
  rintro ⟨⟨c, hc, hck, -⟩, -⟩
  obtain ⟨k, hk⟩ := ht.woven.exists_key (mem_trees_of_root hc)
  rw [hk] at hck
  cases hck

theorem stays_absent : Stays d d' .absent .absent := fun _ => ⟨rfl, rfl, fun hp => by cases hp⟩

namespace Rewrites

theorem refl (ht : d.Tidy) : Rewrites d d := Swaps.refl ht

/-- One edit. -/
theorem of_swaps (h : Swaps d d' (· = x.key)) (hx : x ∈ d.root.preorder) (hl : x.isLink)
    (hgone : ∀ y ∈ d'.root.preorder, y.key ≠ x.key) : Rewrites d d' :=
  h.mono fun k hk => by
    subst hk
    exact ⟨⟨x, hx, rfl, hl⟩, hgone⟩

theorem trans (h : Rewrites d d') (h' : Rewrites d' d'') (ht : d.Tidy) (ht' : d'.Tidy) :
    Rewrites d d'' :=
  Swaps.trans h h' ht (fun _ hk => hk.later ht h.next h') (fun _ hk hlost => hlost.earlier hk h)
    (not_lost_none ht')

variable (h : Rewrites d d') (ht : d.Tidy) (ht' : d'.Tidy)
include h ht

/-- **What is attached has the parent that it had**, if it can stand at one place only. -/
theorem exists_parent (hP : P ∈ d.root.preorder) (hc : c ∈ P.parts) (hs : c.isSole) {y : Node}
    (hy : y ∈ d'.root.preorder) (hk : y.key = c.key) :
    ∃ Q ∈ d'.root.preorder, y ∈ Q.parts ∧ Q.key = P.key ∧ Q.form? = P.form? := by
  have hcp := isPresent_of_isSole hs
  have hcm := mem_preorder_of_part hP hc hcp
  have hold : IsOld d.next y := isOld_of_key (ht.bound c (mem_trees_of_root hcm)) hk.symm
  have hroot : y ∈ preorderAll d'.root.parts := by
    refine ((mem_preorder_iff (isPresent_of_preorder hy)).mp hy).resolve_left ?_
    rintro rfl
    -- The root is below no part of a node.
    have hrm := self_mem_preorder (isPresent_of_preorder hcm)
    have heq := ht.eq_of_key (mem_trees_of_root hcm) (mem_trees_of_root hrm)
      (hk.symm.trans h.root)
    exact not_mem_preorderAll_parts (mem_preorderAll_of_mem hc hcp) (heq ▸ hP)
  obtain ⟨Q, hQ, hyQ⟩ := exists_parent_of_mem hroot
  have hQold : IsOld d.next Q := Classical.byContradiction fun hn =>
    (h.fresh Q hQ hn y hyQ hold).2 y hy rfl
  obtain ⟨q, hq, hqk, hqf, hparts⟩ := h.node Q hQ hQold
  obtain ⟨c₀, hc₀, hck⟩ := hparts y hyQ hold
  have hqP := ht.woven.sole P (mem_trees_of_root hP) q (mem_trees_of_root hq) c hc c₀ hc₀ hs
    (hck.trans hk).symm
  obtain rfl := ht.eq_of_key (mem_trees_of_root hq) (mem_trees_of_root hP) hqP.symm
  exact ⟨Q, hQ, hyQ, hqk.symm, hqf.symm⟩

/-- A node that has the key of one that was there before is the same one. -/
theorem form?_eq (hP : P ∈ d.root.preorder) {Q : Node} (hQ : Q ∈ d'.root.preorder)
    (hk : Q.key = P.key) : Q.form? = P.form? := by
  obtain ⟨q, hq, hqk, hqf, -⟩ := h.node Q hQ
    (isOld_of_key (ht.bound P (mem_trees_of_root hP)) hk.symm)
  rw [← hqf, ht.eq_of_key (mem_trees_of_root hq) (mem_trees_of_root hP) (hqk.trans hk)]

include ht'

/-- **A single child stays in its place**, unless it is a link and gone. -/
theorem forall_fixed (hP : P ∈ d.root.preorder) {Q : Node} (hQ : Q ∈ d'.root.preorder)
    (hk : Q.key = P.key) : List.Forall₂ (Stays d d') P.fixed Q.fixed := by
  have hall := Swaps.fixed h P hP Q hQ hk
  refine List.forall₂_iff_zip.mpr ⟨hall.length_eq, fun {c c'} hz hl => ?_⟩
  have hpair := (List.forall₂_iff_zip.mp hall).2 hz
  obtain ⟨hc, hc'⟩ := List.of_mem_zip hz
  cases hcc : c with
  | absent =>
    have hkey : c'.key = none := by
      rcases hpair with hk | ⟨⟨y, hy, hyk, -⟩, -⟩
      · rw [hk, hcc]
        rfl
      · obtain ⟨k, hk⟩ := ht.woven.exists_key (mem_trees_of_root hy)
        rw [hcc, hk] at hyk
        cases hyk
    cases hcc' : c' with
    | absent => exact ⟨rfl, rfl, fun hp => by cases hp⟩
    | mk m f ps =>
      have hm := mem_preorder_of_part hQ (mem_parts_of_fixed hc') (by rw [hcc']; rfl)
      obtain ⟨k, hk⟩ := ht'.woven.exists_key (mem_trees_of_root hm)
      rw [hk] at hkey
      cases hkey
  | mk m f ps =>
    rw [← hcc]
    have hm := mem_preorder_of_part hP (mem_parts_of_fixed hc) (by rw [hcc]; rfl)
    have hkey : c'.key = c.key := hpair.resolve_right fun hlost => by
      obtain ⟨⟨y, hy, hyk, hyl⟩, hgone⟩ := hlost
      obtain rfl := ht.eq_of_key (mem_trees_of_root hy) (mem_trees_of_root hm) hyk
      obtain ⟨z, hz, hzk⟩ := hl hyl
      exact hgone z hz hzk
    obtain ⟨k, hck⟩ := ht.woven.exists_key (mem_trees_of_root hm)
    have hm' := mem_preorder_of_part hQ (mem_parts_of_fixed hc')
      (isPresent_of_key (hkey.trans hck))
    exact ⟨hkey, h.form?_eq ht hm hm' hkey, fun _ => ⟨hm, hm'⟩⟩

/-- What a node without a list of children became. -/
theorem exists_mk {m : Mark} {f : Form} {ps : List Node} (hP : Node.mk m f ps ∈ d.root.preorder)
    (hl : f.cls.listSlot = none) {Q : Node} (hQ : Q ∈ d'.root.preorder) (hk : Q.key = m.key) :
    ∃ m' ps', Q = Node.mk m' f ps' ∧ List.Forall₂ (Stays d d') ps ps' := by
  have hform := h.form?_eq ht hP hQ hk
  have hall := h.forall_fixed ht ht' hP hQ hk
  cases Q with
  | absent => cases hform
  | mk m' f' ps' =>
    obtain rfl : f' = f := by simpa [form?] using hform
    rw [fixed_of_listSlot hl, fixed_of_listSlot hl] at hall
    exact ⟨m', ps', rfl, hall⟩

/-- What a child of a node became. -/
theorem stays_child (hP : P ∈ d.root.preorder) {Q : Node} (hQ : Q ∈ d'.root.preorder)
    (hk : Q.key = P.key) {s : Slot} (hs : P.cls?.any (·.slots.contains s)) :
    Stays d d' (P.child s) (Q.child s) := by
  have hform := h.form?_eq ht hP hQ hk
  have hall := h.forall_fixed ht ht' hP hQ hk
  cases P with
  | absent => cases hs
  | mk m f ps =>
    cases Q with
    | absent => cases hform
    | mk m' f' ps' =>
      obtain rfl : f' = f := by simpa [form?] using hform
      have hlt : f'.cls.slots.idxOf s < f'.cls.slots.length :=
        List.idxOf_lt_length_iff.mpr (by simpa [cls?, form?] using hs)
      have hchild : ∀ m qs, (Node.mk m f' qs).child s =
          (Node.mk m f' qs).fixed.getD (f'.cls.slots.idxOf s) .absent := fun m qs => by
        rw [fixed_mk, child]
        split
        · rw [List.getD_eq_getElem?_getD, List.getD_eq_getElem?_getD,
            List.getElem?_take_of_lt hlt]
        · rfl
      rw [hchild, hchild]
      exact getD_of_forall₂ hall stays_absent _

/-- **A declared type keeps its declarators**, and its base type and dimension unless they are links
and gone. -/
theorem type (hT : T ∈ d.root.preorder) (hT' : T' ∈ d'.root.preorder) (hk : T'.key = T.key)
    (hp : T.typeDecl.isPresent) : T'.layers = T.layers ∧
      Stays d d' T.dimension T'.dimension ∧ Stays d d' T.baseType T'.baseType := by
  induction T using induction generalizing T' with
  | h₀ => cases hp
  | h m f ps ih =>
    -- What a declarator is around is no link, and so it stays.
    have hinner : ∀ {t t' : Node}, t ∈ ps → t.typeDecl.isPresent → Stays d d' t t' →
        t'.layers = t.layers ∧ Stays d d' t.baseType t'.baseType := fun {t t'} ht hp hs => by
      obtain ⟨hk, -, hm⟩ := hs fun hl => by
        rw [typeDecl_of_isLink hl] at hp
        cases hp
      obtain ⟨hm, hm'⟩ := hm (isPresent_of_typeDecl hp)
      obtain ⟨hlayers, -, hbase⟩ := ih t ht hm hm' hk hp
      exact ⟨hlayers, hbase⟩
    cases f with
    | typeDecl name quals =>
      obtain ⟨m', ps', rfl, -⟩ := h.exists_mk ht ht' hT rfl hT' hk
      exact ⟨rfl, stays_absent, h.stays_child ht ht' hT hT' hk rfl⟩
    | arrayDecl quals =>
      obtain ⟨m', ps', rfl, hall⟩ := h.exists_mk ht ht' hT rfl hT' hk
      match ps, hp, hall with
      | [t, dim], hp, .cons hs (.cons hdim .nil) =>
        obtain ⟨hlayers, hbase⟩ := hinner List.mem_cons_self hp hs
        exact ⟨by rw [layers, layers, hlayers], hdim, hbase⟩
    | ptrDecl quals =>
      obtain ⟨m', ps', rfl, hall⟩ := h.exists_mk ht ht' hT rfl hT' hk
      match ps, hp, hall with
      | [t], hp, .cons hs .nil =>
        obtain ⟨hlayers, hbase⟩ := hinner List.mem_cons_self hp hs
        exact ⟨by rw [layers, layers, hlayers], stays_absent, hbase⟩
    | funcDecl =>
      obtain ⟨m', ps', rfl, hall⟩ := h.exists_mk ht ht' hT rfl hT' hk
      match ps, hp, hall with
      | [args, t], hp, .cons _ (.cons hs .nil) =>
        exact ⟨rfl, stays_absent, (hinner (List.mem_cons_of_mem _ List.mem_cons_self) hp hs).2⟩
    | typename quals =>
      obtain ⟨m', ps', rfl, hall⟩ := h.exists_mk ht ht' hT rfl hT' hk
      match ps, hp, hall with
      | [t], hp, .cons hs .nil =>
        exact ⟨rfl, stays_absent, (hinner List.mem_cons_self hp hs).2⟩
    | _ => cases hp

/-- What a node became that has a part that is there. -/
theorem exists_mk_of_part {m : Mark} {f : Form} {ps : List Node}
    (hP : Node.mk m f ps ∈ d.root.preorder) (hl : f.cls.listSlot = none) (hc : c ∈ ps)
    (hs : c.isSole) (hy : ∃ y ∈ d'.root.preorder, y.key = c.key) :
    ∃ m' ps', Node.mk m' f ps' ∈ d'.root.preorder ∧ m'.key = m.key ∧
      List.Forall₂ (Stays d d') ps ps' := by
  obtain ⟨y, hy, hk⟩ := hy
  obtain ⟨Q, hQ, -, hQk, -⟩ := h.exists_parent ht hP hc hs hy hk
  obtain ⟨m', ps', rfl, hall⟩ := h.exists_mk ht ht' hP hl hQ hQk
  exact ⟨m', ps', hQ, hQk, hall⟩

/-- **An operand keeps its symbol**, as long as the symbol is there. -/
theorem exists_operand (he : e ∈ d.root.preorder) {name : String}
    (hx : e.unwrap.symbol.form? = some (.ident name))
    (hy : ∃ y ∈ d'.root.preorder, y.key = e.unwrap.symbol.key) :
    ∃ e' ∈ d'.root.preorder, e'.key = e.key ∧ e'.unwrap.symbol.key = e.unwrap.symbol.key ∧
      e'.unwrap.symbol.form? = e.unwrap.symbol.form? := by
  have hident : ∀ {x : Node}, x.form? = some (.ident name) → x.isSole := fun {x} hx =>
    isSole_of_isLink (isLink_of_isA (c := .ident) (by simp [isA, cls?, hx, Form.cls]) rfl)
  generalize hu : e.unwrap = u at hx hy ⊢
  unfold unwrap at hu
  split at hu
  · rename_i m m₁ array subscript
    subst hu
    -- The subscripted name is there, and so is the subscription, and so is its address.
    have hr : Node.mk m₁ .arrayRef [array, subscript] ∈ d.root.preorder :=
      mem_preorder_of_part he (List.mem_singleton_self _) rfl
    obtain ⟨m₁', ps₁, hr', hk₁, -⟩ :=
      h.exists_mk_of_part ht ht' hr rfl List.mem_cons_self (hident hx) hy
    obtain ⟨m', ps', he', hk', hall⟩ :=
      h.exists_mk_of_part ht ht' he rfl (List.mem_singleton_self _) rfl ⟨_, hr', hk₁⟩
    cases hall with
    | cons hs hnil =>
      cases hnil
      obtain ⟨hrk, -, hrm⟩ := hs fun _ => ⟨_, hr', hk₁⟩
      obtain ⟨m₂, ps₂, rfl, hall⟩ := h.exists_mk ht ht' hr rfl (hrm rfl).2 hrk
      obtain ⟨a, i, rfl, ha⟩ := exists_pair_of_forall₂ hall
      obtain ⟨hak, haf, -⟩ := ha fun _ => hy
      exact ⟨_, he', hk', hak, haf⟩
  · rename_i m x
    subst hu
    obtain ⟨m', ps', he', hk', hall⟩ :=
      h.exists_mk_of_part ht ht' he rfl (List.mem_singleton_self _) (hident hx) hy
    cases hall with
    | cons hs hnil =>
      cases hnil
      obtain ⟨hrk, hrf, -⟩ := hs fun _ => hy
      exact ⟨_, he', hk', hrk, hrf⟩
  · rename_i m x hno
    subst hu
    obtain ⟨m', ps', he', hk', hall⟩ :=
      h.exists_mk_of_part ht ht' he rfl (List.mem_singleton_self _) (hident hx) hy
    cases hall with
    | cons hs hnil =>
      cases hnil
      obtain ⟨hrk, hrf, -⟩ := hs fun _ => hy
      rw [← symbol_unwrap_address (hrf.trans hx)] at hrk hrf
      exact ⟨_, he', hk', hrk, hrf⟩
  · rename_i m array subscript
    subst hu
    obtain ⟨m', ps', he', hk', hall⟩ :=
      h.exists_mk_of_part ht ht' he rfl List.mem_cons_self (hident hx) hy
    obtain ⟨a, i, rfl, ha⟩ := exists_pair_of_forall₂ hall
    obtain ⟨hak, haf, -⟩ := ha fun _ => hy
    exact ⟨_, he', hk', hak, haf⟩
  · subst hu
    obtain ⟨y, hy, hk⟩ := hy
    have hf := h.form?_eq ht he hy hk
    have hself := symbol_unwrap_ident (hf.trans hx)
    exact ⟨y, hy, hk, by rw [hself, hk], by rw [hself, hf]⟩

omit ht ht' in
/-- What is new has nothing old in it. -/
theorem not_isOld_of_new {n y : Node} (hn : n ∈ d'.root.preorder) (hnew : ¬ IsOld d.next n)
    (hy : y ∈ n.preorder) : ¬ IsOld d.next y := by
  induction n using induction with
  | h₀ => cases hy
  | h m f ps ih =>
    rcases mem_preorder_mk.mp hy with rfl | ⟨p, hp, hyp⟩
    · exact hnew
    · have hpm := mem_preorder_of_part hn hp (isPresent_of_preorder hyp)
      refine ih p hp hpm (fun ho => ?_) hyp
      exact (h.fresh _ hn hnew p hp ho).2 p hpm rfl

omit ht' in
/-- What is in an old node was in it before, unless it is new. -/
theorem exists_below {x' y' : Node} (hx' : x' ∈ d'.root.preorder) (hy' : y' ∈ x'.preorder)
    (ho : IsOld d.next y') :
    ∃ x ∈ d.root.preorder, x.key = x'.key ∧ ∃ y ∈ x.preorder, y.key = y'.key := by
  induction x' using induction with
  | h₀ => cases hy'
  | h m f ps ih =>
    have hold : IsOld d.next (Node.mk m f ps) := Classical.byContradiction fun hn =>
      h.not_isOld_of_new hx' hn hy' ho
    obtain ⟨x, hx, hxk, -, hparts⟩ := h.node _ hx' hold
    rcases mem_preorder_mk.mp hy' with rfl | ⟨p', hp', hyp⟩
    · exact ⟨x, hx, hxk, x, self_mem_preorder (isPresent_of_mem_preorder hx), hxk⟩
    · have hpm := mem_preorder_of_part hx' hp' (isPresent_of_preorder hyp)
      obtain ⟨p, hp, hpk, y, hy, hyk⟩ := ih p' hp' hpm hyp
      have hpo : IsOld d.next p' := isOld_of_key (ht.bound p (mem_trees_of_root hp)) hpk
      obtain ⟨c, hc, hck⟩ := hparts p' hp' hpo
      obtain ⟨k, hkey⟩ := ht.woven.exists_key (mem_trees_of_root hp)
      have hcm := mem_preorder_of_part hx hc (isPresent_of_key (hck.trans (hpk.symm.trans hkey)))
      obtain rfl := ht.eq_of_key (mem_trees_of_root hcm) (mem_trees_of_root hp)
        (hck.trans hpk.symm)
      exact ⟨x, hx, hxk, y, mem_preorder_of_mem_parts hc hy, hyk⟩

end Rewrites

/-! ### Rewritings of certain uses -/

variable {ns ms : List Node} {k : Option Nat}

/-- The key is that of something in which one of some nodes is. -/
def Above (d : Document) (ns : List Node) (k : Option Nat) : Prop :=
  ∃ x ∈ d.root.preorder, x.key = k ∧ ∃ n ∈ ns, n.occursIn x

/-- A document after edits that took out links for good in which certain nodes were, and put new
expressions in the place of those that were items of a block. -/
def RewritesAt (d d' : Document) (ns : List Node) : Prop :=
  Renews d d' fun k => Lost d d' k ∧ d.Above ns k

theorem Above.mono (h : d.Above ns k) (hns : ∀ n ∈ ns, n ∈ ms) : d.Above ms k :=
  have ⟨x, hx, hk, n, hn, hocc⟩ := h
  ⟨x, hx, hk, n, hns n hn, hocc⟩

/-- What a node is in a part of it is in. -/
theorem Above.part (h : d.Above [P] k) (ht : d.Tidy) (hP : P ∈ d.root.preorder) (hc : c ∈ P.parts)
    (hp : c.isPresent) (hk : c.key = e.key) : d.Above [e] k := by
  obtain ⟨x, hx, rfl, n, hn, hocc⟩ := h
  obtain rfl := List.mem_singleton.mp hn
  obtain ⟨y, hy, hyk⟩ := List.any_eq_true.mp hocc
  obtain rfl := ht.eq_of_key (mem_trees_of_root (mem_preorder_trans hy hx)) (mem_trees_of_root hP)
    (beq_iff_eq.mp hyk)
  exact ⟨x, hx, rfl, e, List.mem_cons_self, List.any_eq_true.mpr
    ⟨c, mem_preorder_trans (mem_preorder_of_mem_parts hc (self_mem_preorder hp)) hy, by simp [hk]⟩⟩

/-- What a node is in it was in before. -/
theorem Above.earlier (h' : d'.Above ns k) (ht : d.Tidy) (h : Rewrites d d')
    (hns : ∀ n ∈ ns, IsOld d.next n) : d.Above ns k := by
  obtain ⟨x', hx', rfl, n, hn, hocc⟩ := h'
  obtain ⟨y', hy', hyk⟩ := List.any_eq_true.mp hocc
  rw [beq_iff_eq] at hyk
  obtain ⟨x, hx, hxk, y, hy, hyk'⟩ := h.exists_below ht hx' hy' (isOld_of_key (hns n hn) hyk.symm)
  exact ⟨x, hx, hxk, n, hn, List.any_eq_true.mpr ⟨y, hy, by simp [hyk', hyk]⟩⟩

namespace RewritesAt

theorem rewrites (h : RewritesAt d d' ns) : Rewrites d d' :=
  (Renews.toSwaps h).mono fun _ hk => hk.1

theorem mono (h : RewritesAt d d' ns) (hns : ∀ n ∈ ns, n ∈ ms) : RewritesAt d d' ms :=
  Renews.mono h fun _ hk => ⟨hk.1, hk.2.mono hns⟩

theorem refl (ht : d.Tidy) : RewritesAt d d ns := Renews.refl ht

theorem part (h : RewritesAt d d' [P]) (ht : d.Tidy) (hP : P ∈ d.root.preorder) (hc : c ∈ P.parts)
    (hp : c.isPresent) (hk : c.key = e.key) : RewritesAt d d' [e] :=
  Renews.mono h fun _ hlost => ⟨hlost.1, hlost.2.part ht hP hc hp hk⟩

/-- One edit. -/
theorem of_renews (h : Renews d d' (· = x.key)) (hx : x ∈ d.root.preorder) (hl : x.isLink)
    {n : Node} (hn : n ∈ ns) (hk : x.key = n.key) (hgone : ∀ y ∈ d'.root.preorder, y.key ≠ x.key) :
    RewritesAt d d' ns :=
  Renews.mono h fun k hk' => by
    subst hk'
    exact ⟨⟨⟨x, hx, rfl, hl⟩, hgone⟩, x, hx, rfl, n, hn, List.any_eq_true.mpr
      ⟨x, self_mem_preorder (isPresent_of_mem_preorder hx), by simp [hk]⟩⟩

theorem trans (h : RewritesAt d d' ns) (h' : RewritesAt d' d'' ms) (ht : d.Tidy) (ht' : d'.Tidy)
    (hms : ∀ m ∈ ms, IsOld d.next m) : RewritesAt d d'' (ns ++ ms) :=
  Renews.trans h h' ht
    (fun _ hk => ⟨hk.1.later ht h.next h'.rewrites,
      hk.2.mono fun _ hn => List.mem_append_left _ hn⟩)
    (fun _ hk hlost => ⟨hlost.1.earlier hk h.rewrites,
      (hlost.2.earlier ht h.rewrites hms).mono fun _ hn => List.mem_append_right _ hn⟩)
    fun hlost => not_lost_none ht' hlost.1

/-- **A tree in which none of the nodes is stays as it is.** -/
theorem eq_of_not_occurs (h : RewritesAt d d' ns) (ht : d.Tidy) {q q' : Node}
    (hq : q ∈ d.root.preorder) (hn : ∀ n ∈ ns, n.occursIn q = false) (hq' : q' ∈ d'.root.preorder)
    (hk : q'.key = q.key) : q' = q := by
  refine (Renews.toSwaps h).same q hq (fun y hy hr => ?_) q' hq' hk
  obtain ⟨-, x, hx, hxk, n, hnm, hocc⟩ := hr
  obtain rfl := ht.eq_of_key (mem_trees_of_root hx)
    (mem_trees_of_root (mem_preorder_trans hy hq)) hxk
  obtain ⟨z, hz, hzk⟩ := List.any_eq_true.mp hocc
  exact List.any_eq_false.mp (hn n hnm) z (mem_preorder_trans hz hy) hzk

/-- A part in which none of the nodes is stays as it is. -/
theorem eq_singleton_of_turns (h : RewritesAt d d' ns) (ht : d.Tidy) {q q' y : Node}
    {row : List Node} (hq : q ∈ d.root.preorder) (hq' : q' ∈ d'.root.preorder) (hy : y ∈ q.parts)
    (hn : ∀ n ∈ ns, n.occursIn y = false) (hrow : ∀ c ∈ row, c ∈ q'.parts)
    (hturns : Turns d.next (fun k => Lost d d' k ∧ d.Above ns k) y row) : row = [y] := by
  have hmem : ∀ k, y.key = some k → y ∈ d.root.preorder := fun k hk =>
    mem_preorder_of_part hq hy (isPresent_of_key hk)
  rcases hturns with ⟨c, rfl, hck, hcf⟩ | ⟨⟨-, x, hx, hxk, n, hnm, hocc⟩, -⟩
  · cases y with
    | absent =>
      cases c with
      | absent => rfl
      | mk => cases hcf
    | mk m f ps =>
      obtain ⟨k, hk⟩ := ht.woven.exists_key (mem_trees_of_root (mem_preorder_of_part hq hy rfl))
      have hc := mem_preorder_of_part hq' (hrow c (List.mem_singleton_self c))
        (isPresent_of_key (hck.trans hk))
      rw [h.eq_of_not_occurs ht (hmem k hk) hn hc hck]
  · -- What is lost has one of the nodes in it, so this part is not.
    obtain ⟨k, hk⟩ := ht.woven.exists_key (mem_trees_of_root hx)
    obtain rfl := ht.eq_of_key (mem_trees_of_root hx)
      (mem_trees_of_root (hmem k (hxk.symm.trans hk))) hxk
    rw [hn n hnm] at hocc
    cases hocc

/-- Parts that are no links keep their forms, and stay between what became of the others. -/
theorem forms_between (h : RewritesAt d d' ns) (ht : d.Tidy) {q q' : Node}
    {us new vs : List Node} (hq : q ∈ d.root.preorder) (hparts : q.parts = us ++ new ++ vs)
    (hnew : ∀ y ∈ new, y.isPresent ∧ y.isLink = false)
    (hq' : q' ∈ d'.root.preorder) (hk : q'.key = q.key) :
    ∃ us' new' vs', q'.parts = us' ++ new' ++ vs' ∧ new'.map form? = new.map form? ∧
      Rows (Turns d.next (Lost d d')) us us' ∧ Rows (Turns d.next (Lost d d')) vs vs' := by
  obtain ⟨us', new', vs', hparts', hus, hmid, hvs⟩ :=
    (hparts ▸ Swaps.parts h.rewrites q hq q' hq' hk).exists_between
  refine ⟨us', new', vs', hparts', hmid.map_eq fun y hy row hturns => ?_, hus, hvs⟩
  obtain ⟨hp, hl⟩ := hnew y hy
  rcases hturns with ⟨c, rfl, -, hf⟩ | ⟨⟨⟨x, hx, hxk, hxl⟩, -⟩, -⟩
  · exact ⟨c, rfl, hf⟩
  · have hm := mem_preorder_of_part hq (c := y) (by simp [hparts, hy]) hp
    obtain rfl := ht.eq_of_key (mem_trees_of_root hx) (mem_trees_of_root hm) hxk
    rw [hl] at hxl
    cases hxl

/-- Parts in which none of the nodes is stay between what became of the others. -/
theorem parts_between (h : RewritesAt d d' ns) (ht : d.Tidy) {q q' : Node}
    {us new vs : List Node} (hq : q ∈ d.root.preorder) (hparts : q.parts = us ++ new ++ vs)
    (hnew : ∀ y ∈ new, ∀ n ∈ ns, n.occursIn y = false)
    (hq' : q' ∈ d'.root.preorder) (hk : q'.key = q.key) :
    ∃ us' vs', q'.parts = us' ++ new ++ vs' ∧ Rows (Turns d.next (Lost d d')) us us' ∧
      Rows (Turns d.next (Lost d d')) vs vs' := by
  obtain ⟨us', new', vs', hparts', hus, hmid, hvs⟩ :=
    (hparts ▸ (Renews.toSwaps h).parts q hq q' hq' hk).exists_between
  have hlost : ∀ {ms ms' : List Node}, Rows (Turns d.next fun k => Lost d d' k ∧ d.Above ns k)
      ms ms' → Rows (Turns d.next (Lost d d')) ms ms' := fun h =>
    h.imp fun _ _ _ _ hc => hc.mono (·.1)
  have hsame := (hmid.imp fun y hy row hrow hturns => h.eq_singleton_of_turns ht hq hq'
    (by simp [hparts, hy]) (hnew y hy) (fun c hc => by simp [hparts', hrow c hc]) hturns).forall₂
      fun y _ row hrow => ⟨y, hrow, rfl⟩
  rw [List.forall₂_eq_eq_eq] at hsame
  subst hsame
  exact ⟨us', vs', hparts', hlost hus, hlost hvs⟩

end RewritesAt

end Document

end Fieldwise
