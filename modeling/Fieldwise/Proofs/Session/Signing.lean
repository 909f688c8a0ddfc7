import Fieldwise.Proofs.Session.Signature

/-!
# Signatures while a document is edited

`Session.Signs` says of a document that its function definitions are those that a session began
with, where some parameters were replaced, and that the other declarations of a function have the
type of its definition as soon as a parameter was replaced in that. This is kept by edits around
marked nodes (`Session.Signs.redrawsAt`), by the replacement of a parameter (`Session.Signs.splice`)
and by the redeclaration of the function after it (`Session.Signs.setType`).
-/

namespace Fieldwise

open Node

variable {K N : List String} {types qs : List Node} {d d' : Document}
variable {n p x y z F F' H D A T B P : Node}

namespace Document

/-- The declarations of a function have the type that its definition has. -/
def Agrees (d : Document) (F : Node) : Prop :=
  ∀ x ∈ d.root.preorder, x.declaresFunction → x.name? = F.headName? →
    (x.child .type).copy = ((F.child .decl).child .type).copy

/-- What is not attached does not get attached. -/
theorem Puts.not_attached (h : Puts d d' P qs) (ht : d.Tidy) (hn : d.attached n = false)
    (hk : ∀ k, n.key = some k → k < d.next) : d'.attached n = false := by
  refine Bool.eq_false_iff.mpr fun ha => Bool.eq_false_iff.mp hn ?_
  obtain ⟨y, hy, hyk, hkey⟩ := attached_iff.mp ha
  obtain ⟨k, hnk⟩ := Option.isSome_iff_exists.mp hkey
  rcases h.of_mem_root ht hy with ⟨x, hx, rfl⟩ | ⟨-, hold⟩
  · exact attached_iff.mpr ⟨x, hx, (h.form?_grafted ht x).1.symm.trans hyk, hkey⟩
  · exact absurd ⟨k, hyk.trans hnk, hk k hnk⟩ hold

/-- What becomes of a definition if neither it nor its head nor the declarator is edited. -/
theorem Puts.grafted_prototype (h : Puts d d' P qs) (ht : d.Tidy) (hF : F ∈ d.root.preorder)
    (hp : F.IsPrototype H D A T B) (hne : F ≠ P ∧ H ≠ P ∧ D ≠ P) (hT : P ∉ T.preorder) :
    (grafted P qs F).IsPrototype (grafted P qs H) (grafted P qs D) (grafted P qs A) T
      (grafted P qs B) := by
  have hH := mem_preorder_of_part hF hp.head_mem (isPresent_of_isA hp.isA_decl)
  have hD := mem_preorder_of_part hH hp.declarator_mem (isPresent_of_isA hp.isA_funcDecl)
  have hself : grafted P qs T = T := h.grafted_eq_self ht
    (fun hpT => mem_trees_of_root (mem_preorder_of_part hD hp.type_mem hpT)) hT
  have hcls : ∀ {n : Node} {c : Class}, (grafted P qs n).isA c = n.isA c := fun {n c} => by
    rw [isA, isA, cls?_congr (h.form?_grafted ht n).2]
  have habsent := h.grafted_absent ht
  obtain ⟨⟨m, rfl⟩, ⟨mh, name, spec, rfl⟩, ⟨md, rfl⟩, hA, hTp, hB⟩ := hp
  refine ⟨⟨m, h.grafted_mk ht (mem_trees_of_root hF) hne.1⟩, ⟨mh, name, spec, ?_⟩, ⟨md, ?_⟩, ?_,
    hTp,
    hcls.trans hB⟩
  · rw [h.grafted_mk ht (mem_trees_of_root hH) hne.2.1, List.map_cons, List.map_cons, List.map_cons,
      habsent, List.map_nil]
  · rw [h.grafted_mk ht (mem_trees_of_root hD) hne.2.2, List.map_cons, List.map_cons, hself,
      List.map_nil]
  · exact hA.imp hcls.trans fun hA => by rw [hA, habsent]

/-- A definition in whose head nothing is edited keeps its head. -/
theorem Puts.grafted_prototype_of_not_mem (h : Puts d d' P qs) (ht : d.Tidy)
    (hF : F ∈ d.root.preorder) (hp : F.IsPrototype H D A T B) (hne : F ≠ P) (hH : P ∉ H.preorder) :
    (grafted P qs F).IsPrototype H D A T (grafted P qs B) := by
  have hHm := mem_preorder_of_part hF hp.head_mem (isPresent_of_isA hp.isA_decl)
  have hHp := isPresent_of_isA hp.isA_decl
  have hDm := mem_preorder_of_part (self_mem_preorder hHp) hp.declarator_mem
    (isPresent_of_isA hp.isA_funcDecl)
  have hself : ∀ n, (n.isPresent → n ∈ H.preorder) → grafted P qs n = n := fun n hn =>
    h.grafted_eq_self ht (fun hnp => mem_trees_of_root (mem_preorder_trans (hn hnp) hHm))
      fun hP => hH (mem_preorder_trans hP (hn (isPresent_of_preorder hP)))
  have hg := h.grafted_prototype ht hF hp
    ⟨hne, fun hP => hH (hP ▸ self_mem_preorder hHp), fun hP => hH (hP ▸ hDm)⟩
    fun hP => hH (mem_preorder_trans hP
      (mem_preorder_of_part hDm hp.type_mem (isPresent_of_preorder hP)))
  rwa [hself H fun _ => self_mem_preorder hHp, hself D fun _ => hDm,
    hself A (mem_preorder_of_part hDm hp.params_mem)] at hg

end Document

/-- No head of a definition with a plain declarator is edited, and neither is the definition. -/
theorem Node.IsMarked.not_head (h : IsMarked N P x) (hx : x ∈ P.parts) (hxp : x.isPresent)
    (hp : F.IsPrototype H D A T B) (hD : D.isPlain K N) : F ≠ P ∧ P ∉ H.preorder := by
  have hblock : ∀ {n : Node} {c : Class}, n.isA c → c.isBlock = false → n.isBlock = false :=
    fun hc hb => (isBlock_of_isA hc).trans hb
  refine ⟨?_, fun hP => ?_⟩
  · rintro rfl
    rcases h with ⟨hl, -⟩ | ⟨hb, -⟩
    · obtain ⟨m, rfl⟩ := hp.eq
      simp only [parts, List.mem_cons, List.not_mem_nil, or_false] at hx
      rcases hx with rfl | rfl
      · exact absurd hp.isA_decl (by simp [(isLoose_of_isLink hl).decl])
      · exact absurd hp.body (by simp [(isBlock_of_isLink hl).2.2.1])
    · exact absurd hb (by simp [hblock hp.isA_funcDef rfl])
  · rcases hp.mem_head.mp hP with rfl | hP
    · rcases h with ⟨hl, y, hy, hn⟩ | ⟨hb, -⟩
      · obtain ⟨m, name, spec, rfl⟩ := hp.head
        simp only [parts, List.mem_cons, List.not_mem_nil, or_false] at hx
        rcases hx with rfl | rfl | rfl
        · exact absurd hn (by simp [(isPlain_iff.mp hD y hy).2.2.1])
        all_goals cases hxp
      · exact absurd hb (by simp [hblock hp.isA_decl rfl])
    · exact h.not_mem hx hxp hD hP

namespace Session

variable {s : Session} {busy : Option Nat}

/-- The name of a function with a parameter that can be decomposed. -/
theorem Signed.headName?_flattenable (h : s.Signed d F F') (hF : F ∈ s.document.root.preorder)
    (hd : F.isA .funcDef) (hp : p ∈ itemsOf F) (hsome : (s.parameter? F p).isSome) :
    F'.headName?.any s.flattenable.contains := by
  obtain ⟨H, D, A, T, B, hproto⟩ := exists_isPrototype h.prototyped
  have hname := hproto.isSome_headName?
  rw [h.name] at hname ⊢
  exact Session.headName?_flattenable hF hd hname hp hsome

/-- A definition that keeps its head. -/
theorem Signed.of_head (h : s.Signed d F F') {F'' B' : Node} (hk : F''.key = F'.key)
    (hp : F'.IsPrototype H D A T B) (hp' : F''.IsPrototype H D A T B')
    (ha : ∀ p ∈ itemsOf F, d.attached p = false → d'.attached p = false) : s.Signed d' F F'' where
  key := hk.trans h.key
  prototyped := hp'.isPrototyped
  name := by rw [hp'.headName?, ← hp.headName?, h.name]
  list := by rw [hp'.paramsOf, ← hp.paramsOf, h.list]
  params := by
    obtain ⟨blocks, hblocks, hall⟩ := h.params
    refine ⟨blocks, by rw [hp'.itemsOf, ← hp.itemsOf, hblocks], forall₂_of_mem hall ?_⟩
    exact fun p hp g _ hr => hr.imp_right fun ⟨hgone, hrest⟩ => ⟨ha p hp hgone, hrest⟩

/-- A definition in which a parameter gave way to those for its fields. -/
theorem Signed.splice (h : s.Signed d F F') (hF : F ∈ s.document.root.preorder)
    (hs : s.document.Tidy) {F'' : Node} (hkey : F''.key = F'.key) (hp : F''.isPrototyped)
    (hname : F''.headName? = F'.headName?) (hlist : (paramsOf F'').key = (paramsOf F').key)
    {us g vs : List Node}
    (hi : itemsOf F' = us ++ x :: vs) (hi' : itemsOf F'' = us ++ g ++ vs)
    (hu : x ∉ us) (hv : x ∉ vs)
    (hx : x ∈ itemsOf F) (hxp : x.isPresent) (hg : s.Replaces d' F x g)
    (ha : ∀ p ∈ itemsOf F, d.attached p = false → d'.attached p = false) : s.Signed d' F F'' := by
  have hxo : IsOld s.document.next x := hs.bound x
    (Document.mem_trees_of_root (mem_preorder_trans (mem_preorder_of_itemsOf hx hxp) hF))
  obtain ⟨blocks, hblocks, hall⟩ := h.params
  have hown : ∀ p b, p ∈ itemsOf F ∧ s.Replaces d F p b → x ∈ b →
      b = [x] ∧ s.Replaces d' F p g := by
    rintro p b ⟨-, rfl | ⟨-, -, -, hnew⟩⟩ hxb
    · obtain rfl := List.mem_singleton.mp hxb
      exact ⟨rfl, hg⟩
    · exact absurd hxo (hnew x (mem_preorderAll_of_mem hxb hxp))
  have hrest : ∀ p b, p ∈ itemsOf F ∧ s.Replaces d F p b → x ∉ b → s.Replaces d' F p b :=
    fun p b ⟨hpm, hb⟩ _ => hb.imp_right fun ⟨hgone, hrest⟩ => ⟨ha p hpm hgone, hrest⟩
  obtain ⟨blocks', hblocks', hall'⟩ := exists_flatten_of_mem
    ((List.forall₂_and_left _ _).mpr ⟨fun _ hp => hp, hall⟩) (hblocks.symm.trans hi) hu hv
    hown hrest
  exact ⟨hkey.trans h.key, hp, hname.trans h.name, hlist.trans h.list, blocks',
    hi'.trans hblocks'.symm, hall'⟩

/-- How a document goes on from that of a session as far as its functions are concerned: nothing in
a function type matters, the definitions are the same but for parameters that were replaced, and the
declarations of a function with new parameters agree with its definition, unless that is busy. -/
structure Signs (s : Session) (N : List String) (busy : Option Nat) (d : Document) : Prop where
  tidy : d.Tidy
  file : d.root.isA .file
  next : s.document.next ≤ d.next
  plain : ∀ x ∈ d.root.preorder, x.declaresFunction → (x.child .type).isPlain s.flattenable N
  tops : ∀ F' ∈ d.root.preorder, F'.isA .funcDef → F' ∈ d.root.parts
  defs : ∀ F' ∈ d.root.preorder, F'.isA .funcDef →
    ∃ F ∈ s.document.root.preorder, F.isA .funcDef ∧ s.Signed d F F'
  kept : ∀ F ∈ s.document.root.preorder, F.isA .funcDef →
    ∃ F' ∈ d.root.preorder, F'.isA .funcDef ∧ F'.key = F.key
  protos : ∀ F' ∈ d.root.preorder, F'.isA .funcDef → F'.key ≠ busy →
    (∃ c ∈ itemsOf F', c.isPresent ∧ ¬ IsOld s.document.next c) → d.Agrees F'

namespace Signs

variable (h : s.Signs N busy d) (hs : s.document.Tidy)
include h

/-- The definitions are in prototype style, and their declarators are plain. -/
theorem exists_prototype (hF : F ∈ d.root.preorder) (hd : F.isA .funcDef) : ∃ H D A T B,
    F.IsPrototype H D A T B ∧ H ∈ d.root.preorder ∧ D.isPlain s.flattenable N := by
  obtain ⟨F₀, -, -, hsig⟩ := h.defs F hF hd
  obtain ⟨H, D, A, T, B, hp⟩ := exists_isPrototype hsig.prototyped
  have hH := mem_preorder_of_part hF hp.head_mem (isPresent_of_isA hp.isA_decl)
  exact ⟨H, D, A, T, B, hp, hH, hp.child_type ▸ h.plain H hH hp.declaresFunction⟩

include hs

/-- A parameter at the start is older than what is new in the document. -/
theorem item_old (hF : F ∈ s.document.root.preorder) (hn : n ∈ itemsOf F) :
    ∀ k, n.key = some k → k < d.next := fun k hk => by
  have hnm := mem_preorder_trans (mem_preorder_of_itemsOf hn (isPresent_of_key hk)) hF
  obtain ⟨k', hk', hlt⟩ := hs.bound n (Document.mem_trees_of_root hnm)
  obtain rfl : k' = k := by simpa [hk'] using hk
  exact Nat.lt_of_lt_of_le hlt h.next

/-- A function with a new parameter has one that can be decomposed. -/
theorem headName?_of_new {c : Node} (hF : F ∈ d.root.preorder) (hd : F.isA .funcDef)
    (hc : c ∈ itemsOf F) (hp : c.isPresent) (hn : ¬ IsOld s.document.next c) :
    F.headName?.any s.flattenable.contains := by
  obtain ⟨F₀, hF₀, hd₀, hsig⟩ := h.defs F hF hd
  obtain ⟨blocks, hblocks, hall⟩ := hsig.params
  obtain ⟨g, hg, hcg⟩ := List.mem_flatten.mp (hblocks ▸ hc)
  obtain ⟨p, hpm, rfl | ⟨-, hsome, -, -⟩⟩ := exists_of_block hall hg
  · obtain rfl := List.mem_singleton.mp hcg
    exact absurd (hs.bound c (Document.mem_trees_of_root
      (mem_preorder_trans (mem_preorder_of_itemsOf hpm hp) hF₀))) hn
  · exact hsig.headName?_flattenable hF₀ hd₀ hpm hsome

/-- A parameter that was replaced stays away. -/
theorem not_attached (hp : d.Puts d' P qs) (hF : F ∈ s.document.root.preorder)
    (hn : n ∈ itemsOf F) (hd : d.attached n = false) : d'.attached n = false :=
  hp.not_attached h.tidy hd (h.item_old hs hF hn)

omit hs in
/-- What an edit has to do with the functions of a program. -/
theorem of_puts (hp : d.Puts d' P qs) (hkept : ∀ F ∈ P.parts, F.isA .funcDef → F ∈ qs)
    (hnew : ∀ y ∈ preorderAll qs, ¬ IsOld d.next y → y.isA .funcDef = false)
    (hsigned : ∀ F ∈ s.document.root.preorder, ∀ F' ∈ d.root.preorder, F'.isA .funcDef →
      s.Signed d F F' → s.Signed d' F (grafted P qs F'))
    (hplain : ∀ x ∈ d'.root.preorder, x.declaresFunction → (x.child .type).isPlain s.flattenable N)
    {busy' : Option Nat} (hprotos : ∀ F ∈ d.root.preorder, F.isA .funcDef → F.key ≠ busy' →
      (∃ c ∈ itemsOf (grafted P qs F), c.isPresent ∧ ¬ IsOld s.document.next c) →
        d'.Agrees (grafted P qs F)) :
    s.Signs N busy' d' := by
  have hform := hp.form?_grafted h.tidy
  have hdef : ∀ {F}, (grafted P qs F).isA .funcDef = F.isA .funcDef := fun {F} => by
    rw [isA, isA, cls?_congr (hform F).2]
  have htop : ∀ F ∈ d.root.preorder, F.isA .funcDef →
      grafted P qs F ∈ d'.root.parts := fun F hF hd =>
    hp.mem_parts_root h.tidy (h.tops F hF hd) (isPresent_of_isA hd) fun hr =>
      hkept F (hr ▸ h.tops F hF hd) hd
  have hof : ∀ F ∈ d'.root.preorder, F.isA .funcDef →
      ∃ F' ∈ d.root.preorder, F'.isA .funcDef ∧ F = grafted P qs F' := by
    intro F hF hd
    rcases hp.of_mem_root h.tidy hF with ⟨F', hF', rfl⟩ | ⟨hF, hn⟩
    · exact ⟨F', hF', hdef ▸ hd, rfl⟩
    · rw [hnew F hF hn] at hd
      cases hd
  have hroot : d'.root.isPresent := by
    have hfile := h.file
    rw [isA, ← cls?_congr (hform d.root).2, ← hp.root, ← isA] at hfile
    exact isPresent_of_isA hfile
  refine ⟨hp.tidy h.tidy, ?_, Nat.le_trans h.next hp.next, hplain,
    fun F hF hd => ?_, fun F hF hd => ?_,
    fun F hF hd => ?_, fun F hF hd hb hc => ?_⟩
  · rw [hp.root, isA, cls?_congr (hform _).2]
    exact h.file
  · obtain ⟨F', hF', hd', rfl⟩ := hof F hF hd
    exact htop F' hF' hd'
  · obtain ⟨F', hF', hd', rfl⟩ := hof F hF hd
    obtain ⟨F₀, hF₀, hd₀, hsig⟩ := h.defs F' hF' hd'
    exact ⟨F₀, hF₀, hd₀, hsigned F₀ hF₀ F' hF' hd' hsig⟩
  · obtain ⟨F', hF', hd', hk⟩ := h.kept F hF hd
    exact ⟨_, mem_preorder_of_part (self_mem_preorder hroot) (htop F' hF' hd')
      (isPresent_of_isA (hdef.trans hd')), hdef.trans hd', (hform F').1.trans hk⟩
  · obtain ⟨F', hF', hd', rfl⟩ := hof F hF hd
    exact hprotos F' hF' hd' ((hform F').1 ▸ hb) hc

omit hs in
/-- What an edit builds that declares a function is the copy of a declaration of the program, or one
in the type of a field, and it builds no definition. -/
theorem of_built (hty : ∀ T ∈ types, T.isPlain s.flattenable N)
    (hr : Document.RedrawsAt N types d d' P qs) (hy : y ∈ preorderAll qs) (hn : ¬ IsOld d.next y)
    (hf : y.declaresFunction ∨ y.isA .funcDef) : y.isA .funcDef = false ∧
      ((∃ z ∈ d.root.preorder, y.copy = z.copy) ∨ y.name?.any s.flattenable.contains = false ∧
        (y.child .type).isPlain s.flattenable N) := by
  obtain ⟨t, ht, z, hz, hyz⟩ := hr.built y hy hn hf
  have hfunc : z.declaresFunction = y.declaresFunction := by
    rw [← declaresFunction_copy z, ← hyz, declaresFunction_copy]
  have hdef : z.isA .funcDef = y.isA .funcDef := by
    rw [isA, ← cls?_copy z, ← hyz, cls?_copy, ← isA]
  rcases ht with ⟨ht, hfile, htd⟩ | ht
  · refine ⟨hdef ▸ Bool.eq_false_iff.mpr fun hd => ?_, .inl ⟨z, mem_preorder_trans hz ht, hyz⟩⟩
    -- A definition is an item of the file, and so in no smaller tree but itself.
    have hsole := isSole_of_isA hd rfl
    have hroot := Document.mem_trees_of_root (self_mem_preorder (isPresent_of_preorder ht))
    rcases h.tidy.eq_or_mem_of_part hroot (h.tops z (mem_preorder_trans hz ht) hd) hsole
      (Document.mem_trees_of_root ht) hz with rfl | hmem
    · rw [htd] at hd
      cases hd
    · rw [eq_of_mem_preorder ht hmem, h.file] at hfile
      cases hfile
  · obtain ⟨hzf, hzd, -⟩ := isPlain_iff.mp (hty t ht) z hz
    refine ⟨hdef ▸ hzd, .inr ⟨?_, ?_⟩⟩
    · rw [← name?_congr (form?_copy y), hyz, name?_congr (form?_copy z)]
      exact hzf (hfunc ▸ hf.resolve_right (by simp [← hdef, hzd]))
    · rw [← isPlain_copy, ← child_copy, hyz, child_copy, isPlain_copy]
      exact isPlain_child (isPlain_of_mem (hty t ht) hz) .type

omit hs in
/-- The declarations of functions after an edit around a marked node are like those before, or like
those in the types of fields. -/
theorem of_function (hty : ∀ T ∈ types, T.isPlain s.flattenable N)
    (hr : Document.RedrawsAt N types d d' P qs) (hy : y ∈ d'.root.preorder)
    (hf : y.declaresFunction) :
    (∃ z ∈ d.root.preorder, z.declaresFunction ∧ z.name? = y.name? ∧
      (y.child .type).copy = (z.child .type).copy) ∨
    y.name?.any s.flattenable.contains = false ∧ (y.child .type).isPlain s.flattenable N := by
  rcases hr.of_mem_root h.tidy hy with ⟨z, hz, rfl⟩ | ⟨hyq, hn⟩
  · have hzm := Document.mem_trees_of_root hz
    have hname : z.name? = (grafted P qs z).name? :=
      (name?_congr (hr.form?_grafted h.tidy z).2).symm
    by_cases hzP : z = P
    · subst hzP
      rw [hr.grafted_self h.tidy] at hf hname ⊢
      have hchild := hr.head hf
      have hdecl : z.isA .decl := by
        have := (Bool.and_eq_true _ _ ▸ hf).1
        rwa [isA, cls?_withParts, ← isA] at this
      refine .inl ⟨z, hz, ?_, hname, by rw [hchild]⟩
      rw [declaresFunction, Bool.and_eq_true, hchild] at hf
      rw [declaresFunction, Bool.and_eq_true]
      exact ⟨hdecl, hf.2⟩
    · rw [hr.declaresFunction_grafted h.tidy hzm hzP] at hf
      refine .inl ⟨z, hz, hf, hname, ?_⟩
      rw [hr.child_grafted h.tidy hzm hzP, hr.grafted_eq_of_isPlain h.tidy
        (fun hp => Document.mem_trees_of_root (mem_preorder_trans (child_mem_preorder hp) hz))
        (h.plain z hz hf)]
  · obtain ⟨z, hz, hyz⟩ | hplain := (h.of_built hty hr hyq hn (.inl hf)).2
    · refine .inl ⟨z, hz, ?_, ?_, ?_⟩
      · rwa [← declaresFunction_copy z, ← hyz, declaresFunction_copy]
      · rw [← name?_congr (form?_copy z), ← hyz, name?_congr (form?_copy y)]
      · rw [← child_copy, ← child_copy, hyz]
    · exact .inr hplain

/-- **Edits around marked nodes leave the functions alone.** -/
theorem redrawsAt (hty : ∀ T ∈ types, T.isPlain s.flattenable N)
    (hr : Document.RedrawsAt N types d d' P qs) : s.Signs N busy d' := by
  obtain ⟨x, hx, hxp, hm⟩ := hr.marked
  have hhead : ∀ F ∈ d.root.preorder, F.isA .funcDef → ∃ H D A T B B', F.IsPrototype H D A T B ∧
      (grafted P qs F).IsPrototype H D A T B' := by
    intro F hF hd
    obtain ⟨H, D, A, T, B, hp, -, hD⟩ := h.exists_prototype hF hd
    obtain ⟨hne, hH⟩ := hm.not_head hx hxp hp hD
    exact ⟨H, D, A, T, B, _, hp, hr.grafted_prototype_of_not_mem h.tidy hF hp hne hH⟩
  refine h.of_puts hr.toPuts hr.kept (fun y hy hn => ?_) (fun F₀ hF₀ F hF hd hsig => ?_)
    (fun y hy hf => ?_) (fun F hF hd hb hc y hy hf hn => ?_)
  · cases hd : y.isA .funcDef with
    | false => rfl
    | true => rw [← hd, (h.of_built hty hr hy hn (.inr hd)).1]
  · obtain ⟨H, D, A, T, B, B', hp, hp'⟩ := hhead F hF hd
    exact hsig.of_head (hr.form?_grafted h.tidy F).1 hp hp' fun n hn =>
      h.not_attached hs hr.toPuts hF₀ hn
  · obtain ⟨z, hz, hzf, -, hcopy⟩ | ⟨-, hplain⟩ := h.of_function hty hr hy hf
    · rw [← isPlain_copy, hcopy, isPlain_copy]
      exact h.plain z hz hzf
    · exact hplain
  · obtain ⟨H, D, A, T, B, B', hp, hp'⟩ := hhead F hF hd
    rw [hp'.itemsOf, ← hp.itemsOf] at hc
    rw [hp'.headName?, ← hp.headName?] at hn
    obtain ⟨z, hz, hzf, hname, hcopy⟩ | ⟨hother, -⟩ := h.of_function hty hr hy hf
    · rw [hp'.child_decl, ← hp.child_decl, hcopy]
      exact h.protos F hF hd hb hc z hz hzf (hname.trans hn)
    · obtain ⟨c, hcm, hcp, hcn⟩ := hc
      rw [hn, h.headName?_of_new hs hF hd hcm hcp hcn] at hother
      cases hother

theorem redraws (hty : ∀ T ∈ types, T.isPlain s.flattenable N)
    (hr : Document.Redraws N types d d') : s.Signs N busy d' :=
  (hr.induct h.tidy h fun hr _ h => h.redrawsAt hs hty hr).2

omit hs in
/-- Functions are defined once still. -/
theorem eq_of_headName? (hone : s.document.root.DefinesOnce) (hF : F ∈ d.root.preorder)
    (hF' : F' ∈ d.root.preorder) (hd : F.isA .funcDef) (hd' : F'.isA .funcDef)
    (hn : F.headName? = F'.headName?) : F = F' := by
  obtain ⟨F₀, hF₀, hd₀, hsig⟩ := h.defs F hF hd
  obtain ⟨F₁, hF₁, hd₁, hsig'⟩ := h.defs F' hF' hd'
  obtain rfl := hone.eq hF₀ hF₁ hd₀ hd₁ (hsig.name.symm.trans (hn.trans hsig'.name))
  exact h.tidy.eq_of_key (Document.mem_trees_of_root hF) (Document.mem_trees_of_root hF')
    (hsig.key.trans hsig'.key.symm)

/-! ### Replacing parameters -/

omit hs in
/-- A list of parameters that can be decomposed stands in one function type only. -/
theorem eq_head_of_mem_type (hF : F ∈ d.root.preorder) (hp : F.IsPrototype H D A T B)
    (hK : F.headName?.any s.flattenable.contains) (hA : A.isPresent) (hz : z ∈ d.root.preorder)
    (hf : z.declaresFunction) (hm : A ∈ (z.child .type).preorder) : z = H := by
  have htrees : ∀ {n}, n ∈ d.root.preorder → n ∈ preorderAll d.trees := Document.mem_trees_of_root
  have hzp := isPresent_of_preorder hm
  have hzm := mem_preorder_trans (child_mem_preorder hzp) hz
  have hH := mem_preorder_of_part hF hp.head_mem (isPresent_of_isA hp.isA_decl)
  have hD := mem_preorder_of_part hH hp.declarator_mem (isPresent_of_isA hp.isA_funcDecl)
  have htz := htrees hzm
  rcases h.tidy.eq_or_mem_of_part (htrees hD) hp.params_mem (hp.isSole_params hA) htz hm with
    hAz | hDz
  · have hfunc := (Bool.and_eq_true _ _ ▸ hf).2
    rw [← hAz, isA_of_ne (hp.isA_params hA) (by decide)] at hfunc
    cases hfunc
  · rcases h.tidy.eq_or_mem_of_part (htrees hH) hp.declarator_mem hp.isSole_declarator (htrees hzm)
      hDz with hDz | hHz
    · exact h.tidy.eq_of_key (htrees hz) (htrees hH)
        (h.tidy.woven.sole z (htrees hz) H (htrees hH) _
        (child_mem_parts hzp) D hp.declarator_mem (hDz ▸ hp.isSole_declarator) (by rw [← hDz]))
    · have hother := (isPlain_iff.mp (h.plain z hz hf) H hHz).1 hp.declaresFunction
      rw [← hp.headName?, hK] at hother
      cases hother

omit hs in
/-- A definition has its head for itself. -/
theorem eq_of_head (hF : F ∈ d.root.preorder) (hp : F.IsPrototype H D A T B)
    (hF' : F' ∈ d.root.preorder) (hH : H ∈ F'.parts) : F' = F :=
  h.tidy.eq_of_key (Document.mem_trees_of_root hF') (Document.mem_trees_of_root hF)
    (h.tidy.woven.sole F' (Document.mem_trees_of_root hF') F (Document.mem_trees_of_root hF) H hH H
      hp.head_mem hp.isSole_head rfl)

omit hs in
/-- What becomes of a definition when the parameters of another one are edited. -/
theorem grafted_other (hput : d.Puts d' A qs) (hF : F ∈ d.root.preorder)
    (hp : F.IsPrototype H D A T B) (hK : F.headName?.any s.flattenable.contains)
    (hA : A.isPresent) (hF' : F' ∈ d.root.preorder) (hd : F'.isA .funcDef) (hne : F' ≠ F) :
    ∃ H D A' T B B', F'.IsPrototype H D A' T B ∧ (grafted A qs F').IsPrototype H D A' T B' := by
  obtain ⟨H', D', A', T', B', hp', hH', -⟩ := h.exists_prototype hF' hd
  have hpl := hp.isA_params hA
  refine ⟨H', D', A', T', B', _, hp', hput.grafted_prototype_of_not_mem h.tidy hF' hp' ?_ ?_⟩
  · rintro rfl
    rw [isA_of_ne hpl (by decide)] at hd
    cases hd
  · intro hm
    rcases hp'.mem_head.mp hm with rfl | hm
    · exact absurd hp'.isA_decl (by rw [isA_of_ne hpl (by decide)]; decide)
    · rw [← hp'.child_type] at hm
      obtain rfl := h.eq_head_of_mem_type hF hp hK hA hH' hp'.declaresFunction hm
      exact hne (h.eq_of_head hF hp hF' hp'.head_mem)

omit hs in
/-- What becomes of a definition when its parameters are edited. -/
theorem grafted_own (hput : d.Puts d' A qs) (hF : F ∈ d.root.preorder)
    (hp : F.IsPrototype H D A T B) (hA : A.isPresent) : (grafted A qs F).IsPrototype
      (grafted A qs H) (grafted A qs D) (A.withParts qs) T (grafted A qs B) := by
  have hpl := hp.isA_params hA
  have hH := mem_preorder_of_part hF hp.head_mem (isPresent_of_isA hp.isA_decl)
  have hD := mem_preorder_of_part hH hp.declarator_mem (isPresent_of_isA hp.isA_funcDecl)
  have hne : ∀ {n : Node} {c : Class}, n.isA c → c ≠ .paramList → n ≠ A := by
    rintro n c hn hc rfl
    rw [isA_of_ne hpl hc.symm] at hn
    cases hn
  have := hput.grafted_prototype h.tidy hF hp ⟨hne hp.isA_funcDef (by decide),
    hne hp.isA_decl (by decide), hne hp.isA_funcDecl (by decide)⟩
    (hp.params_not_mem_type h.tidy.woven (Document.mem_trees_of_root hD) hA)
  rwa [hput.grafted_self h.tidy] at this

omit h in
/-- **The replacement of a parameter.** The other declarations of the function are to follow. -/
theorem splice (h : s.Signs N none d) (hone : s.document.root.DefinesOnce) {F₀ : Node}
    (hF₀ : F₀ ∈ s.document.root.preorder) (hd₀ : F₀.isA .funcDef)
    (hF : F ∈ d.root.preorder)
    (hsig : s.Signed d F₀ F) (hp : F.IsPrototype H D A T B) (hx : x ∈ itemsOf F₀)
    (hb : (s.parameter? F₀ x).isSome) {us vs new : List Node} (hA : A.parts = us ++ x :: vs)
    (hput : d.Puts d' A (us ++ (stampAll d.next new).1 ++ vs)) (hgone : d'.attached x = false)
    (hcopy : new.map copy = (s.fieldParams F₀ x).map copy) (hk : Keyless new)
    (hplain : ∀ n ∈ new, n.isPlain s.flattenable N) : s.Signs N F.key d' := by
  have htrees : ∀ {n}, n ∈ d.root.preorder → n ∈ preorderAll d.trees := Document.mem_trees_of_root
  have hxA : x ∈ A.parts := hA ▸ List.mem_append_right _ List.mem_cons_self
  have hAp := isPresent_of_mem_parts hxA
  have hpl := hp.isA_params hAp
  have hH := mem_preorder_of_part hF hp.head_mem (isPresent_of_isA hp.isA_decl)
  have hDm := mem_preorder_of_part hH hp.declarator_mem (isPresent_of_isA hp.isA_funcDecl)
  have hD : D.isPlain s.flattenable N := hp.child_type ▸ h.plain H hH hp.declaresFunction
  obtain ⟨b₀, hb₀⟩ := Option.isSome_iff_exists.mp hb
  have hxd : x.isA .decl := (parameter?_eq_some.mp hb₀).1
  have hK := hsig.headName?_flattenable hF₀ hd₀ hx hb
  have hxp := isPresent_of_isA hxd
  -- All parameters are plain, the new ones as well as the others.
  have hold : ∀ q ∈ A.parts, q.isPlain s.flattenable N := fun q hq =>
    isPlain_of_mem_parts (isPlain_of_mem_parts hD hp.params_mem) hq
  have hqs : ∀ q ∈ us ++ (stampAll d.next new).1 ++ vs, q.isPlain s.flattenable N := by
    intro q hq
    rcases List.mem_append.mp hq with hq | hq
    · rcases List.mem_append.mp hq with hq | hq
      · exact hold q (hA ▸ List.mem_append_left _ hq)
      · obtain ⟨n, hn, a, -, rfl⟩ := mem_stampAll hq
        rw [isPlain_stamp]
        exact hplain n hn
    · exact hold q (hA ▸ List.mem_append_right _ (List.mem_cons_of_mem _ hq))
  have hnode : ∀ y ∈ preorderAll (us ++ (stampAll d.next new).1 ++ vs),
      y.isPlain s.flattenable N ∧ (y.declaresFunction → y.name?.any s.flattenable.contains = false) ∧
        y.isA .funcDef = false := fun y hy => by
    obtain ⟨q, hq, hyq⟩ := mem_preorderAll.mp hy
    have := isPlain_iff.mp (hqs q hq) y hyq
    exact ⟨isPlain_of_mem (hqs q hq) hyq, this.1, this.2.1⟩
  have hform := hput.form?_grafted h.tidy
  have hown := h.grafted_own hput hF hp hAp
  -- A function is declared where one was, in the head of the definition, or in a new parameter.
  have hfunc : ∀ y ∈ d'.root.preorder, y.declaresFunction → (∃ z ∈ d.root.preorder,
      z.declaresFunction ∧ z.name? = y.name? ∧
        (z = H ∧ y = grafted A (us ++ (stampAll d.next new).1 ++ vs) H ∨
          y.child .type = z.child .type)) ∨
      y.name?.any s.flattenable.contains = false ∧ (y.child .type).isPlain s.flattenable N := by
    intro y hy hf
    rcases hput.of_mem_root h.tidy hy with ⟨z, hz, rfl⟩ | ⟨hyq, -⟩
    · have hzA : z ≠ A := by
        rintro rfl
        have hdecl := (Bool.and_eq_true _ _ ▸ hf).1
        rw [isA, cls?_congr (hform z).2, ← isA, isA_of_ne hpl (by decide)] at hdecl
        cases hdecl
      rw [hput.declaresFunction_grafted h.tidy (htrees hz) hzA] at hf
      refine .inl ⟨z, hz, hf, (name?_congr (hform z).2).symm, ?_⟩
      by_cases hm : A ∈ (z.child .type).preorder
      · obtain rfl := h.eq_head_of_mem_type hF hp hK hAp hz hf hm
        exact .inl ⟨rfl, rfl⟩
      · rw [hput.child_grafted h.tidy (htrees hz) hzA, hput.grafted_eq_self h.tidy
          (fun hp => htrees (mem_preorder_trans (child_mem_preorder hp) hz)) hm]
        exact .inr rfl
    · obtain ⟨hyp, hother, -⟩ := hnode y hyq
      exact .inr ⟨hother hf, isPlain_child hyp .type⟩
  refine h.of_puts hput (fun G hG hd => ?_) (fun y hy _ => (hnode y hy).2.2)
    (fun G₀ hG₀ G hG hd hsigG => ?_) (fun y hy hf => ?_) fun G hG hd hb' hc y hy hf hn => ?_
  · rw [(isPlain_iff.mp (hold G hG) G (self_mem_preorder (isPresent_of_isA hd))).2.1] at hd
    cases hd
  · by_cases hGF : G = F
    · subst hGF
      obtain rfl : G₀ = F₀ := hs.eq_of_key (Document.mem_trees_of_root hG₀)
        (Document.mem_trees_of_root hF₀) (hsigG.key.symm.trans hsig.key)
      have hapart := h.tidy.woven.siblings A (htrees (mem_preorder_of_part hDm hp.params_mem hAp))
      rw [hA, List.pairwise_append] at hapart
      have hself : ¬ Apart x x := fun ha => ha (.inl (isSole_of_isA hxd rfl)) rfl
      have hblock : s.Replaces d' G₀ x (stampAll d.next new).1 :=
        .inr ⟨hgone, hb, (map_copy_stampAll _ _).trans hcopy, fun y hy ho =>
          not_isOld_stampAll hk hy (isOld_mono ho h.next)⟩
      exact hsigG.splice hG₀ hs (hform G).1 hown.isPrototyped
        (by rw [hown.headName?, hp.headName?, name?_congr (hform H).2])
        (by rw [hown.paramsOf, hp.paramsOf, key_withParts]) (hp.itemsOf.trans hA)
        (by rw [hown.itemsOf, parts_withParts hAp])
        (fun hu => hself (hapart.2.2 x hu x List.mem_cons_self))
        (fun hv => hself (List.rel_of_pairwise_cons hapart.2.1 hv)) hx hxp hblock
        fun n hn => h.not_attached hs hput hG₀ hn
    · obtain ⟨H', D', A', T', B', B'', hp', hg⟩ := h.grafted_other hput hF hp hK hAp hG hd hGF
      exact hsigG.of_head (hform G).1 hp' hg fun n hn => h.not_attached hs hput hG₀ hn
  · obtain ⟨z, hz, hzf, -, ⟨rfl, rfl⟩ | hchild⟩ | ⟨-, hyp⟩ := hfunc y hy hf
    · rw [hown.child_type]
      obtain ⟨m, hm⟩ := hown.declarator
      rw [hm, isPlain_declarator rfl]
      intro p hpm
      simp only [List.mem_cons, List.not_mem_nil, or_false] at hpm
      rcases hpm with rfl | rfl
      · cases A with
        | absent => exact isPlain_absent
        | mk ma fa pa =>
          have hfa : fa.cls = .paramList := by simpa [isA, cls?, form?] using hpl
          exact (isPlain_declarator (hfa ▸ rfl)).mpr hqs
      · exact isPlain_of_mem_parts hD hp.type_mem
    · rw [hchild]
      exact h.plain z hz hzf
    · exact hyp
  · have hGF : G ≠ F := fun he => hb' (by rw [he])
    obtain ⟨H', D', A', T', B', B'', hp', hg⟩ := h.grafted_other hput hF hp hK hAp hG hd hGF
    rw [hg.itemsOf, ← hp'.itemsOf] at hc
    rw [hg.headName?, ← hp'.headName?] at hn
    obtain ⟨z, hz, hzf, hzn, hz'⟩ | ⟨hother, -⟩ := hfunc y hy hf
    case inr =>
      obtain ⟨c, hcm, hcp, hcn⟩ := hc
      rw [hn, h.headName?_of_new hs hG hd hcm hcp hcn] at hother
      cases hother
    rw [hn] at hzn
    -- The head of the definition has another name, as functions are defined once.
    have hzH : z ≠ H := by
      rintro rfl
      exact hGF (h.eq_of_headName? hone hG hF hd hp.isA_funcDef (hzn.symm.trans hp.headName?.symm))
    rw [hz'.resolve_left fun hz' => hzH hz'.1, hg.child_decl, ← hp'.child_decl]
    obtain ⟨k, hk'⟩ := h.tidy.woven.exists_key (htrees hG)
    exact h.protos G hG hd (by simp [hk']) hc z hz hzf hzn

end Signs

end Session

end Fieldwise
