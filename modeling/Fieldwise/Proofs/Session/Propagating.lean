import Fieldwise.Proofs.Session.Signing

/-!
# Declarations that follow a definition

When a parameter of a function was replaced, all other declarations of the function get the type of
the definition, one after the other (`Session.Follow`). After that they agree with the definition
(`Session.Follow.settles_updateAll`).
-/

namespace Fieldwise

open Node

variable {N : List String} {types : List Node} {d d' : Document} {n x y z F F' G H D A T B : Node}

namespace Session

variable {s : Session}

namespace Signs

variable {k : Option Nat} (h : s.Signs N k d) (hD : D.isPlain s.flattenable N)
  (hx : x ∈ d.root.preorder)
include h hD hx

/-- What is new in a declaration is plain. -/
theorem isPlain_of_setType
    (hy : y ∈ preorderAll ((stampAll d.next [D.copy]).1 ++ x.parts.drop 1))
    (hn : ¬ IsOld d.next y) : y.isPlain s.flattenable N := by
  rcases mem_preorderAll_append.mp hy with hy | hy
  · rw [stampAll_singleton] at hy
    refine isPlain_of_mem ?_ (mem_preorderAll_singleton.mp hy)
    rwa [isPlain_stamp, isPlain_copy]
  · obtain ⟨t, ht, hyt⟩ := mem_preorderAll.mp hy
    exact absurd (h.tidy.bound y (mem_preorderAll_of_parts
      (mem_preorderAll.mpr ⟨t, List.mem_of_mem_drop ht, hyt⟩) (Document.mem_trees_of_root hx))) hn

variable (hf : x.declaresFunction)
  (hput : d.Puts d' x ((stampAll d.next [D.copy]).1 ++ x.parts.drop 1))
include hf hput

omit hD hx in
/-- The new type is that of the definition. -/
theorem child_setType : ((grafted x ((stampAll d.next [D.copy]).1 ++ x.parts.drop 1) x).child
    .type).copy = D.copy := by
  rw [hput.child_setType h.tidy (Bool.and_eq_true _ _ ▸ hf).1, copy_stamp, copy_copy]

omit hD in
/-- A definition or another declaration of a function with parameters that can be decomposed does
not get lost. -/
theorem mem_root_setType (hz : z ∈ d.root.preorder)
    (hzf : z.declaresFunction ∧ z.name?.any s.flattenable.contains ∨ z.isA .funcDef) :
    grafted x ((stampAll d.next [D.copy]).1 ++ x.parts.drop 1) z ∈ d'.root.preorder := by
  refine (hput.mem_root h.tidy (r := x.child .type) (fun c hc hcp => ?_) hz).resolve_right
    fun hm => ?_
  · have hdecl := (Bool.and_eq_true _ _ ▸ hf).1
    cases x with
    | absent => cases hdecl
    | mk m f ps =>
      cases f with
      | decl name spec =>
        cases ps with
        | nil => cases hc
        | cons p ps =>
          refine (List.mem_cons.mp hc).symm.imp_left fun hc => ?_
          exact mem_preorderAll_append.mpr (.inr (mem_preorderAll_of_mem hc hcp))
      | _ => cases hdecl
  · obtain ⟨hother, hdef, -⟩ := isPlain_iff.mp (h.plain x hx hf) z hm
    rcases hzf with ⟨hzf, hname⟩ | hzd
    · rw [hother hzf] at hname
      cases hname
    · rw [hdef] at hzd
      cases hzd

variable (hK : x.name?.any s.flattenable.contains)
include hK

/-- The functions that are declared are those that were, where one of them has another type, and
those in this type. -/
theorem of_setType (hy : y ∈ d'.root.preorder) (hyf : y.declaresFunction) :
    (∃ z ∈ d.root.preorder, z.declaresFunction ∧
      y = grafted x ((stampAll d.next [D.copy]).1 ++ x.parts.drop 1) z ∧
      (z = x ∧ (y.child .type).copy = D.copy ∨ z ≠ x ∧ y.child .type = z.child .type)) ∨
    y.name?.any s.flattenable.contains = false ∧ (y.child .type).isPlain s.flattenable N := by
  rcases hput.of_mem_root h.tidy hy with ⟨z, hz, rfl⟩ | ⟨hyq, hn⟩
  · have hzm := Document.mem_trees_of_root hz
    by_cases hzx : z = x
    · subst hzx
      exact .inl ⟨z, hz, hf, rfl, .inl ⟨rfl, h.child_setType hf hput⟩⟩
    · rw [hput.declaresFunction_grafted h.tidy hzm hzx] at hyf
      refine .inl ⟨z, hz, hyf, rfl, .inr ⟨hzx, ?_⟩⟩
      refine (hput.child_grafted h.tidy hzm hzx _).trans (hput.grafted_eq_self h.tidy
        (fun hp => Document.mem_trees_of_root (mem_preorder_trans (child_mem_preorder hp) hz))
        fun hm => ?_)
      rw [(isPlain_iff.mp (h.plain z hz hyf) x hm).1 hf] at hK
      cases hK
  · have hplain := h.isPlain_of_setType hD hx hyq hn
    exact .inr ⟨(isPlain_iff.mp hplain y (self_mem_preorder
      (isPresent_of_isA (Bool.and_eq_true _ _ ▸ hyf).1))).1 hyf, isPlain_child hplain .type⟩

omit hD hx in
/-- The heads of definitions stay as they are. -/
theorem prototype_setType (hG : G ∈ d.root.preorder) (hd : G.isA .funcDef)
    (hne : x ≠ G.child .decl) : ∃ H₁ D₁ A₁ T₁ B₁ B₂, G.IsPrototype H₁ D₁ A₁ T₁ B₁ ∧
      (grafted x ((stampAll d.next [D.copy]).1 ++ x.parts.drop 1) G).IsPrototype
        H₁ D₁ A₁ T₁ B₂ := by
  obtain ⟨H', D', A', T', B', hp, -, hD'⟩ := h.exists_prototype hG hd
  refine ⟨H', D', A', T', B', _, hp, hput.grafted_prototype_of_not_mem h.tidy hG hp ?_ ?_⟩
  · rintro rfl
    have hdecl := (Bool.and_eq_true _ _ ▸ hf).1
    rw [isA_of_ne hd (by decide)] at hdecl
    cases hdecl
  · intro hm
    rcases hp.mem_head.mp hm with rfl | hm
    · exact hne hp.child_decl.symm
    · rw [(isPlain_iff.mp hD' x hm).1 hf] at hK
      cases hK

/-- **A declaration of a function gets the type of its definition.** -/
theorem setType (hs : s.document.Tidy) (hone : s.document.root.DefinesOnce)
    (hF : F ∈ d.root.preorder) (hk : F.key = k) (hp : F.IsPrototype H D A T B)
    (hn : x.name? = H.name?) (hne : x ≠ H) : s.Signs N k d' := by
  have hform := hput.form?_grafted h.tidy
  have htrees : ∀ {n}, n ∈ d.root.preorder → n ∈ preorderAll d.trees := Document.mem_trees_of_root
  have hxd : x.isA .decl := (Bool.and_eq_true _ _ ▸ hf).1
  have hown : ∀ G ∈ d.root.preorder, G.isA .funcDef → x.name? = G.headName? → G = F :=
    fun G hG hd hxG => h.eq_of_headName? hone hG hF hd hp.isA_funcDef
      (hxG.symm.trans (hn.trans hp.headName?.symm))
  have hhead : ∀ G ∈ d.root.preorder, G.isA .funcDef → x ≠ G.child .decl := by
    rintro G hG hd rfl
    obtain rfl := hown G hG hd (by rw [headName?, if_pos hd])
    exact hne hp.child_decl
  refine h.of_puts hput (fun G hG hd => ?_)
    (fun y hy hnew => ?_) (fun G₀ hG₀ G hG hd hsig => ?_)
    (fun y hy hyf => ?_) fun G hG hd hb hc y hy hyf hyn => ?_
  · -- The definitions are items of the file, and so no parts of a declaration.
    have hrootm := self_mem_preorder (isPresent_of_isA h.file)
    have hroot := h.tidy.eq_of_key (htrees hrootm) (htrees hx) (h.tidy.woven.sole d.root
      (htrees hrootm) x (htrees hx) G
      (h.tops G (mem_preorder_of_part hx hG (isPresent_of_isA hd)) hd)
      G hG (isSole_of_isA hd rfl) rfl)
    rw [← hroot, isA_of_ne h.file (by decide)] at hxd
    cases hxd
  · cases hyd : y.isA .funcDef with
    | false => rfl
    | true =>
      rw [← hyd, (isPlain_iff.mp (h.isPlain_of_setType hD hx hy hnew) y
        (self_mem_preorder (isPresent_of_isA hyd))).2.1]
  · obtain ⟨H', D', A', T', B', B'', hp', hg⟩ :=
      h.prototype_setType hf hput hK hG hd (hhead G hG hd)
    exact hsig.of_head (hform G).1 hp' hg fun n hn => h.not_attached hs hput hG₀ hn
  · obtain ⟨z, hz, hzf, -, ⟨-, hcopy⟩ | ⟨-, hsame⟩⟩ | ⟨-, hplain⟩ :=
      h.of_setType hD hx hf hput hK hy hyf
    · rwa [← isPlain_copy, hcopy, isPlain_copy]
    · rw [hsame]
      exact h.plain z hz hzf
    · exact hplain
  · obtain ⟨H', D', A', T', B', B'', hp', hg⟩ :=
      h.prototype_setType hf hput hK hG hd (hhead G hG hd)
    rw [hg.headName?, ← hp'.headName?] at hyn
    rw [hg.itemsOf, ← hp'.itemsOf] at hc
    obtain ⟨z, hz, hzf, rfl, hz'⟩ | ⟨hother, -⟩ := h.of_setType hD hx hf hput hK hy hyf
    case inr =>
      obtain ⟨c, hcm, hcp, hcn⟩ := hc
      rw [hyn, h.headName?_of_new hs hG hd hcm hcp hcn] at hother
      cases hother
    rw [name?_congr (hform z).2] at hyn
    have hzx : z ≠ x := fun hzx => hb (by rw [hown G hG hd (hzx ▸ hyn), hk])
    rw [(hz'.resolve_left fun hz' => hzx hz'.1).2, hg.child_decl, ← hp'.child_decl]
    exact h.protos G hG hd hb hc z hz hzf hyn

end Signs

/-- The declarations of a function on the way to the type of its definition: those that may not have
it yet are listed. -/
structure Follow (s : Session) (N : List String) (types : List Node) (k : Option Nat) (H D : Node)
    (ds : List Node) (d : Document) : Prop where
  signs : s.Signs N k d
  flattens : H.name?.any s.flattenable.contains
  own : ∃ F ∈ d.root.preorder, F.key = k ∧ ∃ A T B, F.IsPrototype H D A T B
  todo : ∀ n ∈ ds, ∃ x ∈ d.root.preorder, x.key = n.key ∧ x.declaresFunction ∧
    x.name? = H.name? ∧ x ≠ H
  done : ∀ y ∈ d.root.preorder, y.declaresFunction → y.name? = H.name? →
    (y.child .type).copy = D.copy ∨ ∃ n ∈ ds, n.key = y.key
  fixed : ∀ T ∈ types, d.Fixes T

namespace Follow

variable {k : Option Nat} {ds : List Node} (hs : s.document.Tidy)
  (hone : s.document.root.DefinesOnce) (hty : ∀ T ∈ types, T.isPlain s.flattenable N)
include hs hone hty

/-- The first declaration of the list gets the type. -/
theorem step (h : s.Follow N types k H D (n :: ds) d) :
    s.Follow N types k H D ds (d.setType n D.copy) := by
  have ht := h.signs.tidy
  have htrees : ∀ {n}, n ∈ d.root.preorder → n ∈ preorderAll d.trees := Document.mem_trees_of_root
  obtain ⟨F, hF, hk, A, T, B, hp⟩ := h.own
  obtain ⟨x, hx, hxk, hf, hn, hne⟩ := h.todo n List.mem_cons_self
  have hput := Document.puts_setType ht hx hxk (keyless_copy D)
  have hform := hput.form?_grafted ht
  have hH := mem_preorder_of_part hF hp.head_mem (isPresent_of_isA hp.isA_decl)
  have hD : D.isPlain s.flattenable N := hp.child_type ▸ h.signs.plain H hH hp.declaresFunction
  have hK : x.name?.any s.flattenable.contains := hn ▸ h.flattens
  refine ⟨h.signs.setType hD hx hf hput hK hs hone hF hk hp hn hne, h.flattens, ?_, fun c hc => ?_,
    fun y hy hyf hyn => ?_, fun T hT => hput.fixes ht (h.fixed T hT) fun hm => ?_⟩
  · obtain ⟨H₁, D₁, A₁, T₁, B₁, B₂, hp₁, hp₂⟩ :=
      h.signs.prototype_setType hf hput hK hF hp.isA_funcDef (hp.child_decl.symm ▸ hne)
    obtain rfl : H₁ = H := hp₁.child_decl.symm.trans hp.child_decl
    obtain rfl : D₁ = D := hp₁.child_type.symm.trans hp.child_type
    exact ⟨_, h.signs.mem_root_setType hx hf hput hF (.inr hp.isA_funcDef), (hform F).1.trans hk,
      _, _, _, hp₂⟩
  · obtain ⟨z, hz, hzk, hzf, hzn, hzH⟩ := h.todo c (List.mem_cons_of_mem _ hc)
    refine ⟨_, h.signs.mem_root_setType hx hf hput hz (.inl ⟨hzf, hzn ▸ h.flattens⟩),
      (hform z).1.trans hzk, ?_, (name?_congr (hform z).2).trans hzn, fun he => hzH ?_⟩
    · by_cases hzx : z = x
      · subst hzx
        rw [declaresFunction, Bool.and_eq_true]
        constructor
        · rw [isA, cls?_congr (hform z).2, ← isA]
          exact (Bool.and_eq_true _ _ ▸ hf).1
        · rw [isA, ← cls?_copy, h.signs.child_setType hf hput, cls?_copy, ← isA, hp.isA_funcDecl]
      · rwa [hput.declaresFunction_grafted ht (htrees hz) hzx]
    · exact ht.eq_of_key (htrees hz) (htrees hH) ((hform z).1.symm.trans (by rw [he]))
  · obtain ⟨z, hz, hzf, rfl, ⟨-, hcopy⟩ | ⟨hzx, hsame⟩⟩ | ⟨hother, -⟩ :=
      h.signs.of_setType hD hx hf hput hK hy hyf
    · exact .inl hcopy
    · rw [name?_congr (hform z).2] at hyn
      rw [hsame, (hform z).1]
      refine (h.done z hz hzf hyn).imp_right ?_
      rintro ⟨c, hc, hck⟩
      rcases List.mem_cons.mp hc with rfl | hc
      · exact absurd (ht.eq_of_key (htrees hz) (htrees hx) (hck.symm.trans hxk.symm)) hzx
      · exact ⟨c, hc, hck⟩
    · rw [hyn, h.flattens] at hother
      cases hother
  · rw [(isPlain_iff.mp (hty T hT) x hm).1 hf] at hK
    cases hK

omit hs hone hty in
/-- In the end the declarations agree with the definition. -/
theorem signs_nil (h : s.Follow N types k H D [] d) : s.Signs N none d := by
  obtain ⟨F, hF, hk, A, T, B, hp⟩ := h.own
  refine { h.signs with protos := fun G hG hd _ hc => ?_ }
  by_cases hGF : G = F
  · subst hGF
    intro y hy hyf hyn
    rw [hp.child_decl, hp.child_type]
    exact (h.done y hy hyf (hyn.trans hp.headName?)).resolve_right fun ⟨_, hc, _⟩ => nomatch hc
  · refine h.signs.protos G hG hd (fun hk' => hGF ?_) hc
    exact h.signs.tidy.eq_of_key (Document.mem_trees_of_root hG) (Document.mem_trees_of_root hF)
      (hk'.trans hk.symm)

/-- **All listed declarations get the type of the definition.** -/
theorem settles_updateAll [Discipline] {v : Session} {funcDef : Node}
    (h : s.Follow N types funcDef.key H D ds v.document) :
    v.Settles (Engine.updateAll funcDef ds) fun _ t =>
      s.Follow N types funcDef.key H D [] t.document ∧ t.aggregates = v.aggregates ∧
        t.decomposed = v.decomposed := by
  induction ds generalizing v with
  | nil => exact .pure ⟨h, rfl, rfl⟩
  | cons n ds ih =>
    obtain ⟨F, hF, hk, A, T, B, hp⟩ := h.own
    have hcur : v.document.current funcDef = F :=
      h.signs.tidy.current_eq (Document.mem_trees_of_root hF) hk
    unfold Engine.updateAll
    refine .get_bind ?_
    rw [hcur]
    refine Settles.bind (.modify (Q := fun _ t => t = { v with document := _ }) rfl) ?_
    rintro - _ rfl
    refine (settles_note _ _).bind fun _ t ht => ?_
    have hdoc : t.document = v.document.setType n D.copy :=
      ht.document.trans (by rw [hp.child_decl, hp.child_type])
    refine (ih (hdoc ▸ h.step hs hone hty)).mono ?_
    rintro - t' ⟨hr, ha, hd⟩
    exact ⟨hr, ha.trans ht.aggregates, hd.trans ht.decomposed⟩

/-- **The other declarations of a function get the type of its definition**, and agree with it
then. -/
theorem settles_updatePrototypes [Discipline] {v : Session} {funcDef : Node}
    (h : s.Signs N funcDef.key v.document) (hF : F ∈ v.document.root.preorder)
    (hk : F.key = funcDef.key) (hd : F.isA .funcDef)
    (hK : F.headName?.any s.flattenable.contains) (hf : ∀ T ∈ types, v.document.Fixes T) :
    v.Settles (Engine.updatePrototypes funcDef) fun _ t => s.Signs N none t.document ∧
      t.aggregates = v.aggregates ∧ t.decomposed = v.decomposed ∧
      ∀ T ∈ types, t.document.Fixes T := by
  obtain ⟨H, D, A, T, B, hp, hH, -⟩ := h.exists_prototype hF hd
  have hcur : v.document.current funcDef = F :=
    h.tidy.current_eq (Document.mem_trees_of_root hF) hk
  unfold Engine.updatePrototypes
  refine .get_bind ?_
  rw [hcur]
  have hfollow : s.Follow N types funcDef.key H D (v.prototypes F) v.document := by
    refine ⟨h, hp.headName? ▸ hK, ⟨F, hF, hk, A, T, B, hp⟩, fun n hn => ?_,
      fun y hy hyf hyn => ?_, hf⟩
    · obtain ⟨hn, hcond⟩ := List.mem_filter.mp hn
      obtain ⟨hnm, hnd⟩ := List.mem_filter.mp hn
      simp only [Bool.and_eq_true, beq_iff_eq, hp.child_decl, Bool.not_eq_true'] at hcond
      refine ⟨n, hnm, rfl, Bool.and_eq_true _ _ ▸ ⟨hnd, hcond.2⟩, hcond.1.1, ?_⟩
      rintro rfl
      obtain ⟨j, hj⟩ := h.tidy.woven.exists_key (Document.mem_trees_of_root hnm)
      simp [same, hj] at hcond
    · by_cases hyH : y = H
      · exact .inl (by rw [hyH, hp.child_type])
      · obtain ⟨hyd, hyt⟩ := Bool.and_eq_true _ _ ▸ hyf
        refine .inr ⟨y, List.mem_filter.mpr ⟨List.mem_filter.mpr ⟨hy, hyd⟩, ?_⟩, rfl⟩
        have hyk : y.key ≠ H.key := fun hyk => hyH (h.tidy.eq_of_key
          (Document.mem_trees_of_root hy) (Document.mem_trees_of_root hH) hyk)
        simp [hp.child_decl, hyn, hyt, same, hyk]
  refine (hfollow.settles_updateAll hs hone hty).mono ?_
  rintro - t' ⟨hr, ha, hd⟩
  exact ⟨hr.signs_nil, ha, hd, hr.fixed⟩

end Follow

end Session

end Fieldwise
