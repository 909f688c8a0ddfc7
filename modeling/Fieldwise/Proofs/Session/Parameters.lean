import Fieldwise.Proofs.Aggregate.Collecting
import Fieldwise.Proofs.Session.Finding
import Fieldwise.Proofs.Session.Propagating

/-!
# Parameters that are bindings

Which parameters of a definition are bindings does not change while others are replaced: those that
come from the replacement are of no aggregate type (`Session.aggregateOf?_eq_none`). So the
parameters that a session finds are those of the definitions at the start that are still there
(`Session.Signs.exists_parameter`, `Session.Signs.exists_finds`).
-/

namespace Fieldwise

open Node

namespace Node

variable {n t : Node}

/-! ### Names of base types -/

theorem typeDecl_copy (t : Node) : t.copy.typeDecl = t.typeDecl.copy := by
  fun_induction Node.typeDecl t with
  | case1 => rfl
  | case2 _ _ _ _ ih | case3 _ _ _ ih | case4 _ _ _ ih | case5 _ _ _ ih => exact ih
  | case6 t h₁ h₂ h₃ h₄ h₅ =>
    cases t with
    | absent => rfl
    | mk m f ps =>
      cases f
      all_goals first
        | rfl
        | exact (h₁ _ _ _ _ rfl).elim
        | (rcases ps with _ | ⟨p, _ | ⟨q, _ | ⟨r, ps⟩⟩⟩ <;> first
            | rfl
            | exact (h₂ _ _ _ _ rfl).elim
            | exact (h₃ _ _ _ rfl).elim
            | exact (h₄ _ _ _ rfl).elim
            | exact (h₅ _ _ _ rfl).elim)

theorem typeName?_copy (t : Node) : t.copy.typeName? = t.typeName? := by
  have hname : ∀ n : Node, n.copy.baseName? = n.baseName? := fun n => by
    cases n with
    | absent => rfl
    | mk m f ps => cases f <;> first | rfl | (rename_i tag _; cases tag <;> rfl)
  rw [typeName?, baseType, typeDecl_copy, child_copy, hname]
  rfl

theorem typeName?_setName (name : Option String) (t : Node) :
    (t.setName name).typeName? = t.typeName? := by
  fun_induction Node.setName name t with
  | case1 | case5 => rfl
  | case2 _ _ _ _ ih | case3 _ _ _ ih | case4 _ _ _ ih => exact ih

theorem typeName?_addQuals (more : List String) (t : Node) :
    (t.addQuals more).typeName? = t.typeName? := by
  fun_induction Node.addQuals more t with
  | case1 _ _ _ _ ih => exact ih
  | case2 m quals ps => rcases ps with _ | ⟨p, _ | ⟨q, ps⟩⟩ <;> rfl
  | case3 | case4 => rfl

theorem typeName?_elementType (t : Node) : t.elementType.typeName? = t.typeName? := by
  unfold elementType
  split <;> rfl

end Node

/-- The node above a node that can stand at one place only. -/
theorem Document.Sound.parent?_eq [Discipline] {d : Document} {P x : Node} (h : d.Sound)
    (hP : P ∈ d.root.preorder) (hx : x ∈ P.parts) (hs : x.isSole) : d.parent? x = some P := by
  obtain ⟨q, hq⟩ := h.exists_parent? (mem_preorder_of_part hP hx (isPresent_of_isSole hs)) rfl
    (h.root_key_ne hP hx)
  rw [hq, h.parent?_of_part hP hx hs hq]

/-- The type of a field variable is based on the type of the field. -/
theorem Binding.typeName?_fieldType {b : Binding} (f : Field) (ha : b.kind ≠ .array) :
    (b.fieldType f).typeName? = f.type.typeName? := by
  have hmember : ((f.type.rename (some (b.fieldName f))).addQuals b.type.baseQuals).typeName? =
      f.type.typeName? := by
    rw [typeName?_addQuals, rename, typeName?_setName, typeName?_copy]
  rw [fieldType]
  cases hk : b.kind with
  | value => exact hmember
  | pointer =>
    show (elementType _).typeName? = _
    rw [typeName?_elementType, hmember]
  | array => exact absurd hk ha

namespace Session

variable {s v : Session} {K N : List String} {F F' H D A T B decl scope x p : Node} {b b₀ : Binding}
  {known : List String}

/-! ### Aggregate types -/

/-- The type of a field is that of no aggregate, and neither are new types that are based on it. -/
theorem aggregateOf?_eq_none (hall : ∀ a ∈ s.aggregates, a.IsOf known s.document.root)
    (ht : s.document.Tidy) {a : Aggregate} (ha : a ∈ s.aggregates) {f : Field} (hf : f ∈ a.fields)
    {type : Node} (hname : type.typeName? = f.type.typeName?)
    (hnew : ∀ y ∈ type.preorder, ¬ IsOld s.document.next y) : s.aggregateOf? type = none := by
  refine List.find?_eq_none.mpr fun a' ha' h => ?_
  rcases Bool.or_eq_true_iff.mp h with h | h
  · simp only [same, Bool.and_eq_true, beq_iff_eq] at h
    obtain ⟨k, hk⟩ := Option.isSome_iff_exists.mp h.1
    refine hnew _ (baseType_mem (isPresent_of_key hk))
      (isOld_of_key (ht.bound a'.struct ?_) h.2.symm)
    exact Document.mem_trees_of_root (hall a' ha').struct
  · rw [hname] at h
    have := any_contains_mono (hall a' ha').names h
    rw [((hall a ha).fields f hf).foreign] at this
    cases this

/-! ### Verdicts -/

theorem verdict_eq_binding {a : Aggregate} {layers : List Layer} (hd : scope.isA .funcDef) :
    verdict decl a scope layers = .ok (.binding b) ↔
      ∃ kind, paramKind? layers = some kind ∧ b = { decl, aggregate := a, kind, scope } := by
  rcases layers with _ | ⟨l, _ | ⟨l', ls⟩⟩
  · simp [verdict, paramKind?, pure, Except.pure, eq_comm]
  · cases l <;> simp [verdict, paramKind?, hd, pure, Except.pure, eq_comm]
  · cases l <;> cases l' <;> cases ls <;> simp [verdict, paramKind?, pure, Except.pure]

/-- **Which parameters are bindings.** -/
theorem verdictOn_eq_binding (hd : decl.isA .decl) (hs : v.scopeOf? decl = some scope)
    (hf : scope.isA .funcDef) : v.verdictOn decl = .ok (.binding b) ↔ ∃ b₀,
      v.parameter? scope decl = some b₀ ∧
        b = { b₀ with aggregate := b₀.aggregate.refresh v.document } := by
  have hl : scope.isA .declList = false := isA_of_ne hf (by decide)
  unfold verdictOn parameter?
  cases hn : decl.name? with
  | none => simp [pure, Except.pure]
  | some name =>
    cases hlayers : (decl.child .type).layers with
    | none => simp [pure, Except.pure]
    | some layers =>
      cases ha : v.aggregateOf? (decl.child .type) with
      | none => simp [pure, Except.pure]
      | some a =>
        simp only [hs, hl, hf, hd, Bool.true_or]
        simpa [Option.bind_eq_some_iff] using verdict_eq_binding hf

theorem parameter?_congr (ha : v.aggregates = s.aggregates) (hb : v.parameter? F p = some b)
    (F' : Node) : s.parameter? F' p = some { b with scope := F' } := by
  obtain ⟨hd, hn, hagg, hk, heq⟩ := parameter?_eq_some.mp hb
  rw [aggregateOf?, ha] at hagg
  exact parameter?_eq_some.mpr ⟨hd, hn, hagg, hk, by rw [heq]⟩

variable [Discipline]

/-! ### Places of parameters -/

variable (h : v.Sound) (hF : F ∈ v.document.root.preorder) (hp : F.IsPrototype H D A T B)
include h hF hp

/-- The scope of a parameter is the definition. -/
theorem scopeOf?_param (hx : x ∈ A.parts) (hs : x.isSole) : v.scopeOf? x = some F := by
  have hA := isPresent_of_mem_parts hx
  have hHm := mem_preorder_of_part hF hp.head_mem (isPresent_of_isA hp.isA_decl)
  have hDm := mem_preorder_of_part hHm hp.declarator_mem (isPresent_of_isA hp.isA_funcDecl)
  have hAm := mem_preorder_of_part hDm hp.params_mem hA
  obtain ⟨k, hk⟩ := h.document.exists_key hHm
  have hsame : H.same H := by simp [same, hk]
  rw [scopeOf?, h.document.parent?_eq hAm hx hs]
  simp only [hp.isA_params hA, if_true, definitionOf?, Option.bind_eq_bind, Option.bind_some,
    h.document.parent?_eq hDm hp.params_mem
    (hp.isSole_params hA), h.document.parent?_eq hHm hp.declarator_mem hp.isSole_declarator,
    h.document.parent?_eq hF hp.head_mem hp.isSole_head, hp.isA_funcDef, hp.child_decl, hsame]
  rfl

/-- What a definition is the scope of is a parameter of it, unless it is the head. -/
theorem mem_params_of_scopeOf? (hx : x ∈ v.document.root.preorder) (hd : x.isA .decl)
    (hl : (x.child .type).layers.isSome) (hs : v.scopeOf? x = some F) : x ∈ A.parts := by
  have hds := h.document
  -- A part of a node that has the key of another node is that node.
  have hpart : ∀ {n P : Node}, n ∈ v.document.root.preorder → v.document.parent? n = some P →
      n ∈ P.parts := by
    intro n P hn hP
    obtain ⟨hPm, c, hc, hck, hkey⟩ := Document.of_parent? hP
    obtain ⟨k, hk⟩ := Option.isSome_iff_exists.mp hkey
    rwa [← hds.eq_of_key (mem_preorder_of_part hPm hc (isPresent_of_key (hck.trans hk))) hn hck]
  obtain ⟨parent, hparent, ⟨hlist, hdef⟩ | ⟨-, rfl⟩⟩ := scopeOf?_spec hs
  · obtain ⟨-, -, funcDecl, owner, hfd, how, -, hsame⟩ := definitionOf?_spec hdef
    have hHm := mem_preorder_of_part hF hp.head_mem (isPresent_of_isA hp.isA_decl)
    simp only [same, hp.child_decl, Bool.and_eq_true, beq_iff_eq] at hsame
    obtain rfl := hds.eq_of_key hHm (Document.of_parent? how).1 hsame.2
    have hfd' := hpart (Document.of_parent? hfd).1 how
    have hxA : x ∈ parent.parts := hpart hx hparent
    -- The parts of the head and of the declarator are as in a prototype.
    have hfD : funcDecl = D := by
      obtain ⟨mh, name, spec, hH⟩ := hp.head
      rw [hH] at hfd'
      simp only [parts, List.mem_cons, List.not_mem_nil, or_false] at hfd'
      have hfp := isPresent_of_mem_preorder (Document.of_parent? hfd).1
      rcases hfd' with rfl | rfl | rfl
      · rfl
      all_goals cases hfp
    subst hfD
    have hlistD := hpart (Document.of_parent? hparent).1 hfd
    have hlA : parent = A := by
      obtain ⟨md, hD⟩ := hp.declarator
      rw [hD] at hlistD
      simp only [parts, List.mem_cons, List.not_mem_nil, or_false] at hlistD
      refine hlistD.resolve_right ?_
      rintro rfl
      rw [hp.isA_type] at hlist
      cases hlist
    rwa [hlA] at hxA
  · have hxF := hpart hx hparent
    obtain ⟨m, hF'⟩ := hp.eq
    rw [hF'] at hxF
    simp only [parts, List.mem_cons, List.not_mem_nil, or_false] at hxF
    rcases hxF with rfl | rfl
    · rw [hp.child_type] at hl
      obtain ⟨md, rfl⟩ := hp.declarator
      cases hl
    · rw [isA_of_ne hp.body (by decide)] at hd
      cases hd

omit h hF hp

/-! ### Parameters of the definitions at the start -/

/-- A binding that is a parameter of a definition at the start. -/
structure IsParameter (s : Session) (b : Binding) (F : Node) (b₀ : Binding) : Prop where
  mem : F ∈ s.document.root.preorder
  definition : F.isA .funcDef
  item : b.decl ∈ itemsOf F
  scope : b.scope.key = F.key
  found : s.parameter? F b.decl = some b₀
  kind : b.kind = b₀.kind
  fields : b.aggregate.fields = b₀.aggregate.fields

variable {k : Option Nat} {types : List Node} (hs : s.document.Tidy)
  (hall : ∀ a ∈ s.aggregates, a.IsOf known s.document.root) (hsigns : s.Signs N k v.document)
  (ha : v.aggregates = s.aggregates)

omit [Discipline] in
include hs hall in
/-- What comes from the replacement of a parameter is of no aggregate type. -/
theorem Replaces.eq_of_aggregateOf? {d : Document} {g : List Node} (hr : s.Replaces d F p g)
    (hx : x ∈ g) (hagg : (s.aggregateOf? (x.child .type)).isSome) : x = p := by
  rcases hr with rfl | ⟨-, hb, hcopy, hnew⟩
  · exact List.mem_singleton.mp hx
  · exfalso
    obtain ⟨b, hb⟩ := Option.isSome_iff_exists.mp hb
    obtain ⟨-, -, ha, hk, -⟩ := parameter?_eq_some.mp hb
    rw [fieldParams, hb] at hcopy
    have hxc : x.copy ∈ b.fieldDecls.map copy := hcopy ▸ List.mem_map_of_mem hx
    obtain ⟨y, hy, hyx⟩ := List.mem_map.mp hxc
    obtain ⟨f, hf, rfl⟩ := List.mem_map.mp hy
    have hne : b.kind ≠ .array := fun hka => by
      obtain ⟨layers, -, hl⟩ := Option.bind_eq_some_iff.mp hk
      exact paramKind?_ne (hka ▸ hl)
    have hname : (x.child .type).typeName? = f.type.typeName? := by
      rw [← typeName?_copy, ← child_copy, ← hyx, child_copy, typeName?_copy]
      exact b.typeName?_fieldType f hne
    rw [aggregateOf?_eq_none hall hs (List.mem_of_find?_eq_some ha) hf hname fun y hy => hnew y
      (mem_preorderAll.mpr ⟨x, hx, mem_preorder_trans hy
        (child_mem_preorder (isPresent_of_preorder hy))⟩)] at hagg
    cases hagg

include hs hall hsigns ha in
/-- **The parameters that are bindings were so at the start.** -/
theorem Signs.exists_parameter (h : v.Sound) (hst : Steady K N types v)
    (hm : decl ∈ v.document.root.preorder) (hd : decl.isA .decl)
    (hv : v.verdictOn decl = .ok (.binding b)) (hp : b.isParam) :
    ∃ F b₀, s.IsParameter b F b₀ := by
  obtain ⟨rfl, -, hl, -, hscope, -, -⟩ := verdictOn_spec hv
  have hF : b.scope ∈ v.document.root.preorder := by
    obtain ⟨parent, hparent, ⟨-, hdef⟩ | ⟨-, rfl⟩⟩ := scopeOf?_spec hscope
    · exact (definitionOf?_spec hdef).1
    · exact (Document.of_parent? hparent).1
  obtain ⟨F, hFm, hFd, hsig⟩ := hsigns.defs _ hF hp
  obtain ⟨H, D, A, T, B, hproto⟩ := exists_isPrototype hsig.prototyped
  have hitem := mem_params_of_scopeOf? h hF hproto hm hd hl hscope
  obtain ⟨b₁, hb₁, hb⟩ := (verdictOn_eq_binding hd hscope hp).mp hv
  have hb₀ := parameter?_congr ha hb₁ F
  obtain ⟨-, -, hagg, -, -⟩ := parameter?_eq_some.mp hb₀
  refine ⟨F, _, hFm, hFd, ?_, hsig.key, hb₀, by rw [hb], ?_⟩
  · rw [← hproto.itemsOf] at hitem
    obtain ⟨blocks, hblocks, hblock⟩ := hsig.params
    obtain ⟨g, hg, hdg⟩ := List.mem_flatten.mp (hblocks ▸ hitem)
    obtain ⟨p, hp, hr⟩ := exists_of_block hblock hg
    rwa [hr.eq_of_aggregateOf? hs hall hdg (by rw [hagg]; rfl)]
  · obtain ⟨-, -, hagg₁, -, -⟩ := parameter?_eq_some.mp hb₁
    rw [hb]
    exact hst.fields_refresh h.document.tidy (List.mem_of_find?_eq_some hagg₁)

omit [Discipline] in
include hs hsigns in
/-- A parameter that has not been replaced is one of the definition still. -/
theorem Signs.exists_item (hF : F ∈ s.document.root.preorder) (hd : F.isA .funcDef)
    (hp : p ∈ itemsOf F) (hat : v.document.attached p) :
    ∃ F' ∈ v.document.root.preorder,
      F'.isA .funcDef ∧ s.Signed v.document F F' ∧ p ∈ itemsOf F' := by
  obtain ⟨F', hF', hd', hk⟩ := hsigns.kept F hF hd
  obtain ⟨F₁, hF₁, -, hsig⟩ := hsigns.defs F' hF' hd'
  obtain rfl := hs.eq_of_key (Document.mem_trees_of_root hF₁) (Document.mem_trees_of_root hF)
    (hsig.key.symm.trans hk)
  obtain ⟨blocks, hblocks, hblock⟩ := hsig.params
  obtain ⟨g, hg, rfl | ⟨hgone, -⟩⟩ := exists_block hblock hp
  · exact ⟨F', hF', hd', hsig, hblocks ▸ List.mem_flatten.mpr ⟨_, hg, List.mem_singleton_self p⟩⟩
  · rw [hgone] at hat
    cases hat

include hs hall hsigns ha in
/-- **A parameter that can be decomposed is a binding**, as long as it has not been replaced. -/
theorem Signs.exists_finds (h : v.Sound) (hF : F ∈ s.document.root.preorder) (hd : F.isA .funcDef)
    (hp : p ∈ itemsOf F) (hb : s.parameter? F p = some b₀) (hat : v.document.attached p) :
    p ∈ v.document.root.preorder ∧ ∃ b, b.decl = p ∧ b.isParam ∧ v.Finds b₀.aggregate p b := by
  obtain ⟨F', hF', hd', hsig, hpF'⟩ := hsigns.exists_item hs hF hd hp hat
  obtain ⟨H, D, A, T, B, hproto⟩ := exists_isPrototype hsig.prototyped
  obtain ⟨hpd, -, hagg, -, -⟩ := parameter?_eq_some.mp hb
  have hb' := parameter?_congr (s := v) (v := s) ha.symm hb F'
  have hscope := scopeOf?_param h hF' hproto (hproto.itemsOf ▸ hpF') (isSole_of_isA hpd rfl)
  refine ⟨mem_preorder_trans (mem_preorder_of_itemsOf hpF' (isPresent_of_isA hpd)) hF', _,
    ?_, ?_, ?_,
    (verdictOn_eq_binding hpd hscope hd').mpr ⟨_, hb', rfl⟩⟩
  · exact (parameter?_eq_some.mp hb').2.2.2.2 ▸ rfl
  · exact (parameter?_eq_some.mp hb').2.2.2.2 ▸ hd'
  · have hmem := List.mem_of_find?_eq_some hagg
    obtain ⟨k, hk⟩ := hs.woven.exists_key (Document.mem_trees_of_root (hall _ hmem).struct)
    rw [aggregateOf?, ha, ← aggregateOf?, hagg, Option.any_some, Aggregate.same, same, hk]
    simp

end Session

end Fieldwise
