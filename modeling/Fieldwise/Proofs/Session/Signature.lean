import Fieldwise.Proofs.Session.Redeclaring
import Mathlib.Data.List.Forall2
import Mathlib.Data.List.Nodup

/-!
# Signatures of functions

What the parameters of a function become (`Session.fieldParams`), and how far that has been done in
a document (`Session.Signed`): each parameter is there still, or its block of parameters for the
fields is.
-/

namespace Fieldwise

open Node

variable {K N : List String} {b c : Binding} {f : Field}

namespace Node

variable {n x F H D A T B : Node}

/-! ### Definitions in prototype style -/

/-- Whether a node is a function definition in prototype style: the declaration of a name with a
list of parameters, if there is one, and with a type, and then a block. -/
def isPrototyped : Node → Bool
  | mk _ .funcDef [mk _ (.decl (some _) _) [mk _ .funcDecl [params, type], absent, absent],
      mk _ .compound _] => (params.isA .paramList || !params.isPresent) && type.typeDecl.isPresent
  | _ => false

/-- A function definition in prototype style, with its head, the declarator of the function, the
list of parameters, the type and the body. -/
structure IsPrototype (F H D A T B : Node) : Prop where
  eq : ∃ m, F = mk m .funcDef [H, B]
  head : ∃ m name spec, H = mk m (.decl (some name) spec) [D, absent, absent]
  declarator : ∃ m, D = mk m .funcDecl [A, T]
  params : A.isA .paramList ∨ A = absent
  type : T.typeDecl.isPresent
  body : B.isA .compound

theorem exists_isPrototype (h : F.isPrototyped) : ∃ H D A T B, F.IsPrototype H D A T B := by
  unfold isPrototyped at h
  split at h
  · rename_i m m' name spec m'' params type mb ps
    rw [Bool.and_eq_true, Bool.or_eq_true] at h
    refine ⟨_, _, _, _, _, ⟨m, rfl⟩, ⟨m', name, spec, rfl⟩, ⟨m'', rfl⟩, h.1.imp_right fun hp => ?_,
      h.2, rfl⟩
    cases params with
    | absent => rfl
    | mk => cases hp
  · cases h

namespace IsPrototype

variable (h : F.IsPrototype H D A T B)
include h

theorem isPrototyped : F.isPrototyped := by
  obtain ⟨⟨m, rfl⟩, ⟨m', name, spec, rfl⟩, ⟨m'', rfl⟩, hp, ht, hb⟩ := h
  cases B with
  | absent => cases hb
  | mk mb f ps =>
    have hf : f.cls = .compound := by simpa [isA, cls?, form?] using hb
    cases f with
    | compound =>
      rw [Node.isPrototyped, Bool.and_eq_true, Bool.or_eq_true]
      exact ⟨hp.imp_right fun hA => by rw [hA]; rfl, ht⟩
    | _ => cases hf

theorem child_decl : F.child .decl = H := by
  obtain ⟨m, rfl⟩ := h.eq
  rfl

theorem child_type : H.child .type = D := by
  obtain ⟨m, name, spec, rfl⟩ := h.head
  rfl

theorem child_args : D.child .args = A := by
  obtain ⟨m, rfl⟩ := h.declarator
  rfl

theorem isA_funcDef : F.isA .funcDef := by
  obtain ⟨m, rfl⟩ := h.eq
  rfl

theorem isA_decl : H.isA .decl := by
  obtain ⟨m, name, spec, rfl⟩ := h.head
  rfl

theorem isA_funcDecl : D.isA .funcDecl := by
  obtain ⟨m, rfl⟩ := h.declarator
  rfl

theorem declaresFunction : H.declaresFunction := by
  rw [Node.declaresFunction, h.child_type, h.isA_decl, h.isA_funcDecl]
  rfl

theorem headName? : F.headName? = H.name? := by
  rw [Node.headName?, if_pos h.isA_funcDef, h.child_decl]

theorem isSome_headName? : F.headName?.isSome := by
  obtain ⟨m, name, spec, hH⟩ := h.head
  rw [h.headName?, hH]
  rfl

/-- The parameters are the items of the definition. -/
theorem itemsOf : Session.itemsOf F = A.parts := by
  obtain ⟨⟨m, rfl⟩, -, -, hp, -⟩ := id h
  have hitems : A.items = A.parts := by
    rcases hp with hp | rfl
    · cases A with
      | absent => rfl
      | mk m f ps =>
        have hf : f.cls = .paramList := by simpa [isA, cls?, form?] using hp
        rw [items, hf]
        rfl
    · rfl
  rw [Session.itemsOf, h.child_type, if_pos h.isA_funcDecl, h.child_args, hitems]

theorem head_mem : H ∈ F.parts := by
  obtain ⟨m, rfl⟩ := h.eq
  exact List.mem_cons_self

theorem declarator_mem : D ∈ H.parts := by
  obtain ⟨m, name, spec, rfl⟩ := h.head
  exact List.mem_cons_self

theorem params_mem : A ∈ D.parts := by
  obtain ⟨m, rfl⟩ := h.declarator
  exact List.mem_cons_self

theorem type_mem : T ∈ D.parts := by
  obtain ⟨m, rfl⟩ := h.declarator
  exact List.mem_cons_of_mem _ List.mem_cons_self

/-- The head is its own node, with the declarator below it. -/
theorem mem_head : x ∈ H.preorder ↔ x = H ∨ x ∈ D.preorder := by
  obtain ⟨m, name, spec, rfl⟩ := h.head
  rw [mem_preorder_mk]
  refine or_congr_right ⟨fun ⟨c, hc, hx⟩ => ?_, fun hx => ⟨D, List.mem_cons_self, hx⟩⟩
  simp only [List.mem_cons, List.not_mem_nil, or_false] at hc
  rcases hc with rfl | rfl | rfl
  · exact hx
  all_goals cases hx

theorem isSole_head : H.isSole := by
  obtain ⟨m, name, spec, rfl⟩ := h.head
  rfl

theorem isSole_declarator : D.isSole := by
  obtain ⟨m, rfl⟩ := h.declarator
  rfl

theorem isA_params (hA : A.isPresent) : A.isA .paramList :=
  h.params.resolve_right fun ha => by
    rw [ha] at hA
    cases hA

theorem isSole_params (hA : A.isPresent) : A.isSole := isSole_of_isA (h.isA_params hA) rfl

/-- The type is no list of parameters. -/
theorem isA_type : T.isA .paramList = false := by
  have ht := h.type
  cases T with
  | absent => rfl
  | mk m f ps => cases f with
    | paramList => cases ht
    | _ => rfl

/-- The parameters are not in the type. -/
theorem params_not_mem_type {ts : List Node} (ht : Woven ts) (hD : D ∈ preorderAll ts)
    (hA : A.isPresent) : A ∉ T.preorder := by
  intro hm
  have hk : Knit [A, T] := by
    have hk := ht.parts hD
    obtain ⟨m, rfl⟩ := h.declarator
    exact hk
  rcases (mem_preorder_iff (isPresent_of_preorder hm)).mp hm with rfl | hm
  · exact absurd (h.isA_params hA) (by simp [h.isA_type])
  · obtain ⟨q, hq, hc⟩ := exists_parent_of_mem hm
    exact hk.top A List.mem_cons_self (h.isSole_params hA) q
      (mem_preorderAll.mpr ⟨T, List.mem_cons_of_mem _ List.mem_cons_self, hq⟩) A hc rfl

end IsPrototype

/-- Whether functions are defined once. -/
def DefinesOnce (root : Node) : Prop := ((root.ofClass .funcDef).map headName?).Nodup

instance (root : Node) : Decidable root.DefinesOnce := inferInstanceAs (Decidable (List.Nodup _))

theorem DefinesOnce.eq {root G : Node} (h : root.DefinesOnce) (hF : F ∈ root.preorder)
    (hG : G ∈ root.preorder) (hd : F.isA .funcDef) (hd' : G.isA .funcDef)
    (hn : F.headName? = G.headName?) : F = G :=
  List.inj_on_of_nodup_map h (List.mem_filter.mpr ⟨hF, hd⟩) (List.mem_filter.mpr ⟨hG, hd'⟩) hn

/-! ### Plain types -/

theorem isPlain_setName (name : Option String) (h : n.isPlain K N) :
    (n.setName name).isPlain K N := by
  fun_induction Node.setName name n with
  | case1 | case2 _ _ _ _ ih | case3 _ _ _ ih | case4 _ _ _ ih =>
    rw [isPlain_declarator rfl] at h ⊢
    simp_all
  | case5 => exact h

theorem isPlain_rename (h : n.isPlain K N) (name : Option String) : (n.rename name).isPlain K N :=
  isPlain_setName name (by rwa [isPlain_copy])

theorem isPlain_addQuals (more : List String) (h : n.isPlain K N) :
    (n.addQuals more).isPlain K N := by
  fun_induction Node.addQuals more n with
  | case1 _ _ _ _ ih =>
    rw [isPlain_declarator rfl] at h ⊢
    simp_all
  | case2 | case3 =>
    rw [isPlain_declarator rfl] at h ⊢
    exact h
  | case4 => exact h

theorem isPlain_elementType (h : n.isPlain K N) : n.elementType.isPlain K N := by
  unfold elementType
  split
  · exact isPlain_of_mem_parts h List.mem_cons_self
  · exact h

end Node

/-! ### What parameters become -/

/-- The declarations of field variables depend on the declaration and the fields, and for parameters
on nothing else. -/
theorem Binding.fieldDecls_congr (hd : b.decl = c.decl) (hk : b.kind = c.kind)
    (hf : b.aggregate.fields = c.aggregate.fields) (hb : b.isParam) (hc : c.isParam)
    (ha : b.kind ≠ .array) : b.fieldDecls = c.fieldDecls := by
  have hname : ∀ f, b.fieldName f = c.fieldName f := fun f => by
    rw [fieldName, fieldName, name, name, hd]
  have htype : b.type = c.type := by rw [type, type, hd]
  rw [fieldDecls, fieldDecls, hf]
  refine List.map_congr_left fun f _ => ?_
  have hft : b.fieldType f = c.fieldType f := by
    rw [fieldType, fieldType, ← hk, htype, hname f]
    cases hkind : b.kind with
    | array => exact absurd hkind ha
    | value => rfl
    | pointer => rfl
  rw [fieldDecl, fieldDecl, hname f, hft, if_pos hb, if_pos hc]

/-- The field variables of plain types are plain, unless they are arrays. -/
theorem Binding.isPlain_fieldDecls (hf : ∀ f ∈ b.aggregate.fields, f.type.isPlain K N)
    (hq : b.TakesQuals) (ha : b.kind ≠ .array) : ∀ x ∈ b.fieldDecls, x.isPlain K N := by
  intro x hx
  obtain ⟨f, hfm, rfl⟩ := List.mem_map.mp hx
  have hmember : ((f.type.rename (some (b.fieldName f))).addQuals b.type.baseQuals).isPlain K N :=
    isPlain_addQuals _ (isPlain_rename (hf f hfm) _)
  have hcls : ((f.type.rename (some (b.fieldName f))).addQuals b.type.baseQuals).isA .funcDecl =
      false := by
    rw [isA, cls?_addQuals, rename, cls?_setName, cls?_copy, ← isA,
      func_of_takesQuals (hq f hfm)]
  have htype : (b.fieldType f).isPlain K N ∧ (b.fieldType f).isA .funcDecl = false := by
    rw [fieldType]
    cases hk : b.kind with
    | value => exact ⟨hmember, hcls⟩
    | pointer =>
      refine ⟨(isPlain_declarator rfl).mpr fun p hp => ?_, rfl⟩
      rw [List.mem_singleton.mp hp]
      exact isPlain_elementType hmember
    | array => exact absurd hk ha
  rw [fieldDecl, isPlain_mk]
  refine ⟨⟨fun h => ?_, rfl, rfl, fun h => (Bool.false_ne_true h).elim⟩, fun p hp => ?_⟩
  · have hfunc : (b.fieldType f).isA .funcDecl := (Bool.and_eq_true _ _ ▸ h).2
    rw [htype.2] at hfunc
    cases hfunc
  · simp only [List.mem_cons, List.not_mem_nil, or_false] at hp
    rcases hp with rfl | rfl | rfl
    · exact htype.1
    all_goals exact isPlain_absent

namespace Session

/-- What a parameter with these declarators around an aggregate is: an object, or a pointer, as an
array is one. -/
def paramKind? : List Layer → Option Kind
  | [] => some .value
  | [_] => some .pointer
  | _ => none

/-- The binding that a parameter of a function definition is, if it has an aggregate type and can be
decomposed. -/
def parameter? (s : Session) (funcDef p : Node) : Option Binding :=
  if p.isA .decl && p.name?.isSome then do
    let aggregate ← s.aggregateOf? (p.child .type)
    let kind ← (p.child .type).layers.bind paramKind?
    return { decl := p, aggregate, kind, scope := funcDef }
  else none

theorem parameter?_eq_some {s : Session} {F p : Node} : s.parameter? F p = some b ↔ p.isA .decl ∧
    p.name?.isSome ∧ s.aggregateOf? (p.child .type) = some b.aggregate ∧
      (p.child .type).layers.bind paramKind? = some b.kind ∧
        b = { decl := p, aggregate := b.aggregate, kind := b.kind, scope := F } := by
  simp only [parameter?, Option.bind_eq_bind, Option.pure_def, Option.ite_none_right_eq_some,
    Option.bind_eq_some_iff, Bool.and_eq_true, and_assoc]
  refine and_congr_right fun _ => and_congr_right fun _ => ⟨?_, fun ⟨ha, hk, hb⟩ =>
    ⟨_, ha, _, hk, by rw [hb]⟩⟩
  rintro ⟨a, ha, kind, hk, hb⟩
  obtain rfl := Option.some.inj hb
  exact ⟨ha, hk, rfl⟩

theorem paramKind?_ne {layers : List Layer} : paramKind? layers ≠ some .array := by
  rcases layers with _ | ⟨l, _ | ⟨l', ls⟩⟩ <;> simp [paramKind?]

/-- What a parameter of a function definition becomes: the parameters for its fields, or what it
is. -/
def fieldParams (s : Session) (funcDef p : Node) : List Node :=
  match s.parameter? funcDef p with
  | some b => b.fieldDecls
  | none => [p]

/-- The names of the functions with parameters that can be decomposed. -/
def flattenable (s : Session) : List String :=
  ((s.document.root.ofClass .funcDef).filter fun F => (itemsOf F).any fun p =>
    (s.parameter? F p).isSome).filterMap headName?

theorem headName?_flattenable {s : Session} {p : Node} (hF : F ∈ s.document.root.preorder)
    (hd : F.isA .funcDef) (hn : F.headName?.isSome) (hp : p ∈ itemsOf F)
    (hsome : (s.parameter? F p).isSome) : F.headName?.any s.flattenable.contains := by
  obtain ⟨name, hname⟩ := Option.isSome_iff_exists.mp hn
  rw [hname, Option.any_some, List.contains_iff_mem, flattenable, List.mem_filterMap]
  exact ⟨F, List.mem_filter.mpr ⟨List.mem_filter.mpr ⟨hF, hd⟩, List.any_eq_true.mpr ⟨p, hp, hsome⟩⟩,
    hname⟩

/-- The list of parameters of a function definition. -/
def paramsOf (funcDef : Node) : Node := ((funcDef.child .decl).child .type).child .args

/-- A block of parameters that is what a parameter is or has become: itself, or parameters for its
fields that are new since the session was like this. -/
def Replaces (s : Session) (d : Document) (F p : Node) (g : List Node) : Prop :=
  g = [p] ∨ d.attached p = false ∧ (s.parameter? F p).isSome ∧
    g.map copy = (s.fieldParams F p).map copy ∧ ∀ y ∈ preorderAll g, ¬ IsOld s.document.next y

/-- A definition `F'` in a document that is the definition `F` of a session in which some parameters
were replaced. -/
structure Signed (s : Session) (d : Document) (F F' : Node) : Prop where
  key : F'.key = F.key
  prototyped : F'.isPrototyped
  name : F'.headName? = F.headName?
  list : (paramsOf F').key = (paramsOf F).key
  params : ∃ blocks, itemsOf F' = blocks.flatten ∧ List.Forall₂ (s.Replaces d F) (itemsOf F) blocks

end Session

theorem Node.IsPrototype.paramsOf {F H D A T B : Node} (h : F.IsPrototype H D A T B) :
    Session.paramsOf F = A := by
  rw [Session.paramsOf, h.child_decl, h.child_type, h.child_args]

/-! ### Blocks in a row -/

section Blocks

variable {α : Type} {R R' : α → List α → Prop} {ps us vs g' : List α} {gs : List (List α)} {x : α}

/-- What relates to the blocks relates to them in another way, if each element does so with its
block. -/
theorem forall₂_of_mem (h : List.Forall₂ R ps gs) (hR : ∀ p ∈ ps, ∀ g ∈ gs, R p g → R' p g) :
    List.Forall₂ R' ps gs := by
  induction h with
  | nil => exact .nil
  | cons hpg _ ih =>
    exact .cons (hR _ List.mem_cons_self _ List.mem_cons_self hpg) (ih fun p hp g hg =>
      hR p (List.mem_cons_of_mem _ hp) g (List.mem_cons_of_mem _ hg))

/-- An element has its block. -/
theorem exists_block {β : Type} {R : α → β → Prop} {gs : List β} (h : List.Forall₂ R ps gs)
    (hx : x ∈ ps) : ∃ g ∈ gs, R x g := by
  induction h with
  | nil => cases hx
  | cons hpg _ ih =>
    rcases List.mem_cons.mp hx with rfl | hx
    · exact ⟨_, List.mem_cons_self, hpg⟩
    · obtain ⟨g, hg, hr⟩ := ih hx
      exact ⟨g, List.mem_cons_of_mem _ hg, hr⟩

/-- A block is that of an element. -/
theorem exists_of_block {β : Type} {R : α → β → Prop} {gs : List β} {g : β}
    (h : List.Forall₂ R ps gs) (hg : g ∈ gs) : ∃ x ∈ ps, R x g :=
  exists_block (R := flip R) h.flip hg

/-- What relates to the blocks without an element relates to all of them, if none has it. -/
theorem forall₂_of_not_mem (h : List.Forall₂ R ps gs) (hx : x ∉ gs.flatten)
    (hR : ∀ p g, R p g → x ∉ g → R' p g) : List.Forall₂ R' ps gs :=
  forall₂_of_mem h fun p _ g hg hr => hR p g hr fun hxg => hx (List.mem_flatten.mpr ⟨g, hg, hxg⟩)

/-- In a row of blocks the one that has an element gives way to another one. -/
theorem exists_flatten_of_mem (h : List.Forall₂ R ps gs) (hs : gs.flatten = us ++ x :: vs)
    (hu : x ∉ us) (hv : x ∉ vs) (hx : ∀ p g, R p g → x ∈ g → g = [x] ∧ R' p g')
    (hR : ∀ p g, R p g → x ∉ g → R' p g) :
    ∃ gs' : List (List α), gs'.flatten = us ++ g' ++ vs ∧ List.Forall₂ R' ps gs' := by
  induction h generalizing us with
  | nil => cases us <;> cases hs
  | @cons p g ps gs hpg hpgs ih =>
    rw [List.flatten_cons] at hs
    -- The element is in the blocks after the first.
    have hlater : ∀ ws, x ∉ ws → x ∉ g → gs.flatten = ws ++ x :: vs → us = g ++ ws →
        ∃ gs' : List (List α), gs'.flatten = us ++ g' ++ vs ∧ List.Forall₂ R' (p :: ps) gs' := by
      rintro ws hw hg hrest rfl
      obtain ⟨gs', hgs', hall⟩ := ih hrest hw
      exact ⟨g :: gs', by simp [hgs'], .cons (hR p g hpg hg) hall⟩
    by_cases hxg : x ∈ g
    · obtain ⟨rfl, hg'⟩ := hx p g hpg hxg
      cases us with
      | nil =>
        obtain rfl : gs.flatten = vs := by simpa using hs
        exact ⟨g' :: gs, rfl, .cons hg' (forall₂_of_not_mem hpgs hv hR)⟩
      | cons y us =>
        obtain ⟨rfl, -⟩ : x = y ∧ _ := by simpa using hs
        exact absurd List.mem_cons_self hu
    · rcases List.append_eq_append_iff.mp hs with ⟨ws, rfl, hs'⟩ | ⟨ws, rfl, hs'⟩
      · exact hlater ws (fun hw => hu (List.mem_append_right _ hw)) hxg hs' rfl
      · cases ws with
        | nil => exact hlater [] List.not_mem_nil hxg hs'.symm (by simp)
        | cons y ws =>
          obtain ⟨rfl, -⟩ : x = y ∧ _ := by simpa using hs'
          simp at hxg

end Blocks

end Fieldwise
