import Fieldwise.Proofs.Session.Parameters
import Fieldwise.Proofs.Session.Recording

/-!
# Replacements of parameters

A parameter gives way to those for its fields, its uses are rewritten, and the other declarations of
the function get its type (`Session.Underway.settles_decomposeParam`).
-/

namespace Fieldwise

open Node

/-- The types of the fields of all aggregates. -/
def Session.fieldTypes (s : Session) : List Node :=
  s.aggregates.flatMap fun a => (a.fields.map (·.type)).filter isPresent

namespace Session

variable {s v t : Session} {N known : List String} {u : Subject} {b b₀ : Binding}
  {F F' H D A T B : Node} {k : Option Nat}

theorem mem_fieldTypes : T ∈ s.fieldTypes ↔
    T.isPresent ∧ ∃ a ∈ s.aggregates, ∃ f ∈ a.fields, f.type = T := by
  simp only [fieldTypes, List.mem_flatMap, List.mem_filter, List.mem_map]
  exact ⟨fun ⟨a, ha, hf, hp⟩ => ⟨hp, a, ha, hf⟩, fun ⟨hp, a, ha, hf⟩ => ⟨a, ha, hf, hp⟩⟩

theorem mem_fieldTypes_preorder (hall : ∀ a ∈ s.aggregates, a.IsOf known s.document.root)
    (h : T ∈ s.fieldTypes) : T ∈ s.document.root.preorder := by
  obtain ⟨hp, a, ha, f, hf, rfl⟩ := mem_fieldTypes.mp h
  obtain ⟨m, spec, rest, hm⟩ := (hall a ha).exists_member hf
  exact mem_preorder_of_part hm List.mem_cons_self hp

/-! ### Lists of parameters and types of fields -/

/-- The type of a field is that of a member of a struct, and so not that of a definition. -/
theorem fieldType_ne_declarator (hs : s.document.Tidy)
    (hall : ∀ a ∈ s.aggregates, a.IsOf known s.document.root)
    (hF : F ∈ s.document.root.preorder) (hp : F.IsPrototype H D A T B) : D ∉ s.fieldTypes := by
  intro ht
  have htrees : ∀ {n}, n ∈ s.document.root.preorder → n ∈ preorderAll s.document.trees :=
    Document.mem_trees_of_root
  obtain ⟨-, a, ha, f, hf, rfl⟩ := mem_fieldTypes.mp ht
  obtain ⟨m, spec, rest, hm⟩ := ((hall a ha).fields f hf).member
  have hstruct := (hall a ha).struct
  have hmp := mem_parts_of_mem_items hm
  have hH := mem_preorder_of_part hF hp.head_mem (isPresent_of_isA hp.isA_decl)
  -- The member has the type for itself, and the struct has the member.
  have hmember := hs.eq_of_key (htrees (mem_preorder_of_part hstruct hmp rfl)) (htrees hH)
    (hs.woven.sole _ (htrees (mem_preorder_of_part hstruct hmp rfl)) H (htrees hH) f.type
      List.mem_cons_self f.type hp.declarator_mem hp.isSole_declarator rfl)
  have howner := hs.eq_of_key (htrees hstruct) (htrees hF)
    (hs.woven.sole _ (htrees hstruct) F (htrees hF) _ hmp H hp.head_mem
      (hmember ▸ hp.isSole_head) (by rw [hmember]))
  obtain ⟨mF, rfl⟩ := hp.eq
  rw [howner] at hm
  cases hm

/-- The type of a field is that of a declaration, and so no list of parameters. -/
theorem fieldType_key_ne (hs : s.document.Tidy)
    (hall : ∀ a ∈ s.aggregates, a.IsOf known s.document.root)
    (hF : F ∈ s.document.root.preorder) (hp : F.IsPrototype H D A T B) (hA : A.isPresent)
    {type : Node} (ht : type ∈ s.fieldTypes) : type.key ≠ A.key := by
  intro hk
  have htrees : ∀ {n}, n ∈ s.document.root.preorder → n ∈ preorderAll s.document.trees :=
    Document.mem_trees_of_root
  obtain ⟨-, a, ha, f, hf, rfl⟩ := mem_fieldTypes.mp ht
  obtain ⟨m, spec, rest, hm⟩ := (hall a ha).exists_member hf
  have hDm := mem_preorder_of_part
    (mem_preorder_of_part hF hp.head_mem (isPresent_of_isA hp.isA_decl))
    hp.declarator_mem (isPresent_of_isA hp.isA_funcDecl)
  have hDk := hs.woven.sole _ (htrees hm) D (htrees hDm) f.type List.mem_cons_self A hp.params_mem
  obtain ⟨j, hj⟩ := hs.woven.exists_key (htrees (mem_preorder_of_part hDm hp.params_mem hA))
  have htype := hs.eq_of_key (htrees (mem_preorder_of_part hm List.mem_cons_self
    (isPresent_of_key (hk.trans hj)))) (htrees (mem_preorder_of_part hDm hp.params_mem hA)) hk
  have hD := hs.eq_of_key (htrees hm) (htrees hDm) (hDk (htype ▸ hp.isSole_params hA) hk)
  have := hp.isA_funcDecl
  rw [← hD] at this
  cases this

/-- **The list of parameters of a definition is in no type of a field.** -/
theorem Signs.params_not_mem_fieldType (h : s.Signs N k v.document) (h₀ : s.Signs N none s.document)
    (hall : ∀ a ∈ s.aggregates, a.IsOf known s.document.root)
    (hst : Steady s.flattenable N s.fieldTypes v) (hF : F ∈ v.document.root.preorder)
    (hp : F.IsPrototype H D A T B) (hK : F.headName?.any s.flattenable.contains)
    (hA : A.isPresent) {type : Node} (ht : type ∈ s.fieldTypes) : A ∉ type.preorder := by
  intro hm
  obtain ⟨hty, hplain⟩ := hst.types type ht
  have htrees : ∀ {n}, n ∈ v.document.root.preorder → n ∈ preorderAll v.document.trees :=
    Document.mem_trees_of_root
  have hH := mem_preorder_of_part hF hp.head_mem (isPresent_of_isA hp.isA_decl)
  have hD := mem_preorder_of_part hH hp.declarator_mem (isPresent_of_isA hp.isA_funcDecl)
  -- The list has been the list of a definition from the start.
  obtain ⟨F₀, hF₀, hd₀, hsig⟩ := h.defs F hF hp.isA_funcDef
  obtain ⟨H₀, D₀, A₀, T₀, B₀, hp₀, hH₀, -⟩ := h₀.exists_prototype hF₀ hd₀
  have hk := hsig.list
  rw [hp.paramsOf, hp₀.paramsOf] at hk
  obtain ⟨j, hj⟩ := h.tidy.woven.exists_key
    (htrees (mem_preorder_of_part hD hp.params_mem hA))
  have hA₀ := isPresent_of_key (hk.symm.trans hj)
  rcases h.tidy.eq_or_mem_of_part (htrees hD) hp.params_mem (hp.isSole_params hA) hty hm with
    rfl | hm
  · exact fieldType_key_ne h₀.tidy hall hF₀ hp₀ hA₀ ht hk
  · rcases h.tidy.eq_or_mem_of_part (htrees hH) hp.declarator_mem hp.isSole_declarator hty hm with
      rfl | hm
    · -- The type of a field has been what it is, too.
      have hD₀ := mem_preorder_of_part hH₀ hp₀.declarator_mem (isPresent_of_isA hp₀.isA_funcDecl)
      have htype := Document.mem_trees_of_root (mem_fieldTypes_preorder hall ht)
      have hself := h₀.tidy.eq_of_key htype (Document.mem_trees_of_root hD₀)
        (h₀.tidy.woven.sole D htype D₀ (Document.mem_trees_of_root hD₀) A hp.params_mem A₀
          hp₀.params_mem (hp.isSole_params hA) hk)
      exact fieldType_ne_declarator h₀.tidy hall hF₀ hp₀ (hself ▸ ht)
    · have hother := (isPlain_iff.mp hplain H hm).1 hp.declaresFunction
      rw [← hp.headName?, hK] at hother
      cases hother

/-! ### Parameters of definitions -/

namespace IsParameter

variable (h : s.IsParameter b F b₀)
include h

theorem kind_ne : b.kind ≠ .array := by
  obtain ⟨-, -, -, hk, -⟩ := parameter?_eq_some.mp h.found
  obtain ⟨layers, -, hl⟩ := Option.bind_eq_some_iff.mp hk
  rw [h.kind]
  exact fun hka => paramKind?_ne (hka ▸ hl)

theorem aggregate_mem : b₀.aggregate ∈ s.aggregates :=
  List.mem_of_find?_eq_some (parameter?_eq_some.mp h.found).2.2.1

theorem isTyped : b.IsTyped s.fieldTypes := fun f hf hp =>
  mem_fieldTypes.mpr ⟨hp, b₀.aggregate, h.aggregate_mem, f, h.fields ▸ hf, rfl⟩

/-- The parameters for the fields of the binding are what the parameter becomes. -/
theorem fieldDecls (hp : b.isParam) : b.fieldDecls = s.fieldParams F b.decl := by
  obtain ⟨-, -, -, -, hb⟩ := parameter?_eq_some.mp h.found
  have hp₀ : b₀.isParam := hb ▸ h.definition
  rw [fieldParams, h.found]
  exact Binding.fieldDecls_congr (hb ▸ rfl) h.kind h.fields hp hp₀ h.kind_ne

/-- The binding is the same later on, while its parameter is there. -/
theorem refresh (hst : Steady s.flattenable N s.fieldTypes v) (ht : v.document.Tidy)
    (hm : b.decl ∈ v.document.root.preorder) : s.IsParameter (b.refresh v.document) F b₀ := by
  have hdecl : (b.refresh v.document).decl = b.decl :=
    ht.current_eq (Document.mem_trees_of_root hm) rfl
  refine ⟨h.mem, h.definition, hdecl ▸ h.item, (Document.key_current _ _).trans h.scope,
    hdecl ▸ h.found, h.kind, ?_⟩
  refine (List.map_congr_left fun f hf => ?_).trans ((List.map_id _).trans h.fields)
  rw [hst.current ht (h.isTyped f hf)]
  rfl

end IsParameter

/-! ### One parameter -/

/-- How far the signatures of a session were replaced in another one. -/
structure Underway (s : Session) (N : List String) (busy : Option Nat) (v : Session) : Prop where
  signs : s.Signs N busy v.document
  steady : Steady s.flattenable N s.fieldTypes v
  aggregates : v.aggregates = s.aggregates

namespace Underway

theorem isPlain (h : s.Underway N k v) : ∀ T ∈ s.fieldTypes, T.isPlain s.flattenable N :=
  fun T hT => (h.steady.types T hT).2

/-- After edits around the uses and declarations of names. -/
theorem redrawn (h : s.Underway N k v) (hs : s.document.Tidy) (hr : Redrawn N s.fieldTypes v t)
    (hc : Document.Continues v.document t.document) : s.Underway N k t where
  signs := h.signs.redraws hs h.isPlain hr.redraws
  steady := h.steady.redrawn h.signs.tidy hr fun T hT => hc.alive T (h.steady.types T hT).1
  aggregates := hr.aggregates.trans h.aggregates

end Underway

variable [Discipline] (hl : Discipline.IsLax) (h₀ : s.Signs N none s.document)
  (hone : s.document.root.DefinesOnce) (hall : ∀ a ∈ s.aggregates, a.IsOf known s.document.root)
  (hw : Within u v) (h : s.Underway N none v) (hpar : s.IsParameter b F b₀) (hp : b.isParam)
  (hb : v.document.Knows b) (hu : u.Covers b) (ha : v.document.attached b.decl)

include h₀ hone hall hw h hpar hp hb ha

/-- The parameter is replaced in the definition. -/
theorem Underway.settles_splice (hq : b.TakesQuals) (hm : b.decl ∈ v.document.root.preorder) :
    v.Settles (Engine.edit fun d => d.splice b.decl b.fieldDecls) fun _ t =>
      s.Underway N b.scope.key t := by
  have ht := h.signs.tidy
  have hds := hw.sound.document
  obtain ⟨F', hF', hd', hsig, hitem⟩ := h.signs.exists_item h₀.tidy hpar.mem hpar.definition
    hpar.item ha
  obtain ⟨H, D, A, T, B, hproto⟩ := exists_isPrototype hsig.prototyped
  rw [hproto.itemsOf] at hitem
  have hA := isPresent_of_mem_parts hitem
  -- The parameter stands in the list of the definition, and nowhere else.
  obtain ⟨p, x, hdecl⟩ := hw.sound.exists_declared hb ha
  obtain rfl : x = b.decl := hds.eq_of_key hdecl.stands.mem hm hdecl.stands.key
  have hAm : A ∈ v.document.root.preorder := mem_preorder_of_part (mem_preorder_of_part
    (mem_preorder_of_part hF' hproto.head_mem (isPresent_of_isA hproto.isA_decl))
    hproto.declarator_mem (isPresent_of_isA hproto.isA_funcDecl)) hproto.params_mem hA
  have hsole := isSole_of_isA hdecl.decl rfl
  obtain rfl : p.parent = A := hds.parent_eq hdecl.stands.parent hAm hdecl.stands.mem_parts hitem
    hsole rfl
  have hK := hsig.headName?_flattenable hpar.mem hpar.definition hpar.item (hpar.found ▸ rfl)
  have hnew := hb.isNew_fieldDecls
  obtain ⟨d, hd, hf⟩ := hds.splice_ok hdecl.stands hnew (hdecl.takes hw.sound (fun hfd => by
    rw [isA_of_ne (hproto.isA_params hA) (by decide)] at hfd
    cases hfd) fun _ => b.isInitialized_fieldDecls)
  refine .edit hd ?_
  have hput := (hdecl.stands.puts_splice ht (keyless_of_forall hnew) hd).2
  have hgone : d.attached b.decl = false := hdecl.stands.not_attached
    (hdecl.stands.swaps_splice ht hsole (keyless_of_forall hnew) hd).2
  refine ⟨?_, h.steady.of_fixes rfl h.steady.decomposed (fun T hT =>
    hput.fixes ht (ht.fixes (h.steady.types T hT).1) ?_)
    fun T hT => hf.continues.alive T (h.steady.types T hT).1, h.aggregates⟩
  · rw [hpar.scope, ← hsig.key]
    exact h.signs.splice h₀.tidy hone hpar.mem hpar.definition hF' hsig hproto hpar.item
      (hpar.found ▸ rfl) hdecl.stands.split hput hgone (by rw [hpar.fieldDecls hp])
      (keyless_of_forall hnew)
      (b.isPlain_fieldDecls (fun f hf => h.steady.plain (hpar.isTyped f hf)) hq hpar.kind_ne)
  · exact h.signs.params_not_mem_fieldType h₀ hall h.steady hF' hproto hK hA hT

/-- The parameter is replaced in the definition, and the binding is recorded. -/
theorem Underway.settles_declareParam :
    v.Settles (Engine.declareParam b) fun b' t => b'.IsTyped s.fieldTypes ∧
      s.Underway N b.scope.key t := by
  have ht := h.signs.tidy
  have hm : b.decl ∈ v.document.root.preorder := by
    obtain ⟨F', hF', -, -, hitem⟩ :=
      h.signs.exists_item h₀.tidy hpar.mem hpar.definition hpar.item ha
    exact mem_preorder_trans (mem_preorder_of_itemsOf hitem (isPresent_of_isA hb.isDecl)) hF'
  unfold Engine.declareParam
  refine (settles_refresh v b).bind fun b' t ht' => ?_
  obtain ⟨ht', rfl⟩ := ht'
  subst t
  have hpar' := hpar.refresh h.steady ht hm
  have hdecl : (b.refresh v.document).decl = b.decl :=
    ht.current_eq (Document.mem_trees_of_root hm) rfl
  have hscope : (b.refresh v.document).scope.key = b.scope.key := Document.key_current _ _
  refine ((settles_synthesize _ _).and (settles_synthesize_takesQuals _ _)).bind ?_
  rintro _ t ⟨⟨hst, rfl⟩, hq⟩
  have htu : s.Underway N none t := ⟨hst.document ▸ h.signs, h.steady.same hst,
    hst.aggregates.trans h.aggregates⟩
  have hkt : t.document.Knows (b.refresh v.document) := hst.document ▸ hb.refresh hw.sound.document
  refine ((htu.settles_splice h₀ hone hall (hw.same hst) hpar'
    (hb.isParam_refresh.trans hp) hkt ?_ hq ?_)).bind fun _ w hwu => ?_
  · rwa [hst.document, attached_refresh]
  · rwa [hst.document, hdecl]
  refine Settles.bind (.modify (Q := fun _ t => t = _) rfl) ?_
  rintro - _ rfl
  refine (settles_note _ _).bind fun _ t ht => .pure ⟨hpar'.isTyped, ?_⟩
  exact ⟨ht.document ▸ hscope ▸ hwu.signs, (hwu.steady.record hpar'.isTyped).same ht,
    ht.aggregates.trans hwu.aggregates⟩

include hl hu in
/-- **A parameter is decomposed.** It is gone then, and the declarations of the function agree. -/
theorem Underway.settles_decomposeParam (hN : ∀ name ∈ u.names, name ∈ N) :
    v.Settles (Engine.decomposeParam b) fun _ t => Proceeds u v t ∧ s.Underway N none t ∧
      t.document.attached b.decl = false := by
  refine ((hw.settles_decomposeParam hb hu ha hp).and (R := fun _ t => s.Signs N none t.document ∧
    t.aggregates = s.aggregates ∧ (∀ e ∈ t.decomposed, e.binding.IsTyped s.fieldTypes) ∧
    (∀ T ∈ s.fieldTypes, t.document.Fixes T) ∧
    ∃ e ∈ t.decomposed, e.binding = b.refresh v.document) ?_).mono fun _ t ht => ?_
  · rw [Engine.decomposeParam_eq]
    refine ((hw.settles_declareParam hb hu ha hp).and
      (h.settles_declareParam h₀ hone hall hw hpar hp
      hb ha)).bind fun b' t ht => ?_
    obtain ⟨⟨hst, rfl, hrec, -⟩, hbt, hut⟩ := ht
    have hknows := hst.knows (hb.refresh hw.sound.document)
    have hp' : (b.refresh v.document).isParam := hb.isParam_refresh.trans hp
    have hd : (b.refresh v.document).isParam = false →
        t.document.attached (b.refresh v.document).decl :=
      fun hn => by rw [hp'] at hn; cases hn
    refine ((hst.settles_rewrite hknows (hu.refresh hb) hd).and (hst.redraws_rewrite hl hknows
      (hu.refresh hb) (hut.steady.mono hN) hbt hd)).bind fun _ w hw => ?_
    have huw := hut.redrawn h₀.tidy (hw.2.mono hN) hw.1.1.continues
    have hkey : (b.refresh v.document).scope.key = b.scope.key := Document.key_current _ _
    obtain ⟨F', hF', hd', hk⟩ := huw.signs.kept F hpar.mem hpar.definition
    obtain ⟨F₁, hF₁, -, hsig⟩ := huw.signs.defs F' hF' hd'
    obtain rfl := h₀.tidy.eq_of_key (Document.mem_trees_of_root hF₁)
      (Document.mem_trees_of_root hpar.mem) (hsig.key.symm.trans hk)
    refine (Follow.settles_updatePrototypes h₀.tidy hone huw.isPlain (hkey ▸ huw.signs) hF'
      (hk.trans (hpar.scope.symm.trans hkey.symm)) hd'
      (hsig.headName?_flattenable hF₁ hpar.definition hpar.item (hpar.found ▸ rfl)) fun T hT =>
        huw.signs.tidy.fixes (huw.steady.types T hT).1).mono fun _ t ht => ?_
    obtain ⟨hsigns, hagg, hdec, hfix⟩ := ht
    exact ⟨hsigns, hagg.trans huw.aggregates, hdec ▸ huw.steady.decomposed, hfix,
      hdec ▸ hw.2.decomposed ▸ hrec⟩
  · obtain ⟨hvt, hsigns, hagg, hdec, hfix, e, he, heb⟩ := ht
    refine ⟨hvt, ⟨hsigns, h.steady.of_fixes (hagg.trans h.aggregates.symm) hdec hfix fun T hT =>
      hvt.continues.alive T (h.steady.types T hT).1, hagg⟩, ?_⟩
    have hgone := (hvt.sound.decomposed e he).gone (heb ▸ hb.isParam_refresh.trans hp)
    rwa [heb, Document.attached, Binding.refresh, Document.key_current] at hgone

end Session

end Fieldwise
