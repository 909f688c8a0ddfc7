import Fieldwise.Proofs.Document.Retype
import Fieldwise.Proofs.Document.Swap
import Fieldwise.Proofs.Session.Rewriting

/-!
# Decompositions keep to their subject

Each step of a decomposition is about a node that is where it has to be: the declaration of a
variable stands in a block until it is taken out at last
(`Session.Within.settles_decomposeVariable`), a parameter stands in a list of parameters until it is
replaced (`Session.Within.settles_decomposeParam`), and the bindings that were found first are known
to the document for all the time (`Session.Within.settles_decomposeAttached`). So a decomposition of
a sound session settles, leaves a sound session, and has left alone what is not its business
(`Session.Sound.settles_decompose`). In a program that keeps to the discipline no step breaks an
assertion.
-/

namespace Fieldwise

open Node

/-! ### The steps of a decomposition -/

namespace Engine

/-- Finds the bindings of an aggregate, variables first. -/
def findBindings (a : Aggregate) : Engine (List Binding) := do
  let (vars, params) ← report fun s => s.bindings a
  note (.bindings a.name vars.length params.length) none
  return vars ++ params

theorem decomposeAttached_append (bs cs : List Binding) :
    decomposeAttached (bs ++ cs) = (do
      return (← decomposeAttached bs) ++ (← decomposeAttached cs)) := by
  induction bs with
  | nil => simp [decomposeAttached]
  | cons b bs ih =>
    simp only [List.cons_append, decomposeAttached, ih, bind_assoc]
    congr 1
    funext s
    split <;> simp

theorem decompose_eq (a : Aggregate) : decompose a = (do
    decomposeAttached (← findBindings a)) := by
  simp [decompose, findBindings, decomposeAttached_append]

/-- Declares the field variables of a variable and records it. -/
def declareVariable (b : Binding) : Engine Binding := do
  let b ← refresh b
  let decls ← synthesize b
  let x ← initialValues b decls
  edit fun d => d.insertAfter b.decl (x.decls ++ x.after)
  edit fun d => d.insertBefore b.decl x.before
  record b
  return b

theorem decomposeVariable_eq (b : Binding) : decomposeVariable b = (do
    let b ← declareVariable b
    rewrite b
    removeDeclaration (← refresh b)) := by
  simp [decomposeVariable, declareVariable]

/-- Puts the parameters for the fields in the place of a parameter and records it. -/
def declareParam (b : Binding) : Engine Binding := do
  let b ← refresh b
  let decls ← synthesize b
  edit fun d => d.splice b.decl decls
  record b
  note (.parameter b.name ((b.scope.child .decl).name?.getD "")) b.decl.line
  return b

theorem decomposeParam_eq (b : Binding) : decomposeParam b = (do
    let b ← declareParam b
    rewrite b
    updatePrototypes b.scope) := by
  simp [decomposeParam, declareParam]

/-- What is done for a binding before its uses are looked for. -/
def declare (b : Binding) : Engine Binding :=
  if b.isParam then declareParam b else declareVariable b

end Engine

namespace Session

variable {u : Subject} {s t : Session} {b : Binding} {n P : Node} {new : List Node}

/-! ### Declarations -/

/-- What a binding is recorded among, and how it is recorded. -/
theorem mem_recordIn {es : List Decomposed} {e : Decomposed} (he : e ∈ recordIn b es) :
    e ∈ es ∨ e.binding = b ∧ e.scope = b.scope.key := by
  induction es with
  | nil =>
    rw [recordIn, List.mem_singleton] at he
    exact .inr (by rw [he]; exact ⟨rfl, rfl⟩)
  | cons e' es ih =>
    rw [recordIn] at he
    split at he
    · rename_i hfor
      rcases List.mem_cons.mp he with rfl | he
      · simp only [Decomposed.isFor, Bool.and_eq_true, beq_iff_eq] at hfor
        exact .inr ⟨rfl, hfor.1⟩
      · exact .inl (List.mem_cons_of_mem _ he)
    · rcases List.mem_cons.mp he with rfl | he
      · exact .inl List.mem_cons_self
      · exact (ih he).imp_left (List.mem_cons_of_mem _)

theorem exists_recordIn (b : Binding) (es : List Decomposed) :
    ∃ e ∈ recordIn b es, e.binding = b := by
  induction es with
  | nil => exact ⟨_, List.mem_singleton.mpr rfl, rfl⟩
  | cons e es ih =>
    rw [recordIn]
    split
    · exact ⟨_, List.mem_cons_self, rfl⟩
    · obtain ⟨e', he', hb⟩ := ih
      exact ⟨e', List.mem_cons_of_mem _ he', hb⟩

/-- Where the declaration of a binding stands. -/
structure Declared (s : Session) (b : Binding) (p : Place) (x : Node) : Prop where
  stands : s.document.Stands b.decl p x
  decl : x.isA .decl
  layers : x.declaresFunction = false

/-- The edit of a declaration of the subject's is its business. -/
theorem Declared.minds {p : Place} {x : Node} (hd : s.Declared b p x) (hu : u.Covers b)
    (d : Document) : u.Minds d x := by
  have hdecls := hu.decl
  rw [← hd.stands.key] at hdecls
  exact .declared (by simp [Subject.declares, hd.decl, hdecls])

/-- It does not matter when a binding is taken from the document. -/
theorem attached_refresh (d d' : Document) (b : Binding) :
    d'.attached (b.refresh d).decl = d'.attached b.decl := by
  rw [Document.attached, Document.attached, Binding.refresh, Document.key_current]

variable [Discipline]

/-- **A binding that is attached stands somewhere.** -/
theorem Sound.exists_declared (h : s.Sound) (hb : s.document.Knows b)
    (ha : s.document.attached b.decl) : ∃ p x, s.Declared b p x := by
  obtain ⟨x, hx, hk, -⟩ := Document.attached_iff.mp ha
  have hdecl : x.isA .decl := by
    rw [isA, hb.decl.cls (Document.mem_trees_of_root hx) hk]
    exact hb.isDecl
  have hlayers : x.declaresFunction = false := Bool.eq_false_iff.mpr fun hf =>
    Bool.eq_false_iff.mp hb.layers (hb.decl.gain x (Document.mem_trees_of_root hx) hk hf)
  have hroot : b.decl.key ≠ s.document.root.key := fun hr => by
    have hfile := h.document.file
    rw [← h.document.eq_of_key hx h.document.root_mem (hk.trans hr)] at hfile
    have hc : x.cls? = some .decl := by simpa [isA] using hdecl
    simp [isA, hc] at hfile
  obtain ⟨p, hs⟩ := h.document.exists_stands hx hk hroot
  exact ⟨p, x, hs, hdecl, hlayers⟩

namespace Declared

variable {p : Place} {x : Node}

/-- What a variable stands in is its scope, which is a block. -/
theorem block (hd : s.Declared b p x) (hb : s.document.Knows b) (hp : b.isParam = false) :
    p.parent.isA .funcDef = false := by
  have hk := hb.home hp p.parent hd.stands.parent x hd.stands.mem_parts hd.stands.key
  rw [isA, hb.scope.cls (Document.mem_trees_of_root hd.stands.parent) hk]
  exact hp

/-- It is no list of parameters. -/
theorem not_paramList (hd : s.Declared b p x) (hb : s.document.Knows b) (hp : b.isParam = false) :
    p.parent.isA .paramList = false := by
  have hblock := hb.isBlock_home hp hd.stands.parent hd.stands.mem_parts hd.stands.key
  refine Bool.eq_false_iff.mpr fun hl => ?_
  rw [isBlock_of_isA hl] at hblock
  cases hblock

/-- A declaration that is not the head of a function definition stands in a list. -/
theorem takes (hd : s.Declared b p x) (h : s.Sound)
    (hl : p.parent.isA .funcDef → p.index ≠ 0) {new : List Node}
    (hnew : p.parent.isA .paramList → ∀ c ∈ new, c.isInitialized = false) :
    Document.Sound.Takes s.document p new := by
  obtain ⟨hlist, hargs, hholds⟩ := h.document.stands_decl hd.stands hd.decl hl
  exact ⟨hlist, .inr ⟨hholds, hnew⟩, .inl hargs⟩

/-- By the discipline the head of a function definition is no parameter. -/
theorem not_head (hd : s.Declared b p x) (h : s.Sound) (hs : Discipline.strict)
    (hf : p.parent.isA .funcDef) : p.index ≠ 0 := fun hi => by
  have hreg := h.document.regular _ (Document.mem_trees_of_root hd.stands.parent)
  have := hreg.head hs hf x (hi ▸ hd.stands.part)
  rw [hd.layers] at this
  cases this

end Declared

/-- New nodes are put next to the declaration of a variable, which stays. -/
theorem Within.settles_insert (h : Within u s) (hb : s.document.Knows b) (hu : u.Covers b)
    (hp : b.isParam = false) (ha : s.document.attached b.decl) (hnew : ∀ c ∈ new, c.IsNew)
    (after : Bool) :
    s.Settles (Engine.edit fun d => d.insert b.decl new after) fun _ t =>
      Proceeds u s t ∧ t.document.attached b.decl := by
  obtain ⟨p, x, hd⟩ := h.sound.exists_declared hb ha
  have htakes : Document.Sound.Takes s.document p new :=
    hd.takes h.sound (fun hf => by rw [hd.block hb hp] at hf; cases hf)
      fun hl => by rw [hd.not_paramList hb hp] at hl; cases hl
  obtain ⟨d, hins, hf⟩ := h.sound.document.insert_ok hd.stands hnew (.inl htakes) after
  refine .edit hins ⟨.follows h hf (Document.mem_trees_of_root hd.stands.mem) (hd.minds hu _),
    Document.attached_iff.mpr ?_⟩
  obtain ⟨x', hx', hk⟩ := (hf.kept x hd.stands.mem).resolve_right not_mem_preorder_absent
  exact ⟨x', hx', hk.trans hd.stands.key, hd.stands.keyed⟩

/-- A binding that is attached was recorded in its scope, if it was before. -/
theorem Sound.scope_eq (h : s.Sound) (hb : s.document.Knows b) (ha : s.document.attached b.decl) :
    ∀ e ∈ s.decomposed, e.binding.decl.key = b.decl.key → e.scope = b.scope.key := by
  intro e he hk
  obtain ⟨p, x, hd⟩ := h.exists_declared hb ha
  have hrem := h.decomposed e he
  have hxk : x.key = e.binding.decl.key := hd.stands.key.trans hk.symm
  have hPm := Document.mem_trees_of_root hd.stands.parent
  cases hp : e.binding.isParam with
  | true =>
    have := hrem.gone hp
    rw [Bool.eq_false_iff] at this
    exact (this (Document.attached_iff.mpr
      ⟨x, hd.stands.mem, hxk, by rw [hk]; exact hd.stands.keyed⟩)).elim
  | false =>
    have hscope := hrem.knows.home hp p.parent hd.stands.parent x hd.stands.mem_parts hxk
    rw [hrem.scope, ← hscope]
    cases hp' : b.isParam with
    | false => exact hb.home hp' p.parent hd.stands.parent x hd.stands.mem_parts hd.stands.key
    | true =>
      -- The scope of a variable is a block, and a parameter stands in none.
      have hblock := hrem.knows.isBlock_home hp hd.stands.parent hd.stands.mem_parts hxk
      rw [hb.away hp' p.parent hd.stands.parent x hd.stands.mem_parts hd.stands.key] at hblock
      cases hblock

/-- A binding is recorded: a variable while it is attached, and a parameter when it is gone. -/
theorem Within.settles_record (h : Within u s) (hb : s.document.Knows b)
    (hs : ∀ e ∈ s.decomposed, e.binding.decl.key = b.decl.key → e.scope = b.scope.key)
    (hg : b.isParam → s.document.attached b.decl = false) :
    s.Settles (Engine.record b) fun _ t => Proceeds u s t ∧ t.document = s.document ∧
      ∃ e ∈ t.decomposed, e.binding = b := by
  refine .modify ⟨⟨⟨⟨h.sound.document, h.sound.nonempty,
    h.sound.aggregates, fun e he => ?_, fun e he e' he' hk => ?_,
    h.sound.copy⟩, h.frames⟩, .refl _ h.sound.document⟩, rfl, exists_recordIn b _⟩
  · rcases mem_recordIn he with he | ⟨rfl, hscope⟩
    · exact h.sound.decomposed e he
    · exact ⟨hb, hscope, hg⟩
  · rcases mem_recordIn he with hm | ⟨hbe, hscope⟩ <;>
      rcases mem_recordIn he' with hm' | ⟨hbe', hscope'⟩
    · exact h.sound.agree e hm e' hm' hk
    · exact (hs e hm (hk.trans (by rw [hbe']))).trans hscope'.symm
    · exact hscope.trans (hs e' hm' (hk.symm.trans (by rw [hbe]))).symm
    · exact hscope.trans hscope'.symm

/-- The declaration of a variable is taken out, but for the type that it defines. -/
theorem Within.settles_removeDeclaration (h : Within u s) (hb : s.document.Knows b)
    (hu : u.Covers b) (hp : b.isParam = false) (ha : s.document.attached b.decl) :
    s.Settles (Engine.removeDeclaration (b.refresh s.document)) fun _ t => Proceeds u s t := by
  have hds := h.sound.document
  have hknows := hb.refresh hds
  obtain ⟨p, x, hd⟩ := h.sound.exists_declared hknows (by rwa [attached_refresh])
  have hparent := hd.block hknows (hb.isParam_refresh.trans hp)
  have hhead : p.parent.isA .funcDef → p.index ≠ 0 := fun hf => by
    rw [hparent] at hf
    cases hf
  have hm := hd.minds (hu.refresh hb)
  have hxm := Document.mem_trees_of_root hd.stands.mem
  -- The refreshed declaration is the one that stands there.
  have hx : (b.refresh s.document).decl = x :=
    hds.current_eq hxm (hd.stands.key.trans (Document.key_current _ _))
  unfold Engine.removeDeclaration
  split
  · rename_i type htype
    obtain ⟨hT, hTs, -⟩ := definedType?_spec htype
    rw [hx] at hT
    obtain ⟨d, hrep, hf⟩ := hds.replace_bare_ok hd.stands hd.decl hhead hT hTs
    exact .edit hrep (.follows h hf hxm (hm d))
  · have ht : Document.Sound.Takes s.document p [] :=
      hd.takes h.sound hhead fun _ _ hc => absurd hc List.not_mem_nil
    obtain ⟨d, hdet, hf⟩ := hds.detach_ok hd.stands (.inl ht.list)
      (hds.stands_decl hd.stands hd.decl hhead).2.1
    exact .edit hdet (.follows h hf hxm (hm d))

theorem settles_checkField (b : Binding) (f : Field) : Fieldwise.Settles (b.checkField f) fun _ =>
    f.type.takesQuals = true := by
  unfold Binding.checkField
  split
  · exact .error (by decide)
  · rename_i htakes
    have htakes : f.type.takesQuals = true := by simpa using htakes
    split
    · exact (settles_integer _).bind fun _ _ => .pure htakes
    · exact .ok htakes

theorem settles_synthesize (s : Session) (b : Binding) :
    s.Settles (Engine.synthesize b) fun r t => s.Same t ∧ r = b.fieldDecls :=
  (settles_report (.of (.forM fun f _ => settles_checkField b f))).bind fun _ _ ht =>
    (settles_note _ _).bind fun _ _ hu => .pure ⟨ht.1.trans hu, rfl⟩

theorem settles_synthesize_takesQuals (s : Session) (b : Binding) :
    s.Settles (Engine.synthesize b) fun _ _ => ∀ f ∈ b.aggregate.fields, f.type.takesQuals :=
  (settles_report (.of (.forM fun f _ => settles_checkField b f))).bind fun _ _ ht =>
    (settles_note _ _).bind fun _ _ _ => .pure ht.2

theorem settles_refresh (s : Session) (b : Binding) :
    s.Settles (Engine.refresh b) fun r t => t = s ∧ r = b.refresh s.document :=
  .get_bind (.pure ⟨rfl, rfl⟩)

/-- The session in which the uses of a binding are looked for: the binding is recorded, and the
declaration of a variable is still there. -/
structure Declares (u : Subject) (s : Session) (b b' : Binding) (t : Session) : Prop extends
    Proceeds u s t where
  refreshed : b' = b.refresh s.document
  recorded : ∃ e ∈ t.decomposed, e.binding = b'
  attached : b.isParam = false → t.document.attached b'.decl

/-! ### Variables -/

/-- The field variables of a variable that is attached are declared. -/
theorem Within.settles_declareVariable (h : Within u s) (hb : s.document.Knows b) (hu : u.Covers b)
    (ha : s.document.attached b.decl) (hp : b.isParam = false) :
    s.Settles (Engine.declareVariable b) fun b' t => Declares u s b b' t := by
  unfold Engine.declareVariable
  refine (settles_refresh s b).bind fun b' t ht => ?_
  obtain ⟨ht, hb'⟩ := ht
  subst t
  have hknows := hb'.symm ▸ hb.refresh h.sound.document
  have hp' : b'.isParam = false := hb'.symm ▸ hb.isParam_refresh.trans hp
  have hu' : u.Covers b' := hb'.symm ▸ hu.refresh hb
  have ha' : s.document.attached b'.decl := by
    rw [hb', attached_refresh]
    exact ha
  refine (settles_synthesize _ b').bind ?_
  rintro _ t ⟨hst, rfl⟩
  have ht := h.same hst
  refine (ht.sound.settles_initialValues (hst.document ▸ hknows) hknows.isNew_fieldDecls).bind
    fun x v hx => ?_
  obtain ⟨htv, hx⟩ := hx
  have hsv := hst.trans htv
  have hv := h.same hsv
  -- The field variables are declared around the declaration.
  refine (hv.settles_insert (hsv.document ▸ hknows) hu' hp' (hsv.document ▸ ha')
    (fun c hc => (List.mem_append.mp hc).elim (hx.decls c) fun hc => (hx.after c hc).toIsNew)
    true).bind fun _ w hw => ?_
  have hsw := (Proceeds.same h hsv).trans hw.1
  refine (hsw.settles_insert (hsw.knows hknows) hu' hp' hw.2 hx.before false).bind
    fun _ y hy => ?_
  have hsy := hsw.trans hy.1
  refine (hsy.settles_record (hsy.knows hknows)
    (hsy.sound.scope_eq (hsy.knows hknows) hy.2) fun hn => ?_).bind fun _ z hz => .pure ?_
  · rw [hp'] at hn
    cases hn
  · exact ⟨hsy.trans hz.1, hb', hz.2.2, fun _ => hz.2.1 ▸ hy.2⟩

/-- **A variable that is attached is decomposed.** -/
theorem Within.settles_decomposeVariable (h : Within u s) (hb : s.document.Knows b)
    (hu : u.Covers b) (ha : s.document.attached b.decl) (hp : b.isParam = false) :
    s.Settles (Engine.decomposeVariable b) fun _ t => Proceeds u s t := by
  rw [Engine.decomposeVariable_eq]
  refine (h.settles_declareVariable hb hu ha hp).bind fun b' t ht => ?_
  obtain ⟨hst, rfl, -, hat⟩ := ht
  have hknows := hst.knows (hb.refresh h.sound.document)
  have hp' := hb.isParam_refresh.trans hp
  refine (hst.settles_rewrite hknows (hu.refresh hb) fun _ => hat hp).bind fun _ v hv => ?_
  have hsv := hst.trans hv.1
  -- At last the declaration is taken out.
  refine (settles_refresh v _).bind ?_
  rintro _ _ ⟨rfl, rfl⟩
  exact (hsv.settles_removeDeclaration (hsv.knows (hb.refresh h.sound.document)) (hu.refresh hb) hp'
    (hv.2 hp')).mono fun _ _ hr => hsv.trans hr

/-! ### Parameters -/

/-- The declaration that a function definition begins with. -/
theorem isA_head (h : n.IsRegular) (hf : n.isA .funcDef) : (n.child .decl).isA .decl ∧
    (Discipline.strict → (n.child .decl).declaresFunction) := by
  obtain ⟨d, hd, hdecl⟩ := h.placed.head hf
  cases n with
  | absent => cases hf
  | mk m f ps =>
    have hc : f.cls = .funcDef := by simpa [isA, cls?, form?] using hf
    have hchild : (Node.mk m f ps).child .decl = d := by
      have hd : ps[0]? = some d := hd
      rw [child_mk, hc]
      simp [Class.slots, hd]
    rw [hchild]
    exact ⟨hdecl, fun hs => h.head hs hf d hd⟩

/-- The declaration that the definition of a function begins with now. -/
theorem Sound.exists_head (h : s.Sound) (hb : s.document.Knows b) (hp : b.isParam) :
    ∃ F ∈ preorderAll s.document.trees, s.document.current b.scope = F ∧ F.key = b.scope.key ∧
      F.isA .funcDef ∧ (F.child .decl).isA .decl ∧
      (Discipline.strict → (F.child .decl).declaresFunction) := by
  obtain ⟨F, hF, hk⟩ := hb.there
  have hf : F.isA .funcDef := by
    rw [isA, hb.scope.cls hF hk]
    exact hp
  obtain ⟨hdecl, hstrict⟩ := isA_head (h.document.regular F hF) hf
  exact ⟨F, hF, h.document.current_eq hF hk, hk, hf, hdecl, hstrict⟩

/-- The head of the definition declares a function only if it did so before. -/
theorem Sound.head_gain (h : s.Sound) (hb : s.document.Knows b) (hp : b.isParam) (ht : t.Sound)
    (hc : Document.Continues s.document t.document)
    (hf : ((t.document.current b.scope).child .decl).declaresFunction) :
    ((s.document.current b.scope).child .decl).declaresFunction := by
  obtain ⟨F, hF, hcur, hk, hdef, hdecl, -⟩ := h.exists_head hb hp
  obtain ⟨F', hF', hcur', hk', hdef', hdecl', -⟩ :=
    ht.exists_head (hb.continues hc ht.document) hp
  rw [hcur] at ⊢
  rw [hcur'] at hf
  obtain ⟨F₀, hF₀, hk₀, -, hhead⟩ := hc.forms F' hF'
    (isOld_of_key (h.document.bound F hF) (hk.trans hk'.symm))
  obtain rfl : F₀ = F := h.document.woven.eq_of_key hF₀ hF (hk₀.trans (hk'.trans hk.symm))
  have hmem : ∀ {n : Node} {ts : List Node}, n ∈ preorderAll ts → (n.child .decl).isA .decl →
      n.child .decl ∈ preorderAll ts := fun {n ts} hn hd => by
    refine mem_preorderAll_trans (child_mem_preorder ?_) hn
    cases hc : n.child .decl with
    | absent =>
      rw [hc] at hd
      cases hd
    | mk => rfl
  have hkey : (F₀.child .decl).key = (F'.child .decl).key := by
    simp only [head?, hdef, hdef', if_true, Option.some.injEq, Prod.mk.injEq] at hhead
    exact hhead.1
  have hm := hmem hF₀ hdecl
  obtain ⟨y, hy, hyk, -, hgain⟩ := hc.kinds _ (hmem hF' hdecl')
    (isOld_of_key (h.document.bound _ hm) hkey)
  obtain rfl := h.document.woven.eq_of_key hy hm (hyk.trans hkey.symm)
  exact hgain hf

/-- All other declarations of a function are given its type. They declare functions before and
after it, or the definition is not that of a function. -/
theorem Within.settles_updateAll (h : Within u s) (hb : s.document.Knows b) (hp : b.isParam)
    {decls : List Node}
    (hd : ∀ c ∈ decls, ∃ x ∈ preorderAll s.document.trees, x.key = c.key ∧ x.isA .decl)
    (hm : ∀ c ∈ decls, ¬ IsOld u.start.next c ∨ c.key.any u.decls.contains)
    (hf : (∀ c ∈ decls, ∀ x ∈ preorderAll s.document.trees, x.key = c.key → x.declaresFunction) ∨
      ((s.document.current b.scope).child .decl).declaresFunction = false) :
    s.Settles (Engine.updateAll b.scope decls) fun _ t => Proceeds u s t ∧
      Document.Retypes b.scope s.document decls t.document := by
  induction decls generalizing s with
  | nil => exact .pure ⟨.refl h, .nil⟩
  | cons c cs ih =>
    have hds := h.sound.document
    obtain ⟨_, hF, rfl, -, -, hdecl, hstrict⟩ := h.sound.exists_head hb hp
    have htype : (s.document.headType b.scope).IsTerm :=
      ((hds.regular.of_mem_preorderAll hF).child .decl).isTerm_child_decl hdecl .type
    have hfunc : (s.document.headType b.scope).copy.isA .funcDecl =
        ((s.document.current b.scope).child .decl).declaresFunction := by
      rw [isA, cls?_copy, declaresFunction, hdecl, Bool.true_and, ← isA, Document.headType]
    obtain ⟨x, hx, hk, hxd⟩ := hd c List.mem_cons_self
    have hxm : ∀ d, u.Minds d x := fun d => (hm c List.mem_cons_self).elim
      (fun hn => .new fun ho => hn (isOld_of_key ho hk))
      fun hc => .declared (by simp [Subject.declares, hxd, hk, hc])
    obtain ⟨r, hfol, hstay⟩ := hds.setType_ok hx hk hxd htype.copy
      (fun hc => (hf.resolve_right fun hno => by
        rw [hfunc, hno] at hc
        cases hc) c List.mem_cons_self x hx hk) fun hs => hfunc.trans (hstrict hs)
    have hst := Proceeds.follows h hfol hx (hxm _)
    unfold Engine.updateAll
    refine .get_bind ?_
    refine Settles.bind (.modify (Q := fun _ t => t = { s with document := _ }) rfl) ?_
    rintro - _ rfl
    refine (settles_note _ _).bind fun _ t ht => ?_
    have hst' := hst.trans (.same hst.toWithin ht)
    have hcs := fun c' (hc' : c' ∈ cs) => hd c' (List.mem_cons_of_mem _ hc')
    refine (ih hst'.toWithin (hst'.knows hb) (fun c' hc' => ?_)
      (fun c' hc' => hm c' (List.mem_cons_of_mem _ hc')) ?_).mono fun _ v hv =>
        ⟨hst'.trans hv.1, .cons hds hst.sound.document hst.continues ?_⟩
    · obtain ⟨y, hy, hyk, hyd⟩ := hcs c' hc'
      obtain ⟨y', hy', hyk'⟩ := hst'.continues.alive y hy
      obtain ⟨y₀, hy₀, hk₀, hc₀, -⟩ := hst'.continues.kinds y' hy'
        (isOld_of_key (hds.bound y hy) hyk'.symm)
      obtain rfl : y₀ = y := hds.woven.eq_of_key hy₀ hy (hk₀.trans hyk')
      exact ⟨y', hy', hyk'.trans hyk, by rwa [isA, ← hc₀]⟩
    · cases hown : ((s.document.current b.scope).child .decl).declaresFunction with
      | true =>
        have hall := hf.resolve_right fun hno => by
          rw [hown] at hno
          cases hno
        refine .inl fun c' hc' y' hy' hyk' => ?_
        obtain ⟨y, hy, hyk, -⟩ := hcs c' hc'
        obtain ⟨z, hz, hzk, hzf⟩ := hstay (hfunc.trans hown) y hy
          (hall c' (List.mem_cons_of_mem _ hc') y hy hyk)
        rw [ht.document] at hy'
        rwa [hfol.sound.woven.eq_of_key hy' hz (hyk'.trans (hyk.symm.trans hzk.symm))]
      | false =>
        refine .inr (Bool.eq_false_iff.mpr fun hno => ?_)
        have := h.sound.head_gain hb hp hst'.sound hst'.continues hno
        rw [hown] at this
        cases this
    · have hrest := hv.2
      rwa [ht.document] at hrest

/-- A parameter that is attached gives way to parameters for its fields. By the discipline it does
not stand at the head of a definition, where there is no list. -/
theorem Within.settles_declareParam (h : Within u s) (hb : s.document.Knows b) (hu : u.Covers b)
    (ha : s.document.attached b.decl) (hp : b.isParam) :
    s.Settles (Engine.declareParam b) fun b' t => Declares u s b b' t := by
  unfold Engine.declareParam
  refine (settles_refresh s b).bind fun b' t ht => ?_
  obtain ⟨ht, hb'⟩ := ht
  subst t
  have hknows := hb'.symm ▸ hb.refresh h.sound.document
  have hp' : b'.isParam := hb'.symm ▸ hb.isParam_refresh.trans hp
  have hu' : u.Covers b' := hb'.symm ▸ hu.refresh hb
  have ha' : s.document.attached b'.decl := by
    rw [hb', attached_refresh]
    exact ha
  refine (settles_synthesize _ b').bind ?_
  rintro _ t ⟨hst, rfl⟩
  have ht := h.same hst
  have htk : t.document.Knows b' := hst.document ▸ hknows
  have hta : t.document.attached b'.decl := hst.document ▸ ha'
  obtain ⟨p, x, hd⟩ := ht.sound.exists_declared htk hta
  have hscope := ht.sound.scope_eq htk hta
  by_cases hhead : p.parent.isA .funcDef ∧ p.index = 0
  · refine Settles.bind (Q := fun _ _ => False) ?_ fun _ _ hf => hf.elim
    have hlist : p.isInList = false := by
      refine Bool.eq_false_iff.mpr fun hl => ?_
      obtain ⟨f, hf, -, hslots⟩ := Document.isInList_iff.mp hl
      have hcls : f.cls = .funcDef := by simpa [isA, cls?, hf] using hhead.1
      rw [hcls, hhead.2] at hslots
      exact absurd hslots (by decide)
    unfold Settles
    rw [run_edit]
    simp only [Document.splice, hd.stands.place, bind, Except.bind, hlist]
    exact fun hs => (hd.not_head ht.sound hs hhead.1 hhead.2).elim
  have htakes := hd.takes ht.sound (fun hf hi => hhead ⟨hf, hi⟩)
    fun _ => b'.isInitialized_fieldDecls
  obtain ⟨d, hsplice, hf⟩ := ht.sound.document.splice_ok hd.stands hknows.isNew_fieldDecls htakes
  have htv := Proceeds.follows ht hf (Document.mem_trees_of_root hd.stands.mem) (hd.minds hu' _)
  have hsv := (Proceeds.same h hst).trans htv
  have hgone : d.attached b'.decl = false := hd.stands.not_attached
    (hd.stands.swaps_splice ht.sound.document.tidy (isSole_of_isA hd.decl rfl)
      (keyless_of_forall hknows.isNew_fieldDecls) hsplice).2
  refine Settles.bind (.edit (Q := fun _ v => v = { t with document := d }) hsplice rfl) ?_
  rintro - _ rfl
  refine (hsv.settles_record (hsv.knows hknows) hscope fun _ => hgone).bind fun _ w hw => ?_
  refine (settles_note _ _).bind fun _ y hy => .pure ?_
  have hsw := hsv.trans hw.1
  refine ⟨hsw.trans (.same hsw.toWithin hy), hb', hy.decomposed ▸ hw.2.2, fun hn => ?_⟩
  rw [hp] at hn
  cases hn

/-- What is listed declares a function of the name of the definition. -/
theorem mem_prototypes (hb : s.document.Knows b) (hp : b.isParam) (h : s.Sound) {c : Node}
    (hc : c ∈ s.prototypes (s.document.current b.scope)) : c ∈ s.document.root.preorder ∧
      c.isA .decl ∧ c.declaresFunction ∧ c.name? = b.scope.headName? := by
  obtain ⟨F, hF, hcur, -, hdef, -, -⟩ := h.exists_head hb hp
  obtain ⟨hc, hcond⟩ := List.mem_filter.mp hc
  obtain ⟨hcm, hcd⟩ := List.mem_filter.mp hc
  simp only [Bool.and_eq_true, beq_iff_eq] at hcond
  refine ⟨hcm, hcd, by simp [declaresFunction, hcd, hcond.2], hcond.1.1.trans ?_⟩
  rw [← headName?_congr hb.scope.head?_current, hcur, headName?, if_pos hdef]

/-- The other declarations of the function of a parameter are given the type of its definition. -/
theorem Within.settles_updatePrototypes (h : Within u s) (hb : s.document.Knows b)
    (hu : u.Covers b) (hp : b.isParam) :
    s.Settles (Engine.updatePrototypes b.scope) fun _ t => Proceeds u s t ∧
      Document.Retypes b.scope s.document (s.prototypes (s.document.current b.scope))
        t.document := by
  unfold Engine.updatePrototypes
  refine .get_bind ?_
  have hlisted := fun c (hc : c ∈ s.prototypes (s.document.current b.scope)) =>
    mem_prototypes hb hp h.sound hc
  refine h.settles_updateAll hb hp (fun c hc => ?_) (fun c hc => ?_) (.inl fun c hc x hx hk => ?_)
  · exact ⟨c, Document.mem_trees_of_root (hlisted c hc).1, rfl, (hlisted c hc).2.1⟩
  · -- What was there at the start declared a function then.
    obtain ⟨hcm, hcd, hcf, hcn⟩ := hlisted c hc
    by_cases hold : IsOld u.start.next c
    case neg => exact .inl hold
    obtain ⟨x, hx, hxk, -, hgain, -⟩ := h.frames.continues.node c hcm hold
    obtain ⟨y, hy, hyk, hyf, -⟩ :=
      h.frames.continues.forms c (Document.mem_trees_of_root hcm) hold
    obtain rfl := h.frames.start.woven.eq_of_key hy (Document.mem_trees_of_root hx)
      (hyk.trans hxk.symm)
    rw [← hxk]
    exact .inr <| hu.functions hp y hx (hgain hcf) ((name?_congr hyf).trans hcn)
  · obtain ⟨hcm, -, hcf, -⟩ := hlisted c hc
    rwa [h.sound.document.woven.eq_of_key hx (Document.mem_trees_of_root hcm) hk]

/-- **A parameter that is attached is decomposed.** -/
theorem Within.settles_decomposeParam (h : Within u s) (hb : s.document.Knows b) (hu : u.Covers b)
    (ha : s.document.attached b.decl) (hp : b.isParam) :
    s.Settles (Engine.decomposeParam b) fun _ t => Proceeds u s t := by
  rw [Engine.decomposeParam_eq]
  refine (h.settles_declareParam hb hu ha hp).bind fun b' t ht => ?_
  obtain ⟨hst, rfl, -, -⟩ := ht
  have hknows := hst.knows (hb.refresh h.sound.document)
  have hp' := hb.isParam_refresh.trans hp
  have hu' := hu.refresh hb
  refine (hst.settles_rewrite hknows hu' fun hn => ?_).bind fun _ v hv => ?_
  · rw [hp'] at hn
    cases hn
  have hsv := hst.trans hv.1
  exact (hsv.settles_updatePrototypes (hv.1.knows hknows) hu' hp').mono
    fun _ _ hr => hsv.trans hr.1

/-! ### All bindings -/

/-- What is done for a binding that is attached, before its uses are looked for. -/
theorem Within.settles_declare (h : Within u s) (hb : s.document.Knows b) (hu : u.Covers b)
    (ha : s.document.attached b.decl) :
    s.Settles (Engine.declare b) fun b' t => Declares u s b b' t := by
  unfold Engine.declare
  cases hp : b.isParam with
  | true => exact h.settles_declareParam hb hu ha hp
  | false => exact h.settles_declareVariable hb hu ha hp

/-- A binding that is attached is decomposed. -/
theorem Within.settles_decomposeBinding (h : Within u s) (hb : s.document.Knows b)
    (hu : u.Covers b) (ha : s.document.attached b.decl) :
    s.Settles (Engine.decomposeBinding b) fun _ t => Proceeds u s t := by
  unfold Engine.decomposeBinding
  split
  · rename_i hp
    exact h.settles_decomposeParam hb hu ha hp
  · rename_i hp
    exact h.settles_decomposeVariable hb hu ha (by simpa using hp)

/-- Bindings that the document knew before are decomposed as far as they are attached. -/
theorem Within.settles_decomposeAttached {bs : List Binding} (h : Within u s)
    (hb : ∀ b ∈ bs, s.document.Knows b) (hu : ∀ b ∈ bs, u.Covers b) :
    s.Settles (Engine.decomposeAttached bs) fun _ t => Proceeds u s t := by
  induction bs generalizing s with
  | nil => exact .pure (.refl h)
  | cons b bs ih =>
    have hknows := hb b List.mem_cons_self
    have hcovers := hu b List.mem_cons_self
    have hbs := fun c hc => hb c (List.mem_cons_of_mem _ hc)
    have hus := fun c hc => hu c (List.mem_cons_of_mem _ hc)
    unfold Engine.decomposeAttached
    refine .get_bind ?_
    split
    · rename_i ha
      exact (h.settles_decomposeBinding hknows hcovers ha).bind fun _ t ht =>
        (ih ht.toWithin (fun c hc => ht.knows (hbs c hc)) hus).bind
          fun _ v hv => .pure (ht.trans hv)
    · exact ih h hbs hus

/-- What the decomposition of some bindings is about: their names, their declarations, and the
declarations of the functions whose parameters they are. -/
def subject (s : Session) (bs : List Binding) : Subject where
  start := s.document
  names := bs.map Binding.name
  decls := bs.filterMap (·.decl.key) ++ (s.document.root.ofClass .decl).filterMap fun x =>
    if x.declaresFunction && bs.any fun b => b.isParam && x.name? == b.scope.headName? then x.key
    else none

theorem covers_subject {bs : List Binding} (hs : s.Sound) (hk : ∀ b ∈ bs, s.document.Knows b)
    (hb : b ∈ bs) : (s.subject bs).Covers b where
  name := List.mem_map_of_mem hb
  decl := by
    obtain ⟨k, hkey⟩ := Option.isSome_iff_exists.mp (hk b hb).keyed
    rw [hkey, Option.any_some, List.contains_iff_mem]
    exact List.mem_append_left _ (List.mem_filterMap.mpr ⟨b, hb, hkey⟩)
  functions hp x hx hf hn := by
    have hx : x ∈ s.document.root.preorder := hx
    have hd : x.isA .decl := by
      simp only [declaresFunction, Bool.and_eq_true] at hf
      exact hf.1
    obtain ⟨k, hkey⟩ := hs.document.exists_key hx
    rw [hkey, Option.any_some, List.contains_iff_mem]
    refine List.mem_append_right _ (List.mem_filterMap.mpr
      ⟨x, List.mem_filter.mpr ⟨hx, hd⟩, ?_⟩)
    have hany : bs.any (fun b => b.isParam && x.name? == b.scope.headName?) :=
      List.any_eq_true.mpr ⟨b, hb, by simp [hp, hn]⟩
    simp only [hf, hany, Bool.and_self, if_true, hkey]

/-- The bindings of an aggregate, variables first; none if they cannot be told. -/
def boundTo (s : Session) (a : Aggregate) : List Binding :=
  match StateT.run (ExceptT.run (s.bindings a)) s.log with
  | (.ok (vars, params), _) => vars ++ params
  | (.error _, _) => []

theorem Sound.settles_findBindings (h : s.Sound) (a : Aggregate) :
    s.Settles (Engine.findBindings a) fun bs t => s.Same t ∧
      bs = s.boundTo a ∧ ∀ b ∈ bs, s.document.Knows b := by
  unfold Engine.findBindings
  refine Settles.bind (Q := fun found t => s.Same t ∧ found.1 ++ found.2 = s.boundTo a ∧
    ∀ b ∈ found.1 ++ found.2, s.document.Knows b) ?_ fun found t ht => ?_
  · have hfound := h.settles_bindings a s.log
    unfold Settles boundTo
    rw [run_report]
    generalize StateT.run (ExceptT.run (s.bindings a)) s.log = p at hfound ⊢
    obtain ⟨_ | found, log⟩ := p
    · exact hfound
    · exact ⟨⟨rfl, rfl, rfl, rfl⟩, rfl, hfound⟩
  · exact (settles_note _ _).bind fun _ v hv => .pure ⟨ht.1.trans hv, ht.2⟩

/-- **All bindings of an aggregate are decomposed**, and what is not the business of this is left
alone. -/
theorem Sound.settles_decompose (h : s.Sound) (a : Aggregate) :
    s.Settles (Engine.decompose a) fun _ t => Proceeds (s.subject (s.boundTo a)) s t := by
  rw [Engine.decompose_eq]
  refine (h.settles_findBindings a).bind fun bs t ht => ?_
  obtain ⟨hst, rfl, hknows⟩ := ht
  have hst := Proceeds.same (u := s.subject (s.boundTo a)) ⟨h, .refl h.document⟩ hst
  exact (hst.settles_decomposeAttached (fun b hb => hst.knows (hknows b hb))
    fun b hb => covers_subject h hknows hb).mono fun _ _ hv => hst.trans hv

/-- **Decompositions of a sound session settle and leave a sound session.** -/
theorem Sound.settles_decomposeEach (h : s.Sound) (as : List Aggregate) :
    s.Settles (Engine.decomposeEach as) fun _ t => t.Sound := by
  induction as generalizing s with
  | nil => exact .pure h
  | cons a as ih =>
    unfold Engine.decomposeEach
    exact (h.settles_decompose a).bind fun _ t ht => (ih ht.sound).bind fun _ v hv => .pure hv

end Session

end Fieldwise
