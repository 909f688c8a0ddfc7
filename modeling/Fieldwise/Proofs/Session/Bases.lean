import Fieldwise.Proofs.Document.Bases
import Fieldwise.Proofs.Session.Dispatch
import Fieldwise.Proofs.Session.Finding
import Fieldwise.Proofs.Session.Worklist

/-!
# The base types of bindings

A binding that is found is based on a struct or on the name of a type
(`Session.HasStructs.hasStructBase`), and it stays so while other bindings are decomposed
(`Session.Within.hasStructBase_decomposeBinding`).
-/

namespace Fieldwise

open Node

namespace Engine

/-- What a variable gives way to, and the binding as it is now. -/
def expand (b : Binding) : Engine (Binding × Expansion) := do
  let b ← refresh b
  let decls ← synthesize b
  return (b, ← initialValues b decls)

theorem declareVariable_eq (b : Binding) : declareVariable b = (do
    let (b, x) ← expand b
    edit fun d => d.insertAfter b.decl (x.decls ++ x.after)
    edit fun d => d.insertBefore b.decl x.before
    record b
    return b) := by
  simp [declareVariable, expand]

end Engine

theorem Document.Knows.isA_decl [Discipline] {d : Document} {b : Binding} (h : d.Knows b) :
    ∀ y ∈ d.root.preorder, y.key = b.decl.key → y.isA .decl := fun y hy hk => by
  rw [isA, h.decl.cls (Document.mem_trees_of_root hy) hk]
  exact h.isDecl

namespace Session

variable {u : Subject} {s t v w : Session} {b b' c : Binding} {x : Expansion}

theorem run_edit_eq_ok {f : Document → Except Failure Document} {r : Unit} :
    s.run (Engine.edit f) = (.ok r, t) ↔
      ∃ d, f s.document = .ok d ∧ t = { s with document := d } := by
  rw [run_edit]
  cases f s.document with
  | ok d => simp [eq_comm]
  | error e => simp

variable [Discipline]

/-- What a variable gives way to is new. -/
theorem Within.of_expand (h : Within u s) (hb : s.document.Knows b)
    (hr : s.run (Engine.expand b) = (.ok (b', x), t)) :
    s.Same t ∧ b' = b.refresh s.document ∧ x.IsNew := by
  have hknows := hb.refresh h.sound.document
  suffices hs : s.Settles (Engine.expand b) fun r t =>
      s.Same t ∧ r.1 = b.refresh s.document ∧ r.2.IsNew from hs.of_ok hr
  unfold Engine.expand
  refine (settles_refresh s b).bind ?_
  rintro _ s ⟨rfl, rfl⟩
  refine (settles_synthesize _ _).bind ?_
  rintro _ t ⟨hst, rfl⟩
  have hkt : t.document.Knows (b.refresh s.document) := by rwa [hst.document]
  exact ((h.same hst).sound.settles_initialValues hkt hknows.isNew_fieldDecls).bind
    fun x v hx => .pure ⟨hst.trans hx.1, rfl, hx.2⟩

/-- How a variable is declared anew: what it gives way to is put after and before it. -/
structure Declaring (u : Subject) (s : Session) (b : Binding) (x : Expansion) (d₁ : Document)
    (w : Session) : Prop where
  isNew : x.IsNew
  after : s.document.insertAfter b.decl (x.decls ++ x.after) = .ok d₁
  before : d₁.insertBefore b.decl x.before = .ok w.document
  between : ∃ v, Proceeds u s v ∧ v.document = d₁ ∧ v.document.attached b.decl
  proceeds : Proceeds u s w
  attached : w.document.attached b.decl

theorem Within.of_declareVariable (h : Within u s) (hb : s.document.Knows b) (hu : u.Covers b)
    (ha : s.document.attached b.decl) (hp : b.isParam = false)
    (hr : s.run (Engine.declareVariable b) = (.ok b', w)) : ∃ x d₁,
      (∃ t, s.run (Engine.expand b) = (.ok (b', x), t)) ∧ b' = b.refresh s.document ∧
        Declaring u s b' x d₁ w := by
  have hdecl := (h.settles_declareVariable hb hu ha hp).of_ok hr
  rw [Engine.declareVariable_eq] at hr
  obtain ⟨⟨b₁, x⟩, t, ht, hr⟩ := run_bind_eq_ok.mp hr
  obtain ⟨hst, rfl, hx⟩ := h.of_expand hb ht
  obtain ⟨⟨⟩, v, hv, hr⟩ := run_bind_eq_ok.mp hr
  have hknows := hb.refresh h.sound.document
  have hkt : t.document.Knows (b.refresh s.document) := by rwa [hst.document]
  have hat : t.document.attached (b.refresh s.document).decl := by
    rw [hst.document, attached_refresh]
    exact ha
  obtain ⟨htv, hav⟩ := ((h.same hst).settles_insert hkt (hu.refresh hb)
    (hb.isParam_refresh.trans hp) hat (fun c hc => (List.mem_append.mp hc).elim (hx.decls c)
      fun hc => (hx.after c hc).toIsNew) true).of_ok hv
  obtain ⟨d₁, hd₁, rfl⟩ := run_edit_eq_ok.mp hv
  obtain ⟨⟨⟩, v, hv, hr⟩ := run_bind_eq_ok.mp hr
  obtain ⟨d₂, hd₂, rfl⟩ := run_edit_eq_ok.mp hv
  obtain ⟨⟨⟩, v, hv, hr⟩ := run_bind_eq_ok.mp hr
  cases hv
  cases hr
  rw [hst.document] at hd₁
  exact ⟨x, d₁, ⟨t, ht⟩, rfl, hx, hd₁, hd₂, ⟨_, (Proceeds.same h hst).trans htv, rfl, hav⟩,
    hdecl.toProceeds, hdecl.attached hp⟩

/-- The declaration of a variable stands in a list. -/
theorem Declared.isInList {p : Place} {y : Node} (hd : s.Declared b p y) (h : s.Sound)
    (hb : s.document.Knows b) (hp : b.isParam = false) : p.isInList :=
  (h.document.stands_decl hd.stands hd.decl fun hf => by rw [hd.block hb hp] at hf; cases hf).1

/-! ### Variables -/

section

variable (h : Within u s) (hb : s.document.Knows b) (ha : s.document.attached b.decl)
  (hp : b.isParam = false) (hc : s.document.Knows c) (hbase : s.document.HasStructBase c.decl)
include h hb ha hp hc hbase

theorem Within.hasStructBase_insert {new : List Node} (hnew : ∀ n ∈ new, n.IsNew) {after : Bool}
    {d : Document} (hd : s.document.insert b.decl new after = .ok d) :
    d.HasStructBase c.decl := by
  obtain ⟨p, y, hdecl⟩ := h.sound.exists_declared hb ha
  have hlist := hdecl.isInList h.sound hb hp
  obtain ⟨f, hf, hls, -⟩ := Document.isInList_iff.mp hlist
  have ht := h.sound.document.tidy
  rcases hdecl.stands.puts_insert ht (.inl hlist) (keyless_of_forall hnew) hd with
    ⟨rfl, -⟩ | ⟨-, j, -, hput⟩ | ⟨hno, -⟩
  · exact hbase
  · exact hbase.puts_list ht hc.decl.old hput hf hls hc.isA_decl
  · exact absurd hlist hno

theorem Within.hasStructBase_removeDeclaration
    (hr : s.run (Engine.removeDeclaration (b.refresh s.document)) = (.ok (), t)) :
    t.document.HasStructBase c.decl := by
  have hds := h.sound.document
  have hknows := hb.refresh hds
  obtain ⟨p, y, hdecl⟩ := h.sound.exists_declared hknows (by rwa [attached_refresh])
  have hlist := hdecl.isInList h.sound hknows (hb.isParam_refresh.trans hp)
  obtain ⟨f, hf, hls, -⟩ := Document.isInList_iff.mp hlist
  have hy : (b.refresh s.document).decl = y :=
    hds.current_eq (Document.mem_trees_of_root hdecl.stands.mem)
      (hdecl.stands.key.trans (Document.key_current _ _))
  unfold Engine.removeDeclaration at hr
  split at hr
  · rename_i T hdef
    obtain ⟨hT, hTs, -⟩ := definedType?_spec hdef
    obtain ⟨d, hd, rfl⟩ := run_edit_eq_ok.mp hr
    exact hbase.puts_list hds.tidy hc.decl.old
      (hdecl.stands.puts_bare hds.tidy (hy ▸ hT) hTs hd) hf hls hc.isA_decl
  · obtain ⟨d, hd, rfl⟩ := run_edit_eq_ok.mp hr
    obtain ⟨left, -, hput⟩ := hdecl.stands.puts_detach hds.tidy hd
    exact hbase.puts_list hds.tidy hc.decl.old hput hf hls hc.isA_decl

theorem Within.hasStructBase_declareVariable (hu : u.Covers b)
    (hr : s.run (Engine.declareVariable b) = (.ok b', w)) : w.document.HasStructBase c.decl := by
  obtain ⟨x, d₁, -, rfl, hdecl⟩ := h.of_declareVariable hb hu ha hp hr
  have hp' := hb.isParam_refresh.trans hp
  have hknows := hb.refresh h.sound.document
  obtain ⟨v, hsv, rfl, hav⟩ := hdecl.between
  have hv := h.hasStructBase_insert hknows (by rwa [attached_refresh]) hp' hc hbase
    (fun n hn => (List.mem_append.mp hn).elim (hdecl.isNew.decls n)
      fun hn => (hdecl.isNew.after n hn).toIsNew) hdecl.after
  exact hsv.hasStructBase_insert (hsv.knows hknows) hav hp' (hsv.knows hc) hv hdecl.isNew.before
    hdecl.before

end

/-! ### Uses -/

/-- The uses of a binding are in the program, and are made of its name. -/
theorem Within.of_mem_occurrences (h : Within u s) (hb : s.document.Knows b)
    (hd : b.isParam = false → s.document.attached b.decl) :
    ∀ n ∈ s.occurrences (b.refresh s.document), n ∈ preorderAll s.document.trees ∧
      n.form? = some (.ident b.name) := fun n hn =>
  have ⟨_, _, hoccur, _⟩ := h.exists_keeps hb hd
  ⟨(hoccur n hn).1, (hoccur n hn).2.1⟩

/-- While the uses of a binding are rewritten, nothing is taken out but links in which they are. -/
theorem Within.rewrites_rewrite (hl : Discipline.IsLax) (h : Within u s)
    (hb : s.document.Knows b) (hu : u.Covers b)
    (hd : b.isParam = false → s.document.attached b.decl) :
    s.Settles (Engine.rewrite b) fun _ t => Document.RewritesAt s.document t.document
      (s.occurrences (b.refresh s.document)) := by
  obtain ⟨S, hS, hoccur, -⟩ := h.exists_keeps hb hd
  unfold Engine.rewrite
  refine .get_bind (.get_bind ((settles_note _ _).bind fun _ t ht => ?_))
  refine ((hS.same ht).rewrites_rewriteAll hl (hb.refresh h.sound.document) hu.name hoccur).mono
    fun _ v hv => ?_
  have hst := hv.2
  rwa [ht.document] at hst

theorem Within.hasStructBase_rewrite (hl : Discipline.IsLax) (h : Within u s)
    (hb : s.document.Knows b) (hu : u.Covers b)
    (hd : b.isParam = false → s.document.attached b.decl) (hc : s.document.Knows c)
    (hbase : s.document.HasStructBase c.decl) (hr : s.run (Engine.rewrite b) = (.ok (), t)) :
    t.document.HasStructBase c.decl :=
  hbase.rewrites h.sound.document.tidy hc.decl.old
    ((h.rewrites_rewrite hl hb hu hd).of_ok hr).rewrites
    ((h.settles_rewrite hb hu hd).of_ok hr).1.sound.document.tidy hc.isA_decl

theorem Within.hasStructBase_decomposeVariable (hl : Discipline.IsLax) (h : Within u s)
    (hb : s.document.Knows b) (hu : u.Covers b) (ha : s.document.attached b.decl)
    (hp : b.isParam = false) (hc : s.document.Knows c) (hbase : s.document.HasStructBase c.decl)
    (hr : s.run (Engine.decomposeVariable b) = (.ok (), t)) :
    t.document.HasStructBase c.decl := by
  rw [Engine.decomposeVariable_eq] at hr
  obtain ⟨b', w, hw, hr⟩ := run_bind_eq_ok.mp hr
  obtain ⟨⟨⟩, v, hv, hr⟩ := run_bind_eq_ok.mp hr
  obtain ⟨_, _, hrefresh, hr⟩ := run_bind_eq_ok.mp hr
  cases hrefresh
  have hbw := h.hasStructBase_declareVariable hb ha hp hc hbase hu hw
  obtain ⟨hsw, rfl, -, haw⟩ := (h.settles_declareVariable hb hu ha hp).of_ok hw
  have hp' := hb.isParam_refresh.trans hp
  have hkw := hsw.knows (hb.refresh h.sound.document)
  have hbv := hsw.hasStructBase_rewrite hl hkw (hu.refresh hb) (fun _ => haw hp) (hsw.knows hc)
    hbw hv
  obtain ⟨hwv, hav⟩ := (hsw.settles_rewrite hkw (hu.refresh hb) fun _ => haw hp).of_ok hv
  exact hwv.hasStructBase_removeDeclaration (hwv.knows hkw) (hav hp') hp'
    (hwv.knows (hsw.knows hc)) hbv hr

/-! ### Parameters -/

/-- The declarations of the field variables of a parameter come in its place. -/
theorem Within.puts_declareParam (h : Within u s) (hb : s.document.Knows b)
    (ha : s.document.attached b.decl) (hr : s.run (Engine.declareParam b) = (.ok b', w)) :
    ∃ p y, s.Declared (b.refresh s.document) p y ∧ p.isInList ∧
      Document.Puts s.document w.document p.parent (p.parent.parts.take p.index ++
        (stampAll s.document.next (b.refresh s.document).fieldDecls).1 ++
        p.parent.parts.drop (p.index + 1)) := by
  unfold Engine.declareParam at hr
  obtain ⟨_, _, hrefresh, hr⟩ := run_bind_eq_ok.mp hr
  cases hrefresh
  obtain ⟨decls, t, ht, hr⟩ := run_bind_eq_ok.mp hr
  obtain ⟨hst, rfl⟩ := (settles_synthesize _ _).of_ok ht
  obtain ⟨⟨⟩, v, hv, hr⟩ := run_bind_eq_ok.mp hr
  obtain ⟨d, hd, rfl⟩ := run_edit_eq_ok.mp hv
  obtain ⟨⟨⟩, v, hv, hr⟩ := run_bind_eq_ok.mp hr
  cases hv
  obtain ⟨⟨⟩, v, hv, hr⟩ := run_bind_eq_ok.mp hr
  cases hr
  rw [((settles_note _ _).of_ok hv).document]
  have hknows := hb.refresh h.sound.document
  obtain ⟨p, y, hdecl⟩ := h.sound.exists_declared hknows (by rwa [attached_refresh])
  rw [hst.document] at hd
  exact ⟨p, y, hdecl, hdecl.stands.puts_splice h.sound.document.tidy
    (keyless_of_forall hknows.isNew_fieldDecls) hd⟩

theorem Within.hasStructBase_declareParam (h : Within u s) (hb : s.document.Knows b)
    (ha : s.document.attached b.decl) (hc : s.document.Knows c)
    (hbase : s.document.HasStructBase c.decl)
    (hr : s.run (Engine.declareParam b) = (.ok b', w)) : w.document.HasStructBase c.decl := by
  obtain ⟨p, y, -, hlist, hput⟩ := h.puts_declareParam hb ha hr
  obtain ⟨f, hf, hls, -⟩ := Document.isInList_iff.mp hlist
  exact hbase.puts_list h.sound.document.tidy hc.decl.old hput hf hls hc.isA_decl

/-- While declarations of functions are given other types, each declaration that is none of them
keeps its base type. -/
theorem hasStructBase_retypes {d d' : Document} {F : Node} {ns : List Node}
    (hr : Document.Retypes F d ns d')
    (hd : ∀ n ∈ ns, d.Tracks n ∧ n.isA .decl ∧ n.key ≠ c.decl.key) (hc : d.Knows c)
    (hbase : d.HasStructBase c.decl) : d'.HasStructBase c.decl := by
  induction hr with
  | nil => exact hbase
  | @cons d d' n ns hs hs' hcont _ ih =>
    obtain ⟨htracks, hdecl, hne⟩ := hd n List.mem_cons_self
    refine ih (fun m hm => ?_) (hc.continues hcont hs') (hbase.setType hs.tidy hc.decl.old
      (keyless_copy _) hne fun y hy hk => ?_)
    · obtain ⟨hm, hrest⟩ := hd m (List.mem_cons_of_mem _ hm)
      exact ⟨hm.continues hcont hs', hrest⟩
    · rw [isA, htracks.cls (Document.mem_trees_of_root hy) hk]
      exact hdecl

theorem Within.hasStructBase_decomposeParam (hl : Discipline.IsLax) (h : Within u s)
    (hb : s.document.Knows b) (hu : u.Covers b) (ha : s.document.attached b.decl)
    (hp : b.isParam) (hc : s.document.Knows c) (hbase : s.document.HasStructBase c.decl)
    (hr : s.run (Engine.decomposeParam b) = (.ok (), t)) : t.document.HasStructBase c.decl := by
  rw [Engine.decomposeParam_eq] at hr
  obtain ⟨b', w, hw, hr⟩ := run_bind_eq_ok.mp hr
  obtain ⟨⟨⟩, v, hv, hr⟩ := run_bind_eq_ok.mp hr
  have hbw := h.hasStructBase_declareParam hb ha hc hbase hw
  obtain ⟨hsw, rfl, -, -⟩ := (h.settles_declareParam hb hu ha hp).of_ok hw
  have hp' := hb.isParam_refresh.trans hp
  have hd : (b.refresh s.document).isParam = false →
      w.document.attached (b.refresh s.document).decl := fun hn => by rw [hp'] at hn; cases hn
  have hkw := hsw.knows (hb.refresh h.sound.document)
  have hbv := hsw.hasStructBase_rewrite hl hkw (hu.refresh hb) hd (hsw.knows hc) hbw hv
  obtain ⟨hwv, -⟩ := (hsw.settles_rewrite hkw (hu.refresh hb) hd).of_ok hv
  have hcv := hwv.knows (hsw.knows hc)
  refine hasStructBase_retypes ((hwv.settles_updatePrototypes (hwv.knows hkw) (hu.refresh hb)
    hp').of_ok hr).2 (fun n hn => ?_) hcv hbv
  -- What declares a function is no binding.
  obtain ⟨hnm, hnd, hnf, -⟩ := mem_prototypes (hwv.knows hkw) hp' hwv.sound hn
  have hnt := Document.mem_trees_of_root hnm
  refine ⟨.of_mem hwv.sound.document hnt, hnd, fun hk => ?_⟩
  have := hcv.decl.gain n hnt hk hnf
  rw [hcv.layers] at this
  cases this

/-- **A binding keeps its base type** while another one is decomposed. -/
theorem Within.hasStructBase_decomposeBinding (hl : Discipline.IsLax) (h : Within u s)
    (hb : s.document.Knows b) (hu : u.Covers b) (ha : s.document.attached b.decl)
    (hc : s.document.Knows c) (hbase : s.document.HasStructBase c.decl)
    (hr : s.run (Engine.decomposeBinding b) = (.ok (), t)) : t.document.HasStructBase c.decl := by
  unfold Engine.decomposeBinding at hr
  split at hr
  · rename_i hp
    exact h.hasStructBase_decomposeParam hl hb hu ha hp hc hbase hr
  · rename_i hp
    exact h.hasStructBase_decomposeVariable hl hb hu ha (by simpa using hp) hc hbase hr

end Session

end Fieldwise
