import Fieldwise.Proofs.Document.Items
import Fieldwise.Proofs.Session.Stepwise

/-!
# Prototypes are found by name

After a parameter was replaced, other declarations are given the type in the head of the definition.
Which of them depends on the name and on the form of the type alone: all that declare the name of
the function as that of a function get it, wherever they stand and whatever they declare, and
everything else stays as it is (`Session.Reached.decomposeBinding_retypes`).
-/

namespace Fieldwise

open Node

namespace Document

variable {d d' : Document} {F n m x y z type : Node} {ns : List Node}

/-- How a node `x` looks after the types of the declarations `ns` were exchanged: like `y`. -/
structure Keeps (ns : List Node) (x y : Node) : Prop where
  key : y.key = x.key
  form : y.form? = x.form?
  same : (∀ n ∈ ns, n.occursIn x = false) → y = x
  type : (∀ n ∈ ns, n.key ≠ x.key ∧ n.occursIn (x.child .type) = false) →
    y.child .type = x.child .type

namespace Keeps

theorem refl (ns : List Node) (x : Node) : Keeps ns x x := ⟨rfl, rfl, fun _ => rfl, fun _ => rfl⟩

theorem cons (h : Keeps [n] x z) (h' : Keeps ns z y) : Keeps (n :: ns) x y where
  key := h'.key.trans h.key
  form := h'.form.trans h.form
  same hno := by
    obtain ⟨hn, hns⟩ := List.forall_mem_cons.mp hno
    obtain rfl := h.same (by simpa using hn)
    exact h'.same hns
  type hno := by
    obtain ⟨hn, hns⟩ := List.forall_mem_cons.mp hno
    have htype := h.type (by simpa using hn)
    rw [← htype]
    exact h'.type fun m hm => by rw [h.key, htype]; exact hns m hm

end Keeps

/-! ### One declaration -/

/-- What is in the program after a declaration was given another type was there before, or is
new. -/
theorem keeps_setType (ht : d.Tidy) (hn : ∀ x ∈ d.root.preorder, x.key = n.key → x.isA .decl)
    (hty : Keyless [type]) (hy : y ∈ (d.setType n type).root.preorder)
    (ho : IsOld d.next y) : ∃ x ∈ d.root.preorder, Keeps [n] x y ∧
      (y.key = n.key → y.child .type = (type.stamp d.next).1) := by
  cases ha : d.attached n with
  | false =>
    rw [root_setType ha] at hy
    refine ⟨y, hy, .refl _ _, fun hk => ?_⟩
    obtain ⟨k, hyk⟩ := ht.woven.exists_key (mem_trees_of_root hy)
    exact (Bool.eq_false_iff.mp ha (attached_iff.mpr
      ⟨y, hy, hk, by rw [← hk, hyk]; rfl⟩)).elim
  | true =>
    obtain ⟨P, hP, hk, -⟩ := attached_iff.mp ha
    have hput := puts_setType ht hP hk hty
    rcases hput.of_mem_root ht hy with ⟨x, hx, rfl⟩ | ⟨-, hnew⟩
    case inr => exact (hnew ho).elim
    obtain ⟨hyk, hyf⟩ := hput.form?_grafted ht x
    have htree := mem_trees_of_root hx
    -- Where the declaration does not occur, nothing is exchanged.
    have hself : ∀ c : Node, (c.isPresent → c ∈ preorderAll d.trees) → n.occursIn c = false →
        grafted P _ c = c := fun c hc hno => hput.grafted_eq_self ht hc fun hm => by
      rw [occursIn, List.any_eq_false] at hno
      exact hno P hm (by simp [hk])
    refine ⟨x, hx, ⟨hyk, hyf, fun hno => hself x (fun _ => htree) (hno n (by simp)), fun hno => ?_⟩,
      fun hxk => ?_⟩
    · obtain ⟨hne, hno⟩ := hno n (by simp)
      have hxP : x ≠ P := by
        rintro rfl
        exact hne hk.symm
      rw [hput.child_grafted ht htree hxP]
      exact hself _ (fun hp => mem_trees_of_root (mem_preorder_trans (child_mem_preorder hp) hx))
        hno
    · obtain rfl := ht.eq_of_key htree (mem_trees_of_root hP) (hyk.symm.trans (hxk.trans hk.symm))
      exact hput.child_setType ht (hn x hx hk)

variable [Discipline]

/-- A definition at the top of the file keeps a head in which the declaration does not occur. -/
theorem headType_setType (hs : d.Sound) (hs' : (d.setType n type).Sound)
    (hn : ∀ x ∈ d.root.preorder, x.key = n.key → x.isA .decl) (hty : Keyless [type])
    (hF : d.current F ∈ d.root.parts) (hf : (d.current F).isA .funcDef)
    (hno : n.occursIn ((d.current F).child .decl) = false) :
    (d.setType n type).current F ∈ (d.setType n type).root.parts ∧
      ((d.setType n type).current F).isA .funcDef ∧
      ((d.setType n type).current F).child .decl = (d.current F).child .decl := by
  have ht := hs.tidy
  have hFm := mem_preorder_of_part hs.root_mem hF (isPresent_of_isA hf)
  suffices ∃ G ∈ (d.setType n type).root.parts, G.key = (d.current F).key ∧
      G.form? = (d.current F).form? ∧ G.child .decl = (d.current F).child .decl by
    obtain ⟨G, hG, hk, hform, hdecl⟩ := this
    have hGf : G.isA .funcDef := by rwa [isA, cls?_congr hform, ← isA]
    have hcur : (d.setType n type).current F = G := hs'.current_eq
      (mem_trees_of_root (mem_preorder_of_part hs'.root_mem hG (isPresent_of_isA hGf)))
      (hk.trans (key_current d F))
    rw [hcur]
    exact ⟨hG, hGf, hdecl⟩
  cases ha : d.attached n with
  | false => exact ⟨_, by rwa [root_setType ha], rfl, rfl, rfl⟩
  | true =>
    obtain ⟨P, hP, hk, -⟩ := attached_iff.mp ha
    have hput := puts_setType ht hP hk hty
    have hPd := hn P hP hk
    obtain ⟨hGk, hGf⟩ := hput.form?_grafted ht (d.current F)
    have hne : d.current F ≠ P := by
      rintro heq
      rw [heq, isA_of_ne hPd (by decide)] at hf
      cases hf
    refine ⟨_, hput.mem_parts_root ht hF (isPresent_of_isA hf) fun hroot => ?_, hGk, hGf, ?_⟩
    · rw [← hroot, isA_of_ne hs.file (by decide)] at hPd
      cases hPd
    · rw [hput.child_grafted ht (mem_trees_of_root hFm) hne]
      refine hput.grafted_eq_self ht
        (fun hp => mem_trees_of_root (mem_preorder_trans (child_mem_preorder hp) hFm)) fun hm => ?_
      rw [occursIn, List.any_eq_false] at hno
      exact hno P hm (by simp [hk])

/-! ### All declarations -/

theorem Tracks.isA_decl (h : d.Tracks n) (hn : n.isA .decl) :
    ∀ x ∈ d.root.preorder, x.key = n.key → x.isA .decl := fun x hx hk => by
  rwa [isA, h.cls (mem_trees_of_root hx) hk]

namespace Retypes

/-- **What is in the program afterwards** was there before, and looks the same but for the types of
the declarations. -/
theorem keeps (h : Retypes F d ns d') (hns : ∀ n ∈ ns, d.Tracks n ∧ n.isA .decl)
    (hy : y ∈ d'.root.preorder) (ho : IsOld d.next y) : ∃ x ∈ d.root.preorder, Keeps ns x y := by
  induction h with
  | nil => exact ⟨y, hy, .refl _ _⟩
  | @cons d d' n ns hs hs' hcont _ ih =>
    obtain ⟨⟨hn, hnd⟩, hns⟩ := List.forall_mem_cons.mp hns
    obtain ⟨z, hz, hzy⟩ := ih (fun m hm => (hns m hm).imp_left fun h => h.continues hcont hs') hy
      (isOld_mono ho hcont.next)
    obtain ⟨x, hx, hxz, -⟩ := keeps_setType hs.tidy (hn.isA_decl hnd)
      (keyless_copy (d.headType F)) hz (isOld_of_key ho hzy.key)
    exact ⟨x, hx, hxz.cons hzy⟩

/-- **The declarations have the type in the head of the definition**, if none of them occurs in
that. -/
theorem types (h : Retypes F d ns d') (hns : ∀ n ∈ ns, d.Tracks n ∧ n.isA .decl)
    (hold : ∀ n ∈ ns, IsOld d.next n) (hF : d.current F ∈ d.root.parts)
    (hf : (d.current F).isA .funcDef)
    (hno : ∀ n ∈ ns, n.occursIn ((d.current F).child .decl) = false) :
    ∀ n ∈ ns, ∀ y ∈ d'.root.preorder, y.key = n.key →
      (y.child .type).copy = (d.headType F).copy := by
  induction h with
  | nil => simp
  | @cons d d' n ns hs hs' hcont hrest ih =>
    obtain ⟨⟨hn, hnd⟩, hns⟩ := List.forall_mem_cons.mp hns
    obtain ⟨hnf, hno⟩ := List.forall_mem_cons.mp hno
    obtain ⟨hnold, hold⟩ := List.forall_mem_cons.mp hold
    have hns' := fun m hm => (hns m hm).imp_left fun h => h.continues hcont hs'
    have hty := keyless_copy (d.headType F)
    obtain ⟨hF', hf', hhead⟩ := headType_setType hs hs' (hn.isA_decl hnd) hty hF hf hnf
    have htype : (d.setType n (d.headType F).copy).headType F = d.headType F := by
      rw [headType, hhead, ← headType]
    have hrec : ∀ m ∈ ns, ∀ y ∈ d'.root.preorder, y.key = m.key →
        (y.child .type).copy = (d.headType F).copy := fun m hm y hy hk => by
      rw [ih hns' (fun m hm => isOld_mono (hold m hm) hcont.next) hF' hf' (by rwa [hhead]) m hm y hy
        hk, htype]
    refine List.forall_mem_cons.mpr ⟨fun y hy hk => ?_, hrec⟩
    by_cases hagain : ∃ m ∈ ns, m.key = n.key
    · obtain ⟨m, hm, hmn⟩ := hagain
      exact hrec m hm y hy (hk.trans hmn.symm)
    -- Its new type is made of new nodes, so it stays as it is.
    have ho := isOld_of_key hnold hk.symm
    obtain ⟨z, hz, hzy⟩ := hrest.keeps hns' hy (isOld_mono ho hcont.next)
    obtain ⟨-, -, -, hstamp⟩ := keeps_setType hs.tidy (hn.isA_decl hnd) hty hz
      (isOld_of_key ho hzy.key)
    have hz' := hstamp (hzy.key.symm.trans hk)
    rw [hzy.type fun m hm => ⟨fun hmz => hagain ⟨m, hm, ?_⟩, ?_⟩, hz', copy_stamp, copy_copy]
    · rw [hmz, ← hzy.key, hk]
    · rw [hz', occursIn, List.any_eq_false]
      intro w hw hwm
      exact not_isOld_stampAll hty (stampAll_singleton d.next _ ▸ mem_preorderAll_singleton.mpr hw)
        (isOld_of_key (hold m hm) (beq_iff_eq.mp hwm).symm)

end Retypes

/-! ### Definitions at the top of the file -/

/-- An item of the file that is no expression stays while expressions are rewritten. -/
theorem RewritesAt.exists_item {name : String} (h : RewritesAt d d' ns) (hs : d.Sound)
    (hs' : d'.Sound) (hc : Continues d d')
    (hns : ∀ m ∈ ns, m ∈ preorderAll d.trees ∧ m.form? = some (.ident name))
    (hx : x ∈ d.root.parts) (hl : x.isLink = false) : ∃ y ∈ d'.root.parts, y.key = x.key := by
  have hrows := h.rows hs.tidy hns hs.root_mem (isBlock_of_isA hs.file) hs'.root_mem hc.root
  obtain ⟨us, vs, hparts⟩ := List.append_of_mem hx
  rw [hparts] at hrows
  obtain ⟨us', rest, hparts', -, hrest⟩ := hrows.exists_append
  cases hrest with
  | cons hrow _ =>
    obtain ⟨y, rfl, hk, -⟩ := hrow.of_not_isLink hl
    exact ⟨y, by simp [hparts'], hk⟩

end Document

namespace Session

variable {u : Subject} {s t v w : Session} {b b' : Binding} {bs : List Binding}

section

variable [Discipline]

/-- The definition of a parameter is the item with its key. -/
theorem Sound.scope_mem_items (h : s.Sound) (hb : s.document.Knows b) (hp : b.isParam)
    (hF : ∃ F ∈ s.document.root.parts, F.key = b.scope.key) :
    s.document.current b.scope ∈ s.document.root.parts ∧
      (s.document.current b.scope).isA .funcDef := by
  obtain ⟨_, hFm, rfl, hk, hdef, -, -⟩ := h.exists_head hb hp
  obtain ⟨F, hF, hFk⟩ := hF
  obtain ⟨k, hkey⟩ := h.document.woven.exists_key hFm
  have hm := mem_preorder_of_part h.document.root_mem hF
    (isPresent_of_key (hFk.trans (hk.symm.trans hkey)))
  rw [h.document.current_eq (Document.mem_trees_of_root hm) hFk] at hdef ⊢
  exact ⟨hF, hdef⟩

/-- The definition of a parameter is an item still after that was replaced. -/
theorem Within.exists_item_declareParam (h : Within u s) (hb : s.document.Knows b)
    (ha : s.document.attached b.decl) (hp : b.isParam)
    (hF : ∃ F ∈ s.document.root.parts, F.key = b.scope.key)
    (hr : s.run (Engine.declareParam b) = (.ok b', w)) :
    ∃ F ∈ w.document.root.parts, F.key = b.scope.key := by
  obtain ⟨hF, hf⟩ := h.sound.scope_mem_items hb hp hF
  obtain ⟨p, y, hdecl, -, hput⟩ := h.puts_declareParam hb ha hr
  refine ⟨_, hput.mem_parts_root h.sound.document.tidy hF (isPresent_of_isA hf) fun hroot => ?_,
    (hput.form?_grafted h.sound.document.tidy _).1.trans (Document.key_current _ _)⟩
  -- The parameter itself is no definition.
  rw [hroot, hdecl.stands.split] at hF
  rcases List.mem_append.mp hF with hF | hF
  · exact List.mem_append_left _ (List.mem_append_left _ hF)
  · rcases List.mem_cons.mp hF with heq | hF
    · rw [heq, isA_of_ne hdecl.decl (by decide)] at hf
      cases hf
    · exact List.mem_append_right _ hF

/-- It is one still after the uses were rewritten. -/
theorem Within.exists_item_rewrite (hl : Discipline.IsLax) (h : Within u s)
    (hb : s.document.Knows b) (hu : u.Covers b) (hp : b.isParam)
    (hF : ∃ F ∈ s.document.root.parts, F.key = b.scope.key)
    (hr : s.run (Engine.rewrite b) = (.ok (), t)) :
    ∃ F ∈ t.document.root.parts, F.key = b.scope.key := by
  have hd : b.isParam = false → s.document.attached b.decl := fun hn => by
    rw [hp] at hn
    cases hn
  obtain ⟨hF, hf⟩ := h.sound.scope_mem_items hb hp hF
  have hst := ((h.settles_rewrite hb hu hd).of_ok hr).1
  have hlink : (s.document.current b.scope).isLink = false := Bool.eq_false_iff.mpr fun hlink => by
    rw [(isBlock_of_isLink hlink).2.1] at hf
    cases hf
  obtain ⟨y, hy, hk⟩ := ((h.rewrites_rewrite hl hb hu hd).of_ok hr).exists_item h.sound.document
    hst.sound.document hst.continues (h.of_mem_occurrences hb hd) hF hlink
  exact ⟨y, hy, hk.trans (Document.key_current _ _)⟩

end

/-- **Which declarations are given another type depends on their names alone.** After the parameter
was replaced and its uses were rewritten, everything in which no declaration stands that has the
name of the function and is that of a function stays as it is, and all of these declarations have
the type in the head of the definition in the end, unless one of them stands in that head. -/
theorem Reached.decomposeBinding_retypes (hs : Reached s bs) (hb : b ∈ bs) (hp : b.isParam)
    (ha : s.document.attached b.decl)
    (hF : ∃ F ∈ s.document.root.parts, F.key = b.scope.key)
    (hr : s.run (Engine.decomposeBinding b) = (.ok (), t)) :
    ∃ b' w v F, s.run (Engine.declareParam b) = (.ok b', w) ∧
      w.run (Engine.rewrite b') = (.ok (), v) ∧
      v.run (Engine.updatePrototypes b'.scope) = (.ok (), t) ∧
      F ∈ v.document.root.parts ∧ F.key = b.scope.key ∧
      (∀ y ∈ t.document.root.preorder, IsOld v.document.next y →
        ∃ x ∈ v.document.root.preorder, Document.Keeps (v.prototypes F) x y) ∧
      ((∀ n ∈ v.prototypes F, n.occursIn (F.child .decl) = false) →
        ∀ n ∈ v.prototypes F, ∀ y ∈ t.document.root.preorder, y.key = n.key →
          (y.child .type).copy = ((F.child .decl).child .type).copy) := by
  let _ : Discipline := ⟨False, False⟩
  have hl : Discipline.IsLax := ⟨id, id⟩
  have hready := hs.ready hl
  have h := hready.within
  have hknows := hready.knows b hb
  have hu := hready.covers hb
  rw [Engine.decomposeBinding, if_pos hp, Engine.decomposeParam_eq] at hr
  obtain ⟨b', w, hw, hr⟩ := run_bind_eq_ok.mp hr
  obtain ⟨⟨⟩, v, hv, hr⟩ := run_bind_eq_ok.mp hr
  -- The definition is an item of the file still when prototypes are looked for.
  have hFw := h.exists_item_declareParam hknows ha hp hF hw
  obtain ⟨hsw, rfl, -, -⟩ := (h.settles_declareParam hknows hu ha hp).of_ok hw
  have hkw := hsw.knows (hknows.refresh h.sound.document)
  have hp' := hknows.isParam_refresh.trans hp
  have hkey : (b.refresh s.document).scope.key = b.scope.key := Document.key_current _ _
  have hFv := hsw.exists_item_rewrite hl hkw (hu.refresh hknows) hp' (by rwa [hkey]) hv
  obtain ⟨hwv, -⟩ := (hsw.settles_rewrite hkw (hu.refresh hknows) fun hn => by
    rw [hp'] at hn; cases hn).of_ok hv
  have hkv := hwv.knows hkw
  obtain ⟨hFm, hFd⟩ := hwv.sound.scope_mem_items hkv hp' hFv
  -- What is found declares functions.
  have hns := fun n hn => mem_prototypes hkv hp' hwv.sound (c := n) hn
  have htracks := fun n hn => And.intro
    (Document.Tracks.of_mem hwv.sound.document (Document.mem_trees_of_root (hns n hn).1))
    (hns n hn).2.1
  have hretypes := ((hwv.settles_updatePrototypes hkv (hu.refresh hknows) hp').of_ok hr).2
  exact ⟨_, w, v, _, hw, hv, hr, hFm, (Document.key_current _ _).trans hkey,
    fun y hy ho => hretypes.keeps htracks hy ho,
    hretypes.types htracks (fun n hn => hwv.sound.document.bound n
      (Document.mem_trees_of_root (hns n hn).1)) hFm hFd⟩

/-- A function, and another one with a parameter that has its name and is a function. -/
def callback : String :=
  "struct S \x7bint a;\x7d; int f(struct S *s) \x7b return s->a; \x7d " ++
    "int apply(int f(int), int v) \x7b return f(v); \x7d"

theorem Reached.decomposeBinding_retypes_callback : ∃ s bs b t,
    firstDecomposition callback = some (s, bs, b, t) ∧
    ∃ b' w v F, s.run (Engine.declareParam b) = (.ok b', w) ∧
      w.run (Engine.rewrite b') = (.ok (), v) ∧
      v.run (Engine.updatePrototypes b'.scope) = (.ok (), t) ∧
      F ∈ v.document.root.parts ∧ F.key = b.scope.key ∧
      (∀ y ∈ t.document.root.preorder, IsOld v.document.next y →
        ∃ x ∈ v.document.root.preorder, Document.Keeps (v.prototypes F) x y) ∧
      ((∀ n ∈ v.prototypes F, n.occursIn (F.child .decl) = false) →
        ∀ n ∈ v.prototypes F, ∀ y ∈ t.document.root.preorder, y.key = n.key →
          (y.child .type).copy = ((F.child .decl).child .type).copy) := by
  have h : (firstDecomposition callback).any (fun r => r.2.2.1.isParam && decide
      (∃ F ∈ r.1.document.root.parts, F.key = r.2.2.1.scope.key)) = true := by decide +kernel
  obtain ⟨⟨s, bs, b, t⟩, hf, hp⟩ := (Option.any_eq_true _ _).mp h
  obtain ⟨hs, hb, ha, hr⟩ := firstDecomposition_spec hf
  obtain ⟨hp, hF⟩ := Bool.and_eq_true_iff.mp hp
  exact ⟨s, bs, b, t, hf, hs.decomposeBinding_retypes hb hp ha (of_decide_eq_true hF) hr⟩

/-- A parameter that only has the name of the function does not keep its type: the function that it
is has a parameter of another name afterwards. -/
theorem not_keeps_parameter_callback : ∃ s bs b t,
    firstDecomposition callback = some (s, bs, b, t) ∧
    ∃ P ∈ s.document.root.preorder, P.isA .paramList ∧ ∃ x ∈ P.parts, x.name? = some "f" ∧
      ∃ y ∈ t.document.root.preorder, y.key = x.key ∧
        ((y.child .type).child .args).parts.map name? ≠
          ((x.child .type).child .args).parts.map name? := by
  have h : (firstDecomposition callback).any (fun r => decide
      (∃ P ∈ r.1.document.root.preorder, P.isA .paramList ∧ ∃ x ∈ P.parts, x.name? = some "f" ∧
        ∃ y ∈ r.2.2.2.document.root.preorder, y.key = x.key ∧
          ((y.child .type).child .args).parts.map name? ≠
            ((x.child .type).child .args).parts.map name?)) = true := by decide +kernel
  obtain ⟨⟨s, bs, b, t⟩, hf, h⟩ := (Option.any_eq_true _ _).mp h
  exact ⟨s, bs, b, t, hf, of_decide_eq_true h⟩

end Session

end Fieldwise
