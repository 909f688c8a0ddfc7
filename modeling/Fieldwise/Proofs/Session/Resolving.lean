import Fieldwise.Proofs.Session.Reachable

/-!
# The uses that a name means

What a name means is looked up from a use to the scopes around it (`Session.lookup`), and the uses
of a binding are searched from its scope down (`Session.occurrences`), where a subtree is left out
if the name is hidden there. The two agree in one direction: a use inside the searched root that
means the binding is among the occurrences (`Session.Sound.mem_occurrences`), in every session that
decompositions go through (`Session.Visited.occurrences_complete`). A scope that the lookup passes
hides nothing on the way down, and the scope at which it ends holds the scope of the binding.
-/

namespace Fieldwise

open Node

namespace Session

variable {s t : Session} {b b' : Binding} {name : String} {c n p decl last : Node}
  {items scopes above : List Node} {k : Nat}

/-! ### Declarations among items -/

/-- A name that no item up to a node declares is not hidden at the node. -/
theorem hiddenAt_eq_false (h : declaredAmong name c items = none) :
    hiddenAt name c false items = false := by
  induction items with
  | nil => rfl
  | cons item rest ih =>
    unfold declaredAmong at h
    unfold hiddenAt
    cases hd : declares name item with
    | true => simp [hd] at h
    | false =>
      cases hs : item.same c with
      | true => simp
      | false => simpa using ih (by simpa [hd, hs] using h)

/-- A name that is not declared up to an item is declared by none if the item is not one of them. -/
theorem any_declares_eq_false (h : declaredAmong name last items = none)
    (hl : ∀ i ∈ items, i.same last = false) : items.any (declares name) = false := by
  induction items with
  | nil => rfl
  | cons item rest ih =>
    unfold declaredAmong at h
    rw [hl item List.mem_cons_self] at h
    rw [List.any_cons]
    cases hd : declares name item with
    | true => simp [hd] at h
    | false =>
      exact ih (by simpa [hd] using h) fun i hi => hl i (List.mem_cons_of_mem _ hi)

/-! ### Looking up -/

/-- A name that is used below the node `c` means a binding, with these scopes above that node. -/
inductive Resolves (s : Session) (name : String) : Node → List Node → Binding → Prop where
  /-- The scope has a decomposed binding of the name. -/
  | recorded {c p : Node} {above : List Node} {e : Decomposed} : e ∈ s.decomposed →
    e.isFor p name → Resolves s name c (p :: above) (e.binding.refresh s.document)
  /-- The scope declares the name. -/
  | declared {c p decl : Node} {above : List Node} {b : Binding} : decl ∈ itemsOf p →
    decl.isA .decl → s.verdictOn decl = .ok (.binding b) → Resolves s name c (p :: above) b
  /-- The scope knows nothing of the name. -/
  | outer {c p : Node} {above : List Node} {b : Binding} : s.decomposedIn? p name = none →
    declaredAmong name c (itemsOf p) = none → Resolves s name p above b →
    Resolves s name c (p :: above) b

theorem verdictOn_of_classify {log : List Entry} {quiet : Bool}
    (h : ((s.classify decl quiet).run.run log).1 = .ok (some b)) :
    s.verdictOn decl = .ok (.binding b) := by
  unfold classify at h
  cases hv : s.verdictOn decl with
  | error f =>
    rw [hv] at h
    cases h
  | ok v =>
    rw [hv] at h
    cases v with
    | unrelated => cases h
    | skipped reason => cases h
    | binding b' =>
      cases h
      rfl

theorem resolves_of_lookupIn {log : List Entry}
    (h : ((s.lookupIn name c scopes).run.run log).1 = .ok (some b)) :
    s.Resolves name c scopes b := by
  induction scopes generalizing c with
  | nil => cases h
  | cons p above ih =>
    unfold lookupIn at h
    cases hd : s.decomposedIn? p name with
    | some b' =>
      rw [hd] at h
      obtain ⟨e, he, rfl⟩ := Option.map_eq_some_iff.mp hd
      cases h
      have hfor := List.find?_some he
      exact .recorded (List.mem_of_find?_eq_some he) hfor
    | none =>
      rw [hd] at h
      cases ha : declaredAmong name c (itemsOf p) with
      | some decl =>
        simp only [ha] at h
        obtain ⟨hm, hc⟩ := declaredAmong_spec ha
        exact .declared hm hc (verdictOn_of_classify h)
      | none =>
        simp only [ha] at h
        exact .outer hd ha (ih h)

/-! ### Uses -/

/-- The bindings of a session: those that a declaration is, and those that were decomposed. -/
inductive Bound (s : Session) : Binding → Prop where
  | declared {decl : Node} {b : Binding} : decl ∈ s.document.root.preorder → decl.isA .decl →
    s.verdictOn decl = .ok (.binding b) → Bound s b
  | recorded {e : Decomposed} : e ∈ s.decomposed → Bound s (e.binding.refresh s.document)

/-- What is searched for the uses of a binding: its scope, or the body of the function whose
parameter it is. -/
def searched (b : Binding) : Node := if b.isParam then b.scope.child .body else b.scope

/-- A use of a binding: a name inside what is searched and outside the declaration, which means a
binding of the same declaration by the lookup. -/
structure IsUse (s : Session) (n : Node) (b : Binding) : Prop where
  mem : n ∈ s.document.root.preorder
  form : n.form? = some (.ident b.name)
  label : s.document.isLabel n = false
  inside : ∃ x ∈ n :: s.document.ancestors n, x.same (searched b)
  outside : ∀ x ∈ n :: s.document.ancestors n, x.same b.decl = false
  means : ∃ log b', ((s.lookup n b.name).run.run log).1 = .ok (some b') ∧ b'.decl.same b.decl

/-- Whether a node of the program is a use of a binding. -/
def isUse (s : Session) (n : Node) (b : Binding) : Bool :=
  n.form? == some (.ident b.name) && !s.document.isLabel n &&
    (n :: s.document.ancestors n).any (·.same (searched b)) &&
    (n :: s.document.ancestors n).all (fun x => !x.same b.decl) &&
    match ((s.lookup n b.name).run.run s.log).1 with
    | .ok (some b') => b'.decl.same b.decl
    | _ => false

theorem isUse_spec (hmem : n ∈ s.document.root.preorder) (h : s.isUse n b) : s.IsUse n b := by
  simp only [isUse, Bool.and_eq_true, beq_iff_eq, List.any_eq_true, List.all_eq_true,
    Bool.not_eq_eq_eq_not, Bool.not_true] at h
  obtain ⟨⟨⟨⟨hform, hlabel⟩, hin⟩, hout⟩, hmeans⟩ := h
  split at hmeans
  · exact ⟨hmem, hform, hlabel, hin, hout, _, _, ‹_›, hmeans⟩
  · cases hmeans

/-! ### Clear nodes -/

/-- Whether nothing is known of a name in a scope, but for the items of a block. -/
structure IsClear (s : Session) (name : String) (c : Node) : Prop where
  recorded : c.isA .compound ∨ c.isA .forLoop ∨ c.isA .funcDef → s.isDecomposedIn c name = false
  declared : c.isA .forLoop ∨ c.isA .funcDef → (itemsOf c).any (declares name) = false

/-- **A clear node is not left out** below the scope of the binding, or an item of a block that does
not declare the name before it. -/
theorem IsClear.hides_eq_false (hc : s.IsClear b.name c)
    (hp : p.same b.scope ∨ declaredAmong b.name c (itemsOf p) = none) : s.hides b p c = false := by
  unfold hides
  split
  · rfl
  rw [if_neg fun hcond => ?_, if_neg fun hcond => ?_]
  · split
    · rfl
    · rename_i hscope
      simp only [Bool.or_eq_true, not_or] at hscope
      exact hiddenAt_eq_false (hp.resolve_left hscope.1)
  · simp only [Bool.and_eq_true, Bool.or_eq_true] at hcond
    rw [hc.declared hcond.1] at hcond
    cases hcond.2
  · simp only [Bool.and_eq_true, Bool.or_eq_true, or_assoc] at hcond
    rw [hc.recorded hcond.1] at hcond
    cases hcond.2

/-! ### Where a name is found -/

theorem searched_mem (hp : (searched b).isPresent) : searched b ∈ b.scope.preorder := by
  unfold searched at hp ⊢
  split
  · exact child_mem_preorder (by simpa [*] using hp)
  · exact self_mem_preorder (by simpa [*] using hp)

section

variable [Discipline]

namespace Sound

variable (h : s.Sound)
include h

theorem attached_of_mem {x : Node} (hx : x ∈ s.document.root.preorder) :
    s.document.attached x := by
  obtain ⟨k, hk⟩ := h.document.exists_key hx
  exact Document.attached_iff.mpr ⟨x, hx, rfl, by simp [hk]⟩

/-- **The scope of a binding that is declared in a scope** is that scope, or within it. -/
theorem scope_mem_of_declared (hp : p ∈ s.document.root.preorder) (hi : decl ∈ itemsOf p)
    (hd : decl.isA .decl) (hb : s.IsBinding decl b) : b.scope ∈ p.preorder := by
  have hcls : ∀ {x : Node} {c : Class}, x.isA c → x.cls? = some c := fun hx => by
    simpa [isA] using hx
  have hsole : ∀ {x : Node}, x.isA .decl → x.isSole := fun hx => isSole_of_isA hx rfl
  have hself := self_mem_preorder (isPresent_of_mem_preorder hp)
  obtain ⟨parent, hparent, hscope⟩ := scopeOf?_spec hb.scope
  rcases itemsOf_spec hi with ⟨hblock, hpart⟩ | ⟨q, rest, hparts, hq⟩
  · obtain rfl := h.document.parent?_of_part hp hpart (hsole hd) hparent
    rcases hscope with ⟨hlist, -⟩ | ⟨-, rfl⟩
    · simp [isBlock, hcls hlist, Class.isBlock] at hblock
    · exact hself
  have hqm : q ∈ p.parts := by simp [hparts]
  rcases hq with ⟨-, hlist, hpart⟩ | ⟨hdef, hhead, hfunc, hpart⟩
  · -- What is declared in the header of a loop is no binding.
    have hqr := mem_preorder_of_part hp hqm (isPresent_of_mem_parts hpart)
    obtain rfl := h.document.parent?_of_part hqr hpart (hsole hd) hparent
    rcases hscope with ⟨hparams, -⟩ | ⟨-, rfl⟩
    · have := (hcls hlist).symm.trans (hcls hparams)
      cases this
    · have := hb.header
      rw [hlist] at this
      cases this
  · generalize hargs : (q.child .type).child .args = args at hpart
    generalize htype : q.child .type = type at hfunc hargs
    have htm : type ∈ q.parts := htype ▸ child_mem_parts (htype ▸ isPresent_of_child
      (hargs ▸ isPresent_of_mem_parts hpart))
    have ham : args ∈ type.parts := hargs ▸ child_mem_parts (hargs ▸ isPresent_of_mem_parts hpart)
    have hqr := mem_preorder_of_part hp hqm (isPresent_of_mem_parts htm)
    have htr := mem_preorder_of_part hqr htm (isPresent_of_mem_parts ham)
    have har := mem_preorder_of_part htr ham (isPresent_of_mem_parts hpart)
    obtain rfl := h.document.parent?_of_part har hpart (hsole hd) hparent
    rcases hscope with ⟨hlist, hof⟩ | ⟨-, rfl⟩
    · -- The function is found again from its list of parameters.
      obtain ⟨-, hfd, funcDecl, owner, h₁, h₂, h₃, -⟩ := definitionOf?_spec hof
      obtain rfl := h.document.parent?_of_part htr ham (isSole_of_isA hlist rfl) h₁
      obtain rfl := h.document.parent?_of_part hqr htm (isSole_of_isA hfunc rfl) h₂
      have hod : owner.isA .decl := by
        rw [hhead]
        exact (isA_head (h.document.regular p (Document.mem_trees_of_root hp)) hdef).1
      obtain rfl := h.document.parent?_of_part hp hqm (hsole hod) h₃
      exact hself
    · exact mem_preorder_of_mem_parts hqm (mem_preorder_of_mem_parts htm
        (mem_preorder_of_mem_parts ham (self_mem_preorder (isPresent_of_mem_parts hpart))))

/-- **The scope of a binding is told by its declaration.** -/
theorem scope_eq_of_bound (hb : s.Bound b) (hb' : s.Bound b') (hk : b.decl.key = b'.decl.key) :
    b.scope.key = b'.scope.key := by
  have hmixed : ∀ {decl : Node} {b : Binding} {e : Decomposed}, decl ∈ s.document.root.preorder →
      decl.isA .decl → s.verdictOn decl = .ok (.binding b) → e ∈ s.decomposed →
      e.binding.decl.key = b.decl.key → e.binding.scope.key = b.scope.key := by
    intro decl b e hm hd hv he hk
    have hbinding := verdictOn_spec hv
    have ha := h.attached_of_mem hm
    rw [← (h.decomposed e he).scope]
    exact h.scope_eq (h.knows_of_isBinding hbinding hm hd) (hbinding.declares.symm ▸ ha) e he hk
  cases hb with
  | declared hm hd hv =>
    cases hb' with
    | declared hm' hd' hv' =>
      rw [(verdictOn_spec hv).declares, (verdictOn_spec hv').declares] at hk
      rw [h.document.eq_of_key hm hm' hk, hv'] at hv
      cases hv
      rfl
    | recorded he' =>
      simp only [Binding.refresh, Document.key_current] at hk ⊢
      exact (hmixed hm hd hv he' hk.symm).symm
  | recorded he =>
    cases hb' with
    | declared hm' hd' hv' =>
      simp only [Binding.refresh, Document.key_current] at hk ⊢
      exact hmixed hm' hd' hv' he hk
    | recorded he' =>
      simp only [Binding.refresh, Document.key_current] at hk ⊢
      rw [← (h.decomposed _ he).scope, ← (h.decomposed _ he').scope]
      exact h.agree _ he _ he' hk

/-- The scope of a binding is in the program, or was cut out of it. -/
theorem scope_mem_trees (hb : s.Bound b) : b.scope ∈ preorderAll s.document.trees := by
  cases hb with
  | declared hm hd hv =>
    obtain ⟨parent, hparent, ⟨-, hdef⟩ | ⟨-, rfl⟩⟩ := scopeOf?_spec (verdictOn_spec hv).scope
    · exact Document.mem_trees_of_root (definitionOf?_spec hdef).1
    · exact Document.mem_trees_of_root (Document.of_parent? hparent).1
  | recorded he =>
    obtain ⟨x, hx, hk⟩ := (h.decomposed _ he).knows.there
    rw [Binding.refresh, h.document.current_eq hx hk]
    exact hx

end Sound

/-! ### Searching -/

/-- A scope that the lookup passes is clear: the declarations of its header come before all that is
below it, unless the name is used in the header itself. -/
theorem Sound.isClear_of_outer (h : s.Sound) (hpath : IsPath k c (p :: above))
    (hp : p ∈ s.document.root.preorder) (hc : c.isPresent) (hd : s.decomposedIn? p name = none)
    (ha : declaredAmong name c (itemsOf p) = none) : s.IsClear name p where
  recorded _ := by
    rw [decomposedIn?, Option.map_eq_none_iff, List.find?_eq_none] at hd
    exact List.any_eq_false.mpr hd
  declared hcls := by
    refine any_declares_eq_false ha fun i hi => Bool.eq_false_iff.mpr fun hs => ?_
    simp only [Node.same, Bool.and_eq_true, beq_iff_eq] at hs
    obtain ⟨j, hj⟩ := Option.isSome_iff_exists.mp hs.1
    rcases mem_itemsOf hi (isPresent_of_key hj) with ⟨hblock, -⟩ | ⟨q, rest, hparts, hiq⟩
    · have hno : p.isBlock = false := hcls.elim (isBlock_of_isA ·) (isBlock_of_isA ·)
      rw [hno] at hblock
      cases hblock
    · have hqm : q ∈ p.parts := by simp [hparts]
      obtain ⟨r, hr, hir⟩ := mem_preorderAll.mp hiq
      have hq := mem_preorder_of_part hp hqm (isPresent_of_mem_parts hr)
      have hcm := mem_preorder_of_part hp hpath.mem_parts hc
      obtain rfl := h.document.eq_of_key (mem_preorder_of_mem_preorderAll hq hiq) hcm hs.2
      have hkey : (q.ancestors? k).isSome := by
        have hsome := hpath.isSome
        rw [ancestors?_isSome, find?_isSome] at hsome ⊢
        obtain ⟨x, hx, hk⟩ := hsome
        exact ⟨x, mem_preorder_of_mem_parts hr (mem_preorder_trans hx hir), hk⟩
      obtain rfl := hpath.eq_first hparts hkey
      exact not_mem_preorderAll_parts hiq (self_mem_preorder hc)

/-- The scope at which the lookup ends holds the scope of the binding. -/
theorem Sound.scope_mem (h : s.Sound) (hb : s.Bound b) (hb' : s.Bound b')
    (hk : b.decl.key = b'.decl.key) (hp : p ∈ s.document.root.preorder)
    (hend : ∃ x ∈ p.preorder, x.key = b'.scope.key) : b.scope ∈ p.preorder := by
  obtain ⟨x, hx, hxk⟩ := hend
  have hxm := Document.mem_trees_of_root (mem_preorder_trans hx hp)
  rwa [← h.document.woven.eq_of_key hxm (h.scope_mem_trees hb)
    (hxk.trans (h.scope_eq_of_bound hb hb' hk).symm)]

/-- **The search comes down to where the lookup started.** -/
theorem Sound.mem_search (h : s.Sound) (hr : s.Resolves b.name c scopes b') (hb : s.Bound b)
    (hk : b.decl.key = b'.decl.key) (hpath : IsPath k c scopes) (hc : c.isPresent)
    (hs : ∀ x ∈ scopes, x ∈ s.document.root.preorder) (hclear : s.IsClear b.name c)
    (hout : ∀ x ∈ c :: scopes, x.same b.decl = false) (hin : searched b ∈ c :: scopes) :
    c ∈ (searched b).search fun parent n => n.same b.decl || s.hides b parent n := by
  -- The lookup ends at `p`: the search starts at `c`, or at `p`, which is the scope of the binding.
  have hend : ∀ {c p : Node} {above : List Node} {b' : Binding}, IsPath k c (p :: above) →
      c.isPresent → (∀ x ∈ p :: above, x ∈ s.document.root.preorder) → s.IsClear b.name c →
      (∀ x ∈ c :: p :: above, x.same b.decl = false) → searched b ∈ c :: p :: above →
      s.Bound b' → b.decl.key = b'.decl.key → (∃ x ∈ p.preorder, x.key = b'.scope.key) →
      c ∈ (searched b).search fun parent n => n.same b.decl || s.hides b parent n := by
    intro c p above b' hpath hc hs hclear hout hin hb' hk hend
    have hp := hs p List.mem_cons_self
    rcases List.mem_cons.mp hin with heq | hin
    · rw [heq]
      exact self_mem_search hc
    have hps := hpath.2.below (isPresent_of_mem_parts hpath.mem_parts) _ hin
    have hscope := h.scope_mem hb hb' hk hp hend
    have hsearched := searched_mem (isPresent_of_preorder hps)
    have hpb : p = b.scope := eq_of_mem_preorder (mem_preorder_trans hps hsearched) hscope
    have hsb : searched b = p := eq_of_mem_preorder (hpb ▸ hsearched) hps
    have hsame : p.same b.scope := by
      obtain ⟨j, hj⟩ := h.document.exists_key hp
      simp [Node.same, ← hpb, hj]
    rw [hsb]
    refine mem_search_of_part (self_mem_search (isPresent_of_mem_parts hpath.mem_parts))
      hpath.mem_parts hc ?_
    rw [hout c List.mem_cons_self, hclear.hides_eq_false (.inl hsame)]
    rfl
  induction hr with
  | recorded he hfor =>
    have hp := hs _ List.mem_cons_self
    simp only [Decomposed.isFor, Bool.and_eq_true, beq_iff_eq] at hfor
    refine hend hpath hc hs hclear hout hin (.recorded he) hk
      ⟨_, self_mem_preorder (isPresent_of_mem_preorder hp), ?_⟩
    rw [Binding.refresh, Document.key_current, ← (h.decomposed _ he).scope, hfor.1]
  | declared hi hd hv =>
    have hp := hs _ List.mem_cons_self
    have hscope := h.scope_mem_of_declared hp hi hd (verdictOn_spec hv)
    have hdm := mem_preorder_trans (mem_preorder_of_itemsOf hi (isPresent_of_isA hd)) hp
    exact hend hpath hc hs hclear hout hin (.declared hdm hd hv) hk ⟨_, hscope, rfl⟩
  | outer hd ha hr ih =>
    have hp := hs _ List.mem_cons_self
    rcases List.mem_cons.mp hin with heq | hin
    · rw [heq]
      exact self_mem_search hc
    refine mem_search_of_part (ih hk hpath.2 (isPresent_of_mem_parts hpath.mem_parts)
      (fun x hx => hs x (List.mem_cons_of_mem _ hx)) (h.isClear_of_outer hpath hp hc hd ha)
      (fun x hx => hout x (List.mem_cons_of_mem _ hx)) hin) hpath.mem_parts hc ?_
    rw [hout _ List.mem_cons_self, hclear.hides_eq_false (.inr ha)]
    rfl

/-- **A use of a binding is among its occurrences.** -/
theorem Sound.mem_occurrences (h : s.Sound) (hb : s.Bound b) (hu : s.IsUse n b) :
    n ∈ s.occurrences b := by
  obtain ⟨hn, hf, hl, ⟨y, hy, hys⟩, hout, log, b', hm, hk⟩ := hu
  simp only [Node.same, Bool.and_eq_true, beq_iff_eq] at hk hys
  obtain ⟨k, hkey⟩ := h.document.exists_key hn
  obtain ⟨above, habove⟩ := Option.isSome_iff_exists.mp
    ((ancestors?_isSome k s.document.root).trans (find?_isSome.mpr ⟨n, hn, hkey⟩))
  have hup : s.document.ancestors n = above := by simp [Document.ancestors, hkey, habove]
  have hmem : ∀ x ∈ above, x ∈ s.document.root.preorder := fun x hx =>
    Document.mem_of_ancestors (hup ▸ hx)
  rw [hup] at hy hout
  rw [lookup, hup] at hm
  obtain ⟨x, hxk, hpath, hlast⟩ := isPath_of_ancestors? habove
  have hx : x ∈ s.document.root.preorder :=
    hlast ▸ hpath.below (isPresent_of_key hxk) _ (List.getLast_mem _)
  obtain rfl := h.document.eq_of_key hx hn (hxk.trans hkey.symm)
  have hclear : s.IsClear b.name x := by
    constructor <;> intro hc <;> simp [isA, cls?, hf, Form.cls] at hc
  have hym : y ∈ s.document.root.preorder := (List.mem_cons.mp hy).elim (· ▸ hn) (hmem y)
  obtain ⟨j, hj⟩ := Option.isSome_iff_exists.mp hys.1
  obtain rfl : y = searched b := h.document.woven.eq_of_key (Document.mem_trees_of_root hym)
    (mem_preorderAll_trans (searched_mem (isPresent_of_key (hys.2.symm.trans hj)))
      (h.scope_mem_trees hb)) hys.2
  have hsearch := h.mem_search (resolves_of_lookupIn hm) hb hk.2.symm hpath
    (isPresent_of_key hxk) hmem hclear hout hy
  exact List.mem_filter.mpr ⟨hsearch, by simp [hf, hl]⟩

end

/-! ### The sessions in which uses are looked for -/

/-- The sessions that decompositions go through: those between two of them, and those in which a
binding has been declared anew and its uses are to be looked for. -/
inductive Visited : Session → Prop where
  | between {s : Session} : Reachable s → Visited s
  | searching {s t v w : Session} {a : Aggregate} {earlier later : List Binding} {b b' : Binding}
    {names : List String} : Reachable s →
    s.run (Engine.findBindings a) = (.ok (earlier ++ b :: later), t) →
    t.run (Engine.decomposeAttached earlier) = (.ok names, v) → v.document.attached b.decl →
    v.run (Engine.declare b) = (.ok b', w) → Visited w

section

variable [Discipline] {v w : Session} {a : Aggregate} {earlier later : List Binding}
  {names : List String} (hd : Discipline.IsLax) (h : Reachable s)
  (hfound : s.run (Engine.findBindings a) = (.ok (earlier ++ b :: later), t))
  (hearlier : t.run (Engine.decomposeAttached earlier) = (.ok names, v))
include hd h hfound hearlier

/-- The bindings of an aggregate before one of them are decomposed. -/
theorem Reachable.proceeds : Proceeds (s.subject (earlier ++ b :: later)) s v := by
  have hs := h.sound hd
  obtain ⟨hst, -, hknows⟩ := (hs.settles_findBindings a).of_ok hfound
  have ht := Proceeds.same (u := s.subject (earlier ++ b :: later)) ⟨hs, .refl hs.document⟩ hst
  exact ht.trans ((ht.settles_decomposeAttached
    (fun c hc => ht.knows (hknows c (List.mem_append_left _ hc)))
    fun c hc => covers_subject hs hknows (List.mem_append_left _ hc)).of_ok hearlier)

/-- A binding whose turn it is in a decomposition is declared anew. -/
theorem Reachable.declares (ha : v.document.attached b.decl)
    (hw : v.run (Engine.declare b) = (.ok b', w)) :
    Declares (s.subject (earlier ++ b :: later)) v b b' w := by
  have hs := h.sound hd
  obtain ⟨-, -, hknows⟩ := (hs.settles_findBindings a).of_ok hfound
  have hv := h.proceeds hd hfound hearlier
  have hb : b ∈ earlier ++ b :: later := by simp
  exact (hv.settles_declare (hv.knows (hknows b hb)) (covers_subject hs hknows hb) ha).of_ok hw

end

/-- The binding whose uses are to be looked for is one of the session's. -/
theorem Declares.bound [Discipline] {u : Subject} (h : Declares u s b b' t) :
    t.Bound (b'.refresh t.document) := by
  obtain ⟨e, he, rfl⟩ := h.recorded
  exact .recorded he

theorem Visited.sound [Discipline] (hd : Discipline.IsLax) (hv : Visited s) : s.Sound := by
  cases hv with
  | between h => exact h.sound hd
  | searching h hfound hearlier ha hw => exact (h.declares hd hfound hearlier ha hw).sound

/-- **No use of a binding is missed**: in every session that decompositions of a program go through,
what means a binding by the lookup is found by the search for its occurrences. -/
theorem Visited.occurrences_complete (hv : Visited s) (hb : s.Bound b) (hu : s.IsUse n b) :
    n ∈ s.occurrences b := by
  let _ : Discipline := ⟨False, False⟩
  exact (hv.sound ⟨id, id⟩).mem_occurrences hb hu

/-- A parameter and a variable of one name, whose addresses are not used. -/
def shadowed : String :=
  "struct S \x7bint v;\x7d; void f(struct S x) \x7b \x7b struct S x; &x; \x7d &x; \x7d"

theorem Visited.occurrences_complete_shadowed : ∃ s a t e n,
    firstStep shadowed = some (s, a, t) ∧ e ∈ t.decomposed ∧
      t.IsUse n (e.binding.refresh t.document) ∧
        n ∈ t.occurrences (e.binding.refresh t.document) := by
  have h : (firstStep shadowed).any (fun r => r.2.2.decomposed.any fun e =>
      r.2.2.document.root.preorder.any fun n =>
        r.2.2.isUse n (e.binding.refresh r.2.2.document)) = true := by decide +kernel
  obtain ⟨⟨s, a, t⟩, hf, h⟩ := (Option.any_eq_true _ _).mp h
  obtain ⟨e, he, h⟩ := List.any_eq_true.mp h
  obtain ⟨n, hn, h⟩ := List.any_eq_true.mp h
  obtain ⟨hs, names, hr⟩ := firstStep_spec hf
  have huse := isUse_spec hn h
  exact ⟨s, a, t, e, n, hf, he, huse,
    (Visited.between (hs.decompose hr)).occurrences_complete (.recorded he) huse⟩

end Session

end Fieldwise
