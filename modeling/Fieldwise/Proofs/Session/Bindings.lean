import Fieldwise.Proofs.Document.Edit
import Fieldwise.Proofs.Session.Settles

/-!
# Bindings of a document

A binding holds nodes as they were when it was found, and the document goes on. `Document.Tracks`
says of such a node that what the document has under its key is of the same form still, and
`Document.Knows` collects what is known of a binding at all later times. What is found in a session
where all is well (`Session.Sound`) are bindings that its document knows
(`Session.Sound.settles_classify`, `Session.Sound.settles_lookup`,
`Session.Sound.settles_bindings`).
-/

namespace Fieldwise

open Node

namespace Document

variable {d d' : Document} {n x P : Node} {b : Binding}

/-- What is not attached does not get attached. -/
theorem Continues.not_attached (hc : Continues d d') (hn : d.attached n = false)
    (ho : ∀ k, n.key = some k → k < d.next) : d'.attached n = false := by
  refine Bool.eq_false_iff.mpr fun ha => Bool.eq_false_iff.mp hn ?_
  obtain ⟨x', hx', hk, hsome⟩ := attached_iff.mp ha
  obtain ⟨k, hnk⟩ := Option.isSome_iff_exists.mp hsome
  obtain ⟨x, hx, hxk, -⟩ := hc.node x' hx' ⟨k, hk.trans hnk, ho k hnk⟩
  exact attached_iff.mpr ⟨x, hx, hxk.trans hk, hsome⟩

variable [Discipline]

/-- A node as it was at some time looks like what the document has under its key. -/
structure Tracks (d : Document) (n : Node) : Prop where
  regular : Regular [n]
  old : ∀ k, n.key = some k → k < d.next
  form : ∀ x ∈ preorderAll d.trees, x.key = n.key → x.form? = n.form?
  head : ∀ x ∈ preorderAll d.trees, x.key = n.key → x.head? = n.head?
  gain : ∀ x ∈ preorderAll d.trees, x.key = n.key → x.declaresFunction → n.declaresFunction

namespace Tracks

theorem of_mem (h : d.Sound) (hx : x ∈ preorderAll d.trees) : d.Tracks x where
  regular := h.regular.of_mem_preorderAll hx
  old k hk := by
    obtain ⟨j, hj, hlt⟩ := h.bound x hx
    obtain rfl : j = k := by simpa [hj] using hk
    exact hlt
  form y hy hk := by rw [h.woven.eq_of_key hy hx hk]
  head y hy hk := by rw [h.woven.eq_of_key hy hx hk]
  gain y hy hk hf := by rwa [← h.woven.eq_of_key hy hx hk]

theorem absent (h : d.Sound) : d.Tracks .absent := by
  have hnone : ∀ x ∈ preorderAll d.trees, x.key ≠ Node.absent.key := fun x hx hk => by
    obtain ⟨k, hxk⟩ := h.woven.exists_key hx
    rw [hxk] at hk
    cases hk
  exact ⟨.absent, fun k hk => (nomatch hk), fun x hx hk => (hnone x hx hk).elim,
    fun x hx hk => (hnone x hx hk).elim, fun x hx hk => (hnone x hx hk).elim⟩

theorem cls (h : d.Tracks n) (hx : x ∈ preorderAll d.trees) (hk : x.key = n.key) :
    x.cls? = n.cls? := cls?_congr (h.form x hx hk)

theorem continues (h : d.Tracks n) (hc : Continues d d') (hs : d'.Sound) : d'.Tracks n := by
  have hold : ∀ x' ∈ preorderAll d'.trees, x'.key = n.key → IsOld d.next x' := fun x' hx' hk => by
    obtain ⟨k, hxk⟩ := hs.woven.exists_key hx'
    exact ⟨k, hxk, h.old k (hk ▸ hxk)⟩
  refine ⟨h.regular, fun k hk => Nat.lt_of_lt_of_le (h.old k hk) hc.next, fun x' hx' hk => ?_,
    fun x' hx' hk => ?_, fun x' hx' hk hf => ?_⟩
  · obtain ⟨x, hx, hxk, hxf, -⟩ := hc.forms x' hx' (hold x' hx' hk)
    exact hxf.symm.trans (h.form x hx (hxk.trans hk))
  · obtain ⟨x, hx, hxk, -, hxn⟩ := hc.forms x' hx' (hold x' hx' hk)
    exact hxn.symm.trans (h.head x hx (hxk.trans hk))
  · obtain ⟨x, hx, hxk, -, hxf⟩ := hc.kinds x' hx' (hold x' hx' hk)
    exact h.gain x hx (hxk.trans hk) (hxf hf)

theorem current (h : d.Tracks n) (hs : d.Sound) : d.Tracks (d.current n) := by
  rcases current_mem d n with hc | ⟨hc, -⟩
  · rwa [hc]
  · exact of_mem hs hc

theorem form?_current (h : d.Tracks n) : (d.current n).form? = n.form? := by
  rcases current_mem d n with hc | ⟨hc, hk⟩
  · rw [hc]
  · exact h.form _ hc hk

theorem head?_current (h : d.Tracks n) : (d.current n).head? = n.head? := by
  rcases current_mem d n with hc | ⟨hc, hk⟩
  · rw [hc]
  · exact h.head _ hc hk

theorem isA_current (h : d.Tracks n) (c : Class) : (d.current n).isA c = n.isA c := by
  rw [isA, isA, cls?_congr h.form?_current]

theorem declaresFunction_current (h : d.Tracks n) (hn : n.declaresFunction = false) :
    (d.current n).declaresFunction = false := by
  rcases current_mem d n with hc | ⟨hc, hk⟩
  · rwa [hc]
  · exact Bool.eq_false_iff.mpr fun hf => Bool.eq_false_iff.mp hn (h.gain _ hc hk hf)

end Tracks

/-- A node that looks like what the document has under its key, and is no declaration and no
statement. -/
structure IsTermOf (d : Document) (n : Node) : Prop where
  tracks : d.Tracks n
  decl : n.isA .decl = false
  inner : Discipline.sorted → n.isStatement = false

namespace IsTermOf

theorem isTerm (h : d.IsTermOf n) : n.IsTerm := ⟨h.tracks.regular, h.decl, h.inner⟩

theorem continues (h : d.IsTermOf n) (hc : Continues d d') (hs : d'.Sound) : d'.IsTermOf n :=
  ⟨h.tracks.continues hc hs, h.decl, h.inner⟩

theorem current (h : d.IsTermOf n) (hs : d.Sound) : d.IsTermOf (d.current n) :=
  ⟨h.tracks.current hs, (h.tracks.isA_current .decl).trans h.decl, fun hsort =>
    (isStatement_congr (cls?_congr h.tracks.form?_current)).trans (h.inner hsort)⟩

end IsTermOf

/-- What stays true of a binding while the document goes on. -/
structure Knows (d : Document) (b : Binding) : Prop where
  decl : d.Tracks b.decl
  keyed : b.decl.key.isSome
  isDecl : b.decl.isA .decl
  layers : b.decl.declaresFunction = false
  scope : d.Tracks b.scope
  there : ∃ x ∈ preorderAll d.trees, x.key = b.scope.key
  block : b.scope.isA .funcDef ∨ b.scope.isBlock
  /-- A variable is declared nowhere but in its scope. -/
  home : b.isParam = false → ∀ P ∈ d.root.preorder, ∀ c ∈ P.parts, c.key = b.decl.key →
    P.key = b.scope.key
  /-- A parameter is declared in no block. -/
  away : b.isParam → ∀ P ∈ d.root.preorder, ∀ c ∈ P.parts, c.key = b.decl.key → P.isBlock = false
  nonempty : b.aggregate.fields ≠ []
  fields : ∀ f ∈ b.aggregate.fields, d.IsTermOf f.type

namespace Knows

/-- A variable is declared in a block. -/
theorem isBlock_home (h : d.Knows b) (hp : b.isParam = false) {P c : Node}
    (hP : P ∈ d.root.preorder) (hc : c ∈ P.parts) (hk : c.key = b.decl.key) : P.isBlock := by
  rw [isBlock, h.scope.cls (mem_trees_of_root hP) (h.home hp P hP c hc hk), ← isBlock]
  exact h.block.resolve_left (Bool.eq_false_iff.mp hp)

/-- What a declaration is a part of now it was a part of before. -/
theorem exists_parent (h : d.Knows b) (hc : Continues d d') (hs : d'.Sound) {P' c' : Node}
    (hP' : P' ∈ d'.root.preorder) (hc' : c' ∈ P'.parts) (hk : c'.key = b.decl.key) :
    ∃ P ∈ d.root.preorder, P.key = P'.key ∧ P.cls? = P'.cls? ∧
      ∃ c ∈ P.parts, c.key = b.decl.key := by
  obtain ⟨k, hdk⟩ := Option.isSome_iff_exists.mp h.keyed
  have hck : c'.key = some k := hk.trans hdk
  have hold : IsOld d.next c' := ⟨k, hck, h.decl.old k hdk⟩
  have hcm := mem_preorder_of_part hP' hc' (isPresent_of_key hck)
  by_cases hPo : IsOld d.next P'
  · obtain ⟨P, hP, hPk, hPc, -, hparts, -⟩ := hc.node P' hP' hPo
    obtain ⟨c, hc, hcc⟩ := hparts c' hc' hold
    exact ⟨P, hP, hPk, hPc, c, hc, hcc.trans hk⟩
  · -- A new node does not get a declaration that was there before.
    have hcls := (h.decl.continues hc hs).cls (mem_trees_of_root hcm) hk
    have := (hc.fresh P' hP' hPo c' hc' hold).2
    rw [isA, hcls, ← isA, h.isDecl] at this
    cases this

theorem continues (h : d.Knows b) (hc : Continues d d') (hs : d'.Sound) : d'.Knows b where
  decl := h.decl.continues hc hs
  keyed := h.keyed
  isDecl := h.isDecl
  layers := h.layers
  scope := h.scope.continues hc hs
  there := by
    obtain ⟨x, hx, hk⟩ := h.there
    obtain ⟨x', hx', hk'⟩ := hc.alive x hx
    exact ⟨x', hx', hk'.trans hk⟩
  block := h.block
  home hb P' hP' c' hc' hk := by
    obtain ⟨P, hP, hPk, -, c, hcP, hck⟩ := h.exists_parent hc hs hP' hc' hk
    exact hPk.symm.trans (h.home hb P hP c hcP hck)
  away hb P' hP' c' hc' hk := by
    obtain ⟨P, hP, -, hPc, c, hcP, hck⟩ := h.exists_parent hc hs hP' hc' hk
    rw [isBlock, ← hPc]
    exact h.away hb P hP c hcP hck
  nonempty := h.nonempty
  fields f hf := (h.fields f hf).continues hc hs

theorem isParam_refresh (h : d.Knows b) : (b.refresh d).isParam = b.isParam :=
  h.scope.isA_current .funcDef

theorem refresh (h : d.Knows b) (hs : d.Sound) : d.Knows (b.refresh d) where
  decl := h.decl.current hs
  keyed := (key_current d b.decl).symm ▸ h.keyed
  isDecl := (h.decl.isA_current .decl).trans h.isDecl
  layers := h.decl.declaresFunction_current h.layers
  scope := h.scope.current hs
  there := by
    obtain ⟨x, hx, hk⟩ := h.there
    exact ⟨x, hx, hk.trans (key_current d b.scope).symm⟩
  block := by
    show (d.current b.scope).isA .funcDef ∨ (d.current b.scope).isBlock
    rw [h.scope.isA_current, isBlock, cls?_congr h.scope.form?_current]
    exact h.block
  home hb P hP c hc hk :=
    (h.home (h.isParam_refresh ▸ hb) P hP c hc (hk.trans (key_current d b.decl))).trans
      (key_current d b.scope).symm
  away hb P hP c hc hk :=
    h.away (h.isParam_refresh ▸ hb) P hP c hc (hk.trans (key_current d b.decl))
  nonempty := fun hf => h.nonempty (List.map_eq_nil_iff.mp hf)
  fields f hf := by
    obtain ⟨f', hf', rfl⟩ := List.mem_map.mp hf
    exact (h.fields f' hf').current hs

/-- A binding keeps its name. -/
theorem name_refresh (h : d.Knows b) : (b.refresh d).name = b.name := by
  show ((d.current b.decl).name?).getD "" = (b.decl.name?).getD ""
  rw [name?_congr h.decl.form?_current]

theorem isTerm_child (h : d.Knows b) (s : Slot) : (b.decl.child s).IsTerm :=
  h.decl.regular.isTerm_child_decl h.isDecl s

end Knows

end Document

/-! ### Constants -/

namespace Node

variable [Discipline]

theorem settles_intValue (n : Node) : Settles n.intValue fun _ => True := by
  unfold intValue
  split
  · split
    · split
      · trivial
      · exact .error (by simp [Failure.kind])
    · trivial
  · trivial

theorem settles_arraySize (n : Node) : Settles n.arraySize fun _ => True := by
  unfold arraySize
  split
  · exact settles_intValue _
  · trivial

theorem settles_isNull (names : List String) (n : Node) :
    Settles (n.isNull names) fun _ => True := by
  unfold isNull
  split
  · trivial
  · exact (settles_intValue _).bind fun _ _ => trivial

theorem settles_lengthFrom (items : List Node) : ∀ length cursor,
    Settles (lengthFrom length cursor items) fun _ => True := by
  induction items with
  | nil => exact fun _ _ => trivial
  | cons item rest ih =>
    intro length cursor
    unfold lengthFrom
    split
    · trivial
    · rename_i heq
      cases heq
      refine (settles_intValue _).bind fun z _ => ?_
      cases z with
      | none => trivial
      | some z => exact ih _ _
    · rename_i heq
      cases heq
      exact ih _ _

theorem settles_arrayExtent (decl type : Node) :
    Settles (Session.arrayExtent decl type) fun _ => True := by
  unfold Session.arrayExtent
  split
  · refine (settles_arraySize _).bind fun z _ => ?_
    cases z <;> trivial
  · dsimp only
    split
    · refine (settles_lengthFrom _ _ _).bind fun z _ => ?_
      cases z <;> trivial
    · trivial

end Node

namespace Session

variable {s t : Session} {decl n : Node} {e e' : Decomposed}

/-! ### Items of scopes -/

/-- The items of a scope are parts of a block, of the declarations that a loop begins with, or of
the list of parameters in the head of a function. -/
theorem itemsOf_spec {i p : Node} (hi : i ∈ itemsOf p) : p.isBlock ∧ i ∈ p.parts ∨
    ∃ q rest, p.parts = q :: rest ∧
      (p.isA .forLoop ∧ q.isA .declList ∧ i ∈ q.parts ∨
        p.isA .funcDef ∧ q = p.child .decl ∧ (q.child .type).isA .funcDecl ∧
          i ∈ ((q.child .type).child .args).parts) := by
  unfold itemsOf at hi
  split at hi
  · rename_i start rest
    split at hi
    · exact .inr ⟨start, rest, rfl, .inl ⟨rfl, ‹_›, mem_parts_of_mem_items hi⟩⟩
    · cases hi
  · rename_i owner rest
    simp only at hi
    split at hi
    · exact .inr ⟨owner, rest, rfl, .inr ⟨rfl, rfl, ‹_›, mem_parts_of_mem_items hi⟩⟩
    · cases hi
  · exact .inl ⟨rfl, hi⟩
  · exact .inl ⟨rfl, hi⟩
  · exact .inl ⟨rfl, hi⟩
  · exact .inl ⟨rfl, List.mem_cons_of_mem _ hi⟩
  · cases hi

/-- The items of a scope are below it. In a loop and in a function they are below its first part. -/
theorem mem_itemsOf {i p : Node} (hi : i ∈ itemsOf p) (hp : i.isPresent) :
    p.isBlock ∧ i ∈ p.parts ∨ ∃ q rest, p.parts = q :: rest ∧ i ∈ preorderAll q.parts := by
  refine (itemsOf_spec hi).imp_right fun ⟨q, rest, hparts, h⟩ => ⟨q, rest, hparts, ?_⟩
  rcases h with ⟨-, -, hq⟩ | ⟨-, -, -, hargs⟩
  · exact mem_preorderAll_of_mem hq hp
  · have ha := isPresent_of_mem_parts hargs
    exact mem_preorderAll.mpr ⟨_, child_mem_parts (isPresent_of_child ha),
      mem_preorder_of_part (child_mem_preorder ha) hargs hp⟩

theorem mem_preorder_of_itemsOf {i p : Node} (hi : i ∈ itemsOf p) (hp : i.isPresent) :
    i ∈ p.preorder := by
  rcases mem_itemsOf hi hp with ⟨-, hpart⟩ | ⟨q, rest, hparts, hq⟩
  · exact mem_preorder_of_mem_parts hpart (self_mem_preorder hp)
  · obtain ⟨c, hc, hq⟩ := mem_preorderAll.mp hq
    exact mem_preorder_of_mem_parts (c := q) (by simp [hparts]) (mem_preorder_of_mem_parts hc hq)

theorem declaredAmong_spec {name : String} {last decl : Node} {items : List Node}
    (hd : declaredAmong name last items = some decl) : decl ∈ items ∧ decl.isA .decl := by
  induction items with
  | nil => cases hd
  | cons item rest ih =>
    unfold declaredAmong at hd
    split at hd
    · rename_i hdecl
      obtain rfl : item = decl := by simpa using hd
      simp only [declares, Bool.and_eq_true] at hdecl
      exact ⟨List.mem_cons_self, hdecl.1⟩
    · split at hd
      · cases hd
      · obtain ⟨hm, hc⟩ := ih hd
        exact ⟨List.mem_cons_of_mem _ hm, hc⟩

/-! ### Declarations -/

/-- The function whose parameter list a node is has the list in its head. -/
theorem definitionOf?_spec {params funcDef : Node} (hf : s.definitionOf? params = some funcDef) :
    funcDef ∈ s.document.root.preorder ∧ funcDef.isA .funcDef ∧
      ∃ funcDecl owner, s.document.parent? params = some funcDecl ∧
        s.document.parent? funcDecl = some owner ∧ s.document.parent? owner = some funcDef ∧
        (funcDef.child .decl).same owner := by
  unfold definitionOf? at hf
  simp only [Option.bind_eq_bind, Option.bind_eq_some_iff] at hf
  obtain ⟨funcDecl, hd, owner, ho, funcDef', hp, hf⟩ := hf
  split at hf
  · rename_i hcond
    obtain rfl : funcDef' = funcDef := by simpa using hf
    simp only [Bool.and_eq_true] at hcond
    exact ⟨(Document.of_parent? hp).1, hcond.1, funcDecl, owner, hd, ho, hp, hcond.2⟩
  · cases hf

/-- The scope of a declaration is the function whose parameter it is, or what it is a part of. -/
theorem scopeOf?_spec {scope : Node} (hs : s.scopeOf? decl = some scope) :
    ∃ parent, s.document.parent? decl = some parent ∧
      (parent.isA .paramList ∧ s.definitionOf? parent = some scope ∨
        parent.isA .paramList = false ∧ parent = scope) := by
  unfold scopeOf? at hs
  cases hp : s.document.parent? decl with
  | none => simp [hp] at hs
  | some parent =>
    simp only [hp] at hs
    split at hs
    · rename_i hl
      exact ⟨parent, rfl, .inl ⟨hl, hs⟩⟩
    · rename_i hl
      exact ⟨parent, rfl, .inr ⟨by simpa using hl, by simpa using hs⟩⟩

theorem verdict_spec {aggregate : Aggregate} {scope : Node} {layers : List Layer} {b : Binding}
    (hv : verdict decl aggregate scope layers = .ok (.binding b)) :
    b.decl = decl ∧ b.aggregate = aggregate ∧ b.scope = scope := by
  unfold verdict at hv
  split at hv
  case h_4 =>
    cases hr : arrayExtent decl (decl.child .type) with
    | error f =>
      rw [hr] at hv
      cases hv
    | ok r =>
      rw [hr] at hv
      cases r with
      | ok size =>
        cases hv
        exact ⟨rfl, rfl, rfl⟩
      | error reason => cases hv
  all_goals first
    | (cases hv; exact ⟨rfl, rfl, rfl⟩)
    | cases hv

/-- What a declaration that is a binding is known to be. -/
structure IsBinding (s : Session) (decl : Node) (b : Binding) : Prop where
  declares : b.decl = decl
  named : decl.name?.isSome
  layers : (decl.child .type).layers.isSome
  aggregate : ∃ a ∈ s.aggregates, b.aggregate = a.refresh s.document
  scope : s.scopeOf? decl = some b.scope
  block : b.scope.isA .funcDef ∨ b.scope.isBlock
  header : b.scope.isA .declList = false

theorem verdictOn_spec {b : Binding} (hv : s.verdictOn decl = .ok (.binding b)) :
    s.IsBinding decl b := by
  unfold verdictOn at hv
  split at hv
  case h_2 => cases hv
  rename_i layers hname hlayers
  split at hv
  case h_2 => cases hv
  rename_i aggregate scope ha hscope
  split at hv
  case isTrue => cases hv
  rename_i hlist
  split at hv
  case isFalse => cases hv
  rename_i hblock
  obtain ⟨rfl, hagg, rfl⟩ := verdict_spec hv
  exact ⟨rfl, by simp [hname], by simp [hlayers], ⟨aggregate, List.mem_of_find?_eq_some ha, hagg⟩,
    hscope, by simpa using hblock, by simpa using hlist⟩

/-! ### Sound sessions -/

variable [Discipline]

/-- What is remembered of a binding that was decomposed. A parameter is gone by then. -/
structure Remembers (d : Document) (e : Decomposed) : Prop where
  knows : d.Knows e.binding
  scope : e.scope = e.binding.scope.key
  gone : e.binding.isParam → d.attached e.binding.decl = false

theorem Remembers.continues {d d' : Document} (h : Remembers d e) (hc : Document.Continues d d')
    (hs : d'.Sound) : Remembers d' e where
  knows := h.knows.continues hc hs
  scope := h.scope
  gone hp := hc.not_attached (h.gone hp) h.knows.decl.old

/-- Nothing is wrong with a session. -/
structure Sound (s : Session) : Prop where
  document : s.document.Sound
  nonempty : ∀ a ∈ s.aggregates, a.fields ≠ []
  aggregates : ∀ a ∈ s.aggregates, ∀ f ∈ a.fields, s.document.IsTermOf f.type
  decomposed : ∀ e ∈ s.decomposed, Remembers s.document e
  agree : ∀ e ∈ s.decomposed, ∀ e' ∈ s.decomposed, e.binding.decl.key = e'.binding.decl.key →
    e.scope = e'.scope
  copy : Discipline.strict → s.options.copyFunction ≠ "operator="

namespace Sound

theorem same (h : s.Sound) (hs : s.Same t) : t.Sound := by
  refine ⟨?_, ?_, ?_, ?_, ?_, ?_⟩
  · rw [hs.document]
    exact h.document
  · rw [hs.aggregates]
    exact h.nonempty
  · rw [hs.document, hs.aggregates]
    exact h.aggregates
  · rw [hs.document, hs.decomposed]
    exact h.decomposed
  · rw [hs.decomposed]
    exact h.agree
  · rw [hs.options]
    exact h.copy

theorem continues {d : Document} (h : s.Sound) (hc : Document.Continues s.document d)
    (hd : d.Sound) : ({ s with document := d } : Session).Sound where
  document := hd
  nonempty := h.nonempty
  aggregates a ha f hf := (h.aggregates a ha f hf).continues hc hd
  decomposed e hm := (h.decomposed e hm).continues hc hd
  agree := h.agree
  copy := h.copy

end Sound

theorem settles_verdictOn (s : Session) (decl : Node) :
    Fieldwise.Settles (s.verdictOn decl) fun v => ∀ b, v = .binding b → s.IsBinding decl b := by
  have hno : Fieldwise.Settles (s.verdictOn decl) fun _ => True := by
    unfold verdictOn verdict
    repeat' split
    all_goals first
      | exact (settles_arrayExtent _ _).bind fun r _ => by cases r <;> trivial
      | trivial
  generalize hv : s.verdictOn decl = r at hno
  cases r with
  | error f => exact hno
  | ok v => exact fun b hb => verdictOn_spec (hb ▸ hv)

namespace Sound

/-- **What is found to be a binding is one that the document knows.** -/
theorem knows_of_isBinding (h : s.Sound) {b : Binding} (hb : s.IsBinding decl b)
    (hd : decl ∈ s.document.root.preorder) (hc : decl.isA .decl) : s.document.Knows b := by
  have hds := h.document
  obtain ⟨rfl, -, hlayers, ⟨a, ha, hagg⟩, hscope, hblock, -⟩ := hb
  obtain ⟨k, hk⟩ := hds.exists_key hd
  obtain ⟨parent, hp, hparent⟩ := scopeOf?_spec hscope
  have hsm : b.scope ∈ s.document.root.preorder := by
    rcases hparent with ⟨-, hdef⟩ | ⟨-, rfl⟩
    · exact (definitionOf?_spec hdef).1
    · exact (Document.of_parent? hp).1
  -- A declaration stands in one node only.
  have hsole : ∀ P ∈ s.document.root.preorder, ∀ c ∈ P.parts, c.key = b.decl.key → P = parent := by
    intro P hP c hcP hck
    obtain rfl : c = b.decl := hds.eq_of_key
      (mem_preorder_of_part hP hcP (isPresent_of_key (hck.trans hk))) hd hck
    exact (hds.parent?_of_part hP hcP (isSole_of_isA hc rfl) hp).symm
  exact
    { decl := .of_mem hds (Document.mem_trees_of_root hd)
      keyed := by simp [hk]
      isDecl := hc
      layers := by
        cases hf : b.decl.declaresFunction with
        | false => rfl
        | true =>
          have hfunc : (b.decl.child .type).isA .funcDecl := by
            simp only [declaresFunction, Bool.and_eq_true] at hf
            exact hf.2
          generalize b.decl.child .type = type at hlayers hfunc
          cases type with
          | absent => cases hfunc
          | mk m f ps => cases f with
            | funcDecl => cases hlayers
            | _ => cases hfunc
      scope := .of_mem hds (Document.mem_trees_of_root hsm)
      there := ⟨b.scope, Document.mem_trees_of_root hsm, rfl⟩
      block := hblock
      home := fun hb P hP c hcP hck => by
        rw [hsole P hP c hcP hck]
        rcases hparent with ⟨-, hdef⟩ | ⟨-, rfl⟩
        · rw [Binding.isParam, (definitionOf?_spec hdef).2.1] at hb
          cases hb
        · rfl
      away := fun hb P hP c hcP hck => by
        rw [hsole P hP c hcP hck]
        rcases hparent with ⟨hl, -⟩ | ⟨-, rfl⟩
        · exact isBlock_of_isA hl
        · exact isBlock_of_isA hb
      nonempty := by
        rw [hagg]
        exact fun hf => h.nonempty a ha (List.map_eq_nil_iff.mp hf)
      fields := fun f hf => by
        rw [hagg] at hf
        obtain ⟨f', hf', rfl⟩ := List.mem_map.mp hf
        exact (h.aggregates a ha f' hf').current hds }

theorem settles_classify (h : s.Sound) (hd : decl ∈ s.document.root.preorder)
    (hc : decl.isA .decl) (quiet : Bool) :
    (s.classify decl quiet).Settles fun r => ∀ b, r = some b → s.document.Knows b := by
  unfold classify
  refine (Report.Settles.of (settles_verdictOn s decl)).bind fun v hv => ?_
  cases v with
  | unrelated => exact .pure (by simp)
  | skipped reason => exact (Report.Settles.note _ _).bind fun _ _ => .pure (by simp)
  | binding b => exact .pure (by simpa using h.knows_of_isBinding (hv b rfl) hd hc)

theorem settles_bindingsAmong (h : s.Sound) (a : Aggregate) {decls : List Node}
    (hd : ∀ x ∈ decls, x ∈ s.document.root.preorder ∧ x.isA .decl) :
    (s.bindingsAmong a decls).Settles fun bs => ∀ b ∈ bs, s.document.Knows b := by
  induction decls with
  | nil => exact .pure (by simp)
  | cons decl rest ih =>
    have hrest := ih fun x hx => hd x (List.mem_cons_of_mem _ hx)
    unfold bindingsAmong
    dsimp only
    split
    · obtain ⟨hm, hc⟩ := hd decl List.mem_cons_self
      refine (h.settles_classify hm hc false).bind fun r hr => ?_
      cases r with
      | none => exact hrest
      | some b =>
        refine hrest.bind fun bs hbs => .pure ?_
        simpa using ⟨hr b rfl, hbs⟩
    · exact hrest

/-- **The bindings of an aggregate are known to the document.** -/
theorem settles_bindings (h : s.Sound) (a : Aggregate) :
    (s.bindings a).Settles fun bs => ∀ b ∈ bs.1 ++ bs.2, s.document.Knows b := by
  unfold bindings
  refine (h.settles_bindingsAmong a fun x hx => ?_).bind fun bs hbs => .pure fun b hb => ?_
  · simpa [ofClass] using hx
  · simp only [List.mem_append, List.mem_filter] at hb
    exact hb.elim (fun hb => hbs b hb.1) fun hb => hbs b hb.1

/-! ### Names -/

theorem settles_lookupIn (h : s.Sound) (name : String) (child : Node) {scopes : List Node}
    (hs : ∀ x ∈ scopes, x ∈ s.document.root.preorder) :
    (s.lookupIn name child scopes).Settles fun r => ∀ b, r = some b → s.document.Knows b := by
  induction scopes generalizing child with
  | nil => exact .pure (by simp)
  | cons scope outer ih =>
    have houter := ih scope fun x hx => hs x (List.mem_cons_of_mem _ hx)
    unfold lookupIn
    split
    · rename_i b hb
      refine .pure fun b' hb' => ?_
      obtain rfl : b = b' := by simpa using hb'
      obtain ⟨e, he, rfl⟩ := Option.map_eq_some_iff.mp hb
      exact (h.decomposed e (List.mem_of_find?_eq_some he)).knows.refresh h.document
    · split
      · rename_i decl hd
        obtain ⟨hm, hc⟩ := declaredAmong_spec hd
        refine h.settles_classify ?_ hc true
        exact mem_preorder_trans (mem_preorder_of_itemsOf hm (isPresent_of_isA hc))
          (hs scope List.mem_cons_self)
      · exact houter

/-- **What a name means is a binding that the document knows.** -/
theorem settles_lookup (h : s.Sound) (n : Node) (name : String) :
    (s.lookup n name).Settles fun r => ∀ b, r = some b → s.document.Knows b := by
  exact h.settles_lookupIn name n fun x hx => Document.mem_of_ancestors hx

end Sound

end Session

end Fieldwise
