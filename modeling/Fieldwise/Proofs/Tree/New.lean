import Fieldwise.Proofs.Tree.Regular

/-!
# New nodes

The nodes that a rewriting builds are in no document yet and nothing is wrong with them
(`Node.IsNew`). Most of them are expressions, statements and types, which can stand in any place
for a single child (`Node.IsNewTerm`). They are built from each other and from copies of what is in
the program (`Node.IsTerm.copy`, `Node.isNewTerm_mk`).
-/

namespace Fieldwise

/-- The forms that are regular with any terms as parts, and are no statements themselves. -/
def Form.isPlain : Form → Bool
  | .funcCall | .funcDef => false
  | f => !f.cls.isStatement

/-- The forms in which neither declarations nor statements stand. -/
def Form.holdsTerms (f : Form) : Prop :=
  ∀ i, (f.holdsDecl i || f.holdsStatement i || f.isBranch i) = false

namespace Node

variable {m : Mark} {f : Form} {n p : Node} {ps : List Node}

theorem keyless_mk (hm : m.key = none) (h : Keyless ps) : Keyless [Node.mk m f ps] := fun x hx => by
  rcases (mem_preorder_iff rfl).mp (mem_preorderAll_singleton.mp hx) with rfl | hx
  · exact hm
  · exact h x hx

variable [Discipline]

/-- A tree with nothing wrong in it that is no declaration, and no statement where these are held to
their places. -/
structure IsTerm (n : Node) : Prop where
  regular : Regular [n]
  decl : n.isA .decl = false
  inner : Discipline.sorted → n.isStatement = false

/-- A tree with nothing wrong in it that is in no document yet. -/
structure IsNew (n : Node) : Prop where
  keyless : Keyless [n]
  regular : Regular [n]
  inner : Discipline.sorted → n.isStatement = false

/-- An expression or a type that is in no document yet. -/
structure IsNewTerm (n : Node) : Prop extends IsNew n where
  decl : n.isA .decl = false

theorem keyless_of_forall (h : ∀ p ∈ ps, p.IsNew) : Keyless ps := fun x hx => by
  obtain ⟨p, hp, hx⟩ := mem_preorderAll.mp hx
  exact (h p hp).keyless x (mem_preorderAll_singleton.mpr hx)

theorem regular_of_forall (h : ∀ p ∈ ps, p.IsNew) : Regular ps :=
  .of_forall fun p hp => (h p hp).regular

/-! ### Terms -/

theorem isTerm_absent : Node.absent.IsTerm := ⟨.absent, rfl, fun _ => rfl⟩

omit [Discipline] in
/-- Parts that are no statements can stand anywhere. -/
theorem isSorted_of_forall (h : ∀ p ∈ ps, p.isStatement = false) : (Node.mk m f ps).IsSorted :=
  fun _ _ i c hc hst => by
    rw [h c (List.mem_of_getElem? hc)] at hst
    cases hst

/-- Declarations apart, there is nothing to check of most nodes but where the statements are. -/
theorem isRegular_mk (hcase : f.cls ≠ .caseLabel) (hcall : f.cls ≠ .funcCall)
    (hfunc : f.cls ≠ .funcDef) (h : ∀ p ∈ ps, p.isA .decl = false)
    (hs : Discipline.sorted → (Node.mk m f ps).IsSorted) : (Node.mk m f ps).IsRegular := by
  refine ⟨isPlaced_of_forall h (fun hc => (hcase hc).elim) hfunc, fun _ hn => ?_,
    fun _ hd => ?_, hs⟩
  · obtain rfl : f = .funcCall := by simpa [form?] using (callName?_eq_some.mp hn).1
    exact (hcall rfl).elim
  · exact (hfunc (by simpa [isA, cls?, form?] using hd)).elim

theorem isRegular_of_isPlain (hf : f.isPlain) (h : ∀ p ∈ ps, p.isA .decl = false)
    (hs : Discipline.sorted → ∀ p ∈ ps, p.isStatement = false) : (Node.mk m f ps).IsRegular := by
  refine isRegular_mk ?_ ?_ ?_ h fun hsort => isSorted_of_forall (hs hsort)
  all_goals
    intro hc
    cases f <;> first | (cases hc; done) | cases hf

/-- Where neither declarations nor statements can stand, the parts are terms. -/
theorem Regular.isTerm_of_mem (h : Regular [Node.mk m f ps]) (hf : f.holdsTerms) (hp : p ∈ ps) :
    p.IsTerm := by
  obtain ⟨i, hi⟩ := List.getElem?_of_mem hp
  have hreg := h _ (mem_preorderAll_singleton.mpr (self_mem_preorder rfl))
  obtain ⟨⟨hdecl, hst⟩, hbranch⟩ : (f.holdsDecl i = false ∧ f.holdsStatement i = false) ∧
      f.isBranch i = false := by simpa using hf i
  refine ⟨h.parts.of_mem hp, Bool.eq_false_iff.mpr fun hd => ?_, fun hs =>
    Bool.eq_false_iff.mpr fun hp => ?_⟩
  · have := (isPlaced_mk.mp hreg.placed).1 i p hi hd
    rw [hdecl] at this
    cases this
  · have := hreg.sorted hs f rfl i p hi hp
    rw [hst, hbranch] at this
    simp at this

theorem Regular.isTerm_child (h : Regular [n]) (hf : ∀ f, n.form? = some f → f.holdsTerms)
    (s : Slot) : (n.child s).IsTerm := by
  cases n with
  | absent => exact isTerm_absent
  | mk m f ps =>
    rw [Node.child, List.getD_eq_getElem?_getD]
    cases hc : ps[f.cls.slots.idxOf s]? with
    | none => exact isTerm_absent
    | some c => exact h.isTerm_of_mem (hf f rfl) (List.mem_of_getElem? hc)

/-- The type, the initializer and the width of a declaration. -/
theorem Regular.isTerm_child_decl (h : Regular [n]) (hn : n.isA .decl) (s : Slot) :
    (n.child s).IsTerm := by
  refine h.isTerm_child (fun f hf => ?_) s
  have hc : f.cls = .decl := by simpa [isA, cls?, hf] using hn
  intro i
  cases f with
  | decl name spec => rfl
  | _ => cases hc

theorem IsTerm.parts (h : (Node.mk m f ps).IsTerm) (hf : f.holdsTerms) : ∀ p ∈ ps, p.IsTerm :=
  fun _ hp => h.regular.isTerm_of_mem hf hp

/-! ### New terms -/

theorem IsNewTerm.isTerm (h : n.IsNewTerm) : n.IsTerm := ⟨h.regular, h.decl, h.inner⟩

theorem isNewTerm_absent : Node.absent.IsNewTerm :=
  ⟨⟨fun _ hx => (not_mem_preorder_absent (mem_preorderAll_singleton.mp hx)).elim, .absent,
    fun _ => rfl⟩, rfl⟩

theorem IsTerm.copy (h : n.IsTerm) : n.copy.IsNewTerm :=
  ⟨⟨keyless_copy n, h.regular.copy, fun hs => by
    rw [isStatement_congr (cls?_copy n)]; exact h.inner hs⟩, by rw [isA, cls?_copy]; exact h.decl⟩

/-- A new node on top of new terms. -/
theorem isNew_mk (hm : m.key = none) (hf : f.isPlain) (h : ∀ p ∈ ps, p.IsNewTerm) :
    (Node.mk m f ps).IsNew where
  keyless := keyless_mk hm (keyless_of_forall fun p hp => (h p hp).toIsNew)
  regular := (regular_of_forall fun p hp => (h p hp).toIsNew).node
    (isRegular_of_isPlain hf (fun p hp => (h p hp).decl) fun hs p hp => (h p hp).inner hs)
  inner _ := by
    cases f <;> first | rfl | cases hf

theorem isNewTerm_mk (hm : m.key = none) (hf : f.isPlain) (hd : f.cls ≠ .decl)
    (h : ∀ p ∈ ps, p.IsNewTerm) : (Node.mk m f ps).IsNewTerm :=
  ⟨isNew_mk hm hf h, by simpa [isA, cls?, form?] using hd⟩

/-- Where neither declarations nor statements can stand, the parts of a new node are new terms. -/
theorem IsNew.parts (h : (Node.mk m f ps).IsNew) (hf : f.holdsTerms) (hp : p ∈ ps) :
    p.IsNewTerm :=
  have ht := h.regular.isTerm_of_mem hf hp
  ⟨⟨fun x hx => h.keyless x (mem_preorderAll_singleton.mpr
      (mem_preorder_of_mem_parts (t := Node.mk m f ps) hp (mem_preorderAll_singleton.mp hx))),
    ht.regular, ht.inner⟩, ht.decl⟩

theorem IsNew.key (h : (Node.mk m f ps).IsNew) : m.key = none :=
  h.keyless _ (mem_preorderAll_singleton.mpr (self_mem_preorder rfl))

/-! ### New statements -/

omit [Discipline] in
theorem keyless_emptyStatement : Keyless [emptyStatement] := keyless_mk rfl fun _ hx => nomatch hx

theorem regular_emptyStatement : Regular [emptyStatement] :=
  Regular.node (fun _ hx => nomatch hx)
    (isRegular_mk nofun nofun nofun (by simp) fun _ => isSorted_of_forall (by simp))

/-- Statements can stand anywhere in a block. -/
theorem isRegular_compound (h : ∀ p ∈ ps, p.isA .decl = false) :
    (Node.mk m .compound ps).IsRegular :=
  isRegular_mk nofun nofun nofun h fun _ f hf _ _ _ _ => .inl <| by
    obtain rfl : Form.compound = f := by simpa [form?] using hf
    rfl

/-! ### New expressions -/

theorem isNewTerm_ident (name : String) : (ident name).IsNewTerm :=
  isNewTerm_mk rfl rfl (by simp [Form.cls]) (by simp)

theorem isNewTerm_intLiteral (z : Int) : (intLiteral z).IsNewTerm :=
  isNewTerm_mk rfl rfl (by simp [Form.cls]) (by simp)

theorem IsNewTerm.unary (h : n.IsNewTerm) (op : UnaryOp) : (unary op n).IsNewTerm :=
  isNewTerm_mk rfl rfl (by simp [Form.cls]) (by simpa using h)

theorem IsNewTerm.binary (h : n.IsNewTerm) (h' : p.IsNewTerm) (op : BinaryOp) :
    (binary op n p).IsNewTerm :=
  isNewTerm_mk rfl rfl (by simp [Form.cls]) (by simp [h, h'])

theorem IsNewTerm.arrayRef (h : n.IsNewTerm) (h' : p.IsNewTerm) : (arrayRef n p).IsNewTerm :=
  isNewTerm_mk rfl rfl (by simp [Form.cls]) (by simp [h, h'])

theorem IsNewTerm.assign (h : n.IsNewTerm) (h' : p.IsNewTerm) : (assign n p).IsNewTerm :=
  isNewTerm_mk rfl rfl (by simp [Form.cls]) (by simp [h, h'])

/-- A call, which has two arguments if it stands for an assignment. -/
theorem IsNewTerm.callOf (h : n.IsNewTerm) (hp : ∀ p ∈ ps, p.IsNewTerm)
    (hn : Discipline.strict → n.identName? = some "operator=" → ps.length = 2) :
    (callOf n ps).IsNewTerm := by
  have hargs : (build .exprList ps).IsNewTerm := isNewTerm_mk rfl rfl (by simp [Form.cls]) hp
  have hall : ∀ a ∈ [n, build .exprList ps], a.IsNewTerm := by simp [h, hargs]
  refine ⟨⟨keyless_mk rfl (keyless_of_forall fun a ha => (hall a ha).toIsNew), ?_, fun _ => rfl⟩,
    rfl⟩
  refine (regular_of_forall fun a ha => (hall a ha).toIsNew).node ⟨?_, fun hs hcall a ha k hk => ?_,
    (fun _ hf => nomatch hf), fun hs => isSorted_of_forall fun a ha => (hall a ha).inner hs⟩
  · exact isPlaced_of_forall (fun a ha => (hall a ha).decl) nofun nofun
  · obtain ⟨-, c, hc, hcn⟩ := callName?_eq_some.mp hcall
    obtain rfl : n = c := by simpa [Node.parts] using hc
    have hlen := hn hs hcn
    simp only [Node.parts, List.mem_cons, List.not_mem_nil, or_false] at ha
    rcases ha with rfl | rfl
    · -- The callee is a name and no list.
      rw [identName?_eq_some] at hcn
      simp [exprCount?, isA, cls?, hcn, Form.cls] at hk
    · simpa [exprCount?, isA, cls?, form?, Form.cls, Node.parts, hlen] using hk.symm

theorem isNewTerm_call {name : String} (hn : Discipline.strict → name ≠ "operator=")
    (hp : ∀ p ∈ ps, p.IsNewTerm) : (call name ps).IsNewTerm :=
  (isNewTerm_ident name).callOf hp fun hs h => by simp [ident, identName?, form?, hn hs] at h

theorem IsNewTerm.sizeOfNode (h : n.IsNewTerm) : (sizeOfNode n).IsNewTerm := h.unary _

/-! ### Declared types -/

theorem IsNewTerm.setName (name : Option String) (h : n.IsNewTerm) :
    (n.setName name).IsNewTerm := by
  fun_induction Node.setName name n with
  | case1 m _ quals ps =>
    exact isNewTerm_mk h.key rfl (by simp [Form.cls]) fun p hp => h.parts (fun _ => rfl) hp
  | case2 m quals type dim ih =>
    refine isNewTerm_mk h.key rfl (by simp [Form.cls]) ?_
    simp only [List.mem_cons, List.not_mem_nil, or_false, forall_eq_or_imp, forall_eq]
    exact ⟨ih (h.parts (fun _ => rfl) (by simp)), h.parts (fun _ => rfl) (by simp)⟩
  | case3 m args type ih =>
    refine isNewTerm_mk h.key rfl (by simp [Form.cls]) ?_
    simp only [List.mem_cons, List.not_mem_nil, or_false, forall_eq_or_imp, forall_eq]
    exact ⟨h.parts (fun _ => rfl) (by simp), ih (h.parts (fun _ => rfl) (by simp))⟩
  | case4 m quals type ih =>
    refine isNewTerm_mk h.key rfl (by simp [Form.cls]) ?_
    simp only [List.mem_cons, List.not_mem_nil, or_false, forall_eq]
    exact ih (h.parts (fun _ => rfl) (by simp))
  | case5 n => exact h

theorem IsTerm.rename (h : n.IsTerm) (name : Option String) : (n.rename name).IsNewTerm :=
  h.copy.setName name

theorem IsTerm.typenameOf (h : n.IsTerm) : (n.typenameOf).IsNewTerm :=
  isNewTerm_mk rfl rfl (by simp [Form.cls]) (by simpa using h.rename none)

theorem isNew_decl {name : Option String} {spec : Specifiers} {type init : Node}
    (ht : type.IsNewTerm) (hi : init.IsNewTerm) :
    (build (.decl name spec) [type, init, .absent]).IsNew :=
  isNew_mk rfl rfl (by simp [ht, hi, isNewTerm_absent])

theorem IsNewTerm.elementType (h : n.IsNewTerm) : n.elementType.IsNewTerm := by
  unfold Node.elementType
  split
  · exact h.parts (fun _ => rfl) (by simp)
  · exact h

theorem IsTerm.dimension (h : n.IsTerm) : n.dimension.IsTerm := by
  unfold Node.dimension
  split
  · exact h.parts (fun _ => rfl) _ (by simp)
  · exact isTerm_absent

theorem IsTerm.pointerTo (h : n.IsTerm) : n.pointerTo.IsNewTerm := by
  unfold Node.pointerTo
  split
  · refine isNewTerm_mk rfl rfl (by simp [Form.cls]) ?_
    simpa using (h.parts (fun _ => rfl) _ (by simp)).copy
  · exact isNewTerm_mk rfl rfl (by simp [Form.cls]) (by simpa using h.copy)

end Node

end Fieldwise
