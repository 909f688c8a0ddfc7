import Fieldwise.Proofs.Tree.New

/-!
# Trees that are built from others

A rewriting puts new trees together from copies of what stands in the program. `Node.BuiltFrom R n`
says that `n` is such a tree, where what is copied stands in trees with `R` (`Node.TakenFrom R`),
and the nodes around the copies neither declare nor define a function. So all functions that are
declared in it are declared likewise in the trees that it is built from
(`Node.BuiltFrom.exists_of_function`).
-/

namespace Fieldwise

/-- A form that is ordinary is neither that of a declaration nor that of a definition. -/
theorem Form.cls_of_isOrdinary {f : Form} (h : f.isOrdinary) :
    f.cls ≠ .decl ∧ f.cls ≠ .funcDef := by
  revert h
  cases f <;> simp [isOrdinary, isNested, cls]

namespace Node

variable {R R' : Node → Prop} {n p t type init : Node} {m : Mark} {f : Form} {ps : List Node}

/-! ### Copies -/

theorem copy_copy (t : Node) : t.copy.copy = t.copy := by
  induction t using induction with
  | h₀ => rfl
  | h m f ps ih =>
    simp only [copy, copyAll_eq_map, List.map_map, mk.injEq, true_and]
    exact List.map_congr_left ih

theorem child_copy (t : Node) (s : Slot) : t.copy.child s = (t.child s).copy := by
  cases t with
  | absent => rfl
  | mk m f ps =>
    rw [copy, copyAll_eq_map, child_mk, child_mk, List.getElem?_map]
    cases ps[f.cls.slots.idxOf s]? <;> rfl

theorem mem_copy_of_mem {x : Node} (h : x ∈ t.preorder) : x.copy ∈ t.copy.preorder :=
  preorder_copy t ▸ List.mem_map_of_mem h

theorem copy_stampAll_of_forall (h : ∀ p ∈ ps, ∀ next, (stamp next p).1.copy = p.copy) :
    ∀ next, (stampAll next ps).1.map copy = ps.map copy := by
  induction ps with
  | nil => exact fun _ => rfl
  | cons p ps ih =>
    intro next
    rw [stampAll_cons, List.map_cons, List.map_cons, h p List.mem_cons_self,
      ih fun q hq => h q (List.mem_cons_of_mem _ hq)]

/-- Keys do not show in copies. -/
theorem copy_stamp (t : Node) : ∀ next, (stamp next t).1.copy = t.copy := by
  induction t using induction with
  | h₀ => exact fun _ => rfl
  | h m f ps ih =>
    obtain ⟨key, line⟩ := m
    intro next
    cases key with
    | none =>
      rw [stamp_mk_none, copy, copy, copyAll_eq_map, copyAll_eq_map, copy_stampAll_of_forall ih]
    | some k =>
      rw [stamp_mk_some, copy, copy, copyAll_eq_map, copyAll_eq_map, copy_stampAll_of_forall ih]

theorem map_copy_stampAll (next : Nat) (ps : List Node) :
    (stampAll next ps).1.map copy = ps.map copy :=
  copy_stampAll_of_forall (fun p _ => copy_stamp p) next

/-! ### What is taken and what is built -/

/-- Nothing, or a node of a tree with `R`. -/
def TakenFrom (R : Node → Prop) (n : Node) : Prop := n.isPresent → ∃ t, R t ∧ n ∈ t.preorder

/-- A tree of copies of what stands in trees with `R`, and of nodes that declare no function. -/
inductive BuiltFrom (R : Node → Prop) : Node → Prop where
  | absent : BuiltFrom R absent
  | copy {t n : Node} : R t → n ∈ t.preorder → BuiltFrom R n.copy
  | node {line : Option Nat} {f : Form} {ps : List Node} :
      f.isOrdinary → (∀ p ∈ ps, BuiltFrom R p) →
    BuiltFrom R (mk ⟨none, line⟩ f ps)
  | decl {line : Option Nat} {name : Option String} {spec : Specifiers} {type init : Node} :
    type.isA .funcDecl = false → BuiltFrom R type → BuiltFrom R init →
    BuiltFrom R (mk ⟨none, line⟩ (.decl name spec) [type, init, .absent])

namespace TakenFrom

theorem absent : TakenFrom R absent := fun h => nomatch h

theorem of_mem (ht : R t) (hn : n ∈ t.preorder) : TakenFrom R n := fun _ => ⟨t, ht, hn⟩

theorem of_mem_parts (h : TakenFrom R n) (hp : p ∈ n.parts) : TakenFrom R p := fun hpp => by
  obtain ⟨t, ht, hn⟩ := h (isPresent_of_mem_parts hp)
  exact ⟨t, ht, mem_preorder_of_part hn hp hpp⟩

theorem child (h : TakenFrom R n) (s : Slot) : TakenFrom R (n.child s) := fun hc =>
  h.of_mem_parts (child_mem_parts hc) hc

theorem items (h : TakenFrom R n) : ∀ p ∈ n.items, TakenFrom R p := fun p hp => by
  cases n with
  | absent => cases hp
  | mk m f ps => exact h.of_mem_parts (List.mem_of_mem_drop hp)

theorem copy (h : TakenFrom R n) : BuiltFrom R n.copy := by
  cases n with
  | absent => exact .absent
  | mk m f ps =>
    obtain ⟨t, ht, hn⟩ := h rfl
    exact .copy ht hn

theorem mono (h : TakenFrom R n) (hR : ∀ t, R t → R' t) : TakenFrom R' n := fun hn => by
  obtain ⟨t, ht, hm⟩ := h hn
  exact ⟨t, hR t ht, hm⟩

end TakenFrom

namespace BuiltFrom

/-- The parts of a tree that is built are built. -/
theorem parts (h : BuiltFrom R (mk m f ps)) : m.key = none ∧ ∀ p ∈ ps, BuiltFrom R p := by
  generalize hn : mk m f ps = n at h
  cases h with
  | absent => cases hn
  | @copy t q ht hq =>
    cases q with
    | absent => cases hn
    | mk m' f' qs =>
      rw [Node.copy, copyAll_eq_map] at hn
      cases hn
      refine ⟨rfl, fun p hp => ?_⟩
      obtain ⟨q, hq', rfl⟩ := List.mem_map.mp hp
      exact (TakenFrom.of_mem ht hq).of_mem_parts hq' |>.copy
  | node hf hps =>
    cases hn
    exact ⟨rfl, hps⟩
  | decl htype ht hi =>
    cases hn
    exact ⟨rfl, by simp [ht, hi, BuiltFrom.absent]⟩

theorem mono (h : BuiltFrom R n) (hR : ∀ t, R t → R' t) : BuiltFrom R' n := by
  induction h with
  | absent => exact .absent
  | copy ht hn => exact .copy (hR _ ht) hn
  | node hf _ ih => exact .node hf ih
  | decl hf _ _ iht ihi => exact .decl hf iht ihi

/-- A tree that is built is in no document yet. -/
theorem keyless (h : BuiltFrom R n) : Keyless [n] := by
  induction n using induction with
  | h₀ => exact fun x hx => nomatch hx
  | h m f ps ih =>
    obtain ⟨hm, hps⟩ := h.parts
    intro x hx
    rcases mem_preorder_mk.mp (mem_preorderAll_singleton.mp hx) with rfl | ⟨p, hp, hx⟩
    · exact hm
    · exact ih p hp (hps p hp) x (mem_preorderAll_singleton.mpr hx)

theorem keyless_of_forall (h : ∀ p ∈ ps, BuiltFrom R p) : Keyless ps := fun x hx => by
  obtain ⟨p, hp, hx⟩ := mem_preorderAll.mp hx
  exact (h p hp).keyless x (mem_preorderAll_singleton.mpr hx)

/-- **What declares or defines a function in a tree that is built is the copy of what does so.** -/
theorem exists_of_function (h : BuiltFrom R n) {y : Node} (hy : y ∈ n.preorder)
    (hf : y.declaresFunction ∨ y.isA .funcDef) : ∃ t, R t ∧ ∃ z ∈ t.preorder, y = z.copy := by
  induction h with
  | absent => cases hy
  | copy ht hn =>
    obtain ⟨z, hz, rfl⟩ := exists_of_mem_copy hy
    exact ⟨_, ht, z, mem_preorder_trans hz hn, rfl⟩
  | @node line f ps hof hps ih =>
    rcases mem_preorder_mk.mp hy with rfl | ⟨p, hp, hy⟩
    · obtain ⟨hd, hdef⟩ := Form.cls_of_isOrdinary hof
      simp [declaresFunction, isA, cls?, form?, hd, hdef] at hf
    · exact ih p hp hy
  | @decl _ _ _ type _ htype ht hi iht ihi =>
    rcases mem_preorder_mk.mp hy with rfl | ⟨p, hp, hyp⟩
    · rcases hf with hf | hf
      · rw [declaresFunction, Bool.and_eq_true] at hf
        have hfunc : type.isA .funcDecl := hf.2
        rw [htype] at hfunc
        cases hfunc
      · cases hf
    · simp only [List.mem_cons, List.not_mem_nil, or_false] at hp
      rcases hp with rfl | rfl | rfl
      · exact iht hyp
      · exact ihi hyp
      · cases hyp

/-! ### Expressions and statements -/

theorem ident (name : String) : BuiltFrom R (ident name) := .node rfl (by simp)

theorem intLiteral (z : Int) : BuiltFrom R (intLiteral z) := .node rfl (by simp)

theorem unary (h : BuiltFrom R n) (op : UnaryOp) : BuiltFrom R (unary op n) :=
  .node rfl (by simpa using h)

theorem binary (h : BuiltFrom R n) (h' : BuiltFrom R p) (op : BinaryOp) :
    BuiltFrom R (binary op n p) := .node rfl (by simpa using ⟨h, h'⟩)

theorem arrayRef (h : BuiltFrom R n) (h' : BuiltFrom R p) : BuiltFrom R (arrayRef n p) :=
  .node rfl (by simpa using ⟨h, h'⟩)

theorem assign (h : BuiltFrom R n) (h' : BuiltFrom R p) : BuiltFrom R (assign n p) :=
  .node rfl (by simpa using ⟨h, h'⟩)

theorem callOf (h : BuiltFrom R n) (hp : ∀ p ∈ ps, BuiltFrom R p) : BuiltFrom R (callOf n ps) := by
  have hlist : BuiltFrom R (build .exprList ps) := .node rfl hp
  exact .node rfl (by simpa using ⟨h, hlist⟩)

theorem call (name : String) (hp : ∀ p ∈ ps, BuiltFrom R p) : BuiltFrom R (call name ps) :=
  callOf (ident name) hp

theorem sizeOfNode (h : BuiltFrom R n) : BuiltFrom R (sizeOfNode n) := h.unary _

/-! ### Declared types -/

theorem setName (name : Option String) (h : BuiltFrom R n) : BuiltFrom R (n.setName name) := by
  fun_induction Node.setName name n with
  | case1 m _ quals ps => obtain ⟨key, line⟩ := m; cases h.parts.1; exact .node rfl h.parts.2
  | case2 m quals type dim ih =>
    obtain ⟨key, line⟩ := m
    obtain ⟨rfl, hps⟩ := h.parts
    exact .node rfl (by simpa using ⟨ih (hps type (by simp)), hps dim (by simp)⟩)
  | case3 m args type ih =>
    obtain ⟨key, line⟩ := m
    obtain ⟨rfl, hps⟩ := h.parts
    exact .node rfl (by simpa using ⟨hps args (by simp), ih (hps type (by simp))⟩)
  | case4 m quals type ih =>
    obtain ⟨key, line⟩ := m
    obtain ⟨rfl, hps⟩ := h.parts
    exact .node rfl (by simpa using ih (hps type (by simp)))
  | case5 n => exact h

theorem elementType (h : BuiltFrom R n) : BuiltFrom R n.elementType := by
  unfold Node.elementType
  split
  · exact h.parts.2 _ List.mem_cons_self
  · exact h

theorem typename (h : BuiltFrom R n) : BuiltFrom R (build (.typename []) [n]) :=
  .node rfl (by simpa using h)

end BuiltFrom

end Node

end Fieldwise
