import Fieldwise.Proofs.Document.Lookup
import Fieldwise.Proofs.Session.Meaning
import Fieldwise.Proofs.Session.Parameters

/-!
# Names under wrappers

An operand is a name on its own, or one under `*`, `&`, a subscript, or `&` and a subscript
(`Node.Wraps`). The wrappers are no scopes, so what the name means is looked up alike from the name
and from the operand (`Session.Sound.lookup_of_wraps`). The nodes above a node are its parent and
those above that one (`Document.Sound.ancestors_eq`).
-/

namespace Fieldwise

open Node

namespace Node

/-! ### Operands -/

/-- The node is an operand of a name: the name with a wrapper around it, and a subscript. -/
inductive Wraps (n : Node) : Node → Option Wrapper → Node → Prop where
  | bare : Wraps n n none .absent
  | deref (m : Mark) : Wraps n (.mk m (.unaryOp .deref) [n]) (some .deref) .absent
  | address (m : Mark) : Wraps n (.mk m (.unaryOp .address) [n]) (some .address) .absent
  | element (m : Mark) (subscript : Node) :
    Wraps n (.mk m .arrayRef [n, subscript]) (some .element) subscript
  | elementAddress (m m' : Mark) (subscript : Node) :
    Wraps n (.mk m (.unaryOp .address) [.mk m' .arrayRef [n, subscript]]) (some .elementAddress)
      subscript

/-- An expression that is taken apart is made of its symbol and the wrapper. -/
theorem wraps_symbol (e : Node) : Wraps e.unwrap.symbol e e.unwrap.wrap e.unwrap.subscript := by
  unfold unwrap
  split
  · exact .elementAddress _ _ _
  · exact .deref _
  · exact .address _
  · exact .element _ _
  · exact .bare

theorem mem_preorder_of_wraps {n e subscript : Node} {wrap : Option Wrapper}
    (h : Wraps n e wrap subscript) (hn : n.isPresent) : n ∈ e.preorder := by
  have hself := self_mem_preorder hn
  cases h with
  | bare => exact hself
  | deref m | address m | element m => exact mem_preorder_of_mem_parts List.mem_cons_self hself
  | elementAddress m m' =>
    exact mem_preorder_of_mem_parts List.mem_cons_self
      (mem_preorder_of_mem_parts List.mem_cons_self hself)

end Node

/-- The nodes above a node that can stand at one place only. -/
theorem Document.Sound.ancestors_eq [Discipline] {d : Document} {P c : Node} (h : d.Sound)
    (hP : P ∈ d.root.preorder) (hc : c ∈ P.parts) (hs : c.isSole) :
    d.ancestors c = P :: d.ancestors P := by
  obtain ⟨j, hj⟩ := h.exists_key hP
  exact ancestors_eq_cons (h.parent?_eq hP hc hs) hj fun x hx hxj =>
    h.eq_of_key hx hP (hxj.trans hj.symm)

/-- The operand that an expression is, if its symbol means the binding. -/
def Binding.operandIn (b : Binding) (e : Node) : Operand :=
  b.operand e.unwrap.wrap e.unwrap.subscript

theorem Binding.binding_operand (b : Binding) (wrap : Option Wrapper) (subscript : Node) :
    (b.operand wrap subscript).binding = b := by
  unfold operand
  split <;> rfl

theorem Binding.binding_operandIn (b : Binding) (e : Node) : (b.operandIn e).binding = b :=
  b.binding_operand _ _

namespace Session

variable {s : Session} {P c e n : Node}

theorem run_parentOf (s : Session) (n : Node) :
    s.run (Engine.parentOf n) = (.ok ((s.document.parent? n).getD .absent), s) := rfl

variable [Discipline]

theorem Sound.run_parentOf (h : s.Sound) (hP : P ∈ s.document.root.preorder) (hn : n ∈ P.parts)
    (hs : n.isSole) : s.run (Engine.parentOf n) = (.ok P, s) := by
  rw [Session.run_parentOf, h.document.parent?_eq hP hn hs, Option.getD_some]

theorem Sound.same_self (h : s.Sound) (hn : n ∈ s.document.root.preorder) : n.same n := by
  obtain ⟨k, hk⟩ := h.document.exists_key hn
  simp [Node.same, hk]

/-! ### Lookups -/

/-- A node that is no scope knows nothing of a name. -/
theorem Sound.decomposedIn?_eq_none (h : s.Sound) (hP : P ∈ s.document.root.preorder)
    (hf : P.isA .funcDef = false) (hb : P.isBlock = false) (name : String) :
    s.decomposedIn? P name = none := by
  rw [decomposedIn?, Option.map_eq_none_iff]
  refine List.find?_eq_none.mpr fun x hx hfor => ?_
  simp only [Decomposed.isFor, Bool.and_eq_true, beq_iff_eq] at hfor
  have hrem := h.decomposed x hx
  have hform : P.form? = x.binding.scope.form? :=
    hrem.knows.scope.form P (Document.mem_trees_of_root hP) (hfor.1.symm.trans hrem.scope)
  have hcls : P.cls? = x.binding.scope.cls? := by rw [cls?, hform, ← cls?]
  rcases hrem.knows.block with hs | hs
  · rw [isA, ← hcls, ← isA, hf] at hs
    cases hs
  · rw [isBlock, ← hcls, ← isBlock, hb] at hs
    cases hs

/-- A name is looked up from a part of a node that is no scope as it is from the node. -/
theorem Sound.lookup_part (h : s.Sound) (hP : P ∈ s.document.root.preorder) (hc : c ∈ P.parts)
    (hs : c.isSole) (hf : P.isA .funcDef = false) (hb : P.isBlock = false)
    (hi : itemsOf P = []) (name : String) : s.lookup c name = s.lookup P name := by
  rw [lookup, h.document.ancestors_eq hP hc hs, lookupIn, h.decomposedIn?_eq_none hP hf hb, hi]
  rfl

/-- **The name in an operand is looked up from the operand** as it is from the name itself. -/
theorem Sound.lookup_of_wraps (h : s.Sound) (he : e ∈ s.document.root.preorder)
    {wrap : Option Wrapper} {subscript : Node} (hw : Wraps n e wrap subscript)
    (hi : n.isA .ident) (name : String) : s.lookup n name = s.lookup e name := by
  have hs : n.isSole := isSole_of_isA hi rfl
  cases hw with
  | bare => rfl
  | deref m => exact h.lookup_part he List.mem_cons_self hs rfl rfl rfl name
  | address m => exact h.lookup_part he List.mem_cons_self hs rfl rfl rfl name
  | element m => exact h.lookup_part he List.mem_cons_self hs rfl rfl rfl name
  | elementAddress m m' =>
    have hm := mem_preorder_of_part he (c := .mk m' .arrayRef [n, subscript]) List.mem_cons_self rfl
    rw [h.lookup_part hm List.mem_cons_self hs rfl rfl rfl name]
    exact h.lookup_part he List.mem_cons_self rfl rfl rfl rfl name

end Session

end Fieldwise
