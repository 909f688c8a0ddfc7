import Fieldwise.Proofs.Document.Frame
import Fieldwise.Proofs.Tree.Built

/-!
# Trees in which some names do not matter

A tree is `Node.isPlain` with respect to some functions and some names if it declares none of the
functions, uses none of the names and declares none of them in a block. What is edited for such a
name stands around a part that is `Node.IsMarked`, and so in no plain tree
(`Node.IsMarked.not_mem`).
-/

namespace Fieldwise

open Node

/-- The classes of declarators, of the ends of their chains and of lists of parameters. -/
def Class.isDeclarator : Class → Bool
  | .arrayDecl | .funcDecl | .paramList | .ptrDecl | .typeDecl => true
  | _ => false

namespace Node

variable {K N N' : List String} {n x y Q : Node}

/-- Whether a tree declares none of some functions and defines none, uses none of some names and
declares none of them in a block. -/
def isPlain (K N : List String) (n : Node) : Bool :=
  n.preorder.all fun y => !(y.declaresFunction && y.name?.any K.contains) && !y.isA .funcDef &&
    !y.identName?.any N.contains &&
    !(y.isBlock && y.parts.any fun c => c.isA .decl && c.name?.any N.contains)

/-- Whether a part of a node is an expression with a use of one of some names, or declares one of
them in a block. -/
def IsMarked (N : List String) (P x : Node) : Prop :=
  x.isLink ∧ (∃ y ∈ x.preorder, y.identName?.any N.contains) ∨
    P.isBlock ∧ x.isA .decl ∧ x.name?.any N.contains

theorem any_contains_mono {o : Option String} (hN : ∀ name ∈ N', name ∈ N)
    (h : o.any N'.contains) : o.any N.contains := by
  cases o with
  | none => cases h
  | some name =>
    simp only [Option.any_some, List.contains_eq_mem, decide_eq_true_eq] at h ⊢
    exact hN name h

theorem isPlain_iff : n.isPlain K N ↔ ∀ y ∈ n.preorder,
    (y.declaresFunction → y.name?.any K.contains = false) ∧ y.isA .funcDef = false ∧
    y.identName?.any N.contains = false ∧
    (y.isBlock → ∀ c ∈ y.parts, c.isA .decl → c.name?.any N.contains = false) := by
  simp only [isPlain, List.all_eq_true, Bool.and_eq_true, Bool.not_eq_true', Bool.and_eq_false_iff,
    List.any_eq_false, Bool.and_eq_true, not_and, Bool.not_eq_true, and_assoc]
  refine forall₂_congr fun y _ => and_congr ?_ <|
    and_congr_right fun _ => and_congr_right fun _ => ?_
  · cases y.declaresFunction <;> simp
  · cases y.isBlock <;> simp

theorem isPlain_of_mem (h : n.isPlain K N) (hx : x ∈ n.preorder) : x.isPlain K N :=
  isPlain_iff.mpr fun y hy => isPlain_iff.mp h y (mem_preorder_trans hy hx)

/-- With fewer names more is plain. -/
theorem isPlain_mono (h : n.isPlain K N) (hN : ∀ name ∈ N', name ∈ N) : n.isPlain K N' := by
  have hany : ∀ {o : Option String}, o.any N.contains = false → o.any N'.contains = false :=
    fun ho => Bool.eq_false_iff.mpr fun h => Bool.eq_false_iff.mp ho (any_contains_mono hN h)
  refine isPlain_iff.mpr fun y hy => ?_
  obtain ⟨hf, hd, hi, hb⟩ := isPlain_iff.mp h y hy
  exact ⟨hf, hd, hany hi, fun hyb c hc hd => hany (hb hyb c hc hd)⟩

theorem isPlain_copy (n : Node) : n.copy.isPlain K N = n.isPlain K N := by
  have hnode : ∀ y : Node, ((y.copy.declaresFunction → y.copy.name?.any K.contains = false) ∧
      y.copy.isA .funcDef = false ∧
      y.copy.identName?.any N.contains = false ∧
      (y.copy.isBlock → ∀ c ∈ y.copy.parts, c.isA .decl → c.name?.any N.contains = false)) ↔
      ((y.declaresFunction → y.name?.any K.contains = false) ∧ y.isA .funcDef = false ∧
      y.identName?.any N.contains = false ∧
      (y.isBlock → ∀ c ∈ y.parts, c.isA .decl → c.name?.any N.contains = false)) := by
    intro y
    have hchild : ∀ c : Node, c.copy.isA .decl = c.isA .decl ∧ c.copy.name? = c.name? := fun c =>
      ⟨by rw [isA, cls?_copy, isA], name?_congr (form?_copy c)⟩
    rw [declaresFunction_copy, name?_congr (form?_copy y), isA, cls?_copy, ← isA,
      identName?_congr (form?_copy y), isBlock, isBlock, cls?_copy, parts_copy]
    simp only [List.forall_mem_map, (hchild _).1, (hchild _).2]
  rw [Bool.eq_iff_iff, isPlain_iff, isPlain_iff]
  refine ⟨fun h y hy => (hnode y).mp (h y.copy (mem_copy_of_mem hy)), fun h y hy => ?_⟩
  obtain ⟨z, hz, rfl⟩ := exists_of_mem_copy hy
  exact (hnode z).mpr (h z hz)

namespace IsMarked

variable (h : IsMarked N P x)
include h

theorem mono (hN : ∀ name ∈ N, name ∈ N') : IsMarked N' P x :=
  h.imp (fun ⟨hl, y, hy, hn⟩ => ⟨hl, y, hy, any_contains_mono hN hn⟩)
    fun ⟨hb, hd, hn⟩ => ⟨hb, hd, any_contains_mono hN hn⟩

/-- What a mark is on is in no plain tree. -/
theorem not_mem (hx : x ∈ P.parts) (hxp : x.isPresent) (hQ : Q.isPlain K N) : P ∉ Q.preorder :=
  fun hP => by
    have hplain := isPlain_iff.mp hQ
    rcases h with ⟨-, y, hy, hn⟩ | ⟨hb, hd, hn⟩
    · have hxm := mem_preorder_of_part hP hx hxp
      exact absurd hn (by simp [(hplain y (mem_preorder_trans hy hxm)).2.2.1])
    · exact absurd hn (by simp [(hplain _ hP).2.2.2 hb x hx hd])

theorem isSole : x.isSole := by
  rcases h with ⟨hl, -⟩ | ⟨-, hd, -⟩
  · exact isSole_of_isLink hl
  · exact isSole_of_isA hd rfl

theorem not_funcDef : x.isA .funcDef = false := by
  rcases h with ⟨hl, -⟩ | ⟨-, hd, -⟩
  · exact (isBlock_of_isLink hl).2.1
  · exact isA_of_ne hd (by decide)

end IsMarked

/-! ### Parts -/

theorem isPlain_absent : Node.absent.isPlain K N := rfl

theorem isPlain_of_mem_parts (h : n.isPlain K N) (hx : x ∈ n.parts) : x.isPlain K N := by
  cases x with
  | absent => exact isPlain_absent
  | mk => exact isPlain_of_mem h (mem_preorder_of_mem_parts hx (self_mem_preorder rfl))

theorem isPlain_child (h : n.isPlain K N) (s : Slot) : (n.child s).isPlain K N := by
  cases hc : n.child s with
  | absent => exact isPlain_absent
  | mk => exact hc ▸ isPlain_of_mem_parts h (child_mem_parts (hc ▸ rfl))

theorem isPlain_mk {m : Mark} {f : Form} {ps : List Node} :
    (mk m f ps).isPlain K N ↔
      (((mk m f ps).declaresFunction → (mk m f ps).name?.any K.contains = false) ∧
      (mk m f ps).isA .funcDef = false ∧
      (mk m f ps).identName?.any N.contains = false ∧
      ((mk m f ps).isBlock → ∀ c ∈ ps, c.isA .decl → c.name?.any N.contains = false)) ∧
      ∀ p ∈ ps, p.isPlain K N := by
  refine ⟨fun h =>
    ⟨isPlain_iff.mp h _ (self_mem_preorder rfl), fun p hp => isPlain_of_mem_parts h hp⟩,
    fun ⟨h, hps⟩ => isPlain_iff.mpr fun y hy => ?_⟩
  rcases mem_preorder_mk.mp hy with rfl | ⟨p, hp, hyp⟩
  · exact h
  · exact isPlain_iff.mp (hps p hp) y hyp

/-- A declarator is plain if its parts are. -/
theorem isPlain_declarator {m : Mark} {f : Form} {ps : List Node} (hf : f.cls.isDeclarator) :
    (mk m f ps).isPlain K N ↔ ∀ p ∈ ps, p.isPlain K N := by
  rw [isPlain_mk, and_iff_right]
  cases f <;> first
    | exact ⟨fun h => (Bool.false_ne_true h).elim, rfl, rfl, fun h => (Bool.false_ne_true h).elim⟩
    | cases hf

theorem isPlain_stamp (next : Nat) (n : Node) : (n.stamp next).1.isPlain K N = n.isPlain K N := by
  rw [← isPlain_copy (n.stamp next).1, copy_stamp, isPlain_copy]

end Node

end Fieldwise
