import Fieldwise.Proofs.Source.Yields
import Fieldwise.Proofs.Tree.Fragment

/-!
# What is read

What the results of the readers are as parts of a program. An expression or a statement is a
fragment whose keys are those used while it was read (`Parser.Reads`), and so are the words of a
type (`TypeSpecifiers.Reads`). The layers of a declarator add the fragments that they contain to the
base type that they are put around (`Parser.Layers`). `Rules.Sound` says this of all rules that
circles of the grammar pass through.
-/

namespace Fieldwise

open Node

/-- Nodes that are read between two unused keys, and are no declarations. -/
structure Parser.ReadsAll (a b : Nat) (xs : List Node) : Prop where
  fragment : Fragment a b xs
  isA_decl : ∀ x ∈ xs, x.isA .decl = false

/-- A node that is read between two unused keys, and is no declaration. -/
def Parser.Reads (a b : Nat) (x : Node) : Prop := Parser.ReadsAll a b [x]

/-- Types that are read between two unused keys. -/
def TypeSpecifiers.Reads (a b : Nat) (s : TypeSpecifiers) : Prop := Parser.ReadsAll a b s.types

/-- A type with some layers around it. -/
def Parser.applyLayers (layers : List (Node → Node)) (t : Node) : Node :=
  layers.foldr (fun layer inner => layer inner) t

/-- Layers of type that are read between two unused keys, with the trees `ts` in them. -/
structure Parser.Spins (a b : Nat) (ts : List Node) (layers : List (Node → Node)) : Prop where
  fragment : Fragment a b ts
  shared : ∀ t : Node, (applyLayers layers t).shared.Perm (sharedAll ts ++ t.shared)
  placed : ∀ t : Node, Placed [t] → t.isA .decl = false → Placed [applyLayers layers t]
  isA_decl : ∀ t : Node, t.isA .decl = false → (applyLayers layers t).isA .decl = false

/-- Layers of type that are read between two unused keys. -/
def Parser.Layers (a b : Nat) (layers : List (Node → Node)) : Prop :=
  ∃ ts, Parser.Spins a b ts layers

/-- The rules yield what their names say. -/
structure Rules.Sound (g : Rules) : Prop where
  expression : ∀ n, Parser.Yields n g.expression (Parser.Reads n)
  assignment : ∀ n, Parser.Yields n g.assignment (Parser.Reads n)
  conditional : ∀ n, Parser.Yields n g.conditional (Parser.Reads n)
  operand : ∀ n, Parser.Yields n g.operand fun b r => Parser.Reads n b r.1
  typeName : ∀ n, Parser.Yields n g.typeName (Parser.Reads n)
  initializer : ∀ n, Parser.Yields n g.initializer (Parser.Reads n)
  specifiers : ∀ storage n, Parser.Yields n (g.specifiers storage) (TypeSpecifiers.Reads n)
  declarator : ∀ naming n, Parser.Yields n (g.declarator naming) fun b d =>
    Parser.Layers n b d.layers
  compound : ∀ n, Parser.Yields n g.compound fun b x => Parser.Reads n b x ∧ x.isA .compound
  statement : ∀ n, Parser.Yields n g.statement (Parser.Reads n)

theorem Rules.Sound.none : Rules.none.Sound where
  expression _ := .fail
  assignment _ := .fail
  conditional _ := .fail
  operand _ := .fail
  typeName _ := .fail
  initializer _ := .fail
  specifiers _ _ := .fail
  declarator _ _ := .fail
  compound _ := .fail
  statement _ := .fail

namespace Parser

variable {a b c d : Nat} {x y z : Node} {line : Option Nat} {f : Form} {ts us vs : List Node}

theorem isA_decl_mk {m : Mark} (hf : f.isOrdinary) : (Node.mk m f ts).isA .decl = false := by
  cases f <;> first | rfl | cases hf

theorem isNested_of_isOrdinary (hf : f.isOrdinary) : f.isNested := by
  cases f <;> first | rfl | cases hf

theorem isPlaced_of_isOrdinary {m : Mark} (h : ∀ p ∈ ts, p.isA .decl = false)
    (hf : f.isOrdinary) : (Node.mk m f ts).IsPlaced :=
  isPlaced_of_forall h
    (fun hc => by
      cases f with
      | caseLabel => cases hf
      | _ => cases hc)
    fun hc => by
      cases f with
      | funcDef => cases hf
      | _ => cases hc

namespace ReadsAll

theorem nil (a : Nat) : ReadsAll a a [] := ⟨.nil a, fun _ h => nomatch h⟩

theorem le (h : ReadsAll a b ts) : a ≤ b := h.fragment.le

theorem fragment_nil (h : ReadsAll a b ts) : Fragment a b (ts ++ []) := by
  rw [List.append_nil]
  exact h.fragment

theorem mono (h : ReadsAll a b ts) {a' b' : Nat} (ha : a' ≤ a) (hb : b ≤ b') :
    ReadsAll a' b' ts := ⟨h.fragment.mono ha hb, h.isA_decl⟩

theorem append (h : ReadsAll a b ts) (h' : ReadsAll b c us) : ReadsAll a c (ts ++ us) :=
  ⟨h.fragment.append h'.fragment, fun x hx =>
    (List.mem_append.mp hx).elim (h.isA_decl x) (h'.isA_decl x)⟩

/-- Nodes that are read first are put last. -/
theorem append' (h : ReadsAll a b ts) (h' : ReadsAll b c us) : ReadsAll a c (us ++ ts) :=
  ⟨h.fragment.append' h'.fragment, fun x hx =>
    (List.mem_append.mp hx).elim (h'.isA_decl x) (h.isA_decl x)⟩

/-- The first of some nodes alone. -/
theorem head (h : ReadsAll a b (x :: ts)) : Reads a b x :=
  ⟨h.fragment.sublist (by simp), by simpa using h.isA_decl x List.mem_cons_self⟩

/-- Some nodes in a row get a node on top. -/
theorem group (h : ReadsAll a b (us ++ (ts ++ vs))) (hf : f.isOrdinary) :
    ReadsAll a b (us ++ nodeAt line f ts :: vs) := by
  obtain ⟨hfr, hd⟩ := h
  refine ⟨hfr.group (isPlaced_of_isOrdinary (fun t ht => hd t (by simp [ht])) hf)
    (isNested_of_isOrdinary hf), ?_⟩
  intro x hx
  rcases List.mem_append.mp hx with hx | hx
  · exact hd x (by simp [hx])
  · rcases List.mem_cons.mp hx with rfl | hx
    · exact isA_decl_mk hf
    · exact hd x (by simp [hx])

/-- Some nodes get a node on top. -/
theorem node (h : ReadsAll a b ts) (hf : f.isOrdinary) :
    Reads a b (nodeAt line f ts) := by
  have h' : ReadsAll a b ([] ++ (ts ++ [])) := by simpa using h
  exact h'.group hf

end ReadsAll

namespace Reads

theorem le (h : Reads a b x) : a ≤ b := ReadsAll.le h

theorem isA_decl (h : Reads a b x) : x.isA .decl = false :=
  ReadsAll.isA_decl h x List.mem_cons_self

/-- The parts of a node that is no type with members, if none of them can be a declaration. -/
theorem parts {m : Mark} (h : Reads a b (Node.mk m f ts)) (hs : (Node.mk m f ts).isSole)
    (hf : ∀ i, f.holdsDecl i = false) : ReadsAll a b ts := by
  have hfr : Fragment a b ([] ++ Node.mk m f ts :: []) := h.fragment
  refine ⟨by simpa using hfr.ungroup hs, fun x hx => ?_⟩
  have hp := (h.fragment.placed _ (mem_preorderAll_of_mem List.mem_cons_self rfl)).1
  obtain ⟨i, hi⟩ := List.getElem?_of_mem hx
  cases hd : x.isA .decl with
  | false => rfl
  | true => simpa [hf i] using (isPlaced_mk.mp hp).1 i x hi hd

theorem leaf (hf : f.isOrdinary) : Reads a a (nodeAt line f []) :=
  (ReadsAll.nil a).node hf

/-- A list of declarations or statements. -/
theorem list (h : Fragment a b ts) (hl : ∀ i, f.holdsDecl i) (hf : f.isOrdinary)
    (hp : f.cls = .paramList → ∀ c ∈ ts, c.isInitialized = false) :
    Reads a b (nodeAt line f ts) :=
  ⟨h.node (isPlaced_of_holdsDecl hl hp) (isNested_of_isOrdinary hf),
    by simpa [nodeAt] using isA_decl_mk hf⟩

theorem absent : Reads a a .absent := ⟨.absent a, by simp [isA, cls?, form?]⟩

theorem unary (h : Reads a b x) (hf : f.isOrdinary) :
    Reads a b (nodeAt line f [x]) := ReadsAll.node h hf

theorem binary (h : Reads a b x) (h' : Reads b c y) (hf : f.isOrdinary) :
    Reads a c (nodeAt line f [x, y]) := (ReadsAll.append h h').node hf

theorem ternary (h : Reads a b x) (h' : Reads b c y) (h'' : Reads c d z) (hf : f.isOrdinary) :
    Reads a d (nodeAt line f [x, y, z]) :=
  (ReadsAll.append h (ReadsAll.append h' h'')).node hf

end Reads

end Parser

end Fieldwise
