import Fieldwise.Proofs.Document.Plain
import Fieldwise.Proofs.Document.Put
import Fieldwise.Proofs.Document.Retype

/-!
# Edits around the uses and declarations of names

A rewriting of some names edits the program around an expression in which one of them is used, or
around the declaration of one of them in a block (`Document.Marked`), and what it puts in is built
from what is in the program and from the types of fields (`Document.Quotable`). A tree in which none
of these names is used or declared like this is `Node.isPlain`, and no such edit is within one.
`Document.RedrawsAt` says what such an edit does, as far as it concerns the functions of the
program, and `Document.Redraws` is a chain of such edits.
-/

namespace Fieldwise

open Node

namespace Node

variable {y : Node}

/-- What declares or defines a function among nodes that got keys is a copy of such a node. -/
theorem exists_of_function_stampAll {R : Node → Prop} {new : List Node} {a : Nat}
    (hnew : ∀ c ∈ new, BuiltFrom R c) (hy : y ∈ preorderAll (stampAll a new).1)
    (hf : y.declaresFunction ∨ y.isA .funcDef) :
    ∃ t, R t ∧ ∃ z ∈ t.preorder, y.copy = z.copy := by
  obtain ⟨c', hc', hyc⟩ := mem_preorderAll.mp hy
  obtain ⟨c, hc, b, -, rfl⟩ := mem_stampAll hc'
  obtain ⟨z, hz, b', rfl⟩ := exists_of_mem_stamp hyc
  rw [declaresFunction_stamp, isA, cls?_stamp] at hf
  obtain ⟨t, ht, z', hz', rfl⟩ := (hnew c hc).exists_of_function hz hf
  exact ⟨t, ht, z', hz', by rw [copy_stamp, copy_copy]⟩

/-- A declaration whose type is left alone keeps it. -/
theorem child_type_of_ne {P : Node} {us vs ws : List Node} (hP : P.parts = us ++ x :: vs)
    (hus : us ≠ []) : (P.withParts (us ++ ws ++ vs)).child .type = P.child .type ∨
      P.isA .decl = false := by
  cases P with
  | absent => exact .inr rfl
  | mk m f ps =>
    by_cases hf : f.cls = .decl
    · obtain rfl : ps = us ++ x :: vs := hP
      obtain ⟨u, us, rfl⟩ := List.exists_cons_of_ne_nil hus
      refine .inl ?_
      rw [withParts, child_mk, child_mk, hf]
      rfl
    · exact .inr (by simpa [isA, cls?, form?] using hf)

end Node

namespace Document

variable {K N N' : List String} {types : List Node} {d d' d'' : Document} {n x y P Q T : Node}
  {p : Place} {qs us vs new : List Node}

/-- The trees that a rewriting copies from: what is in the program, but for the file and the
definitions of functions as a whole, and the types of fields. -/
def Quotable (d : Document) (types : List Node) (t : Node) : Prop :=
  t ∈ d.root.preorder ∧ t.isA .file = false ∧ t.isA .funcDef = false ∨ t ∈ types

/-- A node that stands somewhere as a marked part. Declarations stand in a list. -/
structure Marked (N : List String) (d : Document) (n : Node) (p : Place) (x : Node) : Prop where
  stands : d.Stands n p x
  marked : IsMarked N p.parent x
  list : x.isA .decl → p.isInList

/-- What an edit around a marked part does to the functions of a program: it leaves function types
and definitions alone, and what is new and declares or defines a function is the copy of what does
so. -/
structure RedrawsAt (N : List String) (types : List Node) (d d' : Document) (P : Node)
    (qs : List Node) : Prop extends Puts d d' P qs where
  marked : ∃ x ∈ P.parts, x.isPresent ∧ IsMarked N P x
  head : (P.withParts qs).declaresFunction → (P.withParts qs).child .type = P.child .type
  kept : ∀ F ∈ P.parts, F.isA .funcDef → F ∈ qs
  built : ∀ y ∈ preorderAll qs, ¬ IsOld d.next y → y.declaresFunction ∨ y.isA .funcDef →
    ∃ t, d.Quotable types t ∧ ∃ z ∈ t.preorder, y.copy = z.copy

/-- A chain of edits around the uses and declarations of some names. -/
inductive Redraws (N : List String) (types : List Node) (d : Document) : Document → Prop where
  | refl : Redraws N types d d
  | step {d' d'' : Document} {P : Node} {qs : List Node} : Redraws N types d d' →
    RedrawsAt N types d' d'' P qs → Redraws N types d d''

namespace RedrawsAt

theorem mono (h : RedrawsAt N types d d' P qs) (hN : ∀ name ∈ N, name ∈ N') :
    RedrawsAt N' types d d' P qs where
  toPuts := h.toPuts
  marked := have ⟨x, hx, hxp, hm⟩ := h.marked; ⟨x, hx, hxp, hm.mono hN⟩
  head := h.head
  kept := h.kept
  built := h.built

/-- **No plain tree is edited.** -/
theorem grafted_eq_of_isPlain (h : RedrawsAt N types d d' P qs) (ht : d.Tidy)
    (hQ : Q.isPresent → Q ∈ preorderAll d.trees) (hp : Q.isPlain K N) : grafted P qs Q = Q :=
  have ⟨_, hx, hxp, hm⟩ := h.marked
  h.grafted_eq_self ht hQ (hm.not_mem hx hxp hp)

end RedrawsAt

namespace Redraws

theorem mono (h : Redraws N types d d') (hN : ∀ name ∈ N, name ∈ N') : Redraws N' types d d' := by
  induction h with
  | refl => exact .refl
  | step _ hs ih => exact ih.step (hs.mono hN)

theorem single (h : RedrawsAt N types d d' P qs) : Redraws N types d d' := refl.step h

/-- One edit, or none. -/
theorem of_eq_or (h : d' = d ∨ ∃ qs, RedrawsAt N types d d' P qs) : Redraws N types d d' := by
  rcases h with rfl | ⟨qs, h⟩
  · exact .refl
  · exact .single h

theorem trans (h : Redraws N types d d') (h' : Redraws N types d' d'') : Redraws N types d d'' := by
  induction h' with
  | refl => exact h
  | step _ hs ih => exact ih.step hs

/-- **What holds of a tidy document and is kept by each edit holds after a chain of them.** -/
theorem induct {I : Document → Prop} (h : Redraws N types d d') (ht : d.Tidy) (hd : I d)
    (hstep : ∀ {d d' P qs}, RedrawsAt N types d d' P qs → d.Tidy → I d → I d') :
    d'.Tidy ∧ I d' := by
  induction h with
  | refl => exact ⟨ht, hd⟩
  | step _ hs ih => exact ⟨hs.toPuts.tidy ih.1, hstep hs ih.1 ih.2⟩

/-- **A plain tree stays as it is**, as long as it is there. -/
theorem fixes (h : Redraws N types d d') (ht : d.Tidy) (hQ : d.Fixes Q) (hp : Q.isPlain K N) :
    d'.Fixes Q :=
  (h.induct (I := fun d => d.Fixes Q) ht hQ fun hs ht' hd =>
    have ⟨_, hx, hxp, hm⟩ := hs.marked
    hs.fixes ht' hd (hm.not_mem hx hxp hp)).2

end Redraws

/-- A place in a list is in no declaration. -/
theorem isA_decl_of_isInList (hl : p.isInList) : p.parent.isA .decl = false := by
  obtain ⟨f, hf, hslot, -⟩ := isInList_iff.mp hl
  have hcls : p.parent.cls? = some f.cls := by rw [cls?, hf]; rfl
  rw [isA, hcls]
  cases hc : f.cls <;> first
    | rfl
    | (rw [hc] at hslot; cases hslot)

namespace Marked

variable (h : d.Marked N n p x)
include h

/-- **What an edit around the node does**, if new nodes `ws` come in its place or next to it. -/
theorem redrawsAt (ht : d.Tidy) {ws : List Node} (hput : Puts d d' p.parent (us ++ ws ++ vs))
    (hsub : (us ++ vs).Sublist p.parent.parts)
    (hrest : ∀ c ∈ p.parent.parts, c ∈ us ++ vs ∨ c = x)
    (hhead : p.isInList ∨ p.parent.parts = us ++ x :: vs ∧ ∃ y, ws = [y] ∧ y.isA .funcDecl = false)
    (hbuilt : ∀ y ∈ preorderAll ws, ¬ IsOld d.next y → y.declaresFunction ∨ y.isA .funcDef →
      ∃ t, d.Quotable types t ∧ ∃ z ∈ t.preorder, y.copy = z.copy) :
    RedrawsAt N types d d' p.parent (us ++ ws ++ vs) := by
  refine ⟨hput, ⟨x, h.stands.mem_parts, h.stands.isPresent, h.marked⟩, fun hd => ?_,
    fun F hF hd => ?_, fun y hy hn hf => hbuilt y ?_ hn hf⟩
  · -- The type of a declaration is left alone, or what takes its place is no function type.
    have hpar := isPresent_of_mem_preorder h.stands.parent
    rcases hhead with hl | ⟨hparts, y, rfl, hy⟩
    · rw [declaresFunction_of_isA
        (by rw [isA, cls?_withParts, ← isA, isA_decl_of_isInList hl])] at hd
      cases hd
    · rcases us with _ | ⟨u, us⟩
      · cases hP : p.parent with
        | absent => rw [hP] at hpar; cases hpar
        | mk m f ps =>
          rw [hP, declaresFunction, Bool.and_eq_true, withParts] at hd
          have hcls : f.cls = .decl := by simpa [isA, cls?, form?] using hd.1
          have hfunc : y.isA .funcDecl := by
            have := hd.2
            rwa [child_mk, hcls] at this
          rw [hy] at hfunc
          cases hfunc
      · exact (child_type_of_ne hparts (by simp)).resolve_right fun hdecl => by
          rw [declaresFunction_of_isA (by rw [isA, cls?_withParts, ← isA, hdecl])] at hd
          cases hd
  · rcases hrest F hF with hF | rfl
    · simp only [List.mem_append] at hF ⊢
      exact hF.elim (fun hF => .inl (.inl hF)) .inr
    · rw [h.marked.not_funcDef] at hd
      cases hd
  · rw [mem_preorderAll_append, mem_preorderAll_append, or_right_comm] at hy
    exact hy.resolve_left fun hy =>
      hn (ht.isOld_of_parts h.stands.parent hsub (mem_preorderAll_append.mpr hy))

/-- New nodes take the place of the node. -/
theorem redrawsAt_fresh (ht : d.Tidy) (hnew : ∀ c ∈ new, BuiltFrom (d.Quotable types) c)
    (hhead : p.isInList ∨ ∃ y, new = [y] ∧ y.isA .funcDecl = false)
    (hput : Puts d d' p.parent (p.parent.parts.take p.index ++ (stampAll d.next new).1 ++
      p.parent.parts.drop (p.index + 1))) : ∃ qs, RedrawsAt N types d d' p.parent qs := by
  refine ⟨_, h.redrawsAt ht hput h.stands.sublist (fun c hc => h.stands.mem_or_eq hc)
    (hhead.imp_right ?_) fun y hy _ hf => exists_of_function_stampAll hnew hy hf⟩
  rintro ⟨y, rfl, hf⟩
  refine ⟨h.stands.split, (y.stamp d.next).1, by rw [stampAll_singleton], ?_⟩
  rw [isA, cls?_stamp, ← isA, hf]

/-! ### Primitive edits -/

/-- A node gives way to a new one. -/
theorem redrawsAt_replace (ht : d.Tidy) (hy : BuiltFrom (d.Quotable types) y)
    (hf : y.isA .funcDecl = false) (hd : d.replace n y = .ok d') :
    ∃ qs, RedrawsAt N types d d' p.parent qs :=
  h.redrawsAt_fresh ht (by simpa using hy) (.inr ⟨y, rfl, hf⟩)
    (h.stands.puts_replace ht hy.keyless hd)

/-- An entry of a list gives way to any number of new ones. -/
theorem redrawsAt_splice (ht : d.Tidy) (hnew : ∀ c ∈ new, BuiltFrom (d.Quotable types) c)
    (hd : d.splice n new = .ok d') : ∃ qs, RedrawsAt N types d d' p.parent qs :=
  have ⟨hl, hput⟩ := h.stands.puts_splice ht (BuiltFrom.keyless_of_forall hnew) hd
  h.redrawsAt_fresh ht hnew (.inl hl) hput

/-- A node is taken out. -/
theorem redrawsAt_detach (ht : d.Tidy) (hd : d.detach n = .ok d') :
    ∃ qs, RedrawsAt N types d d' p.parent qs := by
  obtain ⟨left, hleft, hput⟩ := h.stands.puts_detach ht hd
  rcases hleft with ⟨rfl, hl⟩ | ⟨-, rfl | rfl⟩
  · exact h.redrawsAt_fresh ht (by simp) (.inl hl) hput
  · refine h.redrawsAt_fresh ht (fun c hc => ?_) (.inr ⟨_, rfl, rfl⟩) hput
    rw [List.mem_singleton.mp hc]
    exact .node rfl (by simp)
  · refine h.redrawsAt_fresh ht (fun c hc => ?_) (.inr ⟨_, rfl, rfl⟩) hput
    rw [List.mem_singleton.mp hc]
    exact .absent

/-- New nodes are put next to a node, in the list that it is in or in a block around it. -/
theorem redrawsAt_insert (ht : d.Tidy) (hnew : ∀ c ∈ new, BuiltFrom (d.Quotable types) c)
    {after : Bool} (hd : d.insert n new after = .ok d') :
    d' = d ∨ ∃ qs, RedrawsAt N types d d' p.parent qs := by
  have hplace : p.isInList ∨ x.isA .decl = false := by
    cases hx : x.isA .decl with
    | false => exact .inr rfl
    | true => exact .inl (h.list hx)
  rcases h.stands.puts_insert ht hplace (BuiltFrom.keyless_of_forall hnew) hd with
    ⟨rfl, -⟩ | ⟨hl, j, -, hput⟩ | ⟨-, bs, hperm, hput⟩
  · exact .inl rfl
  · refine .inr ⟨_, h.redrawsAt ht hput (by simp) (fun c hc => .inl ?_) (.inl hl)
      fun y hy _ hf => exists_of_function_stampAll hnew hy hf⟩
    rwa [List.take_append_drop]
  · refine .inr ⟨_, h.redrawsAt ht hput h.stands.sublist (fun c hc => h.stands.mem_or_eq hc)
      (.inr ⟨h.stands.split, _, rfl, rfl⟩) fun y hy hn hf => ?_⟩
    -- The block has the node and new ones.
    rcases mem_preorder_mk.mp (mem_preorderAll_singleton.mp hy) with rfl | ⟨c, hc, hyc⟩
    · rcases hf with hf | hf <;> cases hf
    · rcases List.mem_cons.mp (hperm.subset hc) with rfl | hc
      · exact absurd (ht.bound y (mem_trees_of_root (mem_preorder_trans hyc h.stands.mem))) hn
      · exact exists_of_function_stampAll hnew (mem_preorderAll.mpr ⟨c, hc, hyc⟩) hf

/-- A statement gives way to others, which are put next to it before it is taken out. -/
theorem redraws_exchange (ht : d.Tidy) (hl : x.isLink)
    (hnew : ∀ c ∈ new, BuiltFrom (d.Quotable types) c) (hd : d.insertAfter n new = .ok d')
    (hd' : d'.detach n = .ok d'') : Redraws N types d d'' := by
  rcases h.redrawsAt_insert ht hnew hd with rfl | ⟨qs, hs⟩
  · obtain ⟨qs, hs⟩ : ∃ qs, RedrawsAt N types d' d'' p.parent qs := h.redrawsAt_detach ht hd'
    exact .single hs
  · obtain ⟨p', hp⟩ : ∃ p', d'.place n = .ok p' := by
      cases hp : d'.place n with
      | ok p' => exact ⟨p', rfl⟩
      | error f => simp [Document.detach, hp, bind, Except.bind] at hd'
    have hmarked : IsMarked N p'.parent x := by
      refine h.marked.imp_right ?_
      rintro ⟨-, hx, -⟩
      exact absurd hx (by simp [(isLoose_of_isLink hl).decl])
    have h' : d'.Marked N n p' x := ⟨h.stands.of_puts ht hs.toPuts hp, hmarked, fun hx =>
      absurd hx (by simp [(isLoose_of_isLink hl).decl])⟩
    obtain ⟨qs', hs'⟩ : ∃ qs', RedrawsAt N types d' d'' p'.parent qs' :=
      h'.redrawsAt_detach (hs.tidy ht) hd'
    exact (Redraws.single hs).step hs'

/-- A declaration gives way to the type that it defines. -/
theorem redrawsAt_bare (ht : d.Tidy) (hx : x.isA .decl) (hT : T ∈ x.preorder)
    (hTs : T.isSole = false)
    (hd : d.replace n (.build (.decl none {}) [T, .absent, .absent]) = .ok d') :
    ∃ qs, RedrawsAt N types d d' p.parent qs := by
  refine ⟨_, h.redrawsAt ht (h.stands.puts_bare ht hT hTs hd) h.stands.sublist
    (fun c hc => h.stands.mem_or_eq hc) (.inl (h.list hx)) fun y hy hn hf => ?_⟩
  obtain rfl := (h.stands.of_mem_bare ht hT hy).resolve_right fun hy => hn hy.2
  -- A type with members is no function type.
  rcases hf with hf | hf
  · have hfunc : T.isA .funcDecl := (Bool.and_eq_true _ _ ▸ hf).2
    rw [isA_of_not_isSole hTs rfl] at hfunc
    cases hfunc
  · cases hf

end Marked

end Document

end Fieldwise
