import Fieldwise.Proofs.Document.Retype
import Fieldwise.Proofs.Document.Rewrite

/-!
# The base types of declarations

The base type of a variable of an aggregate is a struct or the name of a type
(`Document.HasStructBase`). This stays so while lists and other declarations are edited
(`Document.HasStructBase.puts`), and while expressions are rewritten
(`Document.HasStructBase.rewrites`). So a declaration defines the same type after its uses were
rewritten (`Document.Rewrites.definedType?`).
-/

namespace Fieldwise

open Node

namespace Node

variable {n : Node}

/-- What is left in the place of a declaration: the bare definition of the type that it defines. -/
inductive Leaves (D : Node) : List Node → Prop where
  | nothing : D.definedType? = none → Leaves D []
  | definition {m : Mark} {T T' : Node} : D.definedType? = some T → T'.key = T.key →
    T'.form? = T.form? → Leaves D [.mk m (.decl none {}) [T', .absent, .absent]]

theorem Leaves.congr {D D' : Node} {bare : List Node} (h : D'.Leaves bare)
    (hdef : D'.definedType?.map (fun T => (T.key, T.form?)) =
      D.definedType?.map fun T => (T.key, T.form?)) : D.Leaves bare := by
  cases h with
  | nothing hnone =>
    rw [hnone] at hdef
    exact .nothing (Option.map_eq_none_iff.mp hdef.symm)
  | definition hT hk hf =>
    rw [hT] at hdef
    obtain ⟨T, hT', he⟩ := Option.map_eq_some_iff.mp hdef.symm
    injection he with hkT hfT
    exact .definition hT' (hk.trans hkT.symm) (hf.trans hfT.symm)

/-- Whether a declaration is based on a struct or on the name of a type. -/
def hasStructBase (n : Node) : Bool :=
  (n.child .type).baseType.isA .structType || (n.child .type).baseType.isA .identifierType

/-- It is no expression. -/
theorem hasStructBase_spec (h : n.hasStructBase) : (n.child .type).baseType.isPresent ∧
    (n.child .type).baseType.isLink = false := by
  unfold hasStructBase at h
  generalize (n.child .type).baseType = base at h ⊢
  cases base with
  | absent => cases h
  | mk m f ps => cases f <;> first | exact ⟨rfl, rfl⟩ | cases h

/-- The type that such a declaration defines is its base type, if that is a struct with members. -/
theorem definedType?_eq_some (h : n.hasStructBase) {T : Node} : n.definedType? = some T ↔
    n.isA .decl ∧ n.name?.isSome ∧ (n.child .type).layers.isSome ∧ (n.child .type).baseType = T ∧
      ∃ tag, T.form? = some (.structType tag true) := by
  unfold definedType?
  split
  · rename_i m name spec type rest
    have htype : (mk m (.decl (some name) spec) (type :: rest)).child .type = type := rfl
    rw [hasStructBase, htype] at h
    rw [htype]
    split
    · rename_i hl
      simp [hl]
    · rename_i hl
      generalize type.baseType = base at h ⊢
      -- A base that is no struct with members is not defined here.
      have hnone : (∀ tag, base.form? ≠ some (.structType tag true)) →
          (none = some T ↔ (mk m (.decl (some name) spec) (type :: rest)).isA .decl ∧
            (mk m (.decl (some name) spec) (type :: rest)).name?.isSome ∧ type.layers.isSome ∧
              base = T ∧ ∃ tag, T.form? = some (.structType tag true)) := fun hne => by
        refine ⟨nofun, ?_⟩
        rintro ⟨-, -, -, rfl, tag, hf⟩
        exact (hne tag hf).elim
      cases base with
      | absent => cases h
      | mk m' f ps =>
        cases f with
        | structType tag complete =>
          cases complete with
          | true =>
            refine ⟨fun h => ?_, ?_⟩
            · cases h
              exact ⟨rfl, rfl, by rw [hl]; rfl, rfl, tag, rfl⟩
            · rintro ⟨-, -, -, rfl, -⟩
              rfl
          | false => exact hnone fun _ hf => nomatch hf
        | identifierType names => exact hnone fun _ hf => nomatch hf
        | _ => cases h
  · rename_i hne
    refine ⟨nofun, ?_⟩
    rintro ⟨hd, hname, -, -, -⟩
    cases n with
    | absent => cases hd
    | mk m f ps =>
      cases f with
      | decl name spec =>
        obtain ⟨name, rfl⟩ := Option.isSome_iff_exists.mp (show name.isSome from hname)
        cases ps with
        | nil => cases h
        | cons type rest => exact (hne m name spec type rest rfl).elim
      | _ => cases hd

theorem isPresent_typeDecl_of_baseType (h : n.baseType.isPresent) : n.typeDecl.isPresent :=
  isPresent_of_child h

/-- What has a list of items is neither a declaration nor one of its declarators. -/
theorem typeDecl_of_listSlot {f : Form} (hf : n.form? = some f) (hl : f.cls.listSlot.isSome) :
    n.typeDecl = absent ∧ n.isA .decl = false := by
  cases n with
  | absent => cases hf
  | mk m f' ps =>
    obtain rfl : f' = f := by simpa [form?] using hf
    cases f' <;> first | exact ⟨rfl, rfl⟩ | cases hl

theorem typeDecl_of_isA_decl (h : n.isA .decl) : n.typeDecl = absent := by
  cases n with
  | absent => cases h
  | mk m f ps =>
    have hc : f.cls = .decl := by simpa [isA, cls?, form?] using h
    cases f <;> first | rfl | cases hc

end Node

namespace Document

variable {d d' : Document} {n x c P T : Node} {p : Place} {qs : List Node}

/-- Where the declaration is in the program, it is based on a struct or on the name of a type. -/
def HasStructBase (d : Document) (n : Node) : Prop :=
  ∀ x ∈ d.root.preorder, x.key = n.key → x.hasStructBase

namespace Puts

variable (h : Puts d d' P qs) (ht : d.Tidy)
include h ht

/-- **A type in which no declarator is edited keeps its end.** -/
theorem baseType_grafted (hP : P.typeDecl = absent) (hT : T ∈ preorderAll d.trees)
    (hb : T.baseType.isPresent) : (grafted P qs T).baseType = grafted P qs T.baseType := by
  have hend := isPresent_typeDecl_of_baseType hb
  induction T using induction with
  | h₀ => cases hend
  | h m f ps ih =>
    have hne : Node.mk m f ps ≠ P := by
      rintro rfl
      rw [hP] at hend
      cases hend
    have hinner : ∀ t ∈ ps, t.typeDecl = (Node.mk m f ps).typeDecl →
        (grafted P qs t).baseType = grafted P qs (Node.mk m f ps).baseType := fun t htm he => by
      have hbt : t.baseType = (Node.mk m f ps).baseType := by rw [baseType, he, baseType]
      rw [← hbt]
      have htp := isPresent_of_typeDecl (he ▸ hend)
      have htt : t ∈ preorderAll (Node.mk m f ps).parts :=
        mem_preorderAll.mpr ⟨t, htm, self_mem_preorder htp⟩
      exact ih t htm (mem_preorderAll_of_parts htt hT) (hbt ▸ hb) (he ▸ hend)
    cases f with
    | typeDecl name quals =>
      have := h.child_grafted ht hT hne .type
      rw [h.grafted_mk ht hT hne] at this ⊢
      exact this
    | arrayDecl quals =>
      rw [h.grafted_mk ht hT hne]
      match ps, hend, hinner with
      | [t, dim], hend, hinner => exact hinner t List.mem_cons_self rfl
    | ptrDecl quals =>
      rw [h.grafted_mk ht hT hne]
      match ps, hend, hinner with
      | [t], hend, hinner => exact hinner t List.mem_cons_self rfl
    | funcDecl =>
      rw [h.grafted_mk ht hT hne]
      match ps, hend, hinner with
      | [args, t], hend, hinner =>
        exact hinner t (List.mem_cons_of_mem _ List.mem_cons_self) rfl
    | typename quals =>
      rw [h.grafted_mk ht hT hne]
      match ps, hend, hinner with
      | [t], hend, hinner => exact hinner t List.mem_cons_self rfl
    | _ => cases hend

end Puts

namespace Rewrites

variable (h : Rewrites d d') (ht : d.Tidy) (ht' : d'.Tidy) {D D' : Node}
  (hD : D ∈ d.root.preorder) (hD' : D' ∈ d'.root.preorder) (hk : D'.key = D.key)
  (hd : D.isA .decl) (hb : D.hasStructBase)
include h ht ht' hD hD' hk hd hb

/-- A declaration keeps its declarators and its base type. -/
theorem base : (D'.child .type).layers = (D.child .type).layers ∧
    (D'.child .type).baseType.key = (D.child .type).baseType.key ∧
    (D'.child .type).baseType.form? = (D.child .type).baseType.form? := by
  obtain ⟨hp, hl⟩ := hasStructBase_spec hb
  have hend := isPresent_typeDecl_of_baseType hp
  have hslot : D.cls?.any (·.slots.contains .type) := by
    have hc : D.cls? = some .decl := by simpa [isA] using hd
    rw [hc]
    rfl
  obtain ⟨htk, -, hm⟩ := h.stays_child ht ht' hD hD' hk hslot fun hlink => by
    rw [typeDecl_of_isLink hlink] at hend
    cases hend
  obtain ⟨hT, hT'⟩ := hm (isPresent_of_typeDecl hend)
  obtain ⟨hlayers, -, hbase⟩ := h.type ht ht' hT hT' htk hend
  obtain ⟨hbk, hbf, -⟩ := hbase fun hlink => by
    rw [hl] at hlink
    cases hlink
  exact ⟨hlayers, hbk, hbf⟩

/-- **A declaration defines the same type** after expressions were rewritten. -/
theorem definedType? : D'.definedType?.map (fun T => (T.key, T.form?)) =
    D.definedType?.map fun T => (T.key, T.form?) := by
  obtain ⟨hlayers, hbk, hbf⟩ := h.base ht ht' hD hD' hk hd hb
  have hform := h.form?_eq ht hD hD' hk
  have hb' : D'.hasStructBase := by
    rw [hasStructBase, isA, isA, cls?_congr hbf]
    exact hb
  have hdef' : ∀ T, D'.definedType? = some T ↔ D.isA .decl ∧ D.name?.isSome ∧
      (D.child .type).layers.isSome ∧ (D'.child .type).baseType = T ∧
        ∃ tag, T.form? = some (.structType tag true) := fun T => by
    rw [definedType?_eq_some hb', isA, cls?_congr hform, ← isA, name?_congr hform, hlayers]
  cases hDT : D.definedType? with
  | some T =>
    obtain ⟨-, hname, hl, rfl, tag, hf⟩ := (definedType?_eq_some hb).mp hDT
    rw [(hdef' _).mpr ⟨hd, hname, hl, rfl, tag, hbf.trans hf⟩, Option.map_some, Option.map_some,
      hbk, hbf]
  | none =>
    refine Option.map_eq_none_iff.mpr (Option.eq_none_iff_forall_ne_some.mpr fun T hT => ?_)
    obtain ⟨-, hname, hl, rfl, tag, hf⟩ := (hdef' T).mp hT
    rw [(definedType?_eq_some hb).mpr ⟨hd, hname, hl, rfl, tag, hbf.symm.trans hf⟩] at hDT
    cases hDT

end Rewrites

namespace HasStructBase

variable (hb : d.HasStructBase n) (ht : d.Tidy) (hold : ∀ k, n.key = some k → k < d.next)
include hb ht hold

/-- **It stays so while another node is edited** that is no declarator. -/
theorem puts (h : Puts d d' P qs) (hP : P.typeDecl = absent) (hk : P.key ≠ n.key) :
    d'.HasStructBase n := by
  intro y hy hyk
  obtain ⟨k, hky⟩ := (h.tidy ht).woven.exists_key (mem_trees_of_root hy)
  rcases h.of_mem_root ht hy with ⟨x, hx, rfl⟩ | ⟨-, hnew⟩
  · have hxk := (h.form?_grafted ht x).1.symm.trans hyk
    have hbase := hb x hx hxk
    obtain ⟨hp, -⟩ := hasStructBase_spec hbase
    have htype : x.child .type ∈ preorderAll d.trees := mem_trees_of_root (mem_preorder_trans
      (child_mem_preorder (isPresent_of_typeDecl (isPresent_typeDecl_of_baseType hp))) hx)
    rw [hasStructBase, h.child_grafted ht (mem_trees_of_root hx) (fun he => hk (he ▸ hxk)),
      h.baseType_grafted ht hP htype hp, isA, isA,
      cls?_congr (h.form?_grafted ht (x.child .type).baseType).2]
    exact hbase
  · exact absurd ⟨k, hky, hold k (hyk ▸ hky)⟩ hnew

/-- It stays so while a list is edited. -/
theorem puts_list (h : Puts d d' P qs) {f : Form} (hf : P.form? = some f)
    (hl : f.cls.listSlot.isSome) (hd : ∀ x ∈ d.root.preorder, x.key = n.key → x.isA .decl) :
    d'.HasStructBase n := by
  obtain ⟨hP, hPd⟩ := typeDecl_of_listSlot hf hl
  refine hb.puts ht hold h hP fun hk => ?_
  rw [hd P h.mem hk] at hPd
  cases hPd

/-- It stays so while another declaration is given another type. -/
theorem setType {type : Node} (hty : Keyless [type]) (hc : c.key ≠ n.key)
    (hd : ∀ x ∈ d.root.preorder, x.key = c.key → x.isA .decl) :
    (d.setType c type).HasStructBase n := by
  cases ha : d.attached c with
  | true =>
    obtain ⟨x, hx, hk, -⟩ := attached_iff.mp ha
    exact hb.puts ht hold (puts_setType ht hx hk hty) (typeDecl_of_isA_decl (hd x hx hk)) (hk ▸ hc)
  | false =>
    intro x hx
    exact hb x (root_setType ha type ▸ hx)

/-- **It stays so while expressions are rewritten.** -/
theorem rewrites (h : Rewrites d d') (ht' : d'.Tidy)
    (hd : ∀ x ∈ d.root.preorder, x.key = n.key → x.isA .decl) : d'.HasStructBase n := by
  intro y hy hyk
  obtain ⟨k, hky⟩ := ht'.woven.exists_key (mem_trees_of_root hy)
  obtain ⟨x, hx, hxk, -⟩ := h.node y hy ⟨k, hky, hold k (hyk ▸ hky)⟩
  obtain ⟨-, -, hform⟩ := h.base ht ht' hx hy hxk.symm (hd x hx (hxk.trans hyk))
    (hb x hx (hxk.trans hyk))
  rw [hasStructBase, isA, isA, cls?_congr hform]
  exact hb x hx (hxk.trans hyk)

end HasStructBase

end Document

end Fieldwise
