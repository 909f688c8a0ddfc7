import Fieldwise.Proofs.Document.Put
import Fieldwise.Aggregate.SharedDefinition
import Fieldwise.Session.Signature

/-!
# Edits of declared types

A declaration gives way to the bare definition of the type in it (`Document.Sound.replace_bare_ok`),
and the declaration of a function is given another type (`Document.Sound.setType_ok`). A type with
members may be used by several declarations, so it keeps its key.
-/

namespace Fieldwise

open Node

namespace Node

variable {t n x T : Node}

/-- The end of a chain of declarators is in the chain. -/
theorem typeDecl_mem (h : t.typeDecl.isPresent) : t.typeDecl ∈ t.preorder := by
  have hpart : ∀ {m : Mark} {f : Form} {ps : List Node} {p x : Node}, x ∈ p.preorder → p ∈ ps →
      x ∈ (mk m f ps).preorder := fun hx hp => mem_preorder_mk.mpr (.inr ⟨_, hp, hx⟩)
  fun_induction Node.typeDecl t with
  | case1 m name quals ps => exact self_mem_preorder rfl
  | case2 m quals type dim ih => exact hpart (ih h) (by simp)
  | case3 m args type ih => exact hpart (ih h) (by simp)
  | case4 m quals type ih => exact hpart (ih h) (by simp)
  | case5 m quals type ih => exact hpart (ih h) (by simp)
  | case6 => cases h

theorem baseType_mem (h : t.baseType.isPresent) : t.baseType ∈ t.preorder :=
  mem_preorder_trans (child_mem_preorder h) (typeDecl_mem (isPresent_of_child h))

/-- The type that a declaration defines is in it, has members, and so may be shared. -/
theorem definedType?_spec (h : n.definedType? = some T) :
    T ∈ n.preorder ∧ T.isSole = false ∧ T.isPresent := by
  unfold definedType? at h
  split at h
  · rename_i m name spec type rest
    split at h
    · cases h
    · have hbase : ∀ {T : Node}, type.baseType = T → T.isPresent →
          T ∈ (mk m (.decl (some name) spec) (type :: rest)).preorder := fun hT hp =>
        mem_preorder_of_mem_parts (t := mk m _ _) List.mem_cons_self (hT ▸ baseType_mem (hT ▸ hp))
      split at h
      · rename_i hb
        cases h
        exact ⟨hbase hb rfl, rfl, rfl⟩
      · rename_i hb
        cases h
        exact ⟨hbase hb rfl, rfl, rfl⟩
      · rename_i hb
        split at h
        · cases h
          exact ⟨hbase hb rfl, rfl, rfl⟩
        · cases h
      · cases h
  · cases h

end Node

namespace Document

variable {d : Document} {n x T : Node} {p : Place}

/-- A declaration gets another type. -/
theorem puts_setType (ht : d.Tidy) (hx : x ∈ d.root.preorder) (hk : x.key = n.key) {type : Node}
    (hty : Keyless [type]) :
    Puts d (d.setType n type) x ((stampAll d.next [type]).1 ++ x.parts.drop 1) := by
  have hcur : d.current n = x := ht.current_eq (mem_trees_of_root hx) hk
  have hset : d.setType n type = (({ root := d.root, loose := [x.child .type] ++ d.loose
                                     next := (stampAll d.next [type]).2 } : Document).modifyParts x
      fun parts => (stampAll d.next [type]).1 ++ parts.drop 1) := by
    rw [setType, hcur]
    simp only [modifyParts, modify, withKeys, setAside, hk]
    rfl
  rw [hset]
  have hsub : ([] ++ x.parts.drop 1).Sublist x.parts := List.drop_sublist 1 _
  refine puts_fresh ht hx hsub hty rfl fun y hy => ?_
  have hy := mem_preorderAll_singleton.mp hy
  exact mem_trees_of_root (mem_preorder_trans (mem_preorder_trans hy
    (child_mem_preorder (isPresent_of_preorder hy))) hx)

/-- Its type is the new one, with keys of its own. -/
theorem Puts.child_setType {d' : Document} (ht : d.Tidy) (hd : x.isA .decl) {type : Node}
    (h : Puts d d' x ((stampAll d.next [type]).1 ++ x.parts.drop 1)) :
    (grafted x ((stampAll d.next [type]).1 ++ x.parts.drop 1) x).child .type =
      (type.stamp d.next).1 := by
  rw [h.grafted_self ht]
  cases x with
  | absent => cases hd
  | mk m f ps =>
    have hcls : f.cls = .decl := by simpa [isA, cls?, form?] using hd
    cases f with
    | decl name spec => rfl
    | _ => cases hcls

/-- What was cut out is given another type outside the program. -/
theorem root_setType (ha : d.attached n = false) (type : Node) :
    (d.setType n type).root = d.root := by
  cases hk : n.key with
  | none => simp [Document.setType, modifyParts, modify, withKeys, setAside, hk]
  | some k =>
    simp only [Document.setType, modifyParts, modify, withKeys, setAside, hk]
    exact modifyAt_of_not_occurs fun y hy hyk => Bool.eq_false_iff.mp ha
      (attached_iff.mpr ⟨y, hy, hyk.trans hk.symm, by rw [hk]; rfl⟩)

variable [Discipline]

namespace Sound

/-- **A declaration gives way to the bare definition of a type in it.** -/
theorem replace_bare_ok (h : d.Sound) (hs : d.Stands n p x) (hd : x.isA .decl)
    (hl : p.parent.isA .funcDef → p.index ≠ 0) (hT : T ∈ x.preorder) (hTs : T.isSole = false) :
    ∃ d', d.replace n (.build (.decl none {}) [T, .absent, .absent]) = .ok d' ∧
      Follows d d' x x := by
  obtain ⟨hlist, hargs, hholds⟩ := h.stands_decl hs hd hl
  have hcur : ∀ next, ({ d with next } : Document).current n = x := fun _ => hs.current h
  have hkeyed : Keyed [T, .absent, .absent] := by
    intro y hy
    obtain ⟨t, ht, hyt⟩ := mem_preorderAll.mp hy
    simp only [List.mem_cons, List.not_mem_nil, or_false] at ht
    rcases ht with rfl | rfl | rfl
    · exact h.woven.keyed y (mem_trees_of_root (mem_preorder_trans hyt
        (mem_preorder_trans hT hs.mem)))
    · exact (not_mem_preorder_absent hyt).elim
    · exact (not_mem_preorder_absent hyt).elim
  have hstamp : stampAll d.next [build (.decl none {}) [T, .absent, .absent]] =
      ([.mk ⟨some d.next, none⟩ (.decl none {}) [T, .absent, .absent]], d.next + 1) := by
    rw [stampAll_singleton, build, stamp_mk_none, stampAll_of_keyed _ _ hkeyed]
  refine ⟨_, by simp only [Document.replace, hs.place, withKeys, hstamp, hcur]; rfl, ?_⟩
  have hold : ∀ y ∈ T.preorder, IsOld d.next y := fun y hy => h.bound y
    (mem_trees_of_root (mem_preorder_trans hy (mem_preorder_trans hT hs.mem)))
  -- What is among the parts now is the new declaration, or it was below the parent.
  have hcases : ∀ y ∈ preorderAll (p.parent.parts.take p.index ++
      [.mk ⟨some d.next, none⟩ (.decl none {}) [T, .absent, .absent]] ++
      p.parent.parts.drop (p.index + 1)),
      y = .mk ⟨some d.next, none⟩ (.decl none {}) [T, .absent, .absent] ∨ IsOld d.next y := by
    intro y hy
    rw [mem_preorderAll_append, mem_preorderAll_append, or_right_comm,
      ← mem_preorderAll_append] at hy
    rcases hy with hy | hy
    · exact .inr (h.tidy.isOld_of_parts hs.parent hs.sublist hy)
    · refine (mem_preorder_mk.mp (mem_preorderAll_singleton.mp hy)).imp_right ?_
      rintro ⟨c, hc, hyc⟩
      simp only [List.mem_cons, List.not_mem_nil, or_false] at hc
      rcases hc with rfl | rfl | rfl
      · exact hold y hyc
      · exact (not_mem_preorder_absent hyc).elim
      · exact (not_mem_preorder_absent hyc).elim
  refine h.put hs [x] rfl (fun z hz => mem_trees_of_root
    (mem_preorder_trans (mem_preorderAll_singleton.mp hz) hs.mem))
    (graft_bare h.woven h.bound (mem_trees_of_root hs.parent) hs.split rfl hT hTs) ?_
    (Nat.le_succ _) (fun y hy => ?_) (fun c hc hcp => ?_) (fun _ => ⟨by simp, hs.mem_parts⟩)
    (hs.filter_sublist.trans ((List.sublist_append_left _ _).append_right _))
  · obtain ⟨f, hf, hls, hslots⟩ := isInList_iff.mp hlist
    refine tame_list (h.regular _ (mem_trees_of_root hs.parent)) hs.split_list (fun f' hf' => ?_)
      (.inr ⟨fun f' hf' => ?_, fun _ c hc => ?_⟩) (.inl hargs) (fun _ => by simp; rfl)
      fun y hy hyn => ?_
    · obtain rfl : f = f' := by simpa [hf] using hf'
      rw [hs.length_take]
      exact ⟨hls, hslots⟩
    · rw [hs.length_take]
      exact hholds f' hf'
    · rw [List.mem_singleton.mp hc]
      rfl
    · rcases hcases y hy with rfl | hy
      · refine isRegular_of_isPlain rfl ?_ fun _ => ?_
        · simp only [List.mem_cons, List.not_mem_nil, or_false, forall_eq_or_imp, forall_eq]
          exact ⟨isA_of_not_isSole hTs rfl, rfl, rfl⟩
        · simp only [List.mem_cons, List.not_mem_nil, or_false, forall_eq_or_imp, forall_eq]
          exact ⟨isStatement_of_not_isSole hTs, rfl, rfl⟩
      · exact (hyn hy).elim
  · rcases hcases y hy with rfl | hy
    · exact ⟨d.next, rfl, Nat.lt_succ_self _⟩
    · exact isOld_mono hy (Nat.le_succ _)
  · refine (hs.mem_or_eq hc).imp_left fun hc => mem_preorderAll_of_mem ?_ hcp
    simp only [List.mem_append] at hc ⊢
    exact hc.elim (fun h => .inl (.inl h)) .inr

/-- **The declaration of a function is given another type.** Functions are declared as before if
this is a function type. -/
theorem setType_ok (h : d.Sound) (hx : x ∈ preorderAll d.trees) (hk : x.key = n.key)
    (hd : x.isA .decl) {type : Node} (ht : type.IsNewTerm)
    (hl : type.isA .funcDecl → x.declaresFunction) (htl : Discipline.strict → type.isA .funcDecl) :
    ∃ r, Follows d (d.setType n type) r x ∧
      (type.isA .funcDecl → ∀ y ∈ preorderAll d.trees, y.declaresFunction →
        ∃ y' ∈ preorderAll (d.setType n type).trees, y'.key = y.key ∧ y'.declaresFunction) := by
  have hcur : d.current n = x := h.current_eq hx hk
  obtain ⟨k, hxk⟩ := h.woven.exists_key hx
  cases hf : x with
  | absent =>
    rw [hf] at hd
    cases hd
  | mk m f ps =>
    subst hf
    have hcls : f.cls = .decl := by simpa [isA, cls?, form?] using hd
    have hold : (Node.mk m f ps).child .type = ps.getD 0 .absent := by
      rw [child, hcls]
      rfl
    have hsub : ([] ++ ps.drop 1).Sublist ps := List.drop_sublist 1 ps
    have hset : d.setType n type =
        { root := d.root.modifyAt k fun z => z.withParts
            ((stampAll d.next [type]).1 ++ z.parts.drop 1)
          loose := modifyAllAt k (fun z => z.withParts
            ((stampAll d.next [type]).1 ++ z.parts.drop 1)) ([ps.getD 0 .absent] ++ d.loose)
          next := (stampAll d.next [type]).2 } := by
      simp [setType, withKeys, hcur, hold, modifyParts, Document.modify, ← hk, hxk, setAside]
    have hparts : ∀ c ∈ ps, c ∈ ps.drop 1 ∨ c = ps.getD 0 .absent := by
      intro c hc
      cases ps with
      | nil => cases hc
      | cons q qs => exact (List.mem_cons.mp hc).symm
    have hfresh : ∀ y ∈ preorderAll ([] ++ (stampAll d.next [type]).1 ++ ps.drop 1),
        y ∈ preorderAll (stampAll d.next [type]).1 ∨ IsOld d.next y := by
      intro y hy
      rw [List.nil_append, mem_preorderAll_append] at hy
      refine hy.imp_right fun hy => h.bound y ?_
      obtain ⟨t, htm, hyt⟩ := mem_preorderAll.mp hy
      exact mem_preorderAll_of_parts (mem_preorderAll.mpr ⟨t, List.mem_of_mem_drop htm, hyt⟩) hx
    -- It declares a function if the new type is that of one.
    have htype : ∀ m' : Mark,
        (Node.mk m' f ((stampAll d.next [type]).1 ++ ps.drop 1)).declaresFunction =
        type.isA .funcDecl := fun m' => by
      have hidx : f.cls.slots.idxOf .type = 0 := by
        rw [hcls]
        rfl
      have hfirst : (((stampAll d.next [type]).1 ++ ps.drop 1)[0]?).getD absent =
          (type.stamp d.next).1 := by
        rw [stampAll_singleton]
        rfl
      have hself : ∀ qs, (Node.mk m' f qs).isA .decl := fun qs => by
        simp [isA, cls?, form?, hcls]
      rw [declaresFunction, hself, child_mk, hidx, hfirst, isA, cls?_stamp, Bool.true_and, isA]
    obtain ⟨hg, hcalm⟩ := graft_fresh h.woven h.bound hx hsub ht.keyless
    have hreg := h.regular _ hx
    have hch : Changes d k (fun z => z.withParts ((stampAll d.next [type]).1 ++ z.parts.drop 1))
        (Node.mk m f ps) [ps.getD 0 .absent] (stampAll d.next [type]).2 := by
      refine ⟨hx, hxk, fun y hy => ?_, hg, hcalm, ?_, le_stampAll _ _, fun y hy => ?_⟩
      · rw [mem_preorderAll_singleton] at hy
        refine mem_preorderAll_of_parts (x := y)
          (mem_preorderAll.mpr ⟨ps.getD 0 .absent, ?_, hy⟩) hx
        cases ps with
        | nil => exact absurd hy not_mem_preorder_absent
        | cons q qs => exact List.mem_cons_self
      · cases f with
        | decl name spec =>
          refine ⟨rfl, fun h => hl (htype _ ▸ h), fun hs => ?_, rfl, .inl rfl, fun hi => ?_, ?_,
            fun y hy hyn => ?_⟩
          · rw [hl (htl hs)]
            exact (htype _).trans (htl hs)
          · -- The initializer comes after the type.
            have hi : ((((stampAll d.next [type]).1 ++ ps.drop 1)[1]?).getD absent).isPresent := hi
            rw [stampAll_singleton, List.singleton_append, List.getElem?_cons_succ,
              List.getElem?_drop] at hi
            exact hi
          · -- The new type is a term, and so is what comes after it.
            have hterm : ∀ c ∈ ps.drop 1, c.IsTerm := fun c hc =>
              (h.regular.of_mem_preorderAll hx).isTerm_of_mem (fun _ => rfl)
                (List.mem_of_mem_drop hc)
            refine isRegular_of_isPlain rfl (fun c hc => ?_) fun hs c hc => ?_
            · rcases List.mem_append.mp hc with hc | hc
              · exact isA_stampAll (by simpa using ht.decl) c hc
              · exact (hterm c hc).decl
            · rcases List.mem_append.mp hc with hc | hc
              · exact isStatement_stampAll (by simpa using ht.inner hs) c hc
              · exact (hterm c hc).inner hs
          · rcases hfresh y hy with hy | hy
            · exact ht.regular.stampAll _ y hy
            · exact (hyn hy).elim
        | _ => cases hcls
      · rcases hfresh y hy with hy | hy
        · exact isOld_stampAll ht.keyless hy
        · exact isOld_mono hy (le_stampAll _ _)
    have hfollows := h.modify (r := ps.getD 0 .absent) (x := Node.mk m f ps) hch rfl
      (fun c hc hcp => ?_) (fun hp => ?_) rfl (.inl rfl)
    · rw [hset]
      exact ⟨_, hfollows, fun hfunc => h.modify_declares hch hfollows.continues.alive
        fun _ => (htype _).trans hfunc⟩
    · refine (hparts c hc).imp_left fun hc => mem_preorderAll_of_mem ?_ hcp
      exact List.mem_append_right _ hc
    · refine ⟨List.mem_cons_self, ?_⟩
      cases ps with
      | nil => cases hp
      | cons q qs => exact List.mem_cons_self

end Sound

/-- The type in the head of a definition now. -/
def headType (d : Document) (F : Node) : Node := ((d.current F).child .decl).child .type

/-- Declarations are given the type of a definition, one after the other, and nothing goes wrong. -/
inductive Retypes (F : Node) : Document → List Node → Document → Prop where
  | nil {d : Document} : Retypes F d [] d
  | cons {d d' : Document} {n : Node} {ns : List Node} : d.Sound →
    (d.setType n (d.headType F).copy).Sound → Continues d (d.setType n (d.headType F).copy) →
    Retypes F (d.setType n (d.headType F).copy) ns d' → Retypes F d (n :: ns) d'

end Document

end Fieldwise
