import Fieldwise.Proofs.Document.Retype
import Fieldwise.Proofs.Tree.Top

/-!
# The document of a program

A program whose shared types are knit becomes a sound document when its nodes get keys
(`Document.sound_ofRoot`), and it stays sound when the definitions that several declarators share
are split (`Splitting.sound_run`). Functions are defined at the top of it as before
(`Splitting.definesAtTop_run`).
-/

namespace Fieldwise

open Node

namespace Node

theorem le_keyBoundAll {ps : List Node} (h : ∀ p ∈ ps, ∀ least, least ≤ keyBound least p)
    (least : Nat) : least ≤ keyBoundAll least ps := by
  induction ps generalizing least with
  | nil => exact Nat.le_refl _
  | cons p ps ih =>
    rw [keyBoundAll]
    exact Nat.le_trans (h p List.mem_cons_self least)
      (ih (fun q hq => h q (List.mem_cons_of_mem _ hq)) _)

theorem le_keyBound (t : Node) : ∀ least, least ≤ keyBound least t := by
  induction t using induction with
  | h₀ => exact fun least => Nat.le_refl _
  | h m f ps ih =>
    intro least
    rw [keyBound]
    refine Nat.le_trans ?_ (le_keyBoundAll ih _)
    split
    · exact Nat.le_max_left _ _
    · exact Nat.le_refl _

theorem lt_keyBoundAll {k : Nat} {ps : List Node}
    (h : ∀ p ∈ ps, ∀ least, Occurs k [p] → k < keyBound least p) (least : Nat) (hk : Occurs k ps) :
    k < keyBoundAll least ps := by
  induction ps generalizing least with
  | nil => exact (not_occurs_nil hk).elim
  | cons p ps ih =>
    rw [keyBoundAll]
    rcases occurs_cons.mp hk with hk | hk
    · exact Nat.lt_of_lt_of_le (h p List.mem_cons_self least hk)
        (le_keyBoundAll (fun q _ => le_keyBound q) _)
    · exact ih (fun q hq => h q (List.mem_cons_of_mem _ hq)) _ hk

/-- All keys of a tree are below its bound. -/
theorem lt_keyBound {k : Nat} (t : Node) : ∀ least, Occurs k [t] → k < keyBound least t := by
  induction t using induction with
  | h₀ =>
    rintro least ⟨x, hx, -⟩
    exact (not_mem_preorder_absent (mem_preorderAll_singleton.mp hx)).elim
  | h m f ps ih =>
    rintro least ⟨x, hx, hk⟩
    rw [keyBound]
    rcases (mem_preorder_iff rfl).mp (mem_preorderAll_singleton.mp hx) with rfl | hx
    · have hm : m.key = some k := hk
      refine Nat.lt_of_lt_of_le ?_ (le_keyBoundAll (fun q _ => le_keyBound q) _)
      rw [hm]
      exact Nat.lt_of_lt_of_le (Nat.lt_succ_self k) (Nat.le_max_right _ _)
    · exact lt_keyBoundAll ih _ ⟨x, hx, hk⟩

/-- The lists of declarations of a file are made of its nodes. -/
theorem mem_of_declarationListsIn {ns : List Node} {t : Node} (hns : ∀ n ∈ ns, n.isPresent →
      n ∈ t.preorder)
    (h : ∀ n ∈ ns, n.isPresent → n ∈ t.preorder → ∀ items ∈ n.declarationLists, ∀ i ∈ items,
      i.isPresent → i ∈ t.preorder) :
    ∀ items ∈ declarationListsIn ns, ∀ i ∈ items, i.isPresent → i ∈ t.preorder := by
  induction ns with
  | nil => exact fun items hi => nomatch hi
  | cons n ns ih =>
    intro items hi
    rw [declarationListsIn] at hi
    rcases List.mem_append.mp hi with hi | hi
    · cases n with
      | absent => cases hi
      | mk m f ps => exact h _ List.mem_cons_self rfl (hns _ List.mem_cons_self rfl) items hi
    · exact ih (fun n hn => hns n (List.mem_cons_of_mem _ hn))
        (fun n hn => h n (List.mem_cons_of_mem _ hn)) items hi

theorem mem_of_declarationLists {n t : Node} (hn : n.isPresent → n ∈ t.preorder) :
    ∀ items ∈ n.declarationLists, ∀ i ∈ items, i.isPresent → i ∈ t.preorder := by
  induction n using induction with
  | h₀ => exact fun items hi => nomatch hi
  | h m f ps ih =>
    have hpart : ∀ p ∈ ps, p.isPresent → p ∈ t.preorder := fun p hp hpp =>
      mem_preorder_of_part (hn rfl) hp hpp
    have hone : ∀ p ∈ ps, ∀ items ∈ p.declarationLists, ∀ i ∈ items, i.isPresent → i ∈ t.preorder :=
      fun p hp => ih p hp (hpart p hp)
    have hlist : ∀ qs : List Node, qs.Sublist ps → ∀ items ∈ qs :: declarationListsIn qs,
        ∀ i ∈ items, i.isPresent → i ∈ t.preorder := by
      intro qs hqs items hi
      rcases List.mem_cons.mp hi with rfl | hi
      · exact fun i him => hpart i (hqs.subset him)
      · exact mem_of_declarationListsIn (fun q hq => hpart q (hqs.subset hq))
          (fun q hq hqp _ => hone q (hqs.subset hq)) items hi
    intro items hi
    unfold declarationLists at hi
    split at hi
    case h_1 heq => cases heq; exact hlist _ (.refl _) items hi
    case h_2 heq => cases heq; exact hone _ (by simp) items hi
    case h_3 heq => cases heq; exact hlist _ (.refl _) items hi
    case h_4 heq => cases heq; exact hlist _ (List.sublist_cons_self _ _) items hi
    case h_5 heq => cases heq; exact hlist _ (.refl _) items hi
    case h_6 heq =>
      cases heq
      exact (List.mem_append.mp hi).elim (hone _ (by simp) items) (hone _ (by simp) items)
    case h_7 heq => cases heq; exact hone _ (by simp) items hi
    case h_8 heq => cases heq; exact hone _ (by simp) items hi
    case h_9 heq => cases heq; exact hone _ (by simp) items hi
    case h_10 heq => cases heq; exact hone _ (by simp) items hi
    case h_11 heq =>
      cases heq
      exact (List.mem_append.mp hi).elim (hone _ (by simp) items) (hone _ (by simp) items)
    case h_12 heq =>
      cases heq
      obtain rfl := List.mem_singleton.mp hi
      exact fun i him => hpart i him
    case h_13 => cases hi

theorem mem_preorderAll_of_sharedAll {x : Node} {ps : List Node}
    (h : ∀ p ∈ ps, x ∈ preorderAll (shared p) → x ∈ p.preorder)
    (hx : x ∈ preorderAll (sharedAll ps)) :
    x ∈ preorderAll ps := by
  induction ps with
  | nil => exact hx
  | cons p ps ih =>
    rw [sharedAll_cons, mem_preorderAll_append] at hx
    exact mem_preorderAll_cons.mpr (hx.imp (h p List.mem_cons_self)
      (ih fun q hq => h q (List.mem_cons_of_mem _ hq)))

/-- The shared nodes of a tree are in it. -/
theorem mem_preorder_of_shared {x : Node} (t : Node) :
    x ∈ preorderAll (shared t) → x ∈ t.preorder := by
  induction t using induction with
  | h₀ => exact fun hx => nomatch hx
  | h m f ps ih =>
    intro hx
    rw [shared] at hx
    split at hx
    · exact mem_preorderAll_singleton.mp hx
    · exact (mem_preorder_iff rfl).mpr (.inr (mem_preorderAll_of_sharedAll ih hx))

end Node

namespace Document

variable {d d' : Document} {n type : Node} {k : Nat}

/-- A change to a node that does not occur is none. -/
theorem modify_of_not_mem {change : Node → Node} (hk : n.key = some k)
    (h : ∀ x ∈ preorderAll d.trees, x.key ≠ some k) : d.modify n change = d := by
  have hroot : d.root.modifyAt k change = d.root :=
    modifyAt_of_not_occurs fun y hy => h y (mem_trees_of_root hy)
  have hloose : modifyAllAt k change d.loose = d.loose := by
    rw [modifyAllAt_eq_map]
    refine (List.map_congr_left fun t ht => ?_).trans (List.map_id _)
    exact modifyAt_of_not_occurs fun y hy =>
      h y (mem_preorderAll.mpr ⟨t, List.mem_cons_of_mem _ ht, hy⟩)
  simp [modify, hk, hroot, hloose]

variable [Discipline]

/-- **A program whose shared types are knit becomes a sound document.** -/
theorem sound_ofRoot {root : Node} {a b : Nat} (h : Draft a b [root]) (hf : root.isA .file)
    (hr : Regular [root]) : (ofRoot root).Sound := by
  have hlt : ∀ k, Occurs k [root] → k < keyBound 1 root := fun k hk => lt_keyBound root 1 hk
  have hshared : Knit (sharedAll [root] ++ []) := by simpa using h.knit
  have hb : ∀ k, Occurs k (sharedAll [root] ++ []) → k < keyBound 1 root := fun k ⟨x, hx, hk⟩ =>
    hlt k ⟨x, mem_preorderAll_singleton.mpr (mem_preorder_of_shared root (by simpa using hx)), hk⟩
  have hknit := hshared.stampAll hb
  rw [List.append_nil] at hknit
  have htrees : (ofRoot root).trees = (stampAll (keyBound 1 root) [root]).1 := rfl
  have hnext : (ofRoot root).next = (stampAll (keyBound 1 root) [root]).2 := rfl
  refine ⟨htrees ▸ hknit.toWoven, fun x hx => ?_, ?_, htrees ▸ hr.stampAll _⟩
  · rw [htrees] at hx
    rw [hnext]
    obtain ⟨k, hk, ho | hk'⟩ := key_stampAll _ _ x hx
    · exact ⟨k, hk, Nat.lt_of_lt_of_le (hlt k ho) (le_stampAll _ _)⟩
    · exact ⟨k, hk, hk'.2⟩
  · show ((stamp (keyBound 1 root) root).1).isA .file
    rwa [isA, cls?_stamp]

/-! ### Splitting shared definitions -/

namespace Sound

/-- A document in which one node is changed, wherever it is. -/
theorem modify_any {change : Node → Node} {next : Nat} (h : d.Sound) (n : Node)
    (hle : d.next ≤ next)
    (hc : ∀ P ∈ preorderAll d.trees, P.key = n.key → Graft d.next P (change P) ∧
      Calm d.next (change P) ∧ Tame d.next d.trees P (change P) ∧
      ∀ y ∈ preorderAll (change P).parts, IsOld next y) :
    (({ d with next } : Document).modify n change).Sound ∧
      Evolves d (({ d with next } : Document).modify n change) := by
  have hnone : ({ d with next } : Document).modify n change = { d with next } →
      (({ d with next } : Document).modify n change).Sound ∧
      Evolves d (({ d with next } : Document).modify n change) := fun he => by
    rw [he]
    refine ⟨⟨h.woven, fun x hx => isOld_mono (h.bound x hx) hle, h.file, h.regular⟩, ?_⟩
    exact { Evolves.refl d h with next := hle }
  cases hk : n.key with
  | none => exact hnone (by simp [Document.modify, hk])
  | some k =>
    by_cases hP : ∃ P ∈ preorderAll d.trees, P.key = some k
    · obtain ⟨P, hP, hPk⟩ := hP
      obtain ⟨hg, hcalm, ht, hb⟩ := hc P hP (hPk.trans hk.symm)
      have hch : Changes d k change P [] next := ⟨hP, hPk, fun x hx => absurd hx List.not_mem_nil,
        hg, hcalm, ht, hle, hb⟩
      have he : ({ d with next } : Document).modify n change = changed d k change [] next := by
        simp [Document.modify, hk, changed]
      rw [he]
      exact ⟨h.modify_sound hch, h.modify_evolves hch⟩
    · exact hnone (modify_of_not_mem hk fun x hx hxk => hP ⟨x, hx, hxk⟩)

/-- A type gets a tag. -/
theorem modify_withTag (h : d.Sound) (n : Node) (tag : Option String) :
    (d.modify n (withTag tag)).Sound ∧ Evolves d (d.modify n (withTag tag)) := by
  refine h.modify_any n (Nat.le_refl _) fun P hP _ => ?_
  have hreg := h.regular P hP
  have hold : ∀ y ∈ preorderAll P.parts, IsOld d.next y := fun y hy =>
    h.bound y (mem_preorderAll_of_parts hy hP)
  have hself : Graft d.next P P ∧ Calm d.next P ∧ Tame d.next d.trees P P ∧
      ∀ y ∈ preorderAll P.parts, IsOld d.next y :=
    ⟨⟨rfl, rfl, h.woven.parts hP, fun _ hy _ => hy, fun _ hc _ => hc,
      fun y hy hn => (hn (hold y hy)).elim⟩, fun y hy hn => (hn (hold y hy)).elim,
      ⟨rfl, id, fun _ => rfl, rfl, .inl rfl, id, hreg, fun y hy hn => (hn (hold y hy)).elim⟩, hold⟩
  obtain ⟨hg, hcalm, ht, hb⟩ := hself
  cases P with
  | absent => exact ⟨hg, hcalm, ht, hb⟩
  | mk m f ps =>
    cases f with
    | structType _ complete =>
      refine ⟨{ hg with cls := rfl, key := rfl }, hcalm,
        ⟨rfl, id, fun _ => rfl, rfl, .inl rfl, id, ?_, ht.fresh⟩, hb⟩
      exact ⟨isPlaced_of_holdsDecl (fun _ => rfl) nofun, fun _ hn => (nomatch hn),
        fun _ hf => (nomatch hf), fun hs _ _ i c hc hst =>
          (hreg.sorted hs _ rfl i c hc hst).elim nofun nofun⟩
    | unionType _ complete =>
      refine ⟨{ hg with cls := rfl, key := rfl }, hcalm,
        ⟨rfl, id, fun _ => rfl, rfl, .inl rfl, id, ?_, ht.fresh⟩, hb⟩
      exact ⟨isPlaced_of_holdsDecl (fun _ => rfl) nofun, fun _ hn => (nomatch hn),
        fun _ hf => (nomatch hf), fun hs _ _ i c hc hst =>
          (hreg.sorted hs _ rfl i c hc hst).elim nofun nofun⟩
    | enumType _ =>
      refine ⟨{ hg with cls := rfl, key := rfl }, hcalm,
        ⟨rfl, id, fun _ => rfl, rfl, .inl rfl, id, ?_, ht.fresh⟩, hb⟩
      have hterm : ∀ c ∈ ps, c.IsTerm := fun c hc =>
        (h.regular.of_mem_preorderAll hP).isTerm_of_mem (fun _ => rfl) hc
      exact isRegular_of_isPlain rfl (fun c hc => (hterm c hc).decl)
        fun hs c hc => (hterm c hc).inner hs
    | _ => exact ⟨hg, hcalm, ht, hb⟩

/-- The end of a chain of declarators gets another type. -/
theorem modify_reference (h : d.Sound) {n reference : Node} (hr : reference.IsNewTerm)
    (hn : ∀ P ∈ preorderAll d.trees, P.key = n.key → P.isA .typeDecl) :
    ((d.withKeys [reference]).2.modifyParts n fun _ => (d.withKeys [reference]).1).Sound ∧
      Evolves d ((d.withKeys [reference]).2.modifyParts n fun _ => (d.withKeys [reference]).1) := by
  have hkeyless := hr.keyless
  refine h.modify_any n (le_stamp _ _) fun P hP hk => ?_
  obtain ⟨hg, hcalm⟩ := graft_fresh h.woven h.bound hP
    (show ([] ++ []).Sublist P.parts from List.nil_sublist _) hkeyless
  rw [List.nil_append, List.append_nil] at hg hcalm
  have hcls := hn P hP hk
  cases P with
  | absent => cases hcls
  | mk m f ps =>
    have hf : f.cls = .typeDecl := by simpa [isA, cls?, form?] using hcls
    refine ⟨hg, hcalm, ?_, fun y hy => isOld_stampAll hkeyless hy⟩
    cases f with
    | typeDecl name quals =>
      refine ⟨rfl, id, fun _ => rfl, rfl, .inl rfl, id, ?_,
        fun y hy _ => hr.regular.stampAll _ y hy⟩
      change (Node.mk m (.typeDecl name quals) (stampAll d.next [reference]).1).IsRegular
      exact isRegular_of_isPlain rfl (isA_stampAll (by simpa using hr.decl))
        fun hs => isStatement_stampAll (by simpa using hr.inner hs)
    | _ => cases hf

end Sound

end Document

namespace Node

theorem isNewTerm_typeReference [Discipline] (tag : Option String) (n : Node) :
    (n.typeReference tag).IsNewTerm := by
  unfold typeReference
  split
  · exact isNewTerm_mk rfl rfl (by simp [Form.cls]) (by simp)
  · exact isNewTerm_mk rfl rfl (by simp [Form.cls]) (by simp [isNewTerm_absent])
  · exact isNewTerm_mk rfl rfl (by simp [Form.cls]) (by simp)

theorem isA_typeDecl {t : Node} (h : t.typeDecl.isPresent) : t.typeDecl.isA .typeDecl := by
  fun_induction Node.typeDecl t with
  | case1 => rfl
  | case2 _ _ _ _ ih => exact ih h
  | case3 _ _ _ ih => exact ih h
  | case4 _ _ _ ih => exact ih h
  | case5 _ _ _ ih => exact ih h
  | case6 => cases h

/-- A type with another tag has the same members. -/
theorem withTag_parts (tag : Option String) (n : Node) :
    (n.withTag tag).cls? = n.cls? ∧ (n.withTag tag).parts = n.parts := by
  cases n with
  | absent => exact ⟨rfl, rfl⟩
  | mk m f ps => cases f <;> exact ⟨rfl, rfl⟩

theorem definesNone_typeReference (tag : Option String) (n : Node) :
    DefinesNone [n.typeReference tag] := by
  unfold typeReference
  split
  · exact (definesNone_singleton rfl).mpr ⟨rfl, fun x hx => nomatch hx⟩
  · exact (definesNone_singleton rfl).mpr ⟨rfl, definesNone_absent⟩
  · exact (definesNone_singleton rfl).mpr ⟨rfl, fun x hx => nomatch hx⟩

/-- A declaration that defines a type has a chain of declarators with an end. -/
theorem isPresent_typeDecl {n T : Node} (h : n.definedType? = some T) :
    (n.child .type).typeDecl.isPresent := by
  unfold definedType? at h
  split at h
  · rename_i m name spec type rest
    split at h
    · cases h
    · have hbase : ∀ {T : Node}, type.baseType = T → T.isPresent → type.typeDecl.isPresent :=
        fun hT hp => isPresent_of_child (s := .type) (by rw [← hT] at hp; exact hp)
      split at h
      · rename_i hb
        exact hbase hb rfl
      · rename_i hb
        exact hbase hb rfl
      · rename_i hb
        exact hbase hb rfl
      · cases h
  · cases h

end Node

namespace Document

/-- No function gets another place if a node gets other parts in which none is defined. -/
theorem definesAtTop_modify {d : Document} {n : Node} {change : Node → Node}
    (h : d.root.DefinesAtTop) (hr : d.root.key = n.key → (change d.root).parts = d.root.parts)
    (hc : ∀ P, (change P).cls? = P.cls? ∧ (DefinesNone P.parts → DefinesNone (change P).parts)) :
    (d.modify n change).root.DefinesAtTop := by
  unfold Document.modify
  cases hk : n.key with
  | none => exact h
  | some k => exact h.modifyAt (fun hkey => hr (hkey.trans hk.symm)) fun P _ => hc P

end Document

namespace Splitting

open Document

variable [Discipline] {d : Document} {s : Splitting}

/-- Nothing is wrong with the document that is being split, which began as `d`. -/
structure SoundFrom (d : Document) (s : Splitting) : Prop where
  start : d.Sound
  sound : s.document.Sound
  evolves : Evolves d s.document
  tops : d.root.DefinesAtTop → s.document.root.DefinesAtTop

namespace SoundFrom

theorem nameType (h : SoundFrom d s) (type : Node) : SoundFrom d (s.nameType type) := by
  unfold Splitting.nameType
  cases s.tag type with
  | some _ => exact h
  | none =>
    obtain ⟨hs, he⟩ := h.sound.modify_withTag type (some (s.names.next "_anonymous_").1)
    refine ⟨h.start, hs, h.evolves.trans he h.sound, fun ht => ?_⟩
    exact definesAtTop_modify (h.tops ht) (fun _ => (withTag_parts _ _).2) fun P =>
      ⟨(withTag_parts _ P).1, fun hP => (withTag_parts _ P).2 ▸ hP⟩

theorem refer (h : SoundFrom d s) {decl type : Node} (hd : decl.isPresent → decl ∈ d.root.preorder)
    (ht : (decl.child .type).typeDecl.isPresent) : SoundFrom d (s.refer decl type) := by
  have hm : (decl.child .type).typeDecl ∈ d.root.preorder := by
    have hp := isPresent_of_mem_preorder (typeDecl_mem ht)
    have hchild : (decl.child .type).isPresent := by
      cases hc : decl.child .type with
      | absent =>
        rw [hc] at ht
        cases ht
      | mk => rfl
    exact mem_preorder_trans (typeDecl_mem ht) (mem_preorder_trans (child_mem_preorder hchild)
      (hd (isPresent_of_child hchild)))
  -- The end of the chain is still what it was.
  have hend : ∀ P ∈ preorderAll s.document.trees, P.key = (decl.child .type).typeDecl.key →
      P.isA .typeDecl := fun P hP hk => by
    have hold := h.start.bound _ (mem_trees_of_root hm)
    obtain ⟨x, hx, hxk, hxc, -⟩ := h.evolves.kinds P hP (isOld_of_key hold hk.symm)
    have := h.start.woven.eq_of_key hx (mem_trees_of_root hm) (hxk.trans hk)
    rw [isA, ← hxc, this]
    exact isA_typeDecl ht
  obtain ⟨hs, he⟩ := h.sound.modify_reference (n := (decl.child .type).typeDecl)
    (isNewTerm_typeReference (s.tag type) type) hend
  refine ⟨h.start, hs, h.evolves.trans he h.sound, fun htop => ?_⟩
  refine definesAtTop_modify (h.tops htop) (fun hk => ?_) fun P => ⟨cls?_withParts _ _, fun _ => ?_⟩
  · have hroot := hend _ (mem_trees_of_root h.sound.root_mem) hk
    rw [isA_of_ne h.sound.file (by decide)] at hroot
    cases hroot
  · cases P with
    | absent =>
      intro x hx
      cases hx
    | mk => exact (definesNone_typeReference _ _).stampAll _

theorem splitItems {items : List Node} (h : SoundFrom d s) (last : Option Node)
    (hi : ∀ i ∈ items, i.isPresent → i ∈ d.root.preorder) :
    SoundFrom d (s.splitItems last items) := by
  induction items generalizing s last with
  | nil => exact h
  | cons decl rest ih =>
    have hrest : ∀ i ∈ rest, i.isPresent → i ∈ d.root.preorder := fun i hir =>
      hi i (List.mem_cons_of_mem _ hir)
    rw [Splitting.splitItems]
    cases ht : decl.definedType? with
    | none => exact ih h none hrest
    | some type =>
      have hnamed : SoundFrom d (if type.isA .structType then s.nameType type else s) := by
        split
        · exact h.nameType type
        · exact h
      simp only []
      split
      · exact ih ((hnamed.nameType type).refer (hi decl List.mem_cons_self) (isPresent_typeDecl ht))
          last hrest
      · exact ih hnamed (some type) hrest

end SoundFrom

theorem soundFrom_run (h : s.document.Sound) : SoundFrom s.document s.run := by
  have hfold : ∀ (lists : List (List Node)) (t : Splitting), SoundFrom s.document t →
      (∀ items ∈ lists, ∀ i ∈ items, i.isPresent → i ∈ s.document.root.preorder) →
      SoundFrom s.document (lists.foldl (fun s items => s.splitItems none items) t) := by
    intro lists
    induction lists with
    | nil => exact fun t ht _ => ht
    | cons items lists ih =>
      intro t ht hl
      exact ih _ (ht.splitItems none (hl items List.mem_cons_self))
        fun items hi => hl items (List.mem_cons_of_mem _ hi)
  exact hfold _ s ⟨h, h, .refl _ h, id⟩ (mem_of_declarationLists fun _ => h.root_mem)

/-- **Splitting shared definitions keeps a document sound.** -/
theorem sound_run (h : s.document.Sound) : s.run.document.Sound := (soundFrom_run h).sound

/-- Functions are defined at the top still. -/
theorem definesAtTop_run (h : s.document.Sound) (ht : s.document.root.DefinesAtTop) :
    s.run.document.root.DefinesAtTop := (soundFrom_run h).tops ht

end Splitting

end Fieldwise
