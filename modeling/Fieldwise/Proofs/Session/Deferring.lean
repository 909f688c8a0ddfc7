import Fieldwise.Proofs.Document.Rewrite
import Fieldwise.Proofs.Session.Growing
import Fieldwise.Proofs.Session.Resolving

/-!
# Uses that are left to another decomposition

A use that initializes a variable of the same aggregate is not rewritten: its operand is copied when
that variable is decomposed (`Session.Defers`). While the other uses are rewritten, the declaration
of the variable stays what it is, as long as the use is there (`Session.Defers.rewritten`).
-/

namespace Fieldwise

open Node

namespace Node

variable {n x : Node}

theorem same_iff : n.same x ↔ n.key.isSome ∧ n.key = x.key := by simp [same]

theorem baseName?_congr (h : x.form? = n.form?) : x.baseName? = n.baseName? := by
  cases x with
  | absent =>
    cases n with
    | absent => rfl
    | mk => cases h
  | mk m f ps =>
    cases n with
    | absent => cases h
    | mk m' f' ps' =>
      obtain rfl : f = f' := by simpa [form?] using h
      cases f with
      | structType tag bare => cases tag <;> rfl
      | _ => rfl

theorem baseName?_of_isLink (h : n.isLink) : n.baseName? = none := by
  obtain ⟨m, f, ps, rfl, hf⟩ := exists_of_isLink h
  cases f <;> first | rfl | cases hf

theorem intValue_congr (h : x.form? = n.form?) : x.intValue = n.intValue := by
  cases x with
  | absent =>
    cases n with
    | absent => rfl
    | mk => cases h
  | mk m f ps =>
    cases n with
    | absent => cases h
    | mk m' f' ps' =>
      obtain rfl : f = f' := by simpa [form?] using h
      cases f <;> rfl

/-- A number is no link. -/
theorem isLink_of_intValue {z : Int} (h : n.intValue = .ok (some z)) : n.isLink = false := by
  refine Bool.eq_false_iff.mpr fun hl => ?_
  obtain ⟨m, f, ps, rfl, hf⟩ := exists_of_isLink hl
  cases f <;> first | (simp [intValue] at h; done) | cases hf

theorem exists_of_isA_ident (h : n.isA .ident) : ∃ name, n.form? = some (.ident name) := by
  cases n with
  | absent => cases h
  | mk m f ps =>
    cases f with
    | ident name => exact ⟨name, rfl⟩
    | _ => cases h

/-- An operand of a name is a link. -/
theorem isLink_of_symbol (h : n.unwrap.symbol.isA .ident) : n.isLink := by
  unfold unwrap at h
  split at h
  · rfl
  · rfl
  · rfl
  · rfl
  · exact isLink_of_isA h rfl

theorem isA_initList_of_isLink (h : n.isLink) : n.isA .initList = false := by
  obtain ⟨m, f, ps, rfl, hf⟩ := exists_of_isLink h
  cases f <;> first | rfl | cases hf

theorem arraySize_eq (h : n.dimension.isPresent) : n.arraySize = n.dimension.intValue := by
  unfold dimension at h ⊢
  split at h
  · rfl
  · cases h

end Node

namespace Session

variable {s t : Session} {D D' T T' e : Node} {a : Aggregate}

theorem isBaseOf_of_aggregateOf? (ha : s.aggregateOf? T = some a) : a.isBaseOf T :=
  List.find?_some (p := fun a => Aggregate.isBaseOf a T) ha

/-- A type of an aggregate has a base type. -/
theorem isPresent_baseType_of_aggregateOf? (ha : s.aggregateOf? T = some a) :
    T.baseType.isPresent := by
  rcases Bool.or_eq_true_iff.mp (isBaseOf_of_aggregateOf? ha) with hsame | hname
  · obtain ⟨k, hk⟩ := Option.isSome_iff_exists.mp (same_iff.mp hsame).1
    exact isPresent_of_key hk
  · cases hb : T.baseType with
    | absent =>
      rw [typeName?, hb] at hname
      cases hname
    | mk => rfl

/-- No aggregate is a link. -/
def Based (s : Session) : Prop :=
  ∀ a ∈ s.aggregates, ∀ x ∈ s.document.root.preorder, x.key = a.struct.key → x.isLink = false

/-- The session after edits that took out links. -/
structure Rewritten [Discipline] (s t : Session) : Prop where
  rewrites : Document.Rewrites s.document t.document
  aggregates : t.aggregates = s.aggregates
  sound : s.document.Sound
  sound' : t.document.Sound
  based : s.Based

namespace Rewritten

variable [Discipline] (h : s.Rewritten t)
include h

/-- A type is of the same aggregate still. -/
theorem aggregateOf?_eq (hT : T ∈ s.document.root.preorder) (hT' : T' ∈ t.document.root.preorder)
    (hk : T'.key = T.key) (ha : s.aggregateOf? T = some a) : t.aggregateOf? T' = some a := by
  have hbase := isPresent_baseType_of_aggregateOf? ha
  have htype : T.typeDecl.isPresent := isPresent_of_child hbase
  have hat := isBaseOf_of_aggregateOf? ha
  unfold aggregateOf? at ha ⊢
  have hmem : T.baseType ∈ s.document.root.preorder := mem_preorder_trans
    (mem_preorder_trans (child_mem_preorder hbase) (typeDecl_mem htype)) hT
  -- A base type that is a link would be the struct of the aggregate.
  have hlink : T.baseType.isLink = false := by
    refine Bool.eq_false_iff.mpr fun hl => ?_
    rcases Bool.or_eq_true_iff.mp hat with hsame | hname
    · have := h.based a (List.mem_of_find?_eq_some ha) _ hmem (same_iff.mp hsame).2
      rw [hl] at this
      cases this
    · rw [typeName?, baseName?_of_isLink hl] at hname
      cases hname
  obtain ⟨-, -, hstays⟩ := h.rewrites.type h.sound.tidy h.sound'.tidy hT hT' hk htype
  obtain ⟨hbk, hbf, -⟩ := hstays fun hl => by
    rw [hlink] at hl
    cases hl
  rw [h.aggregates, ← ha]
  congr 1
  funext a
  rw [Aggregate.isBaseOf, Aggregate.isBaseOf, typeName?, typeName?, baseName?_congr hbf,
    Node.same, Node.same, hbk]

/-- What has an initializer is declared in the same scope still, as it is in no list of
parameters. -/
theorem exists_scopeOf? (hD : D ∈ s.document.root.preorder) (hi : D.isInitialized)
    (hD' : D' ∈ t.document.root.preorder) (hk : D'.key = D.key) {scope : Node}
    (hs : s.scopeOf? D = some scope) :
    ∃ scope', t.scopeOf? D' = some scope' ∧ scope'.form? = scope.form? := by
  have hd : D.isA .decl := (Bool.and_eq_true_iff.mp hi).1
  obtain ⟨P, hparent, hP⟩ := scopeOf?_spec hs
  obtain ⟨hPm, c, hc, hck, -⟩ := Document.of_parent? hparent
  obtain ⟨k, hDk⟩ := h.sound.exists_key hD
  obtain rfl := h.sound.eq_of_key
    (mem_preorder_of_part hPm hc (isPresent_of_key (hck.trans hDk))) hD hck
  have hplaced := (h.sound.regular P (Document.mem_trees_of_root hPm)).placed
  obtain ⟨hlist, rfl⟩ := hP.resolve_left fun hdef => by
    rw [hplaced.params hdef.1 c hc] at hi
    cases hi
  have hsole : c.isSole := isSole_of_isA hd rfl
  obtain ⟨Q, hQ, hDQ, -, hQf⟩ := h.rewrites.exists_parent h.sound.tidy hPm hc hsole hD' hk
  obtain ⟨q, hq⟩ := h.sound'.exists_parent? hD' rfl (h.sound'.root_key_ne hQ hDQ)
  have hsole' : D'.isSole := isSole_of_isA (c := .decl)
    (by rw [isA, cls?_congr (h.rewrites.form?_eq h.sound.tidy hD hD' hk), ← isA, hd]) rfl
  obtain rfl := h.sound'.parent?_of_part hQ hDQ hsole' hq
  refine ⟨q, ?_, hQf⟩
  have hql : q.isA .paramList = false := by rw [isA, cls?_congr hQf, ← isA, hlist]
  simp [scopeOf?, hq, hql]

/-- An array has the number of elements that it had. -/
theorem arrayExtent_eq (hT : T ∈ s.document.root.preorder) (hT' : T' ∈ t.document.root.preorder)
    (hk : T'.key = T.key) (hp : T.typeDecl.isPresent) (hi : (D.child .init).isA .initList = false)
    {size : Int} (hsize : arrayExtent D T = .ok (.ok size)) :
    arrayExtent D' T' = .ok (.ok size) := by
  unfold arrayExtent at hsize ⊢
  cases hdim : T.dimension.isPresent with
  | false => simp [hdim, hi, pure, Except.pure, bind, Except.bind] at hsize
  | true =>
    rw [hdim, if_pos rfl, arraySize_eq hdim] at hsize
    obtain ⟨-, hstays, -⟩ := h.rewrites.type h.sound.tidy h.sound'.tidy hT hT' hk hp
    have hvalue : T.dimension.intValue = .ok (some size) := by
      cases hv : T.dimension.intValue with
      | error f => simp [hv, bind, Except.bind] at hsize
      | ok z =>
        cases z with
        | none => simp [hv, bind, Except.bind, pure, Except.pure] at hsize
        | some z => simpa [hv, bind, Except.bind, pure, Except.pure] using hsize
    obtain ⟨-, hform, hm⟩ := hstays fun hl => by
      rw [isLink_of_intValue hvalue] at hl
      cases hl
    have hdim' : T'.dimension.isPresent := isPresent_of_mem_preorder (hm hdim).2
    rw [if_pos hdim', arraySize_eq hdim', intValue_congr hform, hvalue]
    rfl

/-- **What is initialized by no list of values is a binding still**, of the same aggregate. -/
theorem exists_verdictOn (hD : D ∈ s.document.root.preorder) (hi : D.isInitialized)
    (hD' : D' ∈ t.document.root.preorder) (hk : D'.key = D.key)
    (hlist : (D.child .init).isA .initList = false) {c : Binding}
    (hv : s.verdictOn D = .ok (.binding c)) :
    ∃ c', t.verdictOn D' = .ok (.binding c') ∧ c'.aggregate.struct = c.aggregate.struct := by
  have hd : D.isA .decl := (Bool.and_eq_true_iff.mp hi).1
  have hname := name?_congr (h.rewrites.form?_eq h.sound.tidy hD hD' hk)
  unfold verdictOn at hv
  split at hv
  case h_2 => cases hv
  rename_i layers hn hl
  split at hv
  case h_2 => cases hv
  rename_i a scope ha hscope
  split at hv
  case isTrue => cases hv
  rename_i hheader
  split at hv
  case isFalse => cases hv
  rename_i hblock
  obtain ⟨-, hagg, -⟩ := verdict_spec hv
  -- The type is there, as it is of an aggregate, and it stays as it is no link.
  have htype : (D.child .type).typeDecl.isPresent :=
    isPresent_of_child (isPresent_baseType_of_aggregateOf? ha)
  have hchild : D.cls?.any (·.slots.contains .type) := by
    have : D.cls? = some .decl := by simpa [isA] using hd
    simp [this, Class.slots]
  obtain ⟨htk, -, hm⟩ := h.rewrites.stays_child h.sound.tidy h.sound'.tidy hD hD' hk hchild
    fun hl => by
      rw [typeDecl_of_isLink hl] at htype
      cases htype
  obtain ⟨hT, hT'⟩ := hm (isPresent_of_typeDecl htype)
  obtain ⟨hlayers, -⟩ := h.rewrites.type h.sound.tidy h.sound'.tidy hT hT' htk htype
  obtain ⟨scope', hscope', hform⟩ := h.exists_scopeOf? hD hi hD' hk hscope
  have hcls := cls?_congr hform
  have hfunc : scope'.isA .funcDef = scope.isA .funcDef := by rw [isA, hcls, ← isA]
  have hheader' : ¬ scope'.isA .declList := by rwa [isA, hcls, ← isA]
  have hblock' : (scope'.isA .funcDef || scope'.isBlock) = true := by
    rwa [isA, isBlock, hcls, ← isA, ← isBlock]
  simp only [verdictOn, hname, hn, hlayers, hl, h.aggregateOf?_eq hT hT' htk ha, hscope',
    if_neg hheader', if_pos hblock']
  rw [hagg]
  unfold verdict at hv ⊢
  rw [hfunc]
  split at hv
  case h_4 =>
    cases hsize : arrayExtent D (D.child .type) with
    | error f => simp [hsize, bind, Except.bind] at hv
    | ok r =>
      cases r with
      | error reason => simp [hsize, bind, Except.bind, pure, Except.pure] at hv
      | ok size =>
        rw [h.arrayExtent_eq hT hT' htk htype hlist hsize]
        exact ⟨_, rfl, rfl⟩
  all_goals first
    | exact ⟨_, rfl, rfl⟩
    | cases hv

end Rewritten

/-! ### Deferred uses -/

variable {n : Node} {c : Binding}

/-- A name is the operand that initializes the variable of a binding. The declaration is in the
program, and it is a binding of the same aggregate still: the use is left to its decomposition. -/
def Defers (s : Session) (n : Node) (c : Binding) : Prop :=
  ∃ D ∈ s.document.root.preorder, D.key = c.decl.key ∧ D.isA .decl ∧
    (D.child .init).unwrap.symbol.isA .ident ∧ (D.child .init).unwrap.symbol.same n ∧
      ∃ c', s.verdictOn D = .ok (.binding c') ∧ c'.aggregate.same c.aggregate

/-- **What is deferred stays deferred** while other uses are rewritten, as long as it is there. -/
theorem Defers.rewritten [Discipline] (hd : s.Defers n c) (h : s.Rewritten t)
    (ha : t.document.attached n) : t.Defers n c := by
  obtain ⟨D, hD, hDk, hdecl, hident, hsame, c₁, hv, hagg⟩ := hd
  obtain ⟨y, hy, hyk, -⟩ := Document.attached_iff.mp ha
  have hlink := isLink_of_symbol hident
  have hcls : D.cls? = some .decl := by simpa [isA] using hdecl
  have hep := isPresent_of_isSole (isSole_of_isLink hlink)
  have hsymbol : ∃ y ∈ t.document.root.preorder, y.key = (D.child .init).unwrap.symbol.key :=
    ⟨y, hy, hyk.trans (same_iff.mp hsame).2.symm⟩
  obtain ⟨name, hform⟩ := exists_of_isA_ident hident
  have hds := h.sound.tidy
  have hdt := h.sound'.tidy
  -- The initializer is there with its symbol, and so is the declaration.
  obtain ⟨e, he, hek, hes, hef⟩ := h.rewrites.exists_operand hds hdt
    (mem_preorder_trans (child_mem_preorder hep) hD) hform hsymbol
  obtain ⟨D', hD', -, hDk', hDf⟩ := h.rewrites.exists_parent hds hD (child_mem_parts hep)
    (isSole_of_isLink hlink) he hek
  obtain ⟨hik, -, him⟩ := h.rewrites.stays_child hds hdt hD hD' hDk'
    (by simp [hcls, Class.slots]) fun _ => ⟨e, he, hek⟩
  obtain rfl : D'.child .init = e := h.sound'.eq_of_key (him hep).2 he (hik.trans hek.symm)
  obtain ⟨c', hv', hstruct⟩ := h.exists_verdictOn hD (by simp [isInitialized, hdecl, hep]) hD' hDk'
    (isA_initList_of_isLink hlink) hv
  refine ⟨D', hD', hDk'.trans hDk, by rw [isA, cls?_congr hDf, ← isA, hdecl], ?_, ?_, c', hv',
    by rwa [Aggregate.same, hstruct]⟩
  · rw [isA, cls?_congr hef, ← isA, hident]
  · rw [Node.same, hes, ← Node.same]
    exact hsame

end Session

end Fieldwise
