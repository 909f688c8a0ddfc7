import Fieldwise.Proofs.Document.Start
import Fieldwise.Proofs.FreshNames
import Fieldwise.Proofs.Tree.Relabel

/-!
# What splitting shared definitions does

Splitting gives tags to types and puts references to them into declarations, and changes nothing
else: what it makes of a document is a relabelling of it (`Splitting.Splits`). This is kept for every
declaration that is looked at (`Splitting.Splits.splitItems`), where each is looked at once.

In the end each variable that is declared with a struct is based on a struct that has the tag of the
definition (`Splitting.Splits.isBasedOn`), and only untagged definitions were given a tag, all of
them different ones that were not taken.
-/

namespace Fieldwise

open Node Relation

namespace Node

variable {ts : List Node} {n m p c i j t T : Node} {tags : Nat → Option String}
  {refs : Nat → Option Node}

/-! ### Declarations and the ends of their types -/

/-- The type that a declarator is put on. -/
def declared : Node → Option Node
  | mk _ (.arrayDecl _) [type, _] | mk _ .funcDecl [_, type] | mk _ (.ptrDecl _) [type]
  | mk _ (.typename _) [type] => some type
  | _ => none

theorem mem_parts_of_declared (h : p.declared = some c) :
    c ∈ p.parts ∧ p.isSole ∧ p.isA .decl = false ∧ p.isA .typeDecl = false := by
  unfold declared at h
  split at h
  all_goals cases h
  all_goals exact ⟨by simp [parts], rfl, rfl, rfl⟩

/-- The end of a chain of declarators is reached through them. -/
theorem steps_typeDecl (t : Node) (h : t.typeDecl.isPresent) :
    ReflTransGen (fun p c => p.declared = some c) t t.typeDecl := by
  fun_induction Node.typeDecl t with
  | case1 => exact .refl
  | case2 _ _ _ _ ih => exact .head rfl (ih h)
  | case3 _ _ _ ih => exact .head rfl (ih h)
  | case4 _ _ _ ih => exact .head rfl (ih h)
  | case5 _ _ _ ih => exact .head rfl (ih h)
  | case6 => cases h

/-- A part of a declaration is reached from no part of another one through declarators. -/
theorem Woven.eq_of_declared (h : Woven ts) (hn : n ∈ preorderAll ts) (hm : m ∈ preorderAll ts)
    (hmd : m.isA .decl) (hi : i ∈ n.parts) (hj : j ∈ m.parts) (hs : j.isSole)
    (hij : ReflTransGen (fun p c => p.declared = some c) i j) : n = m := by
  cases hij with
  | refl => exact h.parent_eq hn hm hi hj (.inl hs) rfl
  | @tail q _ hiq hqj =>
    obtain ⟨hjq, -, hqd, -⟩ := mem_parts_of_declared hqj
    have hq : q ∈ i.preorder := mem_preorder_of_steps (fun hc => (mem_parts_of_declared hc).1) hiq
      (isPresent_of_mem_parts hjq)
    have hqt := mem_preorderAll_trans (mem_preorder_of_mem_parts hi hq) hn
    rw [h.parent_eq hqt hm hjq hj (.inl hs) rfl, hmd] at hqd
    cases hqd

/-- **No two declarations end in one type**, in the sense that the nodes at the ends of their chains
of declarators differ. -/
theorem Woven.eq_of_typeDecl (h : Woven ts) (hn : n ∈ preorderAll ts) (hm : m ∈ preorderAll ts)
    (hnd : n.isA .decl) (hmd : m.isA .decl) (hi : i ∈ n.parts) (hj : j ∈ m.parts)
    (hip : i.typeDecl.isPresent) (hjp : j.typeDecl.isPresent)
    (hk : i.typeDecl.key = j.typeDecl.key) : n = m := by
  have hsole : ∀ {i : Node}, i.typeDecl.isPresent → i.isSole ∧ i.typeDecl.isSole := fun hp =>
    have hs := isSole_of_isA (isA_typeDecl hp) (by decide)
    ⟨isSole_of_steps (fun hc => (mem_parts_of_declared hc).2.1) (steps_typeDecl _ hp) hs, hs⟩
  have hmem : ∀ {n i : Node}, n ∈ preorderAll ts → i ∈ n.parts → i.isSole → i ∈ preorderAll ts :=
    fun hn hi hs => mem_preorderAll_trans
      (mem_preorder_of_mem_parts hi (self_mem_preorder (isPresent_of_isSole hs))) hn
  have his := hsole hip
  have hjs := hsole hjp
  rcases h.comparable (fun hc => ⟨(mem_parts_of_declared hc).1, (mem_parts_of_declared hc).2.1⟩)
    (hmem hn hi his.1) (hmem hm hj hjs.1) (steps_typeDecl i hip) (steps_typeDecl j hjp) his.2 hk with
    hij | hji
  · exact h.eq_of_declared hn hm hmd hi hj hjs.1 hij
  · exact (h.eq_of_declared hm hn hnd hj hi his.1 hji).symm

/-! ### Definitions in declarations -/

/-- A declaration has the definition of a type for its base. -/
structure Defines (n T : Node) : Prop where
  decl : n.isA .decl
  type_mem : n.child .type ∈ n.parts
  hasEnd : (n.child .type).typeDecl.isPresent
  base : (n.child .type).baseType = T
  present : T.isPresent
  shared : T.isSole = false

theorem defines_of_definedType? (h : n.definedType? = some T) : n.Defines T := by
  have hend := isPresent_typeDecl h
  unfold definedType? at h
  split at h
  · rename_i m name spec type rest
    have hdefines : type.baseType = T → T.isPresent → T.isSole = false →
        (mk m (.decl name spec) (type :: rest)).Defines T :=
      .mk rfl List.mem_cons_self hend
    split at h
    · cases h
    · split at h
      · rename_i hb
        obtain rfl := Option.some.inj h
        exact hdefines hb rfl rfl
      · rename_i hb
        obtain rfl := Option.some.inj h
        exact hdefines hb rfl rfl
      · rename_i hb
        split at h
        · obtain rfl := Option.some.inj h
          exact hdefines hb rfl rfl
        · cases h
      · cases h
  · cases h

/-- A named variable is declared, by pointers and arrays, with a struct whose members are given. -/
structure DeclaresStruct (n T : Node) : Prop where
  decl : n.isA .decl
  named : n.name?.isSome
  layers : (n.child .type).layers.isSome
  base : (n.child .type).baseType = T
  complete : ∃ tag, T.form? = some (.structType tag true)

/-- Whether a node declares a variable with a struct. -/
def declaresStruct (n : Node) : Bool :=
  n.isA .decl && n.name?.isSome && (n.child .type).layers.isSome &&
    match (n.child .type).baseType.form? with
    | some (.structType _ true) => true
    | _ => false

theorem declaresStruct_iff : n.declaresStruct ↔ n.DeclaresStruct (n.child .type).baseType := by
  have hform : (match (n.child .type).baseType.form? with
      | some (.structType _ true) => true
      | _ => false) = true ↔
      ∃ tag, (n.child .type).baseType.form? = some (.structType tag true) := by
    split <;> simp_all
  rw [declaresStruct, Bool.and_eq_true, Bool.and_eq_true, Bool.and_eq_true, hform]
  exact ⟨fun ⟨⟨⟨hd, hn⟩, hl⟩, hc⟩ => ⟨hd, hn, hl, rfl, hc⟩,
    fun ⟨hd, hn, hl, _, hc⟩ => ⟨⟨⟨hd, hn⟩, hl⟩, hc⟩⟩

theorem form?_typeReference {tag : Option String} (h : T.isA .structType) :
    (T.typeReference tag).form? = some (.structType tag false) := by
  cases T with
  | absent => cases h
  | mk m f ps =>
    cases f with
    | structType => rfl
    | _ => cases h

/-- The form of a declaration that has a name and a type. -/
theorem exists_decl (h : n.isA .decl) (hn : n.name?.isSome) (ht : (n.child .type).isPresent) :
    ∃ m name spec rest, n = mk m (.decl (some name) spec) (n.child .type :: rest) := by
  cases n with
  | absent => cases h
  | mk m f ps =>
    cases f with
    | decl name spec =>
      obtain ⟨name, rfl⟩ := Option.isSome_iff_exists.mp hn
      cases ps with
      | nil => cases ht
      | cons type rest => exact ⟨m, name, spec, rest, rfl⟩
    | _ => cases h

/-- The definition in a declaration with a struct is found. -/
theorem definedType?_of_declaresStruct (h : n.DeclaresStruct T) :
    n.definedType? = some T ∧ T.isA .structType := by
  obtain ⟨hd, hn, hl, hb, tag, hc⟩ := h
  refine ⟨?_, by simp [isA, cls?, hc, Form.cls]⟩
  cases T with
  | absent => cases hc
  | mk m f ps =>
    obtain rfl := Option.some.inj hc
    have hbase : (n.child .type).baseType.isPresent := by rw [hb]; rfl
    have hend : (n.child .type).typeDecl.isPresent := isPresent_of_child hbase
    obtain ⟨m', name, spec, rest, hform⟩ :=
      exists_decl hd hn (isPresent_of_preorder (typeDecl_mem hend))
    obtain ⟨layers, hl⟩ := Option.isSome_iff_exists.mp hl
    rw [hform, Node.definedType?]
    simp only [hl, hb]

/-! ### The way to a definition -/

theorem holds_of_statements (h : c ∈ p.statements) : Holds p c := by
  refine ⟨(mem_parts_of_statements h).1, ?_⟩
  unfold statements at h
  split at h
  all_goals first | rfl | exact absurd h List.not_mem_nil

theorem holds_of_listed (h : c ∈ p.listed) : Holds p c := by
  refine ⟨(sublist_listed p).subset h, ?_⟩
  unfold listed at h
  split at h
  all_goals first | rfl | exact absurd h List.not_mem_nil

/-- Items are reached without a step to a base type. -/
theorem IsItemOf.steps {t : Node} (h : n.IsItemOf t) : ReflTransGen Holds t n := by
  obtain ⟨list, hlist, hn⟩ := h
  exact (hlist.lift id fun _ _ => holds_of_statements).tail (holds_of_listed hn)

/-- The end of the type that an item declares is reached as well. -/
theorem IsItemOf.steps_end {t : Node} (h : n.IsItemOf t) (hT : n.definedType? = some T) :
    ReflTransGen Holds t (n.child .type).typeDecl := by
  obtain ⟨hd, hc, hend, -⟩ := defines_of_definedType? hT
  refine (h.steps.tail ⟨hc, isA_of_ne hd (by decide)⟩).trans ?_
  exact (steps_typeDecl _ hend).lift id fun _ _ hc =>
    ⟨(mem_parts_of_declared hc).1, (mem_parts_of_declared hc).2.2.2⟩

/-- What is reached is there. -/
theorem mem_of_steps {t x : Node} (h : ReflTransGen Holds t x) (hx : x.isPresent) :
    x ∈ t.preorder := mem_preorder_of_steps (fun hc => hc.1) h hx

/-- A chain of declarators ends as before, up to what stands at its end. -/
theorem typeDecl_relabel (he : EndsOnly refs t) (h : t.typeDecl.isPresent) :
    (t.relabel tags refs).typeDecl = t.typeDecl.relabel tags refs := by
  have hpart : ∀ {m : Mark} {f : Form} {ps : List Node} {p : Node}, EndsOnly refs (mk m f ps) →
      p ∈ ps → EndsOnly refs p := fun he hp x hx => he x (mem_preorder_mk.mpr (.inr ⟨_, hp, hx⟩))
  have hself : ∀ {m : Mark} {f : Form} {ps : List Node}, EndsOnly refs (mk m f ps) →
      (mk m f ps).isA .typeDecl = false → m.key.bind refs = none := fun he hf =>
    he _ (self_mem_preorder rfl) hf
  fun_induction Node.typeDecl t with
  | case1 => rfl
  | case2 m quals type dim ih =>
    rw [relabel, hself he rfl, ← ih (hpart he (by simp)) h]
    rfl
  | case3 m args type ih =>
    rw [relabel, hself he rfl, ← ih (hpart he (by simp)) h]
    rfl
  | case4 m quals type ih =>
    rw [relabel, hself he rfl, ← ih (hpart he (by simp)) h]
    rfl
  | case5 m quals type ih =>
    rw [relabel, hself he rfl, ← ih (hpart he (by simp)) h]
    rfl
  | case6 => cases h

/-- The definition in an item is in the tree. -/
theorem IsItemOf.mem_definition {t : Node} (h : n.IsItemOf t) (hT : n.definedType? = some T) :
    T ∈ t.preorder := by
  obtain ⟨-, -, hend, hbase, hp, -⟩ := defines_of_definedType? hT
  have hchild : ((n.child .type).typeDecl.child .type).isPresent := by
    rw [← hbase] at hp
    exact hp
  exact hbase ▸ mem_preorder_trans (child_mem_preorder hchild) (mem_of_steps (h.steps_end hT) hend)

end Node

namespace Splitting

variable [Discipline] {d : Document} {taken : List String} {done items : List Node} {s : Splitting}
  {tags : Nat → Option String} {refs : Nat → Option Node} {n T : Node}

/-- The document that is being split is `d` with the tags and references, where `taken` were the
names that were taken and `done` are the declarations that were looked at. -/
structure Splits (d : Document) (taken : List String) (done : List Node)
    (tags : Nat → Option String) (refs : Nat → Option Node) (s : Splitting) : Prop where
  sound : SoundFrom d s
  root : s.document.root = d.root.relabel tags refs
  items : ∀ n ∈ done, n.IsItemOf d.root
  names : taken ⊆ s.names.taken
  fresh : ∀ {k tag}, tags k = some tag → tag ∉ taken ∧ tag ∈ s.names.taken
  untagged : ∀ {k tag}, tags k = some tag → ∀ T ∈ d.root.preorder, T.key = some k → T.name? = none
  injective : ∀ {j k tag}, tags j = some tag → tags k = some tag → j = k
  named : ∀ n ∈ done, ∀ T, n.definedType? = some T → T.isA .structType → (T.tagIn tags).isSome
  new : ∀ {k r}, refs k = some r → ∀ y ∈ r.preorder, ¬ IsOld d.next y
  reference : ∀ {k r}, refs k = some r → ∃ n ∈ done, ∃ T, n.definedType? = some T ∧
    (n.child .type).typeDecl.key = some k ∧ (T.isA .structType → ∃ tag, T.tagIn tags = some tag ∧
      r.form? = some (.structType (some tag) false))

namespace Splits

/-- At the start nothing has changed. -/
theorem start (h : s.document.Sound) :
    Splits s.document s.names.taken [] (fun _ => none) (fun _ => none) s where
  sound := ⟨h, h, .refl _ h, id⟩
  root := (relabel_none _).symm
  items := fun _ hn => nomatch hn
  names := List.Subset.refl _
  fresh := nofun
  untagged := nofun
  injective := nofun
  named := fun _ hn => nomatch hn
  new := nofun
  reference := nofun

variable (h : Splits d taken done tags refs s)
include h

/-- Only ends of chains of declarators have references. -/
theorem endsOnly : EndsOnly refs d.root := by
  intro x hx hxe
  cases hr : x.key.bind refs with
  | none => rfl
  | some r =>
    obtain ⟨k, hk, hr⟩ := Option.bind_eq_some_iff.mp hr
    obtain ⟨n, hn, T, hT, hnk, -⟩ := h.reference hr
    have hend := (defines_of_definedType? hT).hasEnd
    have he := mem_of_steps ((h.items n hn).steps_end hT) hend
    obtain rfl := h.sound.start.eq_of_key hx he (hk.trans hnk.symm)
    rw [isA_typeDecl hend] at hxe
    cases hxe

/-- A key in use is in no reference. -/
theorem spares {x : Node} {k : Nat} (hx : x ∈ d.root.preorder) (hk : x.key = some k) :
    Spares k refs := by
  intro j r hr y hy hyk
  obtain hold := h.sound.start.bound x (Document.mem_trees_of_root hx)
  exact h.new hr y hy (isOld_of_key hold (hk.trans hyk.symm))

/-- A reference at the end of a declaration was put there when that was looked at. -/
theorem of_end_ref {r : Node} (hn : n.IsItemOf d.root) (hT : n.definedType? = some T)
    (hr : (n.child .type).typeDecl.key.bind refs = some r) :
    n ∈ done ∧ (T.isA .structType → ∃ tag, T.tagIn tags = some tag ∧
      r.form? = some (.structType (some tag) false)) := by
  obtain ⟨k, hk, hr⟩ := Option.bind_eq_some_iff.mp hr
  obtain ⟨m, hm, U, hU, hmk, hform⟩ := h.reference hr
  obtain ⟨hnd, hnc, hnend, -⟩ := defines_of_definedType? hT
  obtain ⟨hmd, hmc, hmend, -⟩ := defines_of_definedType? hU
  have hmem : ∀ {n}, n.IsItemOf d.root → n.isA .decl → n ∈ preorderAll d.trees :=
    fun hn hd => Document.mem_trees_of_root (mem_of_steps hn.steps (isPresent_of_isA hd))
  obtain rfl := h.sound.start.woven.eq_of_typeDecl (hmem hn hnd) (hmem (h.items m hm) hmd) hnd hmd
    hnc hmc hnend hmend (hk.trans hmk.symm)
  obtain rfl := Option.some.inj (hT.symm.trans hU)
  exact ⟨hm, hform⟩

/-- A declaration that was not looked at has its type still. -/
theorem end_bind_refs (hn : n.IsItemOf d.root) (hT : n.definedType? = some T) (hnew : n ∉ done) :
    (n.child .type).typeDecl.key.bind refs = none := by
  cases hr : (n.child .type).typeDecl.key.bind refs with
  | none => rfl
  | some r => exact (hnew (h.of_end_ref hn hT hr).1).elim

/-- So the definition in it can be seen. -/
theorem relabel_mem (hn : n.IsItemOf d.root) (hT : n.definedType? = some T) (hnew : n ∉ done) :
    T.relabel tags refs ∈ s.document.root.preorder := by
  obtain ⟨-, -, hend, hbase, hp, -⟩ := defines_of_definedType? hT
  obtain ⟨-, hmem⟩ := mem_relabel_of_steps tags h.endsOnly
    (isPresent_of_isA h.sound.start.file) (hn.steps_end hT) hend
  have hchild := child_relabel tags (h.end_bind_refs hn hT hnew) .type
  rw [show (n.child .type).typeDecl.child .type = T from hbase] at hchild
  rw [h.root, ← hchild]
  exact mem_preorder_trans (child_mem_preorder (by rw [hchild]; simpa using hp)) hmem

/-- The tag that a definition has now. -/
theorem tag_eq (hn : n.IsItemOf d.root) (hT : n.definedType? = some T) (hnew : n ∉ done) :
    s.tag T = T.tagIn tags := by
  rw [Splitting.tag, h.sound.sound.current_eq
    (Document.mem_trees_of_root (h.relabel_mem hn hT hnew)) (key_relabel T),
    name?_relabel (defines_of_definedType? hT).shared]

/-- A declaration is looked at and left alone. -/
theorem look (hn : n.IsItemOf d.root)
    (hnamed : ∀ T, n.definedType? = some T → T.isA .structType → (T.tagIn tags).isSome) :
    Splits d taken (n :: done) tags refs s := by
  refine { h with items := ?_, named := ?_, reference := ?_ }
  · exact List.forall_mem_cons.mpr ⟨hn, h.items⟩
  · exact List.forall_mem_cons.mpr ⟨hnamed, h.named⟩
  · intro k r hr
    obtain ⟨m, hm, hmr⟩ := h.reference hr
    exact ⟨m, List.mem_cons_of_mem _ hm, hmr⟩

/-- Types that have a tag keep it when one without a tag gets one. -/
theorem tagIn_update_of_some {U : Node} {k : Nat} {tag : String} (hT : T ∈ d.root.preorder)
    (hk : T.key = some k) (hnone : T.tagIn tags = none) (hU : U ∈ d.root.preorder)
    (htag : U.tagIn tags = some tag) (name : String) :
    U.tagIn (Function.update tags k (some name)) = some tag := by
  by_cases hUk : U.key = some k
  · rw [h.sound.start.eq_of_key hU hT (hUk.trans hk.symm), hnone] at htag
    cases htag
  · rwa [tagIn_update hUk]

/-- A type without tag is given one that was not taken. -/
theorem give {t : Splitting} {k : Nat} {name : String} (hT : T ∈ d.root.preorder)
    (hTe : T.isA .typeDecl = false) (hk : T.key = some k) (hnone : T.tagIn tags = none)
    (hsound : SoundFrom d t) (hdoc : t.document = s.document.modify T (withTag (some name)))
    (htaken : t.names.taken = name :: s.names.taken) (hfree : name ∉ s.names.taken) :
    Splits d taken done (Function.update tags k (some name)) refs t := by
  have hkeep : ∀ {U tag}, U ∈ d.root.preorder → U.tagIn tags = some tag →
      U.tagIn (Function.update tags k (some name)) = some tag := fun hU htag =>
    h.tagIn_update_of_some hT hk hnone hU htag name
  have hdefinition : ∀ {n U}, n ∈ done → n.definedType? = some U → U ∈ d.root.preorder :=
    fun hn hU => (h.items _ hn).mem_definition hU
  exact
    { h with
      sound := hsound
      root := by
        rw [hdoc]
        simp only [Document.modify, hk, h.root]
        refine modifyAt_relabel_tag name ?_ (h.spares hT hk) ?_
        · intro x hx hxk y hy hyk
          have hxy := h.sound.start.eq_of_key (mem_preorder_of_mem_preorderAll hx hy) hx
            (hyk.trans hxk.symm)
          refine not_mem_preorderAll_parts hy ?_
          rw [hxy]
          exact self_mem_preorder (isPresent_of_key hxk)
        · simpa [hk] using h.endsOnly T hT hTe
      names := fun x hx => htaken ▸ List.mem_cons_of_mem _ (h.names hx)
      fresh := fun hj => by
        rw [htaken]
        rcases update_eq_some hj with ⟨-, rfl⟩ | hj
        · exact ⟨fun hmem => hfree (h.names hmem), List.mem_cons_self⟩
        · exact ⟨(h.fresh hj).1, List.mem_cons_of_mem _ (h.fresh hj).2⟩
      untagged := fun hj U hU hUj => by
        rcases update_eq_some hj with ⟨rfl, -⟩ | hj
        · rw [h.sound.start.eq_of_key hU hT (hUj.trans hk.symm)]
          exact (Option.or_eq_none_iff.mp hnone).2
        · exact h.untagged hj U hU hUj
      injective := fun hi hj => by
        -- the new tag is that of no other type, as it was free
        rcases update_eq_some hi with ⟨hik, rfl⟩ | hi' <;>
          rcases update_eq_some hj with ⟨hjk, hname⟩ | hj'
        · exact hik.trans hjk.symm
        · exact (hfree (h.fresh hj').2).elim
        · exact (hfree (hname ▸ (h.fresh hi').2)).elim
        · exact h.injective hi' hj'
      named := fun n hn U hU hUs => by
        obtain ⟨tag, htag⟩ := Option.isSome_iff_exists.mp (h.named n hn U hU hUs)
        rw [hkeep (hdefinition hn hU) htag]
        rfl
      reference := fun hr => by
        obtain ⟨n, hn, U, hU, hnk, hform⟩ := h.reference hr
        refine ⟨n, hn, U, hU, hnk, fun hUs => ?_⟩
        obtain ⟨tag, htag, hform⟩ := hform hUs
        exact ⟨tag, hkeep (hdefinition hn hU) htag, hform⟩ }

/-- The definition of a declaration has a tag from then on. -/
theorem nameType (hn : n.IsItemOf d.root) (hT : n.definedType? = some T) (hnew : n ∉ done) :
    ∃ tags', Splits d taken done tags' refs (s.nameType T) ∧ (T.tagIn tags').isSome := by
  have htag := h.tag_eq hn hT hnew
  have hsound := h.sound.nameType T
  rw [Splitting.nameType, htag] at hsound ⊢
  cases hcase : T.tagIn tags with
  | some tag => exact ⟨tags, h, by simp [hcase]⟩
  | none =>
    have hm := hn.mem_definition hT
    obtain ⟨k, hk⟩ := h.sound.start.exists_key hm
    rw [hcase] at hsound
    have hTe := isA_of_not_isSole (defines_of_definedType? hT).shared (c := .typeDecl) rfl
    exact ⟨_, h.give hm hTe hk hcase hsound rfl (s.names.taken_next _) (s.names.next_not_mem _),
      by simp [tagIn, hk]⟩

/-- A declaration refers to its definition by the tag. -/
theorem refer (hn : n.IsItemOf d.root) (hT : n.definedType? = some T) (hnew : n ∉ done)
    (hnamed : (T.tagIn tags).isSome) :
    ∃ refs', Splits d taken (n :: done) tags refs' (s.refer n T) := by
  have hend := (defines_of_definedType? hT).hasEnd
  obtain ⟨tag, htag⟩ := Option.isSome_iff_exists.mp hnamed
  have hm := mem_of_steps (hn.steps_end hT) hend
  obtain ⟨k, hk⟩ := h.sound.start.exists_key hm
  have hkeyless := (isNewTerm_typeReference (s.tag T) T).keyless
  have hsound : SoundFrom d (s.refer n T) := h.sound.refer (mem_of_steps hn.steps) hend
  have hlook : Splits d taken (n :: done) tags refs s := h.look hn fun U hU _ => by
    obtain rfl : T = U := Option.some.inj (hT.symm.trans hU)
    exact hnamed
  refine ⟨Function.update refs k (some (stamp s.document.next (T.typeReference (s.tag T))).1), ?_⟩
  exact
    { hlook with
      sound := hsound
      root := by
        simp only [Splitting.refer, Document.withKeys, Document.modifyParts, Document.modify, hk,
          stampAll_singleton, h.root]
        exact modifyAt_relabel_reference _ (h.spares hm hk)
      new := fun hj y hy ho => by
        rcases update_eq_some hj with ⟨-, rfl⟩ | hj
        · refine not_isOld_stampAll hkeyless (y := y) ?_ (isOld_mono ho h.sound.evolves.next)
          exact mem_preorderAll.mpr ⟨_, List.mem_singleton_self _, hy⟩
        · exact h.new hj y hy ho
      reference := fun hj => by
        rcases update_eq_some hj with ⟨rfl, rfl⟩ | hj
        · refine ⟨n, List.mem_cons_self, T, hT, hk, fun hTs => ⟨tag, htag, ?_⟩⟩
          rw [form?_stamp, form?_typeReference hTs, h.tag_eq hn hT hnew, htag]
        · exact hlook.reference hj }

/-- The tag of a type is its own, or one that it was given, which was not taken. -/
theorem tagIn_cases {tag : String} (hT : T ∈ d.root.preorder) (htag : T.tagIn tags = some tag) :
    T.name? = some tag ∨
      T.name? = none ∧ tag ∉ taken ∧ ∃ k, T.key = some k ∧ tags k = some tag := by
  cases hgiven : T.key.bind tags with
  | none => exact .inl (by simpa [tagIn, hgiven] using htag)
  | some given =>
    obtain ⟨k, hk, hgiven'⟩ := Option.bind_eq_some_iff.mp hgiven
    obtain rfl : given = tag := by simpa [tagIn, hgiven] using htag
    exact .inr ⟨h.untagged hgiven' T hT hk, (h.fresh hgiven').1, k, hk, hgiven'⟩

/-- **Tags tell the types apart**: two types have one tag if and only if they are one type, or had
the tag from the beginning. -/
theorem tag_eq_iff {U : Node} {tag tag' : String} (hT : T ∈ d.root.preorder)
    (hU : U ∈ d.root.preorder) (htag : T.tagIn tags = some tag) (htag' : U.tagIn tags = some tag')
    (htaken : ∀ written, T.name? = some written ∨ U.name? = some written → written ∈ taken) :
    tag = tag' ↔ T.same U ∨ ∃ written, T.name? = some written ∧ U.name? = some written := by
  constructor
  · rintro rfl
    rcases h.tagIn_cases hT htag with hname | ⟨-, hnew, k, hk, hgiven⟩ <;>
      rcases h.tagIn_cases hU htag' with hname' | ⟨-, hnew', k', hk', hgiven'⟩
    · exact .inr ⟨tag, hname, hname'⟩
    · exact (hnew' (htaken tag (.inl hname))).elim
    · exact (hnew (htaken tag (.inr hname'))).elim
    · obtain rfl := h.injective hgiven hgiven'
      exact .inl (by simp [same, hk, hk'])
  · rintro (hsame | ⟨written, hname, hname'⟩)
    · have hsame : T.key.isSome ∧ T.key = U.key := by simpa [same] using hsame
      obtain rfl := h.sound.start.eq_of_key hT hU hsame.2
      exact Option.some.inj (htag.symm.trans htag')
    · rcases h.tagIn_cases hT htag with hT' | ⟨hT', -⟩ <;>
        rcases h.tagIn_cases hU htag' with hU' | ⟨hU', -⟩ <;> simp_all

omit h in
/-- The declarations of a list are looked at, each of them once. -/
theorem splitItems (h : Splits d taken done tags refs s) (hi : ∀ n ∈ items, n.IsItemOf d.root)
    (hp : (items.reverse ++ done).Pairwise fun n m => Apart n m) (last : Option Node) :
    ∃ tags' refs', Splits d taken (items.reverse ++ done) tags' refs' (s.splitItems last items) := by
  induction items generalizing s done tags refs last with
  | nil => exact ⟨tags, refs, h⟩
  | cons n rest ih =>
    have hn := hi n List.mem_cons_self
    rw [List.reverse_cons, List.append_assoc, List.singleton_append] at hp ⊢
    have hrest : ∀ {tags refs s}, Splits d taken (n :: done) tags refs s → ∀ last,
        ∃ tags' refs', Splits d taken (rest.reverse ++ n :: done) tags' refs'
          (s.splitItems last rest) :=
      fun h => ih h (fun m hm => hi m (List.mem_cons_of_mem _ hm)) hp
    rw [Splitting.splitItems]
    cases hT : n.definedType? with
    | none => exact hrest (h.look hn fun T hnT => by rw [hT] at hnT; cases hnT) none
    | some T =>
      have hnew : n ∉ done := fun hmem =>
        (List.pairwise_cons.mp (List.pairwise_append.mp hp).2.1).1 n hmem
          (.inl (isSole_of_isA (defines_of_definedType? hT).decl (by decide))) rfl
      obtain ⟨tags₁, h₁, hnamed⟩ : ∃ tags₁, Splits d taken done tags₁ refs
          (if T.isA .structType then s.nameType T else s) ∧
          (T.isA .structType → (T.tagIn tags₁).isSome) := by
        split
        · obtain ⟨tags₁, h₁, hnamed⟩ := h.nameType hn hT hnew
          exact ⟨tags₁, h₁, fun _ => hnamed⟩
        · exact ⟨tags, h, fun hTs => absurd hTs ‹_›⟩
      simp only []
      split
      · obtain ⟨tags₂, h₂, hnamed₂⟩ := h₁.nameType hn hT hnew
        obtain ⟨refs₂, h₃⟩ := h₂.refer hn hT hnew hnamed₂
        exact hrest h₃ last
      · refine hrest (h₁.look hn fun U hU => ?_) _
        obtain rfl : T = U := Option.some.inj (hT.symm.trans hU)
        exact hnamed

omit h in
/-- The declarations of several lists are looked at, each of them once. -/
theorem splitLists (h : Splits d taken done tags refs s) (lists : List (List Node))
    (hi : ∀ n ∈ lists.flatten, n.IsItemOf d.root)
    (hp : (lists.flatten.reverse ++ done).Pairwise fun n m => Apart n m) :
    ∃ tags' refs', Splits d taken (lists.flatten.reverse ++ done) tags' refs'
      (lists.foldl (fun s items => s.splitItems none items) s) := by
  induction lists generalizing s done tags refs with
  | nil => exact ⟨tags, refs, h⟩
  | cons items lists ih =>
    rw [List.flatten_cons, List.reverse_append, List.append_assoc] at hp ⊢
    rw [List.flatten_cons] at hi
    obtain ⟨tags', refs', h'⟩ := h.splitItems
      (fun n hn => hi n (List.mem_append_left _ hn)) (List.pairwise_append.mp hp).2.1 none
    exact ih h' (fun n hn => hi n (List.mem_append_right _ hn)) hp

end Splits

/-- **Splitting gives tags and references, and changes nothing else.** -/
theorem splits_run (h : s.document.Sound) : ∃ tags refs,
    Splits s.document s.names.taken s.document.root.declarationLists.flatten.reverse tags refs
      s.run := by
  have hapart := h.woven.pairwise_declarations
    fun _ => Document.mem_trees_of_root h.root_mem
  have hrun := (Splits.start h).splitLists s.document.root.declarationLists
    (fun n hn => mem_declarationLists_iff.mp hn) (by
      rw [List.append_nil, List.pairwise_reverse]
      exact hapart.imp Apart.symm)
  rwa [List.append_nil] at hrun

end Splitting

namespace Document

/-- The variable that a node declares is based on a struct with a tag. -/
def IsBasedOn (d : Document) (n : Node) (tag : String) : Prop :=
  d.attached n ∧ ∃ complete,
    ((d.current n).child .type).baseType.form? = some (.structType (some tag) complete)

end Document

namespace Splitting

variable [Discipline] {s : Splitting}

/-- **Each variable that is declared with a struct is based on the tag of the struct.** -/
theorem Splits.isBasedOn {d : Document} {taken : List String} {done : List Node}
    {tags : Nat → Option String} {refs : Nat → Option Node} {n T : Node}
    (h : Splits d taken done tags refs s) (hn : n ∈ done) (hT : n.DeclaresStruct T) :
    ∃ tag, T.tagIn tags = some tag ∧ s.document.IsBasedOn n tag := by
  obtain ⟨hdef, hTs⟩ := definedType?_of_declaresStruct hT
  have hitem := h.items n hn
  obtain ⟨hd, hc, hend, hbase, -⟩ := defines_of_definedType? hdef
  obtain ⟨hmem, hmemr⟩ := mem_relabel_of_steps tags h.endsOnly
    (isPresent_of_isA h.sound.start.file) hitem.steps (isPresent_of_isA hd)
  rw [← h.root] at hmemr
  obtain ⟨k, hk⟩ := h.sound.start.exists_key hmem
  obtain ⟨tag, htag⟩ := Option.isSome_iff_exists.mp (h.named n hn T hdef hTs)
  refine ⟨tag, htag, ?_, ?_⟩
  · exact Document.attached_iff.mpr ⟨_, hmemr, key_relabel n, by simp [hk]⟩
  · -- the chain of declarators is as it was, up to what stands at its end
    have htype : n.child .type ∈ d.root.preorder :=
      mem_preorder_of_part hmem hc (isPresent_of_preorder (typeDecl_mem hend))
    have hends : EndsOnly refs (n.child .type) := fun x hx => h.endsOnly x (mem_preorder_trans hx htype)
    rw [h.sound.sound.current_eq (Document.mem_trees_of_root hmemr) (key_relabel n),
      child_relabel tags (h.endsOnly n hmem (isA_of_ne hd (by decide))), baseType,
      typeDecl_relabel hends hend]
    cases hr : (n.child .type).typeDecl.key.bind refs with
    | some r =>
      obtain ⟨tag', htag', hform⟩ := (h.of_end_ref hitem hdef hr).2 hTs
      obtain rfl := Option.some.inj (htag.symm.trans htag')
      exact ⟨false, by rw [child_relabel_of_ref (isA_typeDecl hend) hr, hform]⟩
    | none =>
      obtain ⟨old, hform⟩ := hT.complete
      rw [child_relabel tags hr, show (n.child .type).typeDecl.child .type = T from hbase,
        form?_relabel_struct hform, htag]
      exact ⟨true, rfl⟩

end Splitting

end Fieldwise
