import Fieldwise.Proofs.Document.Splitting
import Fieldwise.Proofs.Session.Opening

/-!
# The tags of structs at the start

In the session that begins with a program, every variable that is declared with a struct is based on
a struct with a tag, and the tags tell the definitions apart (`Session.start_tags`): two variables
have the same tag if and only if they shared a definition or their definitions had the same tag. The
tags that were generated are none of the program's.

A variable that a function stands among the declarators of is left out, as are declarations inside
an expression: their structs may be left without a tag (`Session.start_leaves_untagged`).
-/

namespace Fieldwise

open Node

namespace Node

variable {x : Node} {root : Node} {k : Nat}

/-- The tags in a program are among its names. -/
theorem mem_identifiers_of_tag {written : String} {complete : Bool}
    (hx : x ∈ (Document.ofRoot root).root.preorder)
    (hf : x.form? = some (.structType (some written) complete)) : written ∈ root.identifiers := by
  obtain ⟨y, hy, n, rfl⟩ := exists_of_mem_stamp hx
  rw [form?_stamp] at hf
  refine List.mem_filterMap.mpr ⟨y, hy, ?_⟩
  cases y with
  | absent => cases hf
  | mk m f ps =>
    obtain rfl := Option.some.inj hf
    rfl

theorem name?_of_struct {tag : Option String} {complete : Bool}
    (h : x.form? = some (.structType tag complete)) : x.name? = tag := by
  cases x with
  | absent => cases h
  | mk m f ps =>
    obtain rfl := Option.some.inj h
    rfl

end Node

namespace Document

/-- Whether the variable that a node declares is based on a struct without a tag. -/
def isBare (d : Document) (n : Node) : Bool :=
  ((d.current n).child .type).baseType.form? == some (.structType none true)

theorem not_isBasedOn_of_isBare {d : Document} {n : Node} {tag : String} (h : d.isBare n) :
    ¬ d.IsBasedOn n tag := by
  rintro ⟨-, complete, hform⟩
  rw [isBare, hform, beq_iff_eq] at h
  injection h with h
  injection h with h
  cases h

end Document

namespace Session

open Document

variable {root program n m T U : Node} {source : String}

/-- A variable is based on one tag. -/
theorem eq_of_isBasedOn {d : Document} {tag tag' : String} (h : d.IsBasedOn n tag)
    (h' : d.IsBasedOn n tag') : tag = tag' := by
  obtain ⟨-, _, h⟩ := h
  obtain ⟨-, _, h'⟩ := h'
  rw [h] at h'
  injection h' with h'
  injection h' with h'
  exact Option.some.inj h'

/-- The document and the names that a session begins with are those of the program with tags and
references, where the names of the program were taken. -/
theorem splits_start [Discipline] (hd : Discipline.IsLax) (options : Options)
    (hroot : root.IsSource) :
    ∃ tags refs, ∃ splitting : Splitting,
      splitting.document = (Session.start root options none).document ∧
      splitting.names = (Session.start root options none).names ∧
      Splitting.Splits (Document.ofRoot root) (sortedSet root.identifiers)
        (Document.ofRoot root).root.declarationLists.flatten.reverse tags refs splitting := by
  obtain ⟨⟨next, hdraft⟩, hprogram⟩ := hroot
  have hsound : (Document.ofRoot root).Sound := Document.sound_ofRoot hdraft hprogram.file
    (regular_of_placed (fun _ => hprogram.isPlaced) (absurd · hd.1) (absurd · hd.1) (absurd · hd.2))
  obtain ⟨tags, refs, h⟩ := Splitting.splits_run
    (s := { document := Document.ofRoot root
            names := { taken := sortedSet root.identifiers } }) hsound
  exact ⟨tags, refs, _, (document_start root options none).symm,
    (names_start root options none).symm, h⟩

/-- **A tag that a struct is given is new.** It is no name of the program, it is taken from then on,
and no other struct is given it. -/
theorem start_gives_tag (options : Options) (hroot : root.IsSource) {tag : String}
    (hn : n.IsItemOf (Document.ofRoot root).root) (hT : n.DeclaresStruct T)
    (hnone : T.name? = none)
    (hbase : (Session.start root options none).document.IsBasedOn n tag) :
    tag ∉ root.identifiers ∧ tag ∈ (Session.start root options none).names.taken ∧
      ∀ m U, m.IsItemOf (Document.ofRoot root).root → m.DeclaresStruct U → U.name? = none →
        (Session.start root options none).document.IsBasedOn m tag → T.same U := by
  let _ : Discipline := ⟨False, False⟩
  obtain ⟨tags, refs, splitting, hdoc, hnames, h⟩ := splits_start ⟨id, id⟩ options hroot
  have hgiven : ∀ {m U : Node}, m.IsItemOf (Document.ofRoot root).root → m.DeclaresStruct U →
      U.name? = none → (Session.start root options none).document.IsBasedOn m tag →
      tag ∉ sortedSet root.identifiers ∧ ∃ k, U.key = some k ∧ tags k = some tag := by
    intro m U hm hU hnone hbase
    obtain ⟨tag', htag, hbase'⟩ :=
      h.isBasedOn (List.mem_reverse.mpr (mem_declarationLists_iff.mpr hm)) hU
    obtain rfl := eq_of_isBasedOn hbase (hdoc ▸ hbase')
    rcases h.tagIn_cases (hm.mem_definition (definedType?_of_declaresStruct hU).1) htag with
      hname | ⟨-, hgiven⟩
    · rw [hnone] at hname
      cases hname
    · exact hgiven
  obtain ⟨hnew, k, hk, htag⟩ := hgiven hn hT hnone hbase
  refine ⟨fun hm => hnew (mem_sortedSet.mpr hm), hnames ▸ (h.fresh htag).2,
    fun m U hm hU hnone' hbase' => ?_⟩
  obtain ⟨-, k', hk', htag'⟩ := hgiven hm hU hnone' hbase'
  obtain rfl := h.injective htag htag'
  simp [same, hk, hk']

/-- **Splitting shared definitions keeps apart what is not one type.** Each variable that is declared
with a struct is based on a tag, which is a new one if the struct had none; and two variables are
based on the same tag if and only if they shared the definition or both definitions had the tag. -/
theorem start_tags (options : Options) (hroot : root.IsSource)
    (hn : n.IsItemOf (Document.ofRoot root).root) (hT : n.DeclaresStruct T) :
    (∃ tag, (Session.start root options none).document.IsBasedOn n tag) ∧
      ∀ tag, (Session.start root options none).document.IsBasedOn n tag →
        (T.name? = none → ∀ x ∈ (Document.ofRoot root).root.preorder, ∀ written complete,
          x.form? = some (.structType (some written) complete) → tag ≠ written) ∧
        ∀ m U tag', m.IsItemOf (Document.ofRoot root).root → m.DeclaresStruct U →
          (Session.start root options none).document.IsBasedOn m tag' →
          (tag = tag' ↔ T.same U ∨ ∃ written, T.name? = some written ∧ U.name? = some written) := by
  let _ : Discipline := ⟨False, False⟩
  obtain ⟨tags, refs, splitting, hdoc, -, h⟩ := splits_start ⟨id, id⟩ options hroot
  have hbased : ∀ {m U : Node}, m.IsItemOf (Document.ofRoot root).root → m.DeclaresStruct U →
      ∃ tag, U.tagIn tags = some tag ∧
        (Session.start root options none).document.IsBasedOn m tag := fun hm hU =>
    hdoc ▸ h.isBasedOn (List.mem_reverse.mpr (mem_declarationLists_iff.mpr hm)) hU
  have hmem : ∀ {m U : Node}, m.IsItemOf (Document.ofRoot root).root → m.DeclaresStruct U →
      U ∈ (Document.ofRoot root).root.preorder := fun hm hU =>
    hm.mem_definition (definedType?_of_declaresStruct hU).1
  -- all written tags were taken
  have htaken : ∀ {x : Node} {written : String} {complete : Bool},
      x ∈ (Document.ofRoot root).root.preorder →
      x.form? = some (.structType (some written) complete) → written ∈ sortedSet root.identifiers :=
    fun hx hf => mem_sortedSet.mpr (mem_identifiers_of_tag hx hf)
  have hwritten : ∀ {m U : Node} {written : String},
      m.IsItemOf (Document.ofRoot root).root → m.DeclaresStruct U → U.name? = some written →
      written ∈ sortedSet root.identifiers := by
    intro m U written hm hU hname
    obtain ⟨tag, hform⟩ := hU.complete
    exact htaken (hmem hm hU) (hform.trans (by rw [name?_of_struct hform] at hname; rw [hname]))
  obtain ⟨tag, htag, hbase⟩ := hbased hn hT
  refine ⟨⟨tag, hbase⟩, fun tag' hbase' => ?_⟩
  obtain rfl := eq_of_isBasedOn hbase hbase'
  refine ⟨fun hnone x hx written complete hf he => ?_, fun m U tag' hm hU hbase' => ?_⟩
  · rcases h.tagIn_cases (hmem hn hT) htag with hname | ⟨-, hnew, -⟩
    · rw [hnone] at hname
      cases hname
    · exact hnew (he ▸ htaken hx hf)
  · obtain ⟨tag₂, htag', hbase₂⟩ := hbased hm hU
    obtain rfl := eq_of_isBasedOn hbase₂ hbase'
    exact h.tag_eq_iff (hmem hn hT) (hmem hm hU) htag htag' fun written hw =>
      hw.elim (hwritten hn hT) (hwritten hm hU)

/-- Two variables with one definition, and one with another. -/
def sharing : String :=
  "struct \x7bint a;\x7d x, *p; void f(void) \x7b struct \x7bint a;\x7d y; \x7d"

theorem start_tags_sharing : ∃ program n T m U tag tag', parse sharing = .ok program ∧
    n.IsItemOf (Document.ofRoot program).root ∧ n.DeclaresStruct T ∧
    m.IsItemOf (Document.ofRoot program).root ∧ m.DeclaresStruct U ∧
    (Session.start program {} none).document.IsBasedOn n tag ∧
    (Session.start program {} none).document.IsBasedOn m tag' ∧ tag ≠ tag' := by
  have h : (match parse sharing with
      | .ok program =>
        let items := (Document.ofRoot program).root.declarationLists.flatten
        decide (∃ n ∈ items, ∃ m ∈ items, n.declaresStruct ∧ m.declaresStruct ∧
          (n.child .type).baseType.name? = none ∧
          (n.child .type).baseType.same (m.child .type).baseType = false)
      | .error _ => false) = true := by decide +kernel
  cases hp : parse sharing with
  | error e =>
    rw [hp] at h
    cases h
  | ok program =>
    rw [hp] at h
    obtain ⟨n, hn, m, hm, hT, hU, hname, hsame⟩ := of_decide_eq_true h
    have hn := mem_declarationLists_iff.mp hn
    have hm := mem_declarationLists_iff.mp hm
    have hT := declaresStruct_iff.mp hT
    have hU := declaresStruct_iff.mp hU
    obtain ⟨⟨tag, htag⟩, htags⟩ := start_tags {} (isSource_of_parse hp) hn hT
    obtain ⟨⟨tag', htag'⟩, -⟩ := start_tags {} (isSource_of_parse hp) hm hU
    refine ⟨program, n, _, m, _, tag, tag', rfl, hn, hT, hm, hU, htag, htag', fun he => ?_⟩
    rcases ((htags tag htag).2 m _ tag' hm hU htag').mp he with hsame' | ⟨written, hwritten, -⟩
    · rw [hsame] at hsame'
      cases hsame'
    · rw [hname] at hwritten
      cases hwritten

/-- A pointer to a function that returns a struct, and a struct in a block inside an expression. -/
def untagged : String :=
  "struct \x7bint a;\x7d (*fp)(void); int f(void) \x7b return (\x7b struct \x7bint b;\x7d x; x.b; \x7d); \x7d"

/-- The two structs are left without a tag. -/
theorem start_leaves_untagged : ∃ program, parse untagged = .ok program ∧
    (∃ n, n.IsItemOf (Document.ofRoot program).root ∧ n.isA .decl ∧ n.name? = some "fp" ∧
      (n.child .type).isA .ptrDecl ∧
      (n.child .type).baseType.form? = some (.structType none true) ∧
      ∀ tag, ¬ (Session.start program {} none).document.IsBasedOn n tag) ∧
    ∃ list ∈ (Document.ofRoot program).root.preorder, list.isA .compound ∧
      ∃ n ∈ list.listed, n.DeclaresStruct (n.child .type).baseType ∧
        ∀ tag, ¬ (Session.start program {} none).document.IsBasedOn n tag := by
  have h : (match parse untagged with
      | .ok program =>
        let d := (Document.ofRoot program).root
        let d' := (Session.start program {} none).document
        decide ((∃ n ∈ d.declarationLists.flatten, n.isA .decl ∧ n.name? = some "fp" ∧
            (n.child .type).isA .ptrDecl ∧
            (n.child .type).baseType.form? = some (.structType none true) ∧ d'.isBare n) ∧
          ∃ list ∈ d.preorder, list.isA .compound ∧
            ∃ n ∈ list.listed, n.declaresStruct ∧ d'.isBare n)
      | .error _ => false) = true := by decide +kernel
  cases hp : parse untagged with
  | error e =>
    rw [hp] at h
    cases h
  | ok program =>
    rw [hp] at h
    obtain ⟨⟨n, hn, hd, hname, hptr, hbase, hbare⟩, list, hlist, hblock, m, hm, hU, hbare'⟩ :=
      of_decide_eq_true h
    exact ⟨program, rfl, ⟨n, mem_declarationLists_iff.mp hn, hd, hname, hptr, hbase,
      fun _ => not_isBasedOn_of_isBare hbare⟩, list, hlist, hblock, m, hm,
      declaresStruct_iff.mp hU, fun _ => not_isBasedOn_of_isBare hbare'⟩

end Session

end Fieldwise
