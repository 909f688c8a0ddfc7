import Fieldwise.Proofs.Aggregate.Collecting
import Fieldwise.Proofs.Aggregate.Leaves
import Mathlib.Data.List.Induction
import Mathlib.Data.List.Pairwise

/-!
# The names of aggregates

A struct goes by its tag and by the aliases that add no declarator to it, or to a type of a name that
it has already (`Aggregate.IsName`). One pass over the aliases finds all of these names if aliases
are declared before others use them (`Aggregate.mem_namesOf_iff`).

Collecting the aggregates of a program gives structs with their names, no two of which have a name
in common (`Aggregate.ensures_collect`). It fails only where a struct has a member that is no
declaration.
-/

namespace Fieldwise

open Node

/-- Aliases are declared before others use their names. This is so where each name of a type is
declared once, and before it is used in another alias. -/
def Node.DeclaresBeforeUse (root : Node) : Prop :=
  ∀ earlier d later, root.ofClass .typedef = earlier ++ d :: later →
    ∀ e ∈ root.ofClass .typedef, e.name?.isSome → e.name? = (d.child .type).typeName? → e ∈ earlier

/-- It is enough that no alias has a name that it uses itself, or that one before it uses. -/
theorem Node.declaresBeforeUse_of_pairwise {root : Node}
    (hp : (root.ofClass .typedef).Pairwise fun d e => e.name?.isSome →
      e.name? ≠ (d.child .type).typeName?)
    (hs : ∀ d ∈ root.ofClass .typedef, d.name?.isSome → d.name? ≠ (d.child .type).typeName?) :
    root.DeclaresBeforeUse := by
  intro earlier d later hall e he hname hused
  rw [hall] at hp he
  rcases List.mem_append.mp he with he | he
  · exact he
  · rcases List.mem_cons.mp he with rfl | he
    · exact (hs e (by rw [hall]; simp) hname hused).elim
    · exact ((List.pairwise_cons.mp (List.pairwise_append.mp hp).2.1).1 e he hname hused).elim

namespace Aggregate

variable {root struct d e type : Node} {aliases pre post : List Node} {name : String}

/-- The names of a struct: its tag, and the aliases without declarators of the struct itself or of
one of its names. -/
inductive IsName (root struct : Node) : String → Prop where
  | tag {tag : String} (h : struct.name? = some tag) : IsName root struct ("struct " ++ tag)
  | ofStruct {m : Mark} {name : String} {spec : Specifiers} {type : Node}
      (h : .mk m (.typedef (some name) spec) [type] ∈ root.preorder) (hplain : type.isA .typeDecl)
      (hbase : type.baseType.same struct) : IsName root struct name
  | ofName {m : Mark} {name known : String} {spec : Specifiers} {type : Node}
      (h : .mk m (.typedef (some name) spec) [type] ∈ root.preorder) (hplain : type.isA .typeDecl)
      (hbase : type.typeName? = some known) (hknown : IsName root struct known) :
      IsName root struct name

/-! ### One pass over the aliases -/

theorem mem_plainAliases {m : Mark} {spec : Specifiers} :
    .mk m (.typedef (some name) spec) [type] ∈ plainAliases root ↔
      .mk m (.typedef (some name) spec) [type] ∈ root.preorder ∧ type.isA .typeDecl := by
  unfold plainAliases Node.ofClass
  rw [List.mem_filter, List.mem_filter]
  exact ⟨fun ⟨⟨h, _⟩, hp⟩ => ⟨h, hp⟩, fun ⟨h, hp⟩ => ⟨⟨h, rfl⟩, hp⟩⟩

/-- What one more alias adds to the names of a struct. -/
theorem mem_namesOf_concat : name ∈ namesOf (pre ++ [d]) struct ↔ name ∈ namesOf pre struct ∨
    ∃ m spec type, d = .mk m (.typedef (some name) spec) [type] ∧
      isAliasOf struct (namesOf pre struct) type := by
  unfold namesOf
  rw [List.foldl_append, List.foldl_cons, List.foldl_nil]
  generalize List.foldl _ _ pre = names
  split
  · rename_i m other spec type
    split
    · rename_i halias
      simp only [List.mem_append, List.mem_singleton]
      refine or_congr_right ⟨?_, ?_⟩
      · rintro rfl
        exact ⟨m, spec, type, rfl, halias⟩
      · rintro ⟨_, _, _, heq, -⟩
        injection heq with _ heq _
        injection heq with heq _
        exact (Option.some.inj heq).symm
    · rename_i halias
      refine ⟨.inl, fun h => h.elim id ?_⟩
      rintro ⟨_, _, _, heq, h⟩
      injection heq with _ _ heq
      injection heq with heq _
      exact (halias (heq ▸ h)).elim
  · rename_i hne
    refine ⟨.inl, fun h => h.elim id ?_⟩
    rintro ⟨m, spec, type, rfl, -⟩
    exact (hne _ _ _ _ rfl).elim

theorem namesOf_subset_append (pre post : List Node) (struct : Node) :
    namesOf pre struct ⊆ namesOf (pre ++ post) struct := by
  induction post using List.reverseRecOn with
  | nil => rw [List.append_nil]; exact List.Subset.refl _
  | append_singleton post d ih =>
    intro name hname
    rw [← List.append_assoc]
    exact mem_namesOf_concat.mpr (.inl (ih hname))

theorem tag_mem_namesOf {tag : String} (h : struct.name? = some tag) (aliases : List Node) :
    "struct " ++ tag ∈ namesOf aliases struct := by
  refine namesOf_subset_append [] aliases struct ?_
  simp [namesOf, h]

/-- Only names of the struct are found. -/
theorem isName_of_mem_namesOf (hsub : ∀ d ∈ aliases, d ∈ plainAliases root)
    (h : name ∈ namesOf aliases struct) : IsName root struct name := by
  induction aliases using List.reverseRecOn generalizing name with
  | nil =>
    unfold namesOf at h
    split at h
    · rename_i tag htag
      rw [List.foldl_nil, List.mem_singleton] at h
      exact h ▸ .tag htag
    · cases h
  | append_singleton aliases d ih =>
    have ih : ∀ {name}, name ∈ namesOf aliases struct → IsName root struct name :=
      ih fun d hd => hsub d (List.mem_append_left _ hd)
    rcases mem_namesOf_concat.mp h with h | ⟨m, spec, type, rfl, halias⟩
    · exact ih h
    · obtain ⟨hm, hplain⟩ := mem_plainAliases.mp
        (hsub _ (List.mem_append_right _ (List.mem_singleton_self _)))
      rcases Bool.or_eq_true_iff.mp halias with hsame | hknown
      · exact .ofStruct hm hplain hsame
      · cases hbase : type.typeName? with
        | none =>
          rw [hbase] at hknown
          cases hknown
        | some known =>
          rw [hbase] at hknown
          exact .ofName hm hplain hbase (ih (by simpa using hknown))

/-- An alias that comes after those it uses adds its name. -/
theorem mem_namesOf_of_alias {m : Mark} {spec : Specifiers}
    (h : isAliasOf struct (namesOf pre struct) type) :
    name ∈ namesOf (pre ++ .mk m (.typedef (some name) spec) [type] :: post) struct := by
  rw [← List.singleton_append, ← List.append_assoc]
  exact namesOf_subset_append _ _ _ (mem_namesOf_concat.mpr (.inr ⟨m, spec, type, rfl, h⟩))

/-- All names of the struct are found: a name is there from the beginning, or from its alias on. -/
theorem mem_namesOf_of_isName (hb : root.DeclaresBeforeUse) (h : IsName root struct name) :
    (∀ aliases, name ∈ namesOf aliases struct) ∨
      ∃ d ∈ plainAliases root, d.name? = some name ∧
        ∀ pre post, plainAliases root = pre ++ post → d ∈ pre → name ∈ namesOf pre struct := by
  induction h with
  | tag htag => exact .inl fun aliases => tag_mem_namesOf htag aliases
  | ofStruct hm hplain hbase =>
    refine .inr ⟨_, mem_plainAliases.mpr ⟨hm, hplain⟩, rfl, fun pre post _ hd => ?_⟩
    obtain ⟨pre, mid, rfl⟩ := List.append_of_mem hd
    exact mem_namesOf_of_alias (by simp [isAliasOf, hbase])
  | @ofName m name known spec type hm hplain hbase hknown ih =>
    refine .inr ⟨_, mem_plainAliases.mpr ⟨hm, hplain⟩, rfl, fun pre post heq hd => ?_⟩
    obtain ⟨pre, mid, rfl⟩ := List.append_of_mem hd
    refine mem_namesOf_of_alias ?_
    suffices hmem : known ∈ namesOf pre struct by simp [isAliasOf, hbase, hmem]
    rcases ih with ih | ⟨e, he, hename, ih⟩
    · exact ih pre
    · -- the alias of the known name was declared before
      refine ih pre _ (by rw [heq, List.append_assoc]) ?_
      obtain ⟨he, hep⟩ := List.mem_filter.mp he
      rw [List.append_assoc, List.cons_append, plainAliases] at heq
      obtain ⟨earlier, rest, hall, rfl, hrest⟩ := List.filter_eq_append_iff.mp heq
      obtain ⟨skipped, later, rfl, hskipped, -⟩ := List.filter_eq_cons_iff.mp hrest
      rw [← List.append_assoc] at hall
      have hmem := hb _ _ _ hall e he (by rw [hename]; rfl) (hename.trans hbase.symm)
      rcases List.mem_append.mp hmem with hmem | hmem
      · exact List.mem_filter.mpr ⟨hmem, hep⟩
      · exact (hskipped e hmem hep).elim

/-- **One pass finds the names of a struct**, if aliases are declared before others use them. -/
theorem mem_namesOf_iff (hb : root.DeclaresBeforeUse) :
    name ∈ namesOf (plainAliases root) struct ↔ IsName root struct name := by
  refine ⟨isName_of_mem_namesOf fun d hd => hd, fun h => ?_⟩
  rcases mem_namesOf_of_isName hb h with h | ⟨d, hd, -, h⟩
  · exact h _
  · exact h _ [] (List.append_nil _).symm hd

/-! ### Collecting -/

/-- The names of some aggregates: each has those of its struct, and no two have one in common. -/
structure Named (root : Node) (claimed : List String) (as : List Aggregate) : Prop where
  struct : ∀ a ∈ as, a.struct ∈ definitions root
  names : ∀ a ∈ as, a.names = namesOf (plainAliases root) a.struct ∧ a.names ≠ []
  free : ∀ a ∈ as, ∀ name ∈ a.names, name ∉ claimed
  disjoint : as.Pairwise fun a b => ∀ name ∈ a.names, name ∉ b.names

namespace Named

variable {a b : Aggregate} {as : List Aggregate} {claimed : List String}

theorem nil : Named root claimed [] := ⟨nofun, nofun, nofun, .nil⟩

theorem cons (ha : a.struct ∈ definitions root)
    (hn : a.names = namesOf (plainAliases root) a.struct ∧ a.names ≠ [])
    (hfree : ∀ name ∈ a.names, name ∉ claimed) (h : Named root (claimed ++ a.names) as) :
    Named root claimed (a :: as) where
  struct := List.forall_mem_cons.mpr ⟨ha, h.struct⟩
  names := List.forall_mem_cons.mpr ⟨hn, h.names⟩
  free := List.forall_mem_cons.mpr ⟨hfree, fun b hb name hname hc =>
    h.free b hb name hname (List.mem_append_left _ hc)⟩
  disjoint := List.pairwise_cons.mpr ⟨fun b hb name hname hname' =>
    h.free b hb name hname' (List.mem_append_right _ hname), h.disjoint⟩

theorem mono {claimed' : List String} (h : Named root claimed' as) (hs : claimed ⊆ claimed') :
    Named root claimed as :=
  { h with free := fun a ha name hname hc => h.free a ha name hname (hs hc) }

/-- Two aggregates with a common name are one. -/
theorem eq_of_mem (h : Named root claimed as) (ha : a ∈ as) (hb : b ∈ as) (hna : name ∈ a.names)
    (hnb : name ∈ b.names) : a = b := by
  by_contra hne
  have : Std.Symm fun a b : Aggregate => ∀ name ∈ a.names, name ∉ b.names :=
    ⟨fun _ _ h name hb ha => h name ha hb⟩
  exact h.disjoint.forall ha hb hne name hna hnb

/-- Two aggregates with one struct are one. -/
theorem eq_of_struct (h : Named root claimed as) (ha : a ∈ as) (hb : b ∈ as)
    (hs : a.struct = b.struct) : a = b := by
  obtain ⟨hna, hne⟩ := h.names a ha
  obtain ⟨name, hname⟩ := List.exists_mem_of_ne_nil _ hne
  refine h.eq_of_mem ha hb hname ?_
  rw [(h.names b hb).1, ← hs, ← hna]
  exact hname

end Named

open Report

/-- A struct of a program has a member that is no declaration, and so no name. -/
def IsNameless (root : Node) (f : Failure) : Prop :=
  f = .noName ∧ ∃ struct ∈ definitions root, ∃ n ∈ struct.items, n.isA .decl = false

variable {F : Failure → Prop}

theorem ensures_namedStructs (aliases structs : List Node) :
    Ensures F (namedStructs aliases structs) fun found =>
      ∀ p ∈ found, p.1 ∈ structs ∧ p.2 = namesOf aliases p.1 ∧ p.2 ≠ [] := by
  induction structs with
  | nil => exact ensures_pure (by simp)
  | cons struct rest ih =>
    unfold namedStructs
    split
    · refine (ensures_note _ _).bind fun _ _ => ih.mono fun found h p hp => ?_
      exact ⟨List.mem_cons_of_mem _ (h p hp).1, (h p hp).2⟩
    · rename_i hne
      refine ih.bind fun found h => ensures_pure fun p hp => ?_
      rcases List.mem_cons.mp hp with rfl | hp
      · exact ⟨List.mem_cons_self, rfl, hne⟩
      · exact ⟨List.mem_cons_of_mem _ (h p hp).1, (h p hp).2⟩

theorem ensures_ofStructs {structs : List (Node × List String)} (known claimed : List String)
    (hs : ∀ p ∈ structs, p.1 ∈ definitions root ∧ p.2 = namesOf (plainAliases root) p.1 ∧ p.2 ≠ []) :
    Ensures (IsNameless root) (ofStructs known claimed structs) (Named root claimed) := by
  induction structs generalizing claimed with
  | nil => exact ensures_pure .nil
  | cons p rest ih =>
    obtain ⟨struct, names⟩ := p
    obtain ⟨hstruct, hnames, hne⟩ := hs _ List.mem_cons_self
    have ih := fun claimed => ih claimed fun p hp => hs p (List.mem_cons_of_mem _ hp)
    unfold ofStructs
    dsimp only
    split
    · exact (ensures_note _ _).bind fun _ _ => ih claimed
    · rename_i hfree
      refine (ensures_of (fun _ _ => trivial) fun f hf => ?_).bind fun found (_ : True) => ?_
      · obtain ⟨rfl, hmember⟩ := structFields_eq_error hf
        exact ⟨rfl, struct, hstruct, hmember⟩
      split
      · exact (ensures_note _ _).bind fun _ _ =>
          (ih _).mono fun _ h => h.mono (List.subset_append_left _ _)
      · refine (ensures_note _ _).bind fun _ _ => (ih _).bind fun as h => ensures_pure ?_
        refine .cons hstruct ⟨hnames, hne⟩ (fun name hname hc => hfree ?_) h
        exact List.any_eq_true.mpr ⟨name, hname, by simpa using hc⟩

/-- **Collecting gives structs with their names**, and no two of them have a name in common. It
fails only for a struct with a member that is no declaration. -/
theorem ensures_collect (root : Node) :
    Ensures (IsNameless root) (collect root) (Named root []) := by
  unfold collect
  exact (ensures_namedStructs _ _).bind fun found h => ensures_ofStructs _ _ h

end Aggregate

end Fieldwise
