import Fieldwise.Proofs.Session.Outcome
import Fieldwise.Proofs.Session.Stepwise
import Fieldwise.Proofs.Session.Tags

/-!
# Generated names

Two kinds of names are generated. A tag and the name of a holder, which is the variable for a field
of an object that a pointer is set to point to, are asked for and given out, so they are new
(`Names.Gives`). The name of a field variable is put together from the names of the binding and of
the field, and nobody asks whether it is free.

So a holder is named like nothing in the program and like no other holder of a whole run, a tag
that is given out is like none of them (`Session.generated_names`), and two field variables have the
same name if their parts say so (`Binding.fieldName_eq_iff`).
-/

namespace Fieldwise

open Node

/-! ### Names that are put together -/

namespace Binding

variable {b c : Binding} {f g : Field}

/-- The name of one variable goes on where that of another one ends, with the name of its field. -/
def Extends (b c : Binding) (f g : Field) : Prop :=
  ∃ rest, c.name = b.name ++ "_" ++ rest ∧ f.name = rest ++ "_" ++ g.name

/-- What the longer of two names has after the shorter one is empty, or a part of the field's name
between two underscores. -/
theorem eq_or_extends {rest : List Char} (hname : c.name.toList = b.name.toList ++ rest)
    (hfield : "_".toList ++ f.name.toList = rest ++ ("_".toList ++ g.name.toList)) :
    (b.name = c.name ∧ f.name = g.name) ∨ b.Extends c f g := by
  cases rest with
  | nil =>
    left
    exact ⟨String.ext (by simpa using hname.symm), String.ext (by simpa using hfield)⟩
  | cons char rest =>
    right
    obtain ⟨rfl, hf⟩ : '_' = char ∧ f.name.toList = rest ++ '_' :: g.name.toList := by
      simpa using hfield
    exact ⟨String.ofList rest, String.ext (by simp [hname]), String.ext (by simp [hf])⟩

/-- **When two field variables have one name**: they are for the same field of variables of the same
name, or the name of one variable extends that of the other one by a part of the field's name. -/
theorem fieldName_eq_iff : b.fieldName f = c.fieldName g ↔
    (b.name = c.name ∧ f.name = g.name) ∨ b.Extends c f g ∨ c.Extends b g f := by
  unfold fieldName
  constructor
  · intro h
    have hlist := congrArg String.toList h
    simp only [String.toList_append, List.append_assoc] at hlist
    rcases List.append_eq_append_iff.mp hlist with ⟨rest, hc, hf⟩ | ⟨rest, hb, hg⟩
    · rcases eq_or_extends hc hf with heq | hext
      · exact .inl heq
      · exact .inr (.inl hext)
    · rcases eq_or_extends hb hg with heq | hext
      · exact .inl ⟨heq.1.symm, heq.2.symm⟩
      · exact .inr (.inr hext)
  · rintro (⟨hb, hf⟩ | ⟨rest, hc, hf⟩ | ⟨rest, hb, hg⟩)
    · rw [hb, hf]
    · rw [hc, hf]
      simp only [String.append_assoc]
    · rw [hb, hg]
      simp only [String.append_assoc]

end Binding

/-! ### Names that are given out -/

namespace Splitting

theorem gives_nameType (s : Splitting) (type : Node) :
    ∃ given, s.names.Gives given (s.nameType type).names := by
  unfold nameType
  split
  · exact ⟨[], .refl _⟩
  · exact ⟨_, .next _ _⟩

theorem gives_splitItems (items : List Node) : ∀ (s : Splitting) (last : Option Node),
    ∃ given, s.names.Gives given (s.splitItems last items).names := by
  induction items with
  | nil => exact fun s _ => ⟨[], .refl _⟩
  | cons decl rest ih =>
    intro s last
    unfold splitItems
    cases decl.definedType? with
    | none => exact ih s none
    | some type =>
      dsimp only
      have hname : ∃ given, s.names.Gives given
          (if type.isA .structType then s.nameType type else s).names := by
        split
        · exact s.gives_nameType type
        · exact ⟨[], .refl _⟩
      generalize (if type.isA .structType then s.nameType type else s) = s' at hname ⊢
      obtain ⟨given, hgiven⟩ := hname
      split
      · obtain ⟨tag, htag⟩ := s'.gives_nameType type
        obtain ⟨more, hmore⟩ := ih ((s'.nameType type).refer decl type) last
        exact ⟨_, (hgiven.trans htag).trans hmore⟩
      · obtain ⟨more, hmore⟩ := ih s' (some type)
        exact ⟨_, hgiven.trans hmore⟩

/-- Only names that are free are given out when shared definitions are split. -/
theorem gives_run (s : Splitting) : ∃ given, s.names.Gives given s.run.names := by
  suffices h : ∀ (lists : List (List Node)) (s : Splitting), ∃ given,
      s.names.Gives given (lists.foldl (fun s items => s.splitItems none items) s).names from
    h _ s
  intro lists
  induction lists with
  | nil => exact fun s => ⟨[], .refl _⟩
  | cons items lists ih =>
    intro s
    obtain ⟨given, hgiven⟩ := gives_splitItems items s none
    obtain ⟨more, hmore⟩ := ih (s.splitItems none items)
    exact ⟨_, hgiven.trans hmore⟩

end Splitting

theorem Engine.Grows.findBindings (a : Aggregate) : Grows (Engine.findBindings a) :=
  (report fun _ => .bindings _ _).bind fun _ => (note _ _).bind fun _ => pure _

namespace Session

variable {s t u : Session} {b c : Binding} {decls : List Node} {x : Expansion}
  {values : List (Nat × Node)}

/-- The declarations bear different names, which have been given out since `s`. -/
structure Introduces (s t : Session) (decls : List Node) : Prop where
  nodup : (decls.map Node.name?).Nodup
  given : ∃ given, s.names.Gives given t.names ∧ ∀ d ∈ decls, ∃ name ∈ given, d.name? = some name

namespace Introduces

theorem nil (h : s.Grows t) : s.Introduces t [] := by
  obtain ⟨given, hg⟩ := h.gives
  exact ⟨.nil, given, hg, fun _ hd => by cases hd⟩

theorem before (h : s.Grows t) (h' : t.Introduces u decls) : s.Introduces u decls := by
  obtain ⟨given, hg⟩ := h.gives
  obtain ⟨hn, given', hg', hd⟩ := h'
  refine ⟨hn, _, hg.trans hg', fun d hm => ?_⟩
  obtain ⟨name, hname, hd⟩ := hd d hm
  exact ⟨name, List.mem_append_left _ hname, hd⟩

theorem after (h : s.Introduces t decls) (h' : t.Grows u) : s.Introduces u decls := by
  obtain ⟨hn, given, hg, hd⟩ := h
  obtain ⟨given', hg'⟩ := h'.gives
  refine ⟨hn, _, hg.trans hg', fun d hm => ?_⟩
  obtain ⟨name, hname, hd⟩ := hd d hm
  exact ⟨name, List.mem_append_right _ hname, hd⟩

/-- A declaration with the name that has been given out first. -/
theorem cons {d : Node} {name : String} (hd : d.name? = some name)
    (hs : s.names.Gives [name] t.names) (h : t.Introduces u decls) :
    s.Introduces u (d :: decls) := by
  obtain ⟨hn, given, hg, hdecls⟩ := h
  refine ⟨List.nodup_cons.mpr ⟨fun hm => ?_, hn⟩, _, hs.trans hg,
    List.forall_mem_cons.mpr ⟨⟨name, by simp, hd⟩, fun d' hd' => ?_⟩⟩
  · obtain ⟨d', hd', he⟩ := List.mem_map.mp hm
    obtain ⟨name', hname', hname⟩ := hdecls d' hd'
    obtain rfl : name' = name := Option.some.inj (hname.symm.trans (he.trans hd))
    exact hg.fresh _ hname' (hs.taken ▸ List.mem_cons_self)
  · obtain ⟨name', hname', hname⟩ := hdecls d' hd'
    exact ⟨name', List.mem_append_left _ hname', hname⟩

end Introduces

theorem run_freshName (s : Session) (base : String) : s.run (Engine.freshName base) =
    (.ok (s.names.get base).1, { s with names := (s.names.get base).2 }) := rfl

/-- The names of holders are given out. -/
theorem introduces_holders {r : List Node × List Node} (fields : List Field) :
    ∀ (s : Session) (i : Nat) (decls : List Node),
      s.run (Engine.holders b values i fields decls) = (.ok r, t) → s.Introduces t r.1 := by
  induction fields generalizing r t with
  | nil =>
    intro s i decls h
    obtain ⟨rfl, rfl⟩ : _ = r ∧ s = t := by simpa [Engine.holders] using h
    exact .nil (.refl s)
  | cons f fs ih =>
    intro s i decls h
    cases decls with
    | nil =>
      obtain ⟨rfl, rfl⟩ : _ = r ∧ s = t := by simpa [Engine.holders] using h
      exact .nil (.refl s)
    | cons decl decls =>
      unfold Engine.holders at h
      split at h
      · obtain ⟨name, v, hname, h⟩ := run_bind_eq_ok.mp h
        obtain ⟨rest, w, hrest, h⟩ := run_bind_eq_ok.mp h
        obtain ⟨rfl, rfl⟩ : _ = r ∧ w = t := by simpa using h
        rw [run_freshName] at hname
        cases hname
        exact (ih _ _ _ hrest).cons rfl (.get s.names _)
      · obtain ⟨rest, w, hrest, h⟩ := run_bind_eq_ok.mp h
        obtain ⟨rfl, rfl⟩ : _ = r ∧ w = t := by simpa using h
        exact ih (r := rest) s _ _ hrest

/-- What stands before the field variables bears names that are given out. -/
theorem introduces_initialValues (h : s.run (Engine.initialValues b decls) = (.ok x, t)) :
    s.Introduces t x.before := by
  have hgrows := (Engine.Grows.initialValues b decls).of_run h
  unfold Engine.initialValues at h
  split at h
  · obtain ⟨plan, u, hplan, h⟩ := run_bind_eq_ok.mp h
    have hp := (Engine.Grows.report fun s => .plan? s b).of_run hplan
    cases plan with
    | none =>
      obtain ⟨_, v, -, h⟩ := run_bind_eq_ok.mp h
      obtain ⟨rfl, rfl⟩ : _ = x ∧ v = t := by simpa using h
      exact .nil hgrows
    | some plan =>
      obtain ⟨_, v, hnote, h⟩ := run_bind_eq_ok.mp h
      have hn := (Engine.Grows.note _ _).of_run hnote
      cases plan with
      | pointerList values =>
        obtain ⟨r, w, hr, h⟩ := run_bind_eq_ok.mp h
        obtain ⟨rfl, rfl⟩ : _ = x ∧ w = t := by simpa using h
        exact (introduces_holders _ _ _ _ hr).before (hp.trans hn)
      | directList | heapAllocation =>
        obtain ⟨rfl, rfl⟩ : _ = x ∧ v = t := by simpa [Engine.applyPlan] using h
        exact .nil hgrows
      | aggregateCopy source =>
        obtain ⟨r, w, -, h⟩ := run_bind_eq_ok.mp h
        obtain ⟨rfl, rfl⟩ : _ = x ∧ w = t := by simpa using h
        exact .nil hgrows
      | arrayOfAggregates elements =>
        unfold Engine.applyPlan at h
        dsimp only at h
        split at h
        · obtain ⟨_, w, -, h⟩ := run_bind_eq_ok.mp h
          obtain ⟨rfl, rfl⟩ : _ = x ∧ w = t := by simpa using h
          exact .nil hgrows
        · obtain ⟨after, w, -, h⟩ := run_bind_eq_ok.mp h
          obtain ⟨rfl, rfl⟩ : _ = x ∧ w = t := by simpa using h
          exact .nil hgrows
  · obtain ⟨rfl, rfl⟩ : _ = x ∧ s = t := by simpa using h
    exact .nil hgrows

/-! ### Over a whole run -/

/-- The sessions that decompositions of bindings lead to. -/
inductive Leads (s : Session) : Session → Prop where
  | refl : Leads s s
  | find {t u : Session} {a : Aggregate} {bs : List Binding} : Leads s t →
    t.run (Engine.findBindings a) = (.ok bs, u) → Leads s u
  | decompose {t u : Session} {b : Binding} : Leads s t →
    t.run (Engine.decomposeBinding b) = (.ok (), u) → Leads s u

theorem Leads.grows (h : s.Leads t) : s.Grows t := by
  induction h with
  | refl => exact .refl s
  | find _ hr ih => exact ih.trans ((Engine.Grows.findBindings _).of_run hr)
  | decompose _ hr ih => exact ih.trans ((Engine.Grows.decomposeBinding _).of_run hr)

/-- What the declaration of a variable gives way to has been given its names before the next one. -/
theorem introduces_expand {b' : Binding} (h : s.run (Engine.expand b) = (.ok (b', x), t)) :
    s.Introduces t x.before := by
  unfold Engine.expand at h
  obtain ⟨b₁, t₁, h₁, h⟩ := run_bind_eq_ok.mp h
  obtain ⟨decls, t₂, h₂, h⟩ := run_bind_eq_ok.mp h
  obtain ⟨x', t₃, h₃, h⟩ := run_bind_eq_ok.mp h
  obtain ⟨⟨rfl, rfl⟩, rfl⟩ : (b₁ = b' ∧ x' = x) ∧ t₃ = t := by simpa using h
  exact (introduces_initialValues h₃).before
    (((Engine.Grows.refresh _).of_run h₁).trans ((Engine.Grows.synthesize _).of_run h₂))

/-- The names of holders stay taken when a variable has been decomposed. -/
theorem introduces_decomposeBinding {b' : Binding} {v : Session} (hp : b.isParam = false)
    (hx : s.run (Engine.expand b) = (.ok (b', x), u))
    (h : s.run (Engine.decomposeBinding b) = (.ok (), v)) : s.Introduces v x.before := by
  unfold Engine.decomposeBinding at h
  rw [if_neg (by simp [hp]), Engine.decomposeVariable_eq, Engine.declareVariable_eq] at h
  obtain ⟨c, w, h, hrest⟩ := run_bind_eq_ok.mp h
  obtain ⟨r, u', hx', h⟩ := run_bind_eq_ok.mp h
  obtain ⟨hr, rfl⟩ := Prod.mk.inj (hx.symm.trans hx')
  obtain rfl := Except.ok.inj hr
  have hafter : u.Grows v := by
    refine Session.Grows.trans ?_ (((Engine.Grows.rewrite c).bind fun _ =>
      (Engine.Grows.refresh c).bind fun _ => Engine.Grows.removeDeclaration _).of_run hrest)
    exact ((Engine.Grows.edit _).bind fun _ => (Engine.Grows.edit _).bind fun _ =>
      (Engine.Grows.record _).bind fun _ => .pure _).of_run h
  exact (introduces_expand hx).after hafter

variable {root : Node} {options : Options}

theorem identifiers_subset_start :
    root.identifiers ⊆ (Session.start root options none).names.taken := by
  intro name hname
  rw [names_start]
  obtain ⟨given, h⟩ := Splitting.gives_run
    { document := Document.ofRoot root, names := { taken := sortedSet root.identifiers } }
  exact h.subset (mem_sortedSet.mpr hname)

/-- **Names that are asked for are new, and others may clash.** The holders that a decomposition
needs are named differently, not like anything in the program, and not like those of a later
decomposition. A tag that a struct is given is no name of the program, nor that of a holder or of
another type. Field variables have one name if their parts say so. -/
theorem generated_names {v w : Session} {b' c' : Binding} {y : Expansion}
    (hs : (Session.start root options none).Leads s) (hp : b.isParam = false)
    (hx : s.run (Engine.expand b) = (.ok (b', x), u))
    (hv : s.run (Engine.decomposeBinding b) = (.ok (), v)) (ht : v.Leads t)
    (hy : t.run (Engine.expand c) = (.ok (c', y), w)) :
    (x.before.map Node.name?).Nodup ∧
    (∀ d ∈ x.before, ∃ name, d.name? = some name ∧ name ∉ root.identifiers ∧
      ∀ e ∈ y.before, e.name? ≠ some name) ∧
    (root.IsSource → ∀ n T tag, n.IsItemOf (Document.ofRoot root).root → n.DeclaresStruct T →
      T.name? = none → (Session.start root options none).document.IsBasedOn n tag →
      tag ∉ root.identifiers ∧ (∀ d ∈ x.before, d.name? ≠ some tag) ∧
      ∀ m U, m.IsItemOf (Document.ofRoot root).root → m.DeclaresStruct U → U.name? = none →
        (Session.start root options none).document.IsBasedOn m tag → T.same U) ∧
    ∀ f g : Field, b.fieldName f = c.fieldName g ↔
      (b.name = c.name ∧ f.name = g.name) ∨ b.Extends c f g ∨ c.Extends b g f := by
  obtain ⟨hnodup, given, hgiven, hnames⟩ := introduces_decomposeBinding hp hx hv
  obtain ⟨-, given', hgiven', hnames'⟩ := introduces_expand hy
  obtain ⟨before, hbefore⟩ := hs.grows.gives
  obtain ⟨between, hbetween⟩ := ht.grows.gives
  refine ⟨hnodup, fun d hd => ?_, fun hroot n T tag hn hT hnone hbase => ?_,
    fun f g => Binding.fieldName_eq_iff⟩
  · obtain ⟨name, hname, hd⟩ := hnames d hd
    refine ⟨name, hd, fun hroot => ?_, fun e he heq => ?_⟩
    · exact hgiven.fresh name hname (hbefore.subset (identifiers_subset_start hroot))
    · obtain ⟨name', hname', he⟩ := hnames' e he
      obtain rfl : name' = name := Option.some.inj (he.symm.trans heq)
      exact hgiven'.fresh _ hname' (hbetween.subset (hgiven.taken ▸ List.mem_append_left _ hname))
  · obtain ⟨hnew, htaken, hother⟩ := start_gives_tag options hroot hn hT hnone hbase
    refine ⟨hnew, fun d hd heq => ?_, hother⟩
    obtain ⟨name, hname, hd⟩ := hnames d hd
    obtain rfl : name = tag := Option.some.inj (hd.symm.trans heq)
    exact hgiven.fresh name hname (hbefore.subset htaken)

/-- Two pointers of one name to objects without names, where the name for a holder is taken. -/
def twoLiterals : String :=
  "struct S \x7bint a;\x7d; int p_a_init; " ++
    "void f(void) \x7b struct S *p = &(struct S)\x7b1\x7d; \x7d " ++
    "void g(void) \x7b struct S *p = &(struct S)\x7b2\x7d; \x7d"

/-- A program and the first two bindings of its first aggregate. -/
def firstTwo? (source : String) : Option (Node × Binding × Binding) := do
  let program ← (parse source).toOption
  let s := Session.start program {} none
  let a ← s.aggregates.head?
  let bs ← (s.run (Engine.findBindings a)).1.toOption
  return (program, ← bs[0]?, ← bs[1]?)

theorem generated_names_twoLiterals : ∃ (root : Node) (b c b' c' : Binding) (x y : Expansion)
    (u v w : Session), firstTwo? twoLiterals = some (root, b, c) ∧
      (Session.start root {} none).run (Engine.expand b) = (.ok (b', x), u) ∧
      (Session.start root {} none).run (Engine.decomposeBinding b) = (.ok (), v) ∧
      v.run (Engine.expand c) = (.ok (c', y), w) ∧ "p_a_init" ∈ root.identifiers ∧
      b.name = c.name ∧ ∃ d e, x.before = [d] ∧ y.before = [e] ∧
        d.name? ≠ some "p_a_init" ∧ d.name? ≠ e.name? := by
  have h : (firstTwo? twoLiterals).any (fun (root, b, c) =>
      root.identifiers.contains "p_a_init" && b.name == c.name && !b.isParam &&
      ((Session.start root {} none).run (Engine.expand b)).1.toOption.any
        (·.2.before.length == 1) &&
      ((Session.start root {} none).run (Engine.decomposeBinding b)).1.toOption.any
        (fun _ => true) &&
      (((Session.start root {} none).run (Engine.decomposeBinding b)).2.run
        (Engine.expand c)).1.toOption.any (·.2.before.length == 1)) = true := by decide +kernel
  obtain ⟨⟨root, b, c⟩, htwo, h⟩ := (Option.any_eq_true _ _).mp h
  simp only [Bool.and_eq_true, List.contains_iff_mem, beq_iff_eq, Bool.not_eq_true'] at h
  obtain ⟨⟨⟨⟨⟨hident, hbc⟩, hp⟩, hx⟩, hv⟩, hy⟩ := h
  obtain ⟨⟨b', x⟩, u, hx, hxlen⟩ := exists_run_eq_ok hx
  obtain ⟨_, v, hv, -⟩ := exists_run_eq_ok hv
  rw [hv] at hy
  obtain ⟨⟨c', y⟩, w, hy, hylen⟩ := exists_run_eq_ok hy
  obtain ⟨d, hd⟩ := List.length_eq_one_iff.mp (beq_iff_eq.mp hxlen)
  obtain ⟨e, he⟩ := List.length_eq_one_iff.mp (beq_iff_eq.mp hylen)
  dsimp only at hd he
  obtain ⟨-, hnames, -⟩ := generated_names .refl hp hx hv .refl hy
  obtain ⟨name, hname, hfree, hother⟩ := hnames d (hd ▸ List.mem_cons_self)
  refine ⟨root, b, c, b', c', x, y, u, v, w, htwo, hx, hv, hy, hident, hbc, d, e, hd, he,
    fun hclash => ?_, fun hsame => ?_⟩
  · obtain rfl : name = "p_a_init" := Option.some.inj (hname.symm.trans hclash)
    exact hfree hident
  · exact hother e (he ▸ List.mem_cons_self) (hsame.symm.trans hname)

/-- A union with the name that a struct is tagged with, and a variable with the name of a field
variable. -/
def clashing : String :=
  "union _anonymous_0 \x7bint i;\x7d; struct \x7bint a;\x7d x; int x_a;"

/-- Two types have one tag in the end, and two variables have one name. -/
theorem decomposeAll_clashes : ∃ s t, finished clashing = some (s, t) ∧
    (∃ n ∈ t.document.root.preorder, n.form? = some (.unionType (some "_anonymous_0") true)) ∧
    (∃ n ∈ t.document.root.preorder, n.form? = some (.structType (some "_anonymous_0") true)) ∧
    ((t.document.root.ofClass .decl).filter (·.name? == some "x_a")).length = 2 := by
  obtain ⟨s, t, hst, h⟩ := exists_finished clashing (fun _ t =>
    t.document.root.preorder.any (·.form? == some (.unionType (some "_anonymous_0") true)) &&
    t.document.root.preorder.any (·.form? == some (.structType (some "_anonymous_0") true)) &&
    ((t.document.root.ofClass .decl).filter (·.name? == some "x_a")).length == 2)
    (by decide +kernel)
  simp only [Bool.and_eq_true, List.any_eq_true, beq_iff_eq] at h
  exact ⟨s, t, hst, h.1.1, h.1.2, h.2⟩

end Session

end Fieldwise
