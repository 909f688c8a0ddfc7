import Fieldwise.Proofs.Aggregate.Naming
import Fieldwise.Proofs.Document.Plain
import Fieldwise.Proofs.Session.Deferring
import Fieldwise.Proofs.Session.Growing
import Fieldwise.Proofs.Session.Reachable
import Fieldwise.Proofs.Session.Tags
import Mathlib.Data.List.Find

/-!
# Which aggregate a type is based on

A declared type is based on one aggregate at most, whether it is found by the struct or by a name
(`Session.Collected.eq_of_isBaseOf`), and the type of a field is based on none. This is so from the
start on, whatever is decomposed, since the aggregates and the forms of the nodes stay as they are
(`Session.start_aggregates`).
-/

namespace Fieldwise

open Node Relation

/-- The base of a type is a node of a document, or of none yet. -/
def Document.HasBase (d : Document) (type : Node) : Prop :=
  type.baseType ∈ preorderAll d.trees ∨ type.baseType.key = none

theorem Node.baseName?_of_struct {x : Node} {tag : Option String} {complete : Bool}
    (h : x.form? = some (.structType tag complete)) : x.baseName? = tag.map ("struct " ++ ·) := by
  cases x with
  | absent => cases h
  | mk m f ps =>
    obtain rfl := Option.some.inj h
    cases tag <;> rfl

theorem Aggregate.form?_of_mem_definitions {root x : Node} (h : x ∈ definitions root) :
    ∃ tag, x.form? = some (.structType tag true) := by
  have hx := (List.mem_filter.mp h).2
  split at hx
  · rename_i tag complete hform
    exact ⟨tag, hx ▸ hform⟩
  · cases hx

namespace Session

variable {s t : Session} {a b : Aggregate} {root program type : Node} {options : Options}
  {taken : Option (List String)} {source : String}

/-- An aggregate was decomposed in between. -/
def DecomposesTo (s t : Session) : Prop :=
  ∃ a names, s.run (Engine.decompose a) = (.ok names, t)

/-! ### The aggregates of a session -/

/-- What holds of all that can be collected holds of the aggregates at the start. -/
theorem aggregates_start {F : Failure → Prop} {P : List Aggregate → Prop} (hnil : P [])
    (h : Report.Ensures F
      (Aggregate.collect (Session.start root options taken).document.root) P) :
    P (Session.start root options taken).aggregates := by
  rw [document_start] at h
  obtain ⟨aggregates, log, hs, rfl | hrun⟩ := start_spec root options taken
  · rw [hs]
    exact hnil
  · obtain ⟨log', ⟨as, has, hrun'⟩ | ⟨f, -, hrun'⟩⟩ := h []
    · cases hrun.symm.trans hrun'
      rw [hs]
      exact has
    · cases hrun.symm.trans hrun'

/-- The aggregates of a session were collected from a document that the session went on from. -/
structure Collected (d : Document) (s : Session) : Prop where
  tidy : d.Tidy
  named : Aggregate.Named d.root [] s.aggregates
  fields : ∃ known, ∀ a ∈ s.aggregates, a.IsOf known d.root
  forms : ∀ x ∈ preorderAll s.document.trees, IsOld d.next x → ∃ y ∈ preorderAll d.trees,
    y.key = x.key ∧ y.form? = x.form?

namespace Collected

variable {d : Document}

theorem struct_mem (h : Collected d s) (ha : a ∈ s.aggregates) :
    a.struct ∈ preorderAll d.trees :=
  Document.mem_trees_of_root (List.mem_filter.mp (h.named.struct a ha)).1

/-- The struct of an aggregate is not changed, so what is the same node is still a struct of its
tag, and that is a name of the aggregate. -/
theorem mem_names_of_same (h : Collected d s) (ha : a ∈ s.aggregates)
    (hbase : s.document.HasBase type) (hsame : type.baseType.same a.struct) {name : String}
    (hname : type.typeName? = some name) : name ∈ a.names := by
  obtain ⟨hsome, hkey⟩ : type.baseType.key.isSome ∧ type.baseType.key = a.struct.key := by
    simpa [same] using hsame
  have hbase : type.baseType ∈ preorderAll s.document.trees :=
    hbase.resolve_right fun hnone => by rw [hnone] at hsome; cases hsome
  have hold := h.tidy.bound _ (h.struct_mem ha)
  obtain ⟨y, hy, hyk, hform⟩ := h.forms _ hbase (isOld_of_key hold hkey.symm)
  rw [h.tidy.eq_of_key hy (h.struct_mem ha) (hyk.trans hkey)] at hform
  obtain ⟨tag, htag⟩ := Aggregate.form?_of_mem_definitions (h.named.struct a ha)
  rw [typeName?, baseName?_of_struct (hform.symm.trans htag)] at hname
  obtain ⟨tag, rfl, rfl⟩ := Option.map_eq_some_iff.mp hname
  rw [(h.named.names a ha).1]
  exact Aggregate.tag_mem_namesOf (name?_of_struct htag) _

/-- How a type is based on an aggregate: by its name, if it has one, and else by the struct. -/
theorem of_isBaseOf (h : Collected d s) (ha : a ∈ s.aggregates)
    (hbase : s.document.HasBase type) (hat : a.isBaseOf type) :
    match type.typeName? with
    | some name => name ∈ a.names
    | none => type.baseType.same a.struct := by
  rcases Bool.or_eq_true_iff.mp hat with hsame | hname
  · split
    · rename_i name hname
      exact h.mem_names_of_same ha hbase hsame hname
    · exact hsame
  · split
    · rename_i name heq
      rw [heq] at hname
      simpa using hname
    · rename_i heq
      rw [heq] at hname
      cases hname

/-- **A declared type is based on one aggregate at most.** -/
theorem eq_of_isBaseOf (h : Collected d s) (hbase : s.document.HasBase type)
    (ha : a ∈ s.aggregates) (hb : b ∈ s.aggregates) (hat : a.isBaseOf type)
    (hbt : b.isBaseOf type) : a = b := by
  have hat := h.of_isBaseOf ha hbase hat
  have hbt := h.of_isBaseOf hb hbase hbt
  cases hname : type.typeName? with
  | some name =>
    rw [hname] at hat hbt
    exact h.named.eq_of_mem ha hb hat hbt
  | none =>
    rw [hname] at hat hbt
    refine h.named.eq_of_struct ha hb (h.tidy.eq_of_key (h.struct_mem ha) (h.struct_mem hb) ?_)
    exact (same_iff.mp hat).2.symm.trans (same_iff.mp hbt).2

/-- So it does not matter in which order the aggregates are. -/
theorem aggregateOf?_perm (h : Collected d s) (hbase : s.document.HasBase type)
    {as : List Aggregate} (hp : as.Perm s.aggregates) :
    ({ s with aggregates := as } : Session).aggregateOf? type = s.aggregateOf? type := by
  refine (List.find?_eq_find?_of_perm hp.symm ?_).symm
  exact fun a ⟨ha, hat⟩ b ⟨hb, hbt⟩ => h.eq_of_isBaseOf hbase ha hb hat hbt

/-- **The type of a field is based on no aggregate.** -/
theorem aggregateOf?_field (h : Collected d s) (ha : a ∈ s.aggregates) {f : Field}
    (hf : f ∈ a.fields) (hbase : type.baseType = f.type.baseType) : s.aggregateOf? type = none := by
  obtain ⟨known, hall⟩ := h.fields
  refine List.find?_eq_none.mpr fun b hb hbt => ?_
  obtain ⟨hmember, hno, hforeign⟩ := (hall a ha).fields f hf
  rcases Bool.or_eq_true_iff.mp hbt with hsame | hname
  · -- the base would be the struct of an aggregate
    obtain ⟨hsome, hkey⟩ := same_iff.mp hsame
    rw [hbase] at hsome hkey
    obtain ⟨k, hk⟩ := Option.isSome_iff_exists.mp hsome
    obtain ⟨m, spec, rest, hdecl⟩ := (hall a ha).exists_member hf
    have hp := isPresent_of_key hk
    have htype : f.type ∈ d.root.preorder := mem_preorder_of_part hdecl List.mem_cons_self
      (isPresent_of_preorder (baseType_mem hp))
    have hmem := Document.mem_trees_of_root (mem_preorder_trans (baseType_mem hp) htype)
    rw [h.tidy.eq_of_key hmem (h.struct_mem hb) hkey] at hno
    obtain ⟨tag, htag⟩ := Aggregate.form?_of_mem_definitions (h.named.struct b hb)
    simp [isA, cls?, htag, Form.cls] at hno
  · rw [typeName?, hbase] at hname
    have hmono := any_contains_mono (hall b hb).names hname
    rw [show f.type.baseType.baseName? = f.type.typeName? from rfl, hforeign] at hmono
    cases hmono

end Collected

/-- Decompositions leave the aggregates and the forms of the nodes as they are. -/
theorem Reachable.collected [Discipline] (hd : Discipline.IsLax) {d : Document}
    (h : Reachable s) (hc : Collected d s) (hle : d.next ≤ s.document.next)
    (hst : ReflTransGen DecomposesTo s t) : Collected d t := by
  suffices hall : Reachable t ∧ Collected d t ∧ d.next ≤ t.document.next from hall.2.1
  induction hst with
  | refl => exact ⟨h, hc, hle⟩
  | @tail u v _ huv ih =>
    obtain ⟨hu, hc, hle⟩ := ih
    obtain ⟨a, names, hr⟩ := huv
    have hp := ((hu.sound hd).settles_decompose a).of_ok hr
    have haggs := ((Engine.Grows.decompose a).of_run hr).aggregates
    refine ⟨hu.decompose hr, ⟨hc.tidy, haggs ▸ hc.named, haggs ▸ hc.fields, fun x hx ho => ?_⟩,
      Nat.le_trans hle hp.continues.next⟩
    obtain ⟨y, hy, hyk, hyf, -⟩ := hp.continues.forms x hx (isOld_mono ho hle)
    obtain ⟨z, hz, hzk, hzf⟩ := hc.forms y hy (isOld_of_key ho hyk.symm)
    exact ⟨z, hz, hzk.trans hyk, hzf.trans hyf⟩

/-- **The names of the aggregates, and the types that are based on them.** If aliases are declared
before others use them, each aggregate has exactly the names of its struct. No two aggregates have a
name in common, so whatever is decomposed, a declared type is based on one at most, in whichever
order they are, and the type of a field is based on none. -/
theorem start_aggregates (options : Options) (taken : Option (List String))
    (hroot : root.IsSource) :
    ((Session.start root options taken).document.root.DeclaresBeforeUse →
      ∀ a ∈ (Session.start root options taken).aggregates, ∀ name, name ∈ a.names ↔
        Aggregate.IsName (Session.start root options taken).document.root a.struct name) ∧
    ((Session.start root options taken).aggregates.Pairwise fun a b =>
      ∀ name ∈ a.names, name ∉ b.names) ∧
    ∀ t, ReflTransGen DecomposesTo (Session.start root options taken) t →
      (∀ type, t.document.HasBase type →
        (∀ a ∈ t.aggregates, ∀ b ∈ t.aggregates, a.isBaseOf type → b.isBaseOf type → a = b) ∧
        ∀ as, as.Perm t.aggregates →
          ({ t with aggregates := as } : Session).aggregateOf? type = t.aggregateOf? type) ∧
      ∀ a ∈ t.aggregates, ∀ f ∈ a.fields, ∀ type, type.baseType = f.type.baseType →
        t.aggregateOf? type = none := by
  let _ : Discipline := ⟨False, False⟩
  have hreach : Reachable (Session.start root options taken) := .start options taken hroot
  have hsound := hreach.sound ⟨id, id⟩
  have hnamed : Aggregate.Named (Session.start root options taken).document.root []
      (Session.start root options taken).aggregates :=
    aggregates_start .nil (Aggregate.ensures_collect _)
  have hcollected : Collected (Session.start root options taken).document
      (Session.start root options taken) :=
    ⟨hsound.document.tidy, hnamed, isOf_start root options taken,
      fun x hx _ => ⟨x, hx, rfl, rfl⟩⟩
  refine ⟨fun hb a ha name => ?_, hnamed.disjoint, fun t ht => ?_⟩
  · rw [(hnamed.names a ha).1]
    exact Aggregate.mem_namesOf_iff hb
  · have hct := hreach.collected ⟨id, id⟩ hcollected (Nat.le_refl _) ht
    exact ⟨fun type hbase => ⟨fun a ha b hb => hct.eq_of_isBaseOf hbase ha hb,
      fun as has => hct.aggregateOf?_perm hbase has⟩,
      fun a ha f hf type => hct.aggregateOf?_field ha hf⟩

/-- A struct with an alias and an alias of that, after the same for a struct that has no tag. -/
def aliased : String :=
  "typedef struct \x7bint i;\x7d A; typedef A B; struct S \x7bint a;\x7d; " ++
    "typedef struct S T; typedef T U; U x; B *p;"

theorem start_aggregates_aliased : ∃ program a b, parse aliased = .ok program ∧
    (Session.start program {} none).document.root.DeclaresBeforeUse ∧
    (Session.start program {} none).aggregates = [a, b] ∧
    Aggregate.IsName (Session.start program {} none).document.root a.struct "B" ∧
    ¬ Aggregate.IsName (Session.start program {} none).document.root a.struct "U" ∧
    Aggregate.IsName (Session.start program {} none).document.root b.struct "U" ∧
    ∀ name ∈ a.names, name ∉ b.names := by
  have h : (match parse aliased with
      | .ok program =>
        let s := Session.start program {} none
        let typedefs := s.document.root.ofClass .typedef
        decide ((typedefs.Pairwise fun d e => e.name?.isSome →
            e.name? ≠ (d.child .type).typeName?) ∧
          (∀ d ∈ typedefs, d.name?.isSome → d.name? ≠ (d.child .type).typeName?) ∧
          s.aggregates.map Aggregate.names = [["A", "B"], ["struct S", "T", "U"]])
      | .error _ => false) = true := by decide +kernel
  cases hp : parse aliased with
  | error e =>
    rw [hp] at h
    cases h
  | ok program =>
    rw [hp] at h
    obtain ⟨horder, hself, hnames⟩ := of_decide_eq_true h
    have hb := declaresBeforeUse_of_pairwise horder hself
    obtain ⟨hiff, hdisjoint, -⟩ :=
      start_aggregates {} none (isSource_of_parse hp)
    have hiff := hiff hb
    refine ⟨program, ?_⟩
    generalize Session.start program {} none = s at *
    obtain ⟨a, b, has⟩ : ∃ a b, s.aggregates = [a, b] := List.length_eq_two.mp (by
      simpa using congrArg List.length hnames)
    rw [has] at hnames hiff hdisjoint
    obtain ⟨hna, hnb⟩ : a.names = ["A", "B"] ∧ b.names = ["struct S", "T", "U"] := by
      simpa using hnames
    refine ⟨a, b, rfl, hb, has, (hiff a (by simp) "B").mp (by simp [hna]),
      fun hU => ?_, (hiff b (by simp) "U").mp (by simp [hnb]), ?_⟩
    · simpa [hna] using (hiff a (by simp) "U").mpr hU
    · exact (List.pairwise_cons.mp hdisjoint).1 b (by simp)

end Session

end Fieldwise
