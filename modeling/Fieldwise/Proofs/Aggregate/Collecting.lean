import Fieldwise.Aggregate.Collect
import Fieldwise.Proofs.Session.Settles

/-!
# Aggregates of a program

What is known of the aggregates that are collected from a program: each is a struct of the program,
and its fields are members of the struct whose types are neither structs nor aliases of structs
(`Aggregate.settles_collect`).
-/

namespace Fieldwise.Aggregate

open Node

variable {known claimed : List String} {struct root : Node} {fields : List Field}

/-- A field is one of some members, and its type is that of no aggregate. -/
structure IsFieldOf (known : List String) (members : List Node) (f : Field) : Prop where
  member : ∃ m spec rest, Node.mk m (.decl (some f.name) spec) (f.type :: rest) ∈ members
  base : f.type.baseType.isA .structType = false
  foreign : f.type.typeName?.any known.contains = false

/-- An aggregate is a struct of a program that has members, where `known` are the names of all of
them. -/
structure IsOf (known : List String) (root : Node) (a : Aggregate) : Prop where
  struct : a.struct ∈ root.preorder
  names : ∀ name ∈ a.names, name ∈ known
  nonempty : a.fields ≠ []
  fields : ∀ f ∈ a.fields, IsFieldOf known a.struct.items f

/-- The type of a field is that of a declaration in the program. -/
theorem IsOf.exists_member {a : Aggregate} {f : Field} (h : a.IsOf known root) (hf : f ∈ a.fields) :
    ∃ m spec rest, Node.mk m (.decl (some f.name) spec) (f.type :: rest) ∈ root.preorder := by
  obtain ⟨m, spec, rest, hm⟩ := (h.fields f hf).member
  exact ⟨m, spec, rest, mem_preorder_of_part h.struct (mem_parts_of_mem_items hm) rfl⟩

theorem isFieldOf_fieldsOf {members : List Node}
    (hf : (fieldsOf known members).run = .ok (.ok fields)) :
    ∀ f ∈ fields, IsFieldOf known members f := by
  induction members generalizing fields with
  | nil =>
    cases hf
    exact fun f hf => nomatch hf
  | cons member rest ih =>
    unfold fieldsOf at hf
    split at hf
    case h_2 => cases hf
    case h_3 => cases hf
    rename_i m name spec type parts
    split at hf
    · cases hf
    rename_i hbase
    simp only [Bool.or_eq_true, not_or, Bool.not_eq_true] at hbase
    split at hf
    · cases hf
    simp only [ExceptT.run_bind] at hf
    cases hr : (fieldsOf known rest).run with
    | error e =>
      rw [hr] at hf
      cases hf
    | ok found =>
      rw [hr] at hf
      cases found with
      | error e => cases hf
      | ok more =>
        cases hf
        intro f hfm
        rcases List.mem_cons.mp hfm with rfl | hfm
        · exact ⟨⟨m, spec, parts, List.mem_cons_self⟩, hbase.1, hbase.2⟩
        · obtain ⟨⟨m', spec', parts', hm⟩, hb, hn⟩ := ih hr f hfm
          exact ⟨⟨m', spec', parts', List.mem_cons_of_mem _ hm⟩, hb, hn⟩

theorem isFieldOf_structFields (hf : (structFields known struct).run = .ok (.ok fields)) :
    fields ≠ [] ∧ ∀ f ∈ fields, IsFieldOf known struct.items f := by
  simp only [structFields, ExceptT.run_bind] at hf
  cases hr : (fieldsOf known struct.items).run with
  | error e =>
    rw [hr] at hf
    cases hf
  | ok found =>
    rw [hr] at hf
    cases found with
    | error e => cases hf
    | ok found =>
      cases found with
      | nil => cases hf
      | cons f fs =>
        obtain rfl : f :: fs = fields := by
          cases hf
          rfl
        exact ⟨List.cons_ne_nil _ _, isFieldOf_fieldsOf hr⟩

/-- The search for fields fails only for members that are no declarations. -/
theorem fieldsOf_eq_error {members : List Node} {f : Failure}
    (h : (fieldsOf known members).run = .error f) :
    f = .noName ∧ ∃ n ∈ members, n.isA .decl = false := by
  induction members with
  | nil => cases h
  | cons member rest ih =>
    unfold fieldsOf at h
    split at h
    · split at h
      · cases h
      · split at h
        · cases h
        · simp only [ExceptT.run_bind] at h
          cases hr : (fieldsOf known rest).run with
          | error e =>
            rw [hr] at h
            cases h
            obtain ⟨hf, n, hn, hd⟩ := ih hr
            exact ⟨hf, n, List.mem_cons_of_mem _ hn, hd⟩
          | ok found =>
            rw [hr] at h
            cases found <;> cases h
    · cases h
    · rename_i hne
      cases h
      refine ⟨rfl, member, List.mem_cons_self, ?_⟩
      cases member with
      | absent => rfl
      | mk m form ps =>
        cases form with
        | decl name spec => exact (hne _ _ _ _ rfl).elim
        | _ => rfl

theorem structFields_eq_error {f : Failure} (h : (structFields known struct).run = .error f) :
    f = .noName ∧ ∃ n ∈ struct.items, n.isA .decl = false := by
  simp only [structFields, ExceptT.run_bind] at h
  cases hr : (fieldsOf known struct.items).run with
  | error e =>
    rw [hr] at h
    cases h
    exact fieldsOf_eq_error hr
  | ok found =>
    rw [hr] at h
    cases found with
    | error e => cases h
    | ok found => cases found <;> cases h

variable [Discipline]

theorem settles_structFields (known : List String) (struct : Node) :
    Settles (structFields known struct).run fun r => (structFields known struct).run = .ok r := by
  cases h : (structFields known struct).run with
  | ok r => exact .ok rfl
  | error f =>
    obtain ⟨rfl, -⟩ := structFields_eq_error h
    exact .error (by decide)

theorem settles_namedStructs (aliases : List Node) {structs : List Node} :
    (namedStructs aliases structs).Settles fun r => ∀ p ∈ r, p.1 ∈ structs := by
  induction structs with
  | nil => exact .pure (by simp)
  | cons struct rest ih =>
    have hmore : ∀ {r : List (Node × List String)}, (∀ p ∈ r, p.1 ∈ rest) →
        ∀ p ∈ r, p.1 ∈ struct :: rest := fun h p hp => List.mem_cons_of_mem _ (h p hp)
    unfold namedStructs
    split
    · exact (Report.Settles.note _ _).bind fun _ _ => ih.mono fun _ hr => hmore hr
    · refine ih.bind fun r hr => .pure fun p hp => ?_
      rcases List.mem_cons.mp hp with rfl | hp
      · exact List.mem_cons_self
      · exact hmore hr p hp

theorem settles_ofStructs {structs : List (Node × List String)}
    (hs : ∀ p ∈ structs, p.1 ∈ root.preorder ∧ ∀ name ∈ p.2, name ∈ known) (claimed : List String) :
    (ofStructs known claimed structs).Settles fun r => ∀ a ∈ r, IsOf known root a := by
  induction structs generalizing claimed with
  | nil => exact .pure (by simp)
  | cons p rest ih =>
    obtain ⟨struct, names⟩ := p
    have hrest := ih fun p hp => hs p (List.mem_cons_of_mem _ hp)
    unfold ofStructs
    dsimp only
    split
    · exact (Report.Settles.note _ _).bind fun _ _ => hrest _
    · refine (Report.Settles.of (settles_structFields known struct)).bind fun found hf => ?_
      split
      · exact (Report.Settles.note _ _).bind fun _ _ => hrest _
      · rename_i fields
        refine (Report.Settles.note _ _).bind fun _ _ => (hrest _).bind fun r hr => .pure ?_
        intro a ha
        rcases List.mem_cons.mp ha with rfl | ha
        · obtain ⟨hm, hn⟩ := hs (struct, names) List.mem_cons_self
          obtain ⟨hne, hfields⟩ := isFieldOf_structFields hf
          exact ⟨hm, hn, hne, hfields⟩
        · exact hr a ha

/-- **The aggregates of a program are structs of it**, and no field is an aggregate itself. -/
theorem settles_collect (root : Node) :
    (collect root).Settles fun r => ∃ known, ∀ a ∈ r, IsOf known root a := by
  unfold collect
  refine (settles_namedStructs _).bind fun found hfound =>
    (settles_ofStructs (fun p hp => ⟨?_, fun name hn => ?_⟩) _).mono fun _ hr => ⟨_, hr⟩
  · exact (List.mem_filter.mp (hfound p hp)).1
  · exact List.mem_flatMap.mpr ⟨p, hp, hn⟩

end Fieldwise.Aggregate
