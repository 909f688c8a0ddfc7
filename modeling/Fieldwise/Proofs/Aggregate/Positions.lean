import Fieldwise.Aggregate.BraceList
import Mathlib.Data.List.Nodup

/-!
# Positions in a brace list

Which field each entry of a brace list initializes, stated without the cursor and the map with
which `Aggregate.fieldValues` goes through the list. `Reaches` is the position of an entry: that of
the field that its designator names, or else one past the position of the entry before it. A list
is `Faulty` at an entry that has no field to go to, or that gives an array a single value. The
values that a list `Gives` are one for each position that is reached, by the last entry there, in
the order in which the positions are reached.

The main result is that `fieldValues` finds no values just for the lists that are faulty somewhere,
and otherwise those that the list gives (`Aggregate.fieldValues_eq_some_iff`). It follows by
induction over the entries that remain: one entry takes the values that those before it give to the
values that they give with it (`Gives.put`).
-/

namespace Fieldwise

/-! ### Lists of keys with values -/

section Put

variable {α β : Type} [BEq α] [LawfulBEq α] {key : α} {value : β} {xs : List (α × β)}

/-- A key that is there stays in its place, and one that is new comes last. -/
theorem map_fst_put [DecidableEq α] (key : α) (value : β) (xs : List (α × β)) :
    (put key value xs).map Prod.fst =
      if key ∈ xs.map Prod.fst then xs.map Prod.fst else xs.map Prod.fst ++ [key] := by
  induction xs with
  | nil => rfl
  | cons x xs ih =>
    obtain ⟨k, v⟩ := x
    rw [put]
    by_cases hk : k = key
    · simp [hk]
    · have hk' : key ≠ k := fun h => hk h.symm
      simp only [beq_iff_eq, hk, if_false, List.map_cons, ih, List.mem_cons, hk', false_or]
      split <;> rfl

/-- The value of the key is the one that was put there, and those of other keys stay. -/
theorem mem_put_iff (hn : (xs.map Prod.fst).Nodup) {k : α} {v : β} :
    (k, v) ∈ put key value xs ↔ k = key ∧ v = value ∨ k ≠ key ∧ (k, v) ∈ xs := by
  induction xs with
  | nil => simp [put]
  | cons x xs ih =>
    obtain ⟨k₀, v₀⟩ := x
    obtain ⟨hk₀, hn⟩ := List.nodup_cons.mp hn
    rw [put]
    by_cases hk : k₀ = key
    · subst hk
      have hne : (k, v) ∈ xs → k ≠ k₀ := by
        rintro hm rfl
        exact hk₀ (List.mem_map.mpr ⟨_, hm, rfl⟩)
      simp only [beq_self_eq_true, if_true, List.mem_cons, Prod.mk.injEq]
      grind
    · simp only [beq_iff_eq, hk, if_false, List.mem_cons, Prod.mk.injEq, ih hn]
      grind

end Put

namespace Node

/-- The designators in front of an entry of a brace list, if it has any. -/
def designators? : Node → Option (List Node)
  | mk _ .namedInitializer (_ :: names) => some names
  | _ => none

end Node

namespace Aggregate

/-- Designators that are a single name, that of the field at a position. -/
def Designates (a : Aggregate) (names : List Node) (i : Nat) : Prop :=
  ∃ n name f, names = [n] ∧ n.form? = some (.ident name) ∧ a.fields[i]? = some f ∧ f.name = name

/-- The `k`-th entry of a brace list goes to the position `i`. -/
inductive Reaches (a : Aggregate) (entries : List Node) : Nat → Nat → Prop where
  | designated {k i : Nat} {entry : Node} {names : List Node} (h : entries[k]? = some entry)
      (hd : entry.designators? = some names) (hi : a.Designates names i) : Reaches a entries k i
  | first {entry : Node} (h : entries[0]? = some entry) (hd : entry.designators? = none) :
      Reaches a entries 0 0
  | next {k i : Nat} {entry : Node} (h : entries[k + 1]? = some entry)
      (hd : entry.designators? = none) (hk : Reaches a entries k i) :
      Reaches a entries (k + 1) (i + 1)

/-- Something is wrong with the `k`-th entry of a brace list: its designator is not one name of a
field, it comes after the last field, or it gives an array neither a list nor a string. -/
inductive Faulty (a : Aggregate) (entries : List Node) (k : Nat) : Prop where
  | designator {entry : Node} {names : List Node} (h : entries[k]? = some entry)
      (hd : entry.designators? = some names) (hi : ∀ i, ¬ a.Designates names i)
  | excess {i : Nat} (hk : a.Reaches entries k i) (hi : a.fields.length ≤ i)
  | single {i : Nat} {entry : Node} {f : Field} (h : entries[k]? = some entry)
      (hk : a.Reaches entries k i) (hi : a.fields[i]? = some f) (hf : f.isArray = true)
      (hl : (entryValue entry).isA .initList = false) (hs : (entryValue entry).isString = false)

/-- The values that a brace list gives the fields at some positions. -/
structure Gives (a : Aggregate) (entries : List Node) (values : List (Nat × Node)) : Prop where
  /-- There is one value for a position. -/
  nodup : (values.map Prod.fst).Nodup
  /-- The positions are those that some entry reaches. -/
  mem_keys_iff (i : Nat) : i ∈ values.map Prod.fst ↔ ∃ k, a.Reaches entries k i
  /-- The value is that of the last entry that reaches the position. -/
  mem_iff (i : Nat) (v : Node) : (i, v) ∈ values ↔ ∃ k entry, a.Reaches entries k i ∧
    (∀ l, k < l → ¬ a.Reaches entries l i) ∧ entries[k]? = some entry ∧ entryValue entry = v
  /-- The positions are in the order in which they are first reached. -/
  ordered : (values.map Prod.fst).Pairwise fun i j =>
    ∃ k, a.Reaches entries k i ∧ ∀ l, a.Reaches entries l j → k < l

variable {a : Aggregate} {entries done : List Node} {entry : Node} {i j k cursor : Nat}
  {found values values' : List (Nat × Node)}

/-! ### Positions -/

/-- Only an entry of the list reaches a position. -/
theorem Reaches.exists_entry (h : a.Reaches entries k i) : ∃ entry, entries[k]? = some entry := by
  cases h with
  | designated h => exact ⟨_, h⟩
  | first h => exact ⟨_, h⟩
  | next h => exact ⟨_, h⟩

theorem Reaches.lt_length (h : a.Reaches entries k i) : k < entries.length := by
  obtain ⟨entry, he⟩ := h.exists_entry
  exact (List.getElem?_eq_some_iff.mp he).1

/-- The position of an entry depends on the entries up to it. -/
theorem Reaches.congr {entries' : List Node} (h : a.Reaches entries k i)
    (he : ∀ l ≤ k, entries[l]? = entries'[l]?) : a.Reaches entries' k i := by
  induction h with
  | designated h hd hi => exact .designated ((he _ (Nat.le_refl _)).symm.trans h) hd hi
  | first h hd => exact .first ((he 0 (Nat.le_refl _)).symm.trans h) hd
  | @next k i entry h hd _ ih =>
    exact .next ((he _ (Nat.le_refl _)).symm.trans h) hd (ih fun l hl => he l (by omega))

theorem reaches_append_iff (more : List Node) (hk : k < done.length) :
    a.Reaches (done ++ more) k i ↔ a.Reaches done k i := by
  have he : ∀ l ≤ k, (done ++ more)[l]? = done[l]? := fun l hl =>
    List.getElem?_append_left (by omega)
  exact ⟨fun h => h.congr he, fun h => h.congr fun l hl => (he l hl).symm⟩

theorem faulty_append_iff (more : List Node) (hk : k < done.length) :
    a.Faulty (done ++ more) k ↔ a.Faulty done k := by
  have he : (done ++ more)[k]? = done[k]? := List.getElem?_append_left hk
  constructor
  · rintro (⟨h, hd, hi⟩ | ⟨hr, hi⟩ | ⟨h, hr, hi, hf, hl, hs⟩)
    · exact .designator (he.symm.trans h) hd hi
    · exact .excess ((reaches_append_iff more hk).mp hr) hi
    · exact .single (he.symm.trans h) ((reaches_append_iff more hk).mp hr) hi hf hl hs
  · rintro (⟨h, hd, hi⟩ | ⟨hr, hi⟩ | ⟨h, hr, hi, hf, hl, hs⟩)
    · exact .designator (he.trans h) hd hi
    · exact .excess ((reaches_append_iff more hk).mpr hr) hi
    · exact .single (he.trans h) ((reaches_append_iff more hk).mpr hr) hi hf hl hs

theorem Faulty.lt_length (h : a.Faulty entries k) : k < entries.length := by
  cases h with
  | designator h => exact (List.getElem?_eq_some_iff.mp h).1
  | excess hr => exact hr.lt_length
  | single h => exact (List.getElem?_eq_some_iff.mp h).1

/-- Names of fields that are distinct designate one position. -/
theorem Designates.eq {names : List Node} (hn : (a.fields.map Field.name).Nodup)
    (hi : a.Designates names i) (hj : a.Designates names j) : i = j := by
  obtain ⟨n, name, f, rfl, hname, hf, rfl⟩ := hi
  obtain ⟨_, _, g, hns, hname', hg, rfl⟩ := hj
  obtain rfl := List.singleton_inj.mp hns
  have hfg : f.name = g.name := by simpa using hname.symm.trans hname'
  have hlen : i < (a.fields.map Field.name).length := by
    simpa using (List.getElem?_eq_some_iff.mp hf).1
  refine (List.getElem?_inj hlen hn).mp ?_
  rw [List.getElem?_map, List.getElem?_map, hf, hg, Option.map_some, Option.map_some, hfg]

/-- An entry has one position. -/
theorem Reaches.eq (hn : (a.fields.map Field.name).Nodup) (hi : a.Reaches entries k i)
    (hj : a.Reaches entries k j) : i = j := by
  induction hi generalizing j with
  | designated h hd hi =>
    cases hj with
    | designated h' hd' hj =>
      obtain rfl : _ = _ := Option.some.inj (h.symm.trans h')
      obtain rfl : _ = _ := Option.some.inj (hd.symm.trans hd')
      exact hi.eq hn hj
    | first h' hd' => simp_all
    | next h' hd' => simp_all
  | first h hd =>
    cases hj with
    | designated h' hd' => simp_all
    | first => rfl
  | next h hd _ ih =>
    cases hj with
    | designated h' hd' => simp_all
    | next _ _ hj => rw [ih hj]

/-! ### The entry after some others -/

/-- The position that an entry without designators goes to after those of a list. -/
def Next (a : Aggregate) (done : List Node) (cursor : Nat) : Prop :=
  ∀ entry : Node, entry.designators? = none → a.Reaches (done ++ [entry]) done.length cursor

theorem next_nil (a : Aggregate) : a.Next [] 0 := fun _ hd => .first rfl hd

theorem Reaches.next_snoc (h : a.Reaches (done ++ [entry]) done.length i) :
    a.Next (done ++ [entry]) (i + 1) := by
  intro e hd
  have hlen : (done ++ [entry]).length = done.length + 1 := by simp
  rw [hlen]
  refine .next (by simp) hd ?_
  exact (reaches_append_iff [e] (by omega)).mpr h

/-- The position that an entry goes to, where one without designators goes to `cursor`. -/
def position? (a : Aggregate) (cursor : Nat) (entry : Node) : Option Nat :=
  match entry.designators? with
  | none => some cursor
  | some names => a.designatedField names

theorem fieldValuesFrom_cons (a : Aggregate) (found : List (Nat × Node)) (cursor : Nat)
    (entry : Node) (rest : List Node) :
    a.fieldValuesFrom found cursor (entry :: rest) =
      (a.position? cursor entry).bind fun i => a.fields[i]?.bind fun f =>
        if accepts f (entryValue entry) then
          a.fieldValuesFrom (put i (entryValue entry) found) (i + 1) rest
        else none := by
  conv =>
    lhs
    unfold fieldValuesFrom
  unfold position? Node.designators? entryValue
  split
  · rename_i names
    show _ = (a.designatedField names).bind _
    cases a.designatedField names with
    | none => rfl
    | some i => cases hf : a.fields[i]? <;> simp [hf]
  · cases hf : a.fields[cursor]? <;> simp [hf]

theorem designatedField_eq_some_iff (hn : (a.fields.map Field.name).Nodup) {names : List Node} :
    a.designatedField names = some i ↔ a.Designates names i := by
  constructor
  · intro h
    unfold designatedField at h
    split at h
    · rename_i name ps
      obtain ⟨hlt, hname, -⟩ := List.findIdx?_eq_some_iff_getElem.mp h
      exact ⟨_, name, a.fields[i], rfl, rfl, List.getElem?_eq_getElem hlt, beq_iff_eq.mp hname⟩
    · cases h
  · intro h
    obtain ⟨n, name, f, rfl, hname, hf, hfn⟩ := id h
    match n, hname with
    | .mk m (.ident _) ps, rfl =>
      obtain ⟨hlt, hget⟩ := List.getElem?_eq_some_iff.mp hf
      -- some field has the name, and no other
      cases hfound : a.designatedField [.mk m (.ident name) ps] with
      | none =>
        have hall := List.findIdx?_eq_none_iff.mp hfound f (List.mem_of_getElem? hf)
        simp [hfn] at hall
      | some i' =>
        obtain ⟨hlt', hname', -⟩ := List.findIdx?_eq_some_iff_getElem.mp hfound
        have hd : a.Designates [.mk m (.ident name) ps] i' :=
          ⟨_, name, a.fields[i'], rfl, rfl, List.getElem?_eq_getElem hlt', beq_iff_eq.mp hname'⟩
        rw [hd.eq hn h]

/-- The position that is found for an entry is the one that it reaches. -/
theorem position?_eq_some_iff (hn : (a.fields.map Field.name).Nodup) (hc : a.Next done cursor) :
    a.position? cursor entry = some i ↔ a.Reaches (done ++ [entry]) done.length i := by
  have hget : (done ++ [entry])[done.length]? = some entry := by simp
  cases hd : entry.designators? with
  | none =>
    have hr := hc entry hd
    simp only [position?, hd, Option.some.injEq]
    exact ⟨fun h => h ▸ hr, fun h => hr.eq hn h⟩
  | some names =>
    simp only [position?, hd, designatedField_eq_some_iff hn]
    refine ⟨fun h => .designated hget hd h, fun h => ?_⟩
    cases hk : done.length <;> rw [hk] at h hget <;> cases h <;> simp_all

/-- The last entry of a list is faulty if it is not accepted at its position. -/
theorem faulty_snoc_iff (hn : (a.fields.map Field.name).Nodup) (hc : a.Next done cursor) :
    a.Faulty (done ++ [entry]) done.length ↔
      ∀ i f, a.position? cursor entry = some i → a.fields[i]? = some f →
        accepts f (entryValue entry) = false := by
  have hget : (done ++ [entry])[done.length]? = some entry := by simp
  constructor
  · rintro (⟨h, hd, hi⟩ | ⟨hr, hi⟩ | ⟨h, hr, hi, hf, hl, hs⟩) i f hp hf'
    · obtain rfl := Option.some.inj (hget.symm.trans h)
      rw [position?, hd] at hp
      exact absurd ((designatedField_eq_some_iff hn).mp hp) (hi i)
    · obtain rfl := hr.eq hn ((position?_eq_some_iff hn hc).mp hp)
      rw [List.getElem?_eq_none hi] at hf'
      cases hf'
    · obtain rfl := Option.some.inj (hget.symm.trans h)
      obtain rfl := hr.eq hn ((position?_eq_some_iff hn hc).mp hp)
      obtain rfl := Option.some.inj (hi.symm.trans hf')
      simp [accepts, hf, hl, hs]
  · intro h
    cases hp : a.position? cursor entry with
    | none =>
      cases hd : entry.designators? with
      | none => simp [position?, hd] at hp
      | some names =>
        refine .designator hget hd fun i hi => ?_
        rw [position?, hd] at hp
        exact absurd ((designatedField_eq_some_iff hn).mpr hi) (by simp [hp])
    | some i =>
      have hr := (position?_eq_some_iff hn hc).mp hp
      cases hf : a.fields[i]? with
      | none => exact .excess hr (List.getElem?_eq_none_iff.mp hf)
      | some f =>
        have hrefused := h i f hp hf
        simp only [accepts, Bool.or_eq_false_iff, Bool.not_eq_false'] at hrefused
        exact .single hget hr hf hrefused.1.1 hrefused.1.2 hrefused.2

/-! ### Values -/

/-- What the entries of a list reach with one more that reaches a position. -/
theorem reaches_snoc_iff (hn : (a.fields.map Field.name).Nodup)
    (hr : a.Reaches (done ++ [entry]) done.length i) :
    a.Reaches (done ++ [entry]) k j ↔ a.Reaches done k j ∨ k = done.length ∧ j = i := by
  constructor
  · intro h
    by_cases hk : k < done.length
    · exact .inl ((reaches_append_iff _ hk).mp h)
    · have hlt := h.lt_length
      obtain rfl : k = done.length := by simp at hlt; omega
      exact .inr ⟨rfl, h.eq hn hr⟩
  · rintro (h | ⟨rfl, rfl⟩)
    · exact (reaches_append_iff _ h.lt_length).mpr h
    · exact hr

theorem gives_nil (a : Aggregate) : a.Gives [] [] where
  nodup := List.nodup_nil
  mem_keys_iff i := by
    refine ⟨fun h => (nomatch h), fun ⟨k, h⟩ => ?_⟩
    exact absurd h.lt_length (Nat.not_lt_zero k)
  mem_iff i v := by
    refine ⟨fun h => (nomatch h), fun ⟨k, _, h, _⟩ => ?_⟩
    exact absurd h.lt_length (Nat.not_lt_zero k)
  ordered := .nil

/-- Putting the value of an entry at its position is what the entry does to the values of those
before it. -/
theorem Gives.put (hn : (a.fields.map Field.name).Nodup) (hg : a.Gives done found)
    (hr : a.Reaches (done ++ [entry]) done.length i) :
    a.Gives (done ++ [entry]) (put i (entryValue entry) found) := by
  have hiff : ∀ {k j}, a.Reaches (done ++ [entry]) k j ↔
      a.Reaches done k j ∨ k = done.length ∧ j = i := reaches_snoc_iff hn hr
  -- positions that were reached before keep their order
  have hold : (found.map Prod.fst).Pairwise fun i j =>
      ∃ k, a.Reaches (done ++ [entry]) k i ∧ ∀ l, a.Reaches (done ++ [entry]) l j → k < l := by
    refine hg.ordered.imp fun ⟨k, hk, hfirst⟩ => ⟨k, hiff.mpr (.inl hk), fun l hl => ?_⟩
    rcases hiff.mp hl with hl | ⟨rfl, -⟩
    · exact hfirst l hl
    · exact hk.lt_length
  refine ⟨?_, fun j => ?_, fun j v => ?_, ?_⟩
  · rw [map_fst_put]
    split
    · exact hg.nodup
    · rename_i hi
      exact List.nodup_append.mpr ⟨hg.nodup, by simp, by grind⟩
  · have hkeys : j ∈ (Fieldwise.put i (entryValue entry) found).map Prod.fst ↔
        j ∈ found.map Prod.fst ∨ j = i := by
      rw [map_fst_put]
      split <;> grind
    rw [hkeys, hg.mem_keys_iff]
    constructor
    · rintro (⟨k, hk⟩ | rfl)
      · exact ⟨k, hiff.mpr (.inl hk)⟩
      · exact ⟨_, hr⟩
    · rintro ⟨k, hk⟩
      exact (hiff.mp hk).imp (fun h => ⟨k, h⟩) And.right
  · rw [mem_put_iff hg.nodup]
    constructor
    · rintro (⟨rfl, rfl⟩ | ⟨hji, hm⟩)
      · refine ⟨done.length, entry, hr, fun l hl h => ?_, by simp, rfl⟩
        have hlt := h.lt_length
        simp at hlt
        omega
      · obtain ⟨k, e, hk, hlast, he, hv⟩ := (hg.mem_iff j v).mp hm
        refine ⟨k, e, hiff.mpr (.inl hk), fun l hl h => ?_, ?_, hv⟩
        · rcases hiff.mp h with h | ⟨-, rfl⟩
          · exact hlast l hl h
          · exact hji rfl
        · rw [List.getElem?_append_left hk.lt_length, he]
    · rintro ⟨k, e, hk, hlast, he, hv⟩
      by_cases hji : j = i
      · subst hji
        -- no entry comes after the new one, so it is the last at its position
        have hge : ¬ k < done.length := fun hlt => hlast _ hlt hr
        obtain rfl : k = done.length := by
          have hlt := hk.lt_length
          simp at hlt
          omega
        obtain rfl : entry = e := by simpa using he
        exact .inl ⟨rfl, hv.symm⟩
      · refine .inr ⟨hji, (hg.mem_iff j v).mpr ⟨k, e, ?_, fun l hl h => ?_, ?_, hv⟩⟩
        · rcases hiff.mp hk with hk | ⟨-, rfl⟩
          · exact hk
          · exact absurd rfl hji
        · exact hlast l hl (hiff.mpr (.inl h))
        · rcases hiff.mp hk with hk | ⟨-, rfl⟩
          · rwa [List.getElem?_append_left hk.lt_length] at he
          · exact absurd rfl hji
  · rw [map_fst_put]
    split
    · exact hold
    · rename_i hi
      refine List.pairwise_append.mpr ⟨hold, List.pairwise_singleton _ _, fun j hj i' hi' => ?_⟩
      obtain rfl := List.mem_singleton.mp hi'
      obtain ⟨k, hk⟩ := (hg.mem_keys_iff j).mp hj
      refine ⟨k, hiff.mpr (.inl hk), fun l hl => ?_⟩
      rcases hiff.mp hl with hl | ⟨rfl, -⟩
      · exact absurd ((hg.mem_keys_iff i').mpr ⟨l, hl⟩) hi
      · exact hk.lt_length

/-- A list gives one list of values. -/
theorem Gives.eq (h : a.Gives entries values) (h' : a.Gives entries values') :
    values = values' := by
  have hperm : values.Perm values' :=
    (List.perm_ext_iff_of_nodup (h.nodup.of_map Prod.fst) (h'.nodup.of_map Prod.fst)).mpr
      fun ⟨i, v⟩ => (h.mem_iff i v).trans (h'.mem_iff i v).symm
  refine hperm.eq_of_pairwise (fun p q _ _ hpq hqp => ?_) (List.pairwise_map.mp h.ordered)
    (List.pairwise_map.mp h'.ordered)
  -- neither of two positions is reached before the other
  obtain ⟨k, hk, hfirst⟩ := hpq
  obtain ⟨l, hl, hfirst'⟩ := hqp
  have hkl := hfirst l hl
  have hlk := hfirst' k hk
  omega

/-- What is found for the entries that remain, where those before them give the values found so
far. -/
theorem fieldValuesFrom_spec (hn : (a.fields.map Field.name).Nodup) (rest : List Node)
    (hc : a.Next done cursor) (hg : a.Gives done found) (hok : ∀ k, ¬ a.Faulty done k) :
    (a.fieldValuesFrom found cursor rest = none ↔ ∃ k, a.Faulty (done ++ rest) k) ∧
      ∀ values, a.fieldValuesFrom found cursor rest = some values →
        a.Gives (done ++ rest) values := by
  induction rest generalizing done found cursor with
  | nil =>
    rw [List.append_nil, fieldValuesFrom]
    refine ⟨⟨fun h => (nomatch h), fun ⟨k, h⟩ => absurd h (hok k)⟩, fun values h => ?_⟩
    obtain rfl := Option.some.inj h
    exact hg
  | cons entry rest ih =>
    have hsplit : done ++ entry :: rest = (done ++ [entry]) ++ rest := by simp
    by_cases hf : a.Faulty (done ++ [entry]) done.length
    · -- the entry is refused, and it is faulty in the whole list
      have hnone : a.fieldValuesFrom found cursor (entry :: rest) = none := by
        rw [fieldValuesFrom_cons, Option.bind_eq_none_iff]
        intro i hp
        rw [Option.bind_eq_none_iff]
        intro f hi
        rw [(faulty_snoc_iff hn hc).mp hf i f hp hi]
        rfl
      rw [hnone, hsplit]
      refine ⟨⟨fun _ => ⟨_, (faulty_append_iff rest (by simp)).mpr hf⟩, fun _ => rfl⟩, ?_⟩
      exact fun values h => nomatch h
    · obtain ⟨i, f, hp, hi, haccepts⟩ : ∃ i f, a.position? cursor entry = some i ∧
          a.fields[i]? = some f ∧ accepts f (entryValue entry) = true := by
        simpa [faulty_snoc_iff hn hc] using hf
      have hr := (position?_eq_some_iff hn hc).mp hp
      rw [fieldValuesFrom_cons, hp, Option.bind_some, hi, Option.bind_some, if_pos haccepts, hsplit]
      refine ih hr.next_snoc (hg.put hn hr) fun k hk => ?_
      by_cases hlt : k < done.length
      · exact hok k ((faulty_append_iff [entry] hlt).mp hk)
      · have hlen := hk.lt_length
        obtain rfl : k = done.length := by simp at hlen; omega
        exact hf hk

/-- **A brace list gives values to the fields of an aggregate**, whose names are distinct, as C
says: none are found if and only if some entry has a designator that is not one name of a field,
goes past the last field, or gives an array neither a list nor a string. Otherwise each position
that is reached gets the value of the last entry that reaches it, in the order in which they are
first reached. -/
theorem fieldValues_eq_some_iff (hn : (a.fields.map Field.name).Nodup) (list : Node) :
    (a.fieldValues list = none ↔ ∃ k, a.Faulty list.items k) ∧
      ∀ values, a.fieldValues list = some values ↔
        (∀ k, ¬ a.Faulty list.items k) ∧ a.Gives list.items values := by
  obtain ⟨hnone, hsome⟩ := fieldValuesFrom_spec hn list.items (next_nil a) (gives_nil a)
    fun k h => absurd h.lt_length (Nat.not_lt_zero k)
  refine ⟨hnone, fun values => ⟨fun h => ⟨fun k hk => ?_, hsome values h⟩, fun ⟨hok, hg⟩ => ?_⟩⟩
  · rw [fieldValues, hnone.mpr ⟨k, hk⟩] at h
    cases h
  · cases h : a.fieldValues list with
    | none =>
      obtain ⟨k, hk⟩ := hnone.mp h
      exact absurd hk (hok k)
    | some found => rw [(hsome found h).eq hg]

end Aggregate

/-! ### A list that goes back and forth -/

namespace Triple

/-- `struct T {int a; int b; int w[2];}` -/
def triple : Aggregate where
  name := "struct T"
  names := ["struct T"]
  struct := .absent
  fields := [⟨"a", int⟩, ⟨"b", int⟩, ⟨"w", .build (.arrayDecl []) [int, .intLiteral 2]⟩]
where
  /-- The type of numbers. -/
  int : Node := .build (.typeDecl none []) [.build (.identifierType ["int"]) []]

/-- An entry for the field with a name. -/
def designated (name : String) (value : Node) : Node :=
  .build .namedInitializer [value, .ident name]

/-- `{3}` -/
def inner : Node := .build .initList [.intLiteral 3]

/-- `{.w = {3}, .a = 1, 2, .a = 5}` -/
def list : Node := .build .initList
  [designated "w" inner, designated "a" (.intLiteral 1), .intLiteral 2,
    designated "a" (.intLiteral 5)]

/-- `{1, 2, 3}` -/
def flat : Node := .build .initList [.intLiteral 1, .intLiteral 2, .intLiteral 3]

theorem fieldValues_list_and_flat :
    triple.Gives list.items [(2, inner), (0, .intLiteral 5), (1, .intLiteral 2)] ∧
      ∃ k, triple.Faulty flat.items k := by
  have hn : (triple.fields.map Field.name).Nodup := by decide
  obtain ⟨-, hsome⟩ := Aggregate.fieldValues_eq_some_iff hn list
  obtain ⟨hnone, -⟩ := Aggregate.fieldValues_eq_some_iff hn flat
  exact ⟨((hsome _).mp rfl).2, hnone.mp rfl⟩

end Triple

end Fieldwise
