import Fieldwise.FreshNames
import Fieldwise.Text.Sorted
import Mathlib.Data.List.Perm.Subperm
import Mathlib.Data.List.Nodup

/-!
# Names that are free

A numbered name is free when it is handed out (`Names.next_not_mem`): among one more than there are
taken names, not all are taken, as different numbers give different names.
-/

namespace Fieldwise

theorem numbered_injective (stem : String) :
    Function.Injective fun k : Nat => stem ++ toString k := by
  intro j k h
  have hdigits : Nat.toDigits 10 j = Nat.toDigits 10 k := by
    simpa [Nat.toString_eq_repr, Nat.toList_repr] using congrArg String.toList h
  -- a number can be read from its digits
  simpa using congrArg (fun digits => Nat.ofDigitChars 10 digits 0) hdigits

namespace Names

/-- A number that gives a free name is found, where different numbers give different names. -/
theorem firstFree_not_mem (names : Names) {name : Nat → String} (h : Function.Injective name)
    (start : Nat) : name (names.firstFree name start) ∉ names.taken := by
  unfold firstFree
  cases hfound : (List.range' start (names.taken.length + 1)).find?
      fun k => !names.taken.contains (name k) with
  | some k =>
    have hk := List.find?_some hfound
    simpa using hk
  | none =>
    -- there would be more taken names than there are
    have hall : ∀ k ∈ List.range' start (names.taken.length + 1), name k ∈ names.taken := by
      simpa using hfound
    have hnodup : ((List.range' start (names.taken.length + 1)).map name).Nodup :=
      (List.nodup_range').map h
    have hsub : (List.range' start (names.taken.length + 1)).map name ⊆ names.taken := by
      intro x hx
      obtain ⟨k, hk, rfl⟩ := List.mem_map.mp hx
      exact hall k hk
    have hlen := (List.subperm_of_subset hnodup hsub).length_le
    simp only [List.length_map, List.length_range'] at hlen
    omega

/-- A name is free when it is given out for a wanted one. -/
theorem get_not_mem (names : Names) (base : String) : (names.get base).1 ∉ names.taken := by
  by_cases hb : base ∈ names.taken
  · simpa [get, hb] using names.firstFree_not_mem (numbered_injective (base ++ "_")) 0
  · simp [get, hb]

/-- The next numbered name is free, and it is taken from then on. -/
theorem next_not_mem (names : Names) (stem : String) : (names.next stem).1 ∉ names.taken :=
  names.firstFree_not_mem (numbered_injective stem) _

theorem taken_next (names : Names) (stem : String) :
    (names.next stem).2.taken = (names.next stem).1 :: names.taken := rfl

/-- Some names that were free have been given out, and are taken from then on. -/
structure Gives (names : Names) (given : List String) (after : Names) : Prop where
  taken : after.taken = given ++ names.taken
  nodup : given.Nodup
  fresh : ∀ name ∈ given, name ∉ names.taken

namespace Gives

variable {names names' names'' : Names} {given given' : List String}

theorem refl (names : Names) : names.Gives [] names := ⟨rfl, .nil, fun _ h => by cases h⟩

theorem trans (h : names.Gives given names') (h' : names'.Gives given' names'') :
    names.Gives (given' ++ given) names'' where
  taken := by rw [h'.taken, h.taken, List.append_assoc]
  nodup := List.nodup_append'.mpr ⟨h'.nodup, h.nodup, fun name hn hn' =>
    h'.fresh name hn (h.taken ▸ List.mem_append_left _ hn')⟩
  fresh name hn hn' := by
    rcases List.mem_append.mp hn with hn | hn
    · exact h'.fresh name hn (h.taken ▸ List.mem_append_right _ hn')
    · exact h.fresh name hn hn'

theorem get (names : Names) (base : String) :
    names.Gives [(names.get base).1] (names.get base).2 :=
  ⟨rfl, List.nodup_singleton _, List.forall_mem_singleton.mpr (names.get_not_mem base)⟩

theorem next (names : Names) (stem : String) :
    names.Gives [(names.next stem).1] (names.next stem).2 :=
  ⟨rfl, List.nodup_singleton _, List.forall_mem_singleton.mpr (names.next_not_mem stem)⟩

/-- What was taken stays taken. -/
theorem subset (h : names.Gives given names') : names.taken ⊆ names'.taken := fun _ hn =>
  h.taken ▸ List.mem_append_right _ hn

end Gives

end Names

theorem mem_sortedSet {s : String} {texts : List String} : s ∈ sortedSet texts ↔ s ∈ texts := by
  have hfold : ∀ found : List String,
      s ∈ texts.foldl (fun found s => insertSorted s found) found ↔ s ∈ found ∨ s ∈ texts := by
    induction texts with
    | nil => simp
    | cons t ts ih =>
      intro found
      rw [List.foldl_cons, ih, mem_insertSorted, List.mem_cons]
      tauto
  rw [sortedSet, hfold]
  simp

end Fieldwise
