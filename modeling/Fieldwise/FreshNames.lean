/-!
# Fresh names

`Names` hands out names that are not taken. `Names.get` keeps a wanted name if it is free and else
adds the first number that makes it free; `Names.next` numbers names of one stem upwards. There are
always enough numbers: among one more than there are taken names, one is free (`firstFree`).
-/

namespace Fieldwise

/-- The names that are taken, and for each numbered stem the number to try next. -/
structure Names where
  taken : List String
  counters : List (String × Nat) := []

namespace Names

variable (names : Names)

/-- The first number from `start` on that gives a free name. -/
def firstFree (name : Nat → String) (start : Nat) : Nat :=
  ((List.range' start (names.taken.length + 1)).find? fun k => !names.taken.contains (name k)).getD
    (start + names.taken.length)

/-- A free name: the wanted one, or else the wanted one with a number. -/
def get (base : String) : String × Names :=
  let numbered := fun k => base ++ "_" ++ toString k
  let name := if names.taken.contains base then numbered (names.firstFree numbered 0) else base
  (name, { names with taken := name :: names.taken })

/-- The number that a stem is tried with next. -/
def counter (stem : String) : Nat := (names.counters.lookup stem).getD 0

/-- The next free name with a number after a stem. -/
def next (stem : String) : String × Names :=
  let numbered := fun (k : Nat) => stem ++ toString k
  let k := names.firstFree numbered (names.counter stem)
  (numbered k,
    { taken := numbered k :: names.taken
      counters := (stem, k + 1) :: names.counters })

end Names

end Fieldwise
