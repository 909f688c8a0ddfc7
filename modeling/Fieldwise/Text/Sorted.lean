/-!
# Sorted sets of text

Texts in the order of their characters, each once.
-/

namespace Fieldwise

/-- Puts a text at its place in a sorted list, if it is not there yet. -/
def insertSorted (s : String) : List String → List String
  | [] => [s]
  | t :: ts => if s == t then t :: ts else if s < t then s :: t :: ts else t :: insertSorted s ts

/-- The texts of a list in order, each once. -/
def sortedSet (texts : List String) : List String :=
  texts.foldl (fun found s => insertSorted s found) []

theorem mem_insertSorted {s t : String} {ts : List String} :
    t ∈ insertSorted s ts ↔ t = s ∨ t ∈ ts := by
  induction ts with
  | nil => simp [insertSorted]
  | cons u us ih =>
    simp only [insertSorted]
    split
    · rename_i h
      have : s = u := by simpa using h
      subst this; simp
    · split
      · simp
      · simp only [List.mem_cons, ih]; grind

end Fieldwise
