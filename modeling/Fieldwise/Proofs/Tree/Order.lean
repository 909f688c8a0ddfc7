import Fieldwise.Proofs.Tree.Path
import Mathlib.Data.List.Nodup

/-!
# The order of a search

A path, a list of positions of parts, leads from a node to one below it (`Node.follow?`). A search
visits what the paths lead to on which nothing is left out (`Node.IsOpen`), and in the order of the
paths: a node before those below it, and what is below a part before what is below a later one
(`Node.search_inOrder`).
-/

namespace Fieldwise.Node

variable {prune : Node → Node → Bool} {t parent p c : Node} {ps : List Node} {path : List Nat}
  {i : Nat}

/-- The node that a path leads to. -/
def follow? (t : Node) : List Nat → Option Node
  | [] => some t
  | i :: path => t.parts[i]?.bind fun c => c.follow? path

/-- A path leads to a node, and no node on it below the first is left out. -/
structure IsOpen (prune : Node → Node → Bool) (t : Node) (path : List Nat) : Prop where
  leads : ∃ x, t.follow? path = some x ∧ x.isPresent
  kept : ∀ above i below, path = above ++ i :: below → ∀ p c, t.follow? above = some p →
    p.parts[i]? = some c → prune p c = false

/-- Some nodes are those to which certain paths lead, by each path once and in the order of the
paths. -/
def InOrder (t : Node) (reached : List Nat → Prop) (found : List Node) : Prop :=
  ∃ paths : List (List Nat), paths.Pairwise (· < ·) ∧ (∀ path, path ∈ paths ↔ reached path) ∧
    paths.map t.follow? = found.map some

theorem isOpen_nil : IsOpen prune t [] ↔ t.isPresent :=
  ⟨fun h => by simpa [follow?] using h.leads, fun h => ⟨⟨t, rfl, h⟩, by simp⟩⟩

theorem isOpen_cons : IsOpen prune t (i :: path) ↔
    ∃ c, t.parts[i]? = some c ∧ prune t c = false ∧ IsOpen prune c path := by
  constructor
  · rintro ⟨⟨x, hx, hpres⟩, hkept⟩
    obtain ⟨c, hc, hx⟩ := Option.bind_eq_some_iff.mp hx
    refine ⟨c, hc, hkept [] i path rfl t c rfl hc, ⟨x, hx, hpres⟩, ?_⟩
    rintro above j below rfl p q hp hq
    exact hkept (i :: above) j below rfl p q (by simp [follow?, hc, hp]) hq
  · rintro ⟨c, hc, hprune, ⟨x, hx, hpres⟩, hkept⟩
    refine ⟨⟨x, by simp [follow?, hc, hx], hpres⟩, ?_⟩
    intro above j below hpath p q hp hq
    cases above with
    | nil =>
      obtain ⟨rfl, -⟩ := List.cons.inj hpath
      obtain rfl : t = p := by simpa [follow?] using hp
      obtain rfl : c = q := Option.some.inj (hc.symm.trans hq)
      exact hprune
    | cons k above =>
      obtain ⟨rfl, rfl⟩ := List.cons.inj hpath
      refine hkept above j below rfl p q ?_ hq
      simpa [follow?, hc] using hp

mutual

/-- The paths of a search, in its order. -/
def openPaths (prune : Node → Node → Bool) : Node → List (List Nat)
  | absent => []
  | mk m f ps => [] :: openPathsFrom prune (mk m f ps) 0 ps

/-- The paths of a search to and through the parts of a node from a position on. -/
def openPathsFrom (prune : Node → Node → Bool) (parent : Node) (i : Nat) :
    List Node → List (List Nat)
  | [] => []
  | p :: ps =>
    (if prune parent p then [] else (openPaths prune p).map (i :: ·)) ++
      openPathsFrom prune parent (i + 1) ps

end

theorem mem_openPathsFrom : path ∈ openPathsFrom prune parent i ps ↔ ∃ j p below,
    path = (i + j) :: below ∧ ps[j]? = some p ∧ prune parent p = false ∧
      below ∈ openPaths prune p := by
  induction ps generalizing i with
  | nil => simp [openPathsFrom]
  | cons p ps ih =>
    rw [openPathsFrom, List.mem_append, ih]
    constructor
    · rintro (hp | ⟨j, q, below, rfl, hq, hprune, hbelow⟩)
      · cases hprune : prune parent p with
        | true => simp [hprune] at hp
        | false =>
          obtain ⟨below, hbelow, rfl⟩ := by simpa [hprune] using hp
          exact ⟨0, p, below, rfl, rfl, hprune, hbelow⟩
      · exact ⟨j + 1, q, below, by rw [Nat.add_right_comm, Nat.add_assoc], hq, hprune, hbelow⟩
    · rintro ⟨j, q, below, rfl, hq, hprune, hbelow⟩
      cases j with
      | zero =>
        obtain rfl : p = q := by simpa using hq
        exact .inl (by simp [hprune, hbelow])
      | succ j =>
        exact .inr ⟨j, q, below, by rw [Nat.add_right_comm, Nat.add_assoc], hq, hprune, hbelow⟩

/-- The paths of a search are the open ones. -/
theorem mem_openPaths : path ∈ openPaths prune t ↔ IsOpen prune t path := by
  induction t using induction generalizing path with
  | h₀ =>
    cases path with
    | nil => simp [openPaths, isOpen_nil, isPresent]
    | cons i path => simp [openPaths, isOpen_cons, parts]
  | h m f ps ih =>
    rw [openPaths, List.mem_cons, mem_openPathsFrom]
    cases path with
    | nil => simp [isOpen_nil, isPresent]
    | cons i path =>
      rw [isOpen_cons]
      simp only [reduceCtorEq, List.cons.injEq, Nat.zero_add, false_or, parts]
      constructor
      · rintro ⟨j, p, below, ⟨rfl, rfl⟩, hp, hprune, hbelow⟩
        exact ⟨p, hp, hprune, (ih p (List.mem_of_getElem? hp)).mp hbelow⟩
      · rintro ⟨p, hp, hprune, hopen⟩
        exact ⟨i, p, path, ⟨rfl, rfl⟩, hp, hprune, (ih p (List.mem_of_getElem? hp)).mpr hopen⟩

/-- Paths that begin at parts from a position on are in order if those from each part are. -/
theorem pairwise_openPathsFrom (h : ∀ p ∈ ps, (openPaths prune p).Pairwise (· < ·)) (i : Nat) :
    (openPathsFrom prune parent i ps).Pairwise (· < ·) := by
  induction ps generalizing i with
  | nil => exact .nil
  | cons p ps ih =>
    rw [openPathsFrom, List.pairwise_append]
    refine ⟨?_, ih (fun q hq => h q (List.mem_cons_of_mem _ hq)) (i + 1), ?_⟩
    · split
      · exact .nil
      · rw [List.pairwise_map]
        exact (h p List.mem_cons_self).imp fun hlt => List.cons_lt_cons_iff.mpr (.inr ⟨rfl, hlt⟩)
    · intro a ha b hb
      obtain ⟨j, q, below, rfl, -⟩ := mem_openPathsFrom.mp hb
      split at ha
      · cases ha
      · obtain ⟨a, -, rfl⟩ := List.mem_map.mp ha
        exact List.cons_lt_cons_iff.mpr (.inl (by omega))

theorem pairwise_openPaths (prune : Node → Node → Bool) (t : Node) :
    (openPaths prune t).Pairwise (· < ·) := by
  induction t using induction with
  | h₀ => exact .nil
  | h m f ps ih =>
    rw [openPaths, List.pairwise_cons]
    refine ⟨fun path hpath => ?_, pairwise_openPathsFrom ih 0⟩
    obtain ⟨j, p, below, rfl, -⟩ := mem_openPathsFrom.mp hpath
    exact List.nil_lt_cons _ _

/-- Where the paths of a search lead, in its order. -/
theorem map_follow?_openPathsFrom (h : ∀ p ∈ ps, (openPaths prune p).map p.follow? =
    (p.search prune).map some) (hps : parent.parts.drop i = ps) :
    (openPathsFrom prune parent i ps).map parent.follow? =
      (searchAll prune parent ps).map some := by
  induction ps generalizing i with
  | nil => rfl
  | cons p ps ih =>
    have hp : parent.parts[i]? = some p := by
      rw [← List.head?_drop, hps, List.head?_cons]
    have hrest : parent.parts.drop (i + 1) = ps := by
      rw [← List.drop_drop, hps, List.drop_one, List.tail_cons]
    rw [openPathsFrom, searchAll, List.map_append, List.map_append,
      ih (fun q hq => h q (List.mem_cons_of_mem _ hq)) hrest]
    congr 1
    split
    · rfl
    · rw [← h p List.mem_cons_self, List.map_map]
      exact List.map_congr_left fun path _ => by simp [follow?, hp]

theorem map_follow?_openPaths (prune : Node → Node → Bool) (t : Node) :
    (openPaths prune t).map t.follow? = (t.search prune).map some := by
  induction t using induction with
  | h₀ => rfl
  | h m f ps ih =>
    rw [openPaths, search, List.map_cons, List.map_cons, map_follow?_openPathsFrom ih rfl]
    rfl

/-- **A search finds what the open paths lead to and a test holds of**, in the order of the paths. -/
theorem search_inOrder (prune : Node → Node → Bool) (keep : Node → Bool) (t : Node) :
    t.InOrder (fun path => t.IsOpen prune path ∧ ∃ x, t.follow? path = some x ∧ keep x)
      ((t.search prune).filter keep) := by
  refine ⟨(openPaths prune t).filter fun path => (t.follow? path).any keep,
    (pairwise_openPaths prune t).filter _, fun path => ?_, ?_⟩
  · rw [List.mem_filter, mem_openPaths, Option.any_eq_true]
  · have hfound := congrArg (List.filter (Option.any keep)) (map_follow?_openPaths prune t)
    rw [List.filter_map, List.filter_map] at hfound
    exact hfound

/-- A search that leaves nothing out visits every node. -/
theorem search_false (t : Node) : (t.search fun _ _ => false) = t.preorder := by
  induction t using induction with
  | h₀ => rfl
  | h m f ps ih =>
    rw [search, preorder, searchAll_false, preorderAll_eq_flatMap, List.flatMap_def,
      List.flatMap_def, List.map_congr_left ih]

/-- A path on which nothing can be left out is open if it leads somewhere. -/
theorem isOpen_false : IsOpen (fun _ _ => false) t path ↔
    ∃ x, t.follow? path = some x ∧ x.isPresent :=
  ⟨IsOpen.leads, fun h => ⟨h, fun _ _ _ _ _ _ _ _ => rfl⟩⟩

/-- Where no node is met twice, one path leads to each. -/
theorem existsUnique_path {x : Node} (h : t.preorder.Nodup) (hx : x ∈ t.preorder) :
    ∃! path, t.follow? path = some x := by
  have hmap := map_follow?_openPaths (fun _ _ => false) t
  rw [search_false] at hmap
  have hnodup : ((openPaths (fun _ _ => false) t).map t.follow?).Nodup := by
    rw [hmap]
    exact h.map fun _ _ => Option.some.inj
  have hmem : some x ∈ (openPaths (fun _ _ => false) t).map t.follow? := by
    rw [hmap]
    exact List.mem_map_of_mem hx
  obtain ⟨path, hpath, hlead⟩ := List.mem_map.mp hmem
  refine ⟨path, hlead, fun other hother => ?_⟩
  have hopen : other ∈ openPaths (fun _ _ => false) t :=
    mem_openPaths.mpr (isOpen_false.mpr ⟨x, hother, isPresent_of_mem_preorder hx⟩)
  exact List.inj_on_of_nodup_map hnodup hopen hpath (hother.trans hlead.symm)

end Fieldwise.Node
