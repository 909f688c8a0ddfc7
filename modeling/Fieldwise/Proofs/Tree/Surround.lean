import Fieldwise.Proofs.Tree.Graft

/-!
# What surrounds a place in a tree

A `Node.Surround` is a tree with a place left open, into which any number of trees fit
(`Node.Surround.fill`). A search of the filled tree meets what comes before the place, then what
was filled in, and then what comes after it (`Node.visits_fill`). A key that does not occur in the
surroundings is looked up, and what has it is changed, in the filling only
(`Node.ancestorsAll?_fill`, `Node.modifyAllAt_fill`). Where no key occurs twice, that remains so for
a filling whose keys are distinct and do not occur elsewhere (`Node.nodup_keys_fill`).
-/

namespace Fieldwise.Node

variable {k next : Nat} {ts us : List Node} {t x : Node}

/-! ### Keys and visits -/

/-- The keys that a search of some trees meets, in its order. -/
def keys (ts : List Node) : List Nat := (preorderAll ts).filterMap key

/-- What a search of some trees meets, in its order: the mark and the form of each node. -/
def visits (ts : List Node) : List (Mark × Option Form) :=
  (preorderAll ts).map fun n => (n.mark, n.form?)

theorem mem_keys : k ∈ keys ts ↔ ∃ x ∈ preorderAll ts, x.key = some k := List.mem_filterMap

theorem preorderAll_append (ts us : List Node) :
    preorderAll (ts ++ us) = preorderAll ts ++ preorderAll us := by
  simp [preorderAll_eq_flatMap]

theorem keys_append (ts us : List Node) : keys (ts ++ us) = keys ts ++ keys us := by
  rw [keys, preorderAll_append, List.filterMap_append, keys, keys]

theorem visits_append (ts us : List Node) : visits (ts ++ us) = visits ts ++ visits us := by
  rw [visits, preorderAll_append, List.map_append, visits, visits]

theorem keys_eq_filterMap_visits (ts : List Node) :
    keys ts = (visits ts).filterMap (·.1.key) := by
  rw [keys, visits, List.filterMap_map]
  rfl

theorem keys_singleton_mk (m : Mark) (f : Form) (ps : List Node) :
    keys [mk m f ps] = m.key.toList ++ keys ps := by
  rw [keys, preorderAll, preorder, preorderAll, List.append_nil, List.filterMap_cons, keys]
  cases hm : m.key <;> simp [key, mark, hm]

theorem modifyAllAt_of_not_mem_keys (change : Node → Node) (h : k ∉ keys ts) :
    modifyAllAt k change ts = ts := by
  rw [modifyAllAt_eq_map]
  refine (List.map_congr_left fun t ht => ?_).trans (List.map_id ts)
  exact modifyAt_of_not_occurs fun y hy hk =>
    h (mem_keys.mpr ⟨y, mem_preorderAll.mpr ⟨t, ht, hy⟩, hk⟩)

theorem ancestors?_eq_none (h : k ∉ keys [t]) : ancestors? k t = none := by
  rw [← Option.not_isSome_iff_eq_none, ancestors?_isSome, find?_isSome]
  rintro ⟨x, hx, hk⟩
  exact h (mem_keys.mpr ⟨x, mem_preorderAll_singleton.mpr hx, hk⟩)

theorem mem_keys_of_mem (ht : t ∈ ts) (h : k ∈ keys [t]) : k ∈ keys ts := by
  obtain ⟨x, hx, hk⟩ := mem_keys.mp h
  exact mem_keys.mpr ⟨x, mem_preorderAll.mpr ⟨t, ht, mem_preorderAll_singleton.mp hx⟩, hk⟩

theorem ancestorsAll?_eq_none (h : k ∉ keys ts) : ancestorsAll? k ts = none := by
  rw [ancestorsAll?_eq_findSome?, List.findSome?_eq_none_iff]
  exact fun t ht => ancestors?_eq_none fun hk => h (mem_keys_of_mem ht hk)

theorem ancestorsAll?_singleton (k : Nat) (t : Node) : ancestorsAll? k [t] = ancestors? k t := by
  rw [ancestorsAll?]
  cases ancestors? k t <;> rfl

theorem ancestorsAll?_append (ts us : List Node) :
    ancestorsAll? k (ts ++ us) = (ancestorsAll? k ts).or (ancestorsAll? k us) := by
  simp only [ancestorsAll?_eq_findSome?, List.findSome?_append]

theorem modifyAllAt_append (change : Node → Node) (ts us : List Node) :
    modifyAllAt k change (ts ++ us) = modifyAllAt k change ts ++ modifyAllAt k change us := by
  simp only [modifyAllAt_eq_map, List.map_append]

/-! ### Keys of a stamped tree -/

/-- The keys of a stamped tree are its own and new ones. -/
theorem mem_keys_stampAll (h : k ∈ keys (stampAll next ts).1) :
    k ∈ keys ts ∨ next ≤ k ∧ k < (stampAll next ts).2 := by
  obtain ⟨x, hx, hk⟩ := mem_keys.mp h
  obtain ⟨j, hj, ho⟩ := key_stampAll next ts x hx
  obtain rfl : j = k := Option.some.inj (hj.symm.trans hk)
  exact ho.imp_left mem_keys.mpr

mutual

/-- **New keys are told apart from each other and from those that were there.** -/
theorem nodup_keys_stamp (next : Nat) : ∀ t : Node, (∀ k ∈ keys [t], k < next) → (keys [t]).Nodup →
    (keys [(stamp next t).1]).Nodup
  | absent, _, _ => List.nodup_nil
  | mk ⟨none, line⟩ f ps, hlt, hd => by
    rw [stamp_mk_none, keys_singleton_mk]
    rw [keys_singleton_mk] at hlt hd
    refine List.nodup_cons.mpr ⟨fun hm => ?_, nodup_keys_stampAll (next + 1) ps
      (fun k hk => Nat.lt_succ_of_lt (hlt k hk)) hd⟩
    rcases mem_keys_stampAll hm with hm | hm
    · exact Nat.lt_irrefl _ (hlt next hm)
    · omega
  | mk ⟨some j, line⟩ f ps, hlt, hd => by
    rw [stamp_mk_some, keys_singleton_mk]
    rw [keys_singleton_mk] at hlt hd
    obtain ⟨hj, hd⟩ := List.nodup_cons.mp hd
    refine List.nodup_cons.mpr ⟨fun hm => ?_, nodup_keys_stampAll next ps
      (fun k hk => hlt k (List.mem_cons_of_mem _ hk)) hd⟩
    rcases mem_keys_stampAll hm with hm | hm
    · exact hj hm
    · have := hlt j List.mem_cons_self
      omega

theorem nodup_keys_stampAll (next : Nat) : ∀ ts : List Node, (∀ k ∈ keys ts, k < next) →
    (keys ts).Nodup → (keys (stampAll next ts).1).Nodup
  | [], _, _ => List.nodup_nil
  | t :: ts, hlt, hd => by
    rw [stampAll_cons, ← List.singleton_append, keys_append]
    rw [← List.singleton_append, keys_append] at hlt hd
    obtain ⟨hdt, hds, hdis⟩ := List.nodup_append.mp hd
    have hle := le_stamp next t
    have hltt : ∀ k ∈ keys [t], k < next := fun k hk => hlt k (List.mem_append_left _ hk)
    have hlts : ∀ k ∈ keys ts, k < next := fun k hk => hlt k (List.mem_append_right _ hk)
    refine List.nodup_append.mpr ⟨nodup_keys_stamp next t hltt hdt,
      nodup_keys_stampAll (stamp next t).2 ts (fun k hk => Nat.lt_of_lt_of_le (hlts k hk) hle) hds,
      fun a ha b hb hab => ?_⟩
    subst hab
    -- A key is an old one of either tree, or one of those given to the first or to the others.
    have ht : a ∈ keys (stampAll next [t]).1 := ha
    rcases mem_keys_stampAll ht with ht | ht <;> rcases mem_keys_stampAll hb with hs | hs
    · exact hdis a ht a hs rfl
    · have := hltt a ht
      omega
    · have := hlts a hs
      omega
    · have : (stampAll next [t]).2 = (stamp next t).2 := rfl
      omega

end

/-! ### Trees around a place -/

/-- A tree with a place left open: the place itself, or a node with parts on both sides of the one
that holds the place. -/
inductive Surround where
  | hole
  | inside (mark : Mark) (form : Form) (left : List Node) (inner : Surround) (right : List Node)

namespace Surround

/-- The trees with something put into the open place. -/
def fill : Surround → List Node → List Node
  | hole, ts => ts
  | inside m f left inner right, ts => [mk m f (left ++ inner.fill ts ++ right)]

/-- The surroundings of some parts of a node that is in the place. -/
def within : Surround → Mark → Form → List Node → List Node → Surround
  | hole, m, f, us, vs => inside m f us hole vs
  | inside m' f' left inner right, m, f, us, vs =>
    inside m' f' left (inner.within m f us vs) right

/-- What a search meets before the place. -/
def before : Surround → List (Mark × Option Form)
  | hole => []
  | inside m f left inner _ => (m, some f) :: (visits left ++ inner.before)

/-- What a search meets after the place. -/
def after : Surround → List (Mark × Option Form)
  | hole => []
  | inside _ _ _ inner right => inner.after ++ visits right

/-- The keys that occur around the place. -/
def keys (s : Surround) : List Nat :=
  s.before.filterMap (·.1.key) ++ s.after.filterMap (·.1.key)

/-- The nodes above the place, nearest first. -/
def above : Surround → List Node → List Node
  | hole, _ => []
  | inside m f left inner right, ts =>
    inner.above ts ++ [mk m f (left ++ inner.fill ts ++ right)]

theorem fill_within (s : Surround) (m : Mark) (f : Form) (us vs ts : List Node) :
    (s.within m f us vs).fill ts = s.fill [mk m f (us ++ ts ++ vs)] := by
  induction s with
  | hole => rfl
  | inside m' f' left inner right ih => rw [within, fill, fill, ih]

end Surround

variable {s : Surround}

/-- What is filled in occurs in the tree. -/
theorem mem_preorderAll_fill (hx : x ∈ preorderAll ts) : x ∈ preorderAll (s.fill ts) := by
  induction s with
  | hole => exact hx
  | inside m f left inner right ih =>
    rw [Surround.fill, mem_preorderAll_singleton, preorder, preorderAll_append, preorderAll_append]
    exact List.mem_cons_of_mem _ (List.mem_append_left _ (List.mem_append_right _ ih))

/-- **A search meets what is before the place, what is in it, and what is after it.** -/
theorem visits_fill (s : Surround) (ts : List Node) :
    visits (s.fill ts) = s.before ++ visits ts ++ s.after := by
  induction s with
  | hole => simp [Surround.fill, Surround.before, Surround.after]
  | inside m f left inner right ih =>
    have hmk : visits [mk m f (left ++ inner.fill ts ++ right)] =
        (m, some f) :: visits (left ++ inner.fill ts ++ right) := by
      simp [visits, preorderAll, preorder, mark, form?]
    rw [Surround.fill, hmk, visits_append, visits_append, ih, Surround.before, Surround.after]
    simp only [List.cons_append, List.append_assoc]

theorem keys_fill_perm (s : Surround) (ts : List Node) :
    (keys (s.fill ts)).Perm (keys ts ++ s.keys) := by
  rw [keys_eq_filterMap_visits, visits_fill, List.filterMap_append, List.filterMap_append,
    ← keys_eq_filterMap_visits, Surround.keys, List.append_assoc]
  exact List.perm_append_comm_assoc _ _ _

theorem mem_keys_fill : k ∈ keys (s.fill ts) ↔ k ∈ keys ts ∨ k ∈ s.keys := by
  rw [(keys_fill_perm s ts).mem_iff, List.mem_append]

/-- The keys around a place within a place. -/
theorem mem_keys_inside {m : Mark} {f : Form} {left right : List Node} :
    k ∈ (Surround.inside m f left s right).keys ↔
      m.key = some k ∨ k ∈ keys left ∨ k ∈ s.keys ∨ k ∈ keys right := by
  rw [Surround.keys, Surround.before, Surround.after, Surround.keys, List.filterMap_cons,
    keys_eq_filterMap_visits, keys_eq_filterMap_visits]
  cases hm : m.key with
  | none => simp [or_assoc]
  | some j => simp only [List.filterMap_append, List.cons_append, List.mem_cons, List.mem_append,
      Option.some.injEq, or_assoc, eq_comm]

theorem mem_keys_within {m : Mark} {f : Form} {us vs : List Node} :
    k ∈ (s.within m f us vs).keys ↔
      k ∈ s.keys ∨ m.key = some k ∨ k ∈ keys us ∨ k ∈ keys vs := by
  induction s with
  | hole =>
    have hnone : k ∉ Surround.hole.keys := List.not_mem_nil
    rw [Surround.within, mem_keys_inside]
    simp only [hnone, false_or]
  | inside m' f' left inner right ih =>
    rw [Surround.within, mem_keys_inside, mem_keys_inside, ih]
    simp only [or_left_comm, or_comm]

/-- **Exchanging what is in a place keeps the keys distinct**, if those put in are and occur
nowhere else. -/
theorem nodup_keys_fill (h : (keys (s.fill ts)).Nodup) (hd : (keys us).Nodup)
    (hu : ∀ k ∈ keys us, k ∉ keys (s.fill ts)) : (keys (s.fill us)).Nodup := by
  rw [(keys_fill_perm s us).nodup_iff]
  rw [(keys_fill_perm s ts).nodup_iff] at h
  refine List.nodup_append.mpr ⟨hd, (List.nodup_append.mp h).2.1, fun a ha b hb hab => ?_⟩
  subst hab
  exact hu a ha (mem_keys_fill.mpr (.inr hb))

/-- **A key that does not occur around a place is changed in it only.** -/
theorem modifyAllAt_fill (change : Node → Node) (h : k ∉ s.keys) (ts : List Node) :
    modifyAllAt k change (s.fill ts) = s.fill (modifyAllAt k change ts) := by
  induction s with
  | hole => rfl
  | inside m f left inner right ih =>
    simp only [mem_keys_inside, not_or] at h
    obtain ⟨hm, hl, hi, hr⟩ := h
    rw [Surround.fill, Surround.fill, modifyAllAt, modifyAllAt, modifyAt,
      if_neg (by simpa using hm), modifyAllAt_append, modifyAllAt_append, ih hi,
      modifyAllAt_of_not_mem_keys _ hl, modifyAllAt_of_not_mem_keys _ hr]

/-- **The nodes above a key that does not occur around a place** are those above it there and then
those above the place. -/
theorem ancestorsAll?_fill (h : k ∉ s.keys) (ts : List Node) :
    ancestorsAll? k (s.fill ts) = (ancestorsAll? k ts).map (· ++ s.above ts) := by
  induction s with
  | hole => simp [Surround.fill, Surround.above]
  | inside m f left inner right ih =>
    simp only [mem_keys_inside, not_or] at h
    obtain ⟨hm, hl, hi, hr⟩ := h
    rw [Surround.fill, ancestorsAll?_singleton, ancestors?, if_neg (by simpa using hm),
      ancestorsAll?_append, ancestorsAll?_append, ih hi, ancestorsAll?_eq_none hl,
      ancestorsAll?_eq_none hr, Option.none_or, Option.or_none, Option.map_map]
    simp [Surround.above, Function.comp_def]

/-- **A node that occurs in a tree has surroundings there.** -/
theorem exists_fill (h : x ∈ t.preorder) : ∃ s : Surround, s.fill [x] = [t] := by
  induction t using induction with
  | h₀ => exact absurd h not_mem_preorder_absent
  | h m f ps ih =>
    rcases mem_preorder_mk.mp h with rfl | ⟨p, hp, hx⟩
    · exact ⟨.hole, rfl⟩
    · obtain ⟨s, hs⟩ := ih p hp hx
      obtain ⟨left, right, rfl⟩ := List.append_of_mem hp
      exact ⟨.inside m f left s right, by simp [Surround.fill, hs]⟩

end Fieldwise.Node
