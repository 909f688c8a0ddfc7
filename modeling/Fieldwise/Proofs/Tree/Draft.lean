import Fieldwise.Proofs.Tree.Knit

/-!
# Drafts of a program that is being built

While a program is built, only the types with members have keys, and what is below them. These nodes
are the `Node.shared` ones of a tree: several declarators may have been given the same of them. Once
all other nodes get keys as well, the tree is knit if its shared nodes are (`Node.Knit.stampAll`).

Trees are a draft, `Node.Draft a b ts`, if their keys are from `a` on and below `b` and they will be
knit. As it looks at the shared nodes alone, trees can be put together and regrouped freely
(`Draft.append`, `Draft.node`, `Draft.regroup`).
-/

namespace Fieldwise.Node

mutual

/-- The topmost nodes that have keys. -/
def shared : Node → List Node
  | absent => []
  | mk m f ps => if m.key.isSome then [mk m f ps] else sharedAll ps

/-- The topmost nodes of several trees that have keys. -/
def sharedAll : List Node → List Node
  | [] => []
  | p :: ps => shared p ++ sharedAll ps

end

theorem shared_mk_none (line : Option Nat) (f : Form) (ps : List Node) :
    shared (mk ⟨none, line⟩ f ps) = sharedAll ps := rfl

theorem shared_mk_some (k : Nat) (line : Option Nat) (f : Form) (ps : List Node) :
    shared (mk ⟨some k, line⟩ f ps) = [mk ⟨some k, line⟩ f ps] := rfl

@[simp] theorem sharedAll_nil : sharedAll [] = [] := rfl

@[simp] theorem sharedAll_cons (p : Node) (ps : List Node) :
    sharedAll (p :: ps) = shared p ++ sharedAll ps := rfl

@[simp] theorem sharedAll_append (ps qs : List Node) :
    sharedAll (ps ++ qs) = sharedAll ps ++ sharedAll qs := by
  induction ps with
  | nil => rfl
  | cons p ps ih => simp [ih]

theorem sharedAll_sublist {ts us : List Node} (h : ts.Sublist us) :
    (sharedAll ts).Sublist (sharedAll us) := by
  induction h with
  | slnil => exact .slnil
  | cons t _ ih => exact ih.trans (List.sublist_append_right _ _)
  | cons_cons t _ ih => exact ih.append_left _

/-! ### Keys that occur -/

theorem occurs_append {k : Nat} {ts us : List Node} :
    Occurs k (ts ++ us) ↔ Occurs k ts ∨ Occurs k us := by
  simp only [Occurs, mem_preorderAll_append, or_and_right, exists_or]

theorem occurs_cons {k : Nat} {t : Node} {ts : List Node} :
    Occurs k (t :: ts) ↔ Occurs k [t] ∨ Occurs k ts := by
  show Occurs k ([t] ++ ts) ↔ Occurs k [t] ∨ Occurs k ts
  exact occurs_append

theorem not_occurs_nil {k : Nat} : ¬ Occurs k [] := fun ⟨_, hx, _⟩ => nomatch hx

theorem Occurs.perm {k : Nat} {ts us : List Node} (h : Occurs k ts) (hp : ts.Perm us) :
    Occurs k us := by
  obtain ⟨x, hx, hk⟩ := h
  obtain ⟨t, ht, hx⟩ := mem_preorderAll.mp hx
  exact ⟨x, mem_preorderAll.mpr ⟨t, hp.subset ht, hx⟩, hk⟩

/-- The keys in a node without a key are those in its parts. -/
theorem occurs_mk_none {k : Nat} {line : Option Nat} {f : Form} {ps : List Node} :
    Occurs k [mk ⟨none, line⟩ f ps] ↔ Occurs k ps := by
  simp only [Occurs, mem_preorderAll_singleton, mem_preorder_iff (t := mk _ f ps) rfl]
  constructor
  · rintro ⟨x, rfl | hx, hk⟩
    · cases hk
    · exact ⟨x, hx, hk⟩
  · rintro ⟨x, hx, hk⟩
    exact ⟨x, .inr hx, hk⟩

theorem occurs_of_forall {k : Nat} {ps : List Node}
    (h : ∀ p ∈ ps, Occurs k [p] → Occurs k (shared p)) (hk : Occurs k ps) :
    Occurs k (sharedAll ps) := by
  induction ps with
  | nil => exact hk
  | cons p ps ih =>
    rw [sharedAll_cons, occurs_append]
    rcases occurs_cons.mp hk with hk | hk
    · exact .inl (h p List.mem_cons_self hk)
    · exact .inr (ih (fun q hq => h q (List.mem_cons_of_mem _ hq)) hk)

/-- All keys are in shared nodes. -/
theorem occurs_shared {k : Nat} (t : Node) : Occurs k [t] → Occurs k (shared t) := by
  induction t using induction with
  | h₀ =>
    rintro ⟨x, hx, -⟩
    exact absurd (mem_preorderAll_singleton.mp hx) not_mem_preorder_absent
  | h m f ps ih =>
    obtain ⟨_ | j, line⟩ := m
    · rw [occurs_mk_none, shared_mk_none]
      exact occurs_of_forall ih
    · exact id

theorem occurs_sharedAll {k : Nat} {ts : List Node} (h : Occurs k ts) : Occurs k (sharedAll ts) :=
  occurs_of_forall (fun t _ => occurs_shared t) h

/-- The keys of trees that all got keys. -/
theorem occurs_stampAll {k next : Nat} {ts : List Node} (h : Occurs k (stampAll next ts).1) :
    Occurs k (sharedAll ts) ∨ next ≤ k ∧ k < (stampAll next ts).2 := by
  obtain ⟨x, hx, hk⟩ := h
  obtain ⟨j, hj, h⟩ := key_stampAll next ts x hx
  obtain rfl : j = k := by simpa [hj] using hk
  exact h.imp_left occurs_sharedAll

theorem not_occurs_keyless {k : Nat} {ts : List Node} (h : Keyless ts) : ¬ Occurs k ts := by
  rintro ⟨x, hx, hk⟩
  rw [h x hx] at hk
  cases hk

/-- Without keys there is nothing to share. -/
theorem shared_of_keyless (t : Node) : Keyless [t] → shared t = [] := by
  induction t using induction with
  | h₀ => exact fun _ => rfl
  | h m f ps ih =>
    intro h
    obtain ⟨key, line⟩ := m
    have hkey : key = none := h _ (mem_preorderAll_singleton.mpr (self_mem_preorder rfl))
    subst hkey
    rw [shared_mk_none]
    have hps : ∀ p ∈ ps, shared p = [] := fun p hp => ih p hp fun x hx =>
      h x (mem_preorderAll_singleton.mpr (mem_preorder_of_mem_parts (t := mk _ f ps) hp
        (mem_preorderAll_singleton.mp hx)))
    clear h ih
    induction ps with
    | nil => rfl
    | cons p ps ih =>
      rw [sharedAll_cons, hps p List.mem_cons_self,
        ih fun q hq => hps q (List.mem_cons_of_mem _ hq)]
      rfl

theorem sharedAll_of_keyless {ts : List Node} (h : Keyless ts) : sharedAll ts = [] := by
  induction ts with
  | nil => rfl
  | cons t ts ih =>
    have ht : Keyless [t] := fun x hx => h x <| by
      rw [mem_preorderAll_cons]
      exact .inl (mem_preorderAll_singleton.mp hx)
    rw [sharedAll_cons, shared_of_keyless t ht,
      ih fun x hx => h x (mem_preorderAll_cons.mpr (.inr hx))]
    rfl

/-- If all nodes have keys, every tree is shared itself. -/
theorem sharedAll_of_keyed {ts : List Node} (h : Keyed ts) : (sharedAll ts).Sublist ts := by
  induction ts with
  | nil => exact .slnil
  | cons t ts ih =>
    have hts := ih fun x hx => h x (mem_preorderAll_cons.mpr (.inr hx))
    rw [sharedAll_cons]
    cases t with
    | absent => exact hts.cons _
    | mk m f ps =>
      obtain ⟨_ | k, line⟩ := m
      · have := h _ (mem_preorderAll_of_mem List.mem_cons_self rfl)
        cases this
      · exact hts.cons_cons _

/-! ### Giving keys -/

/-- Trees become knit when all nodes get keys, one tree after the other. -/
theorem Knit.stampAll_of_forall {ps : List Node}
    (h : ∀ p ∈ ps, ∀ next rest, Knit (shared p ++ rest) →
      (∀ k, Occurs k (shared p ++ rest) → k < next) → Knit ((stamp next p).1 :: rest))
    {next : Nat} {rest : List Node} (hk : Knit (sharedAll ps ++ rest))
    (hb : ∀ k, Occurs k (sharedAll ps ++ rest) → k < next) :
    Knit ((Node.stampAll next ps).1 ++ rest) := by
  induction ps generalizing next rest with
  | nil => exact hk
  | cons p ps ih =>
    rw [sharedAll_cons, List.append_assoc] at hk hb
    rw [stampAll_cons]
    have hle := le_stamp next p
    have hp := (h p List.mem_cons_self next _ hk hb).perm List.perm_middle.symm
    refine (ih (fun q hq => h q (List.mem_cons_of_mem _ hq)) hp fun k hk => ?_).perm
      List.perm_middle
    -- The keys of the first tree are below those that the others get.
    rcases occurs_append.mp hk with hk | hk
    · have := hb k (occurs_append.mpr (.inr (occurs_append.mpr (.inl hk))))
      omega
    · rcases occurs_cons.mp hk with hk | hk
      · have hk : Occurs k (Node.stampAll next [p]).1 := hk
        rcases occurs_stampAll hk with hk | hk
        · have := hb k (occurs_append.mpr (.inl (by simpa using hk)))
          omega
        · exact hk.2
      · have := hb k (occurs_append.mpr (.inr (occurs_append.mpr (.inr hk))))
        omega

theorem Knit.stamp (t : Node) : ∀ next rest, Knit (shared t ++ rest) →
    (∀ k, Occurs k (shared t ++ rest) → k < next) → Knit ((Node.stamp next t).1 :: rest) := by
  induction t using induction with
  | h₀ => exact fun _ _ h _ => h.absent
  | h m f ps ih =>
    intro next rest h hb
    obtain ⟨_ | k, line⟩ := m
    · rw [stamp_mk_none]
      rw [shared_mk_none] at h hb
      refine (Knit.stampAll_of_forall ih h fun k hk => Nat.lt_succ_of_lt (hb k hk)).node ?_
      intro hk
      rcases occurs_append.mp hk with hk | hk
      · rcases occurs_stampAll hk with hk | hk
        · have := hb next (occurs_append.mpr (.inl hk))
          omega
        · omega
      · have := hb next (occurs_append.mpr (.inr hk))
        omega
    · rw [shared_mk_some] at h
      rw [stamp_of_keyed next _ (h.mono (List.sublist_append_left _ _)).keyed]
      exact h

/-- **Trees whose shared nodes are knit become knit when all nodes get keys.** -/
theorem Knit.stampAll {ts rest : List Node} {next : Nat} (h : Knit (sharedAll ts ++ rest))
    (hb : ∀ k, Occurs k (sharedAll ts ++ rest) → k < next) :
    Knit ((Node.stampAll next ts).1 ++ rest) :=
  Knit.stampAll_of_forall (fun t _ => Knit.stamp t) h hb

/-! ### Drafts -/

/-- Trees with keys from `a` on and below `b` that will be knit. -/
structure Draft (a b : Nat) (ts : List Node) : Prop where
  le : a ≤ b
  keys : ∀ k, Occurs k (sharedAll ts) → a ≤ k ∧ k < b
  knit : Knit (sharedAll ts)
  types : ∀ t ∈ sharedAll ts, t.isSole = false

namespace Draft

variable {a b c : Nat} {ts us : List Node}

theorem mono (h : Draft a b ts) {a' b' : Nat} (ha : a' ≤ a) (hb : b ≤ b') : Draft a' b' ts where
  le := by have := h.le; omega
  keys k hk := by have := h.keys k hk; omega
  knit := h.knit
  types := h.types

/-- Trees with the same shared nodes, in any order. -/
theorem regroup (h : Draft a b ts) (hp : (sharedAll ts).Perm (sharedAll us)) : Draft a b us where
  le := h.le
  keys k hk := h.keys k (hk.perm hp.symm)
  knit := h.knit.perm hp
  types t ht := h.types t (hp.symm.subset ht)

theorem of_keyless (a : Nat) (h : Keyless ts) : Draft a a ts where
  le := Nat.le_refl _
  keys k hk := by
    rw [sharedAll_of_keyless h] at hk
    exact (not_occurs_nil hk).elim
  knit := by
    rw [sharedAll_of_keyless h]
    exact .nil
  types t ht := by
    rw [sharedAll_of_keyless h] at ht
    cases ht

theorem nil (a : Nat) : Draft a a [] := of_keyless a fun _ hx => nomatch hx

theorem append (h : Draft a b ts) (h' : Draft b c us) : Draft a c (ts ++ us) where
  le := Nat.le_trans h.le h'.le
  keys k hk := by
    have := h.le
    have := h'.le
    rw [sharedAll_append] at hk
    rcases occurs_append.mp hk with hk | hk
    · have := h.keys k hk
      omega
    · have := h'.keys k hk
      omega
  knit := by
    rw [sharedAll_append]
    refine h.knit.append h'.knit fun k hk hk' => ?_
    have := h.keys k hk
    have := h'.keys k hk'
    omega
  types t ht := by
    rw [sharedAll_append] at ht
    exact (List.mem_append.mp ht).elim (h.types t) (h'.types t)

/-- The piece that is made first is put last. -/
theorem append' (h : Draft a b ts) (h' : Draft b c us) : Draft a c (us ++ ts) :=
  (h.append h').regroup (by simpa using List.perm_append_comm)

/-- Types that are used once more. -/
theorem reuse (h : Draft a b ts) (hu : ∀ u ∈ sharedAll us, u ∈ sharedAll ts) :
    Draft a b (ts ++ us) where
  le := h.le
  keys k hk := by
    obtain ⟨x, hx, hk⟩ := hk
    obtain ⟨t, ht, hx⟩ := mem_preorderAll.mp hx
    refine h.keys k ⟨x, mem_preorderAll.mpr ⟨t, ?_, hx⟩, hk⟩
    rw [sharedAll_append] at ht
    exact (List.mem_append.mp ht).elim id (hu t)
  knit := by
    rw [sharedAll_append]
    exact (h.knit.againAll fun u hu' => ⟨hu u hu', h.types u (hu u hu')⟩).perm
      List.perm_append_comm
  types t ht := by
    rw [sharedAll_append] at ht
    exact h.types t ((List.mem_append.mp ht).elim id (hu t))

/-- Trees among others. -/
theorem sublist (h : Draft a b ts) (hs : us.Sublist ts) : Draft a b us where
  le := h.le
  keys k hk := by
    obtain ⟨x, hx, hk⟩ := hk
    obtain ⟨t, ht, hx⟩ := mem_preorderAll.mp hx
    exact h.keys k ⟨x, mem_preorderAll.mpr ⟨t, (sharedAll_sublist hs).subset ht, hx⟩, hk⟩
  knit := h.knit.mono (sharedAll_sublist hs)
  types t ht := h.types t ((sharedAll_sublist hs).subset ht)

/-- A new node. -/
theorem node (h : Draft a b ts) (line : Option Nat) (f : Form) :
    Draft a b [Node.mk ⟨none, line⟩ f ts] :=
  h.regroup (by simp [shared_mk_none])

/-- A place that is left empty. -/
theorem absent (a : Nat) : Draft a a [Node.absent] := (nil a).regroup (.refl _)

/-- Only types with members have keys so far. -/
theorem key_eq_none {m : Mark} {f : Form} {ps : List Node} (h : Draft a b [Node.mk m f ps])
    (hs : (Node.mk m f ps).isSole) : m.key = none := by
  obtain ⟨_ | k, line⟩ := m
  · rfl
  · have := h.types _ (by rw [sharedAll_cons, shared_mk_some]; exact List.mem_cons_self)
    rw [hs] at this
    cases this

/-- A type with members, all of whose nodes are given keys. -/
theorem stamp {t : Node} (h : Draft a b [t]) (hs : t.isSole = false) :
    Draft a (Node.stamp b t).2 [(Node.stamp b t).1] := by
  have hkeyed : Keyed [(Node.stamp b t).1] := keyed_stampAll b [t]
  refine ⟨Nat.le_trans h.le (le_stamp b t), fun k hk => ?_, ?_, fun u hu => ?_⟩
  · have hle := h.le
    obtain ⟨x, hx, hxk⟩ := hk
    obtain ⟨u, hu, hx⟩ := mem_preorderAll.mp hx
    have hk : Occurs k (stampAll b [t]).1 :=
      ⟨x, mem_preorderAll.mpr ⟨u, (sharedAll_of_keyed hkeyed).subset hu, hx⟩, hxk⟩
    rcases occurs_stampAll hk with hk | hk
    · have := h.keys k hk
      have := le_stamp b t
      omega
    · exact ⟨by omega, hk.2⟩
  · have hb : ∀ k, Occurs k (sharedAll [t] ++ []) → k < b := fun k hk =>
      (h.keys k (by simpa using hk)).2
    have hk : Knit (sharedAll [t] ++ []) := by simpa using h.knit
    have := hk.stampAll hb
    rw [List.append_nil, stampAll_singleton] at this
    exact this.mono (sharedAll_of_keyed hkeyed)
  · have := (sharedAll_of_keyed hkeyed).subset hu
    rw [List.mem_singleton.mp this]
    simpa [isSole, cls?_stamp] using hs

end Draft

end Fieldwise.Node
