import Fieldwise.Proofs.Tree.Subtree

/-!
# Keys for new nodes

What `Node.stamp` does to the nodes of a tree: those that have a key keep it, and the others get
different keys from a range that begins where it is told to (`Node.key_stampAll`). A tree whose
nodes all have keys stays as it is (`Node.stamp_of_keyed`), and the class of a node is kept.
-/

namespace Fieldwise.Node

/-- A key that occurs in some trees. -/
def Occurs (k : Nat) (ts : List Node) : Prop := ∃ x ∈ preorderAll ts, x.key = some k

/-- Every node has a key. -/
def Keyed (ts : List Node) : Prop := ∀ x ∈ preorderAll ts, x.key.isSome

/-- No node has a key. -/
def Keyless (ts : List Node) : Prop := ∀ x ∈ preorderAll ts, x.key = none

theorem stamp_mk_none (next : Nat) (line : Option Nat) (f : Form) (ps : List Node) :
    stamp next (mk ⟨none, line⟩ f ps) =
      (mk ⟨some next, line⟩ f (stampAll (next + 1) ps).1, (stampAll (next + 1) ps).2) := rfl

theorem stamp_mk_some (next k : Nat) (line : Option Nat) (f : Form) (ps : List Node) :
    stamp next (mk ⟨some k, line⟩ f ps) =
      (mk ⟨some k, line⟩ f (stampAll next ps).1, (stampAll next ps).2) := rfl

theorem stampAll_cons (next : Nat) (p : Node) (ps : List Node) :
    stampAll next (p :: ps) =
      ((stamp next p).1 :: (stampAll (stamp next p).2 ps).1, (stampAll (stamp next p).2 ps).2) :=
  rfl

theorem stampAll_append (next : Nat) (ps qs : List Node) :
    stampAll next (ps ++ qs) =
      ((stampAll next ps).1 ++ (stampAll (stampAll next ps).2 qs).1,
        (stampAll (stampAll next ps).2 qs).2) := by
  induction ps generalizing next with
  | nil => rfl
  | cons p ps ih => simp only [List.cons_append, stampAll_cons, ih]

theorem stampAll_singleton (next : Nat) (p : Node) :
    stampAll next [p] = ([(stamp next p).1], (stamp next p).2) := rfl

theorem cls?_stamp (next : Nat) (t : Node) : (stamp next t).1.cls? = t.cls? := by
  cases t <;> rfl

theorem form?_stamp (next : Nat) (t : Node) : (stamp next t).1.form? = t.form? := by
  cases t <;> rfl

mutual

theorem le_stamp (next : Nat) : ∀ t : Node, next ≤ (stamp next t).2
  | absent => Nat.le_refl _
  | mk ⟨none, _⟩ _ ps => Nat.le_trans (Nat.le_succ _) (le_stampAll (next + 1) ps)
  | mk ⟨some _, _⟩ _ ps => le_stampAll next ps

theorem le_stampAll (next : Nat) : ∀ ps : List Node, next ≤ (stampAll next ps).2
  | [] => Nat.le_refl _
  | p :: ps => Nat.le_trans (le_stamp next p) (le_stampAll _ ps)

end

/-- The entries of a stamped list are those of the list, stamped one after the other. -/
theorem mem_stampAll {next : Nat} {ps : List Node} {c : Node} (h : c ∈ (stampAll next ps).1) :
    ∃ p ∈ ps, ∃ n, next ≤ n ∧ c = (stamp n p).1 := by
  induction ps generalizing next with
  | nil => cases h
  | cons p ps ih =>
    rw [stampAll_cons] at h
    rcases List.mem_cons.mp h with rfl | h
    · exact ⟨p, List.mem_cons_self, next, Nat.le_refl _, rfl⟩
    · obtain ⟨q, hq, n, hn, rfl⟩ := ih h
      exact ⟨q, List.mem_cons_of_mem _ hq, n, Nat.le_trans (le_stamp next p) hn, rfl⟩

mutual

theorem stamp_of_keyed (next : Nat) : ∀ t : Node, Keyed [t] → stamp next t = (t, next)
  | absent, _ => rfl
  | mk ⟨none, line⟩ f ps, h =>
    nomatch h (mk ⟨none, line⟩ f ps) (mem_preorderAll_singleton.mpr (self_mem_preorder rfl))
  | mk ⟨some k, line⟩ f ps, h => by
    rw [stamp_mk_some, stampAll_of_keyed next ps fun x hx => h x
      (mem_preorderAll_singleton.mpr (List.mem_cons_of_mem _ hx))]

theorem stampAll_of_keyed (next : Nat) : ∀ ps : List Node, Keyed ps → stampAll next ps = (ps, next)
  | [], _ => rfl
  | p :: ps, h => by
    rw [stampAll_cons, stamp_of_keyed next p fun x hx => h x (List.mem_append_left _
      (by simpa [preorderAll] using hx)), stampAll_of_keyed next ps fun x hx => h x
      (List.mem_append_right _ hx)]

end

mutual

/-- The nodes of a stamped tree have keys of the tree or new ones. -/
theorem key_stamp (next : Nat) : ∀ t : Node, ∀ x ∈ (stamp next t).1.preorder,
    ∃ k, x.key = some k ∧ (Occurs k [t] ∨ next ≤ k ∧ k < (stamp next t).2)
  | absent, x, hx => absurd hx not_mem_preorder_absent
  | mk ⟨none, line⟩ f ps, x, hx => by
    rw [stamp_mk_none] at hx ⊢
    rcases List.mem_cons.mp hx with rfl | hx
    · have := le_stampAll (next + 1) ps
      exact ⟨next, rfl, .inr ⟨Nat.le_refl _, by omega⟩⟩
    · obtain ⟨k, hk, ⟨y, hy, hyk⟩ | hn⟩ := key_stampAll (next + 1) ps x hx
      · exact ⟨k, hk, .inl ⟨y, mem_preorderAll_singleton.mpr (List.mem_cons_of_mem _ hy), hyk⟩⟩
      · exact ⟨k, hk, .inr ⟨by omega, hn.2⟩⟩
  | mk ⟨some j, line⟩ f ps, x, hx => by
    rw [stamp_mk_some] at hx ⊢
    rcases List.mem_cons.mp hx with rfl | hx
    · exact ⟨j, rfl, .inl ⟨_, mem_preorderAll_singleton.mpr (self_mem_preorder rfl), rfl⟩⟩
    · obtain ⟨k, hk, ⟨y, hy, hyk⟩ | hn⟩ := key_stampAll next ps x hx
      · exact ⟨k, hk, .inl ⟨y, mem_preorderAll_singleton.mpr (List.mem_cons_of_mem _ hy), hyk⟩⟩
      · exact ⟨k, hk, .inr hn⟩

theorem key_stampAll (next : Nat) : ∀ ps : List Node, ∀ x ∈ preorderAll (stampAll next ps).1,
    ∃ k, x.key = some k ∧ (Occurs k ps ∨ next ≤ k ∧ k < (stampAll next ps).2)
  | [], x, hx => nomatch hx
  | p :: ps, x, hx => by
    rw [stampAll_cons] at hx ⊢
    have h1 := le_stamp next p
    have h2 := le_stampAll (stamp next p).2 ps
    rcases List.mem_append.mp hx with hx | hx
    · obtain ⟨k, hk, ⟨y, hy, hyk⟩ | hn⟩ := key_stamp next p x hx
      · exact ⟨k, hk, .inl ⟨y, List.mem_append_left _ (by simpa [preorderAll] using hy), hyk⟩⟩
      · exact ⟨k, hk, .inr ⟨hn.1, by omega⟩⟩
    · obtain ⟨k, hk, ⟨y, hy, hyk⟩ | hn⟩ := key_stampAll (stamp next p).2 ps x hx
      · exact ⟨k, hk, .inl ⟨y, List.mem_append_right _ hy, hyk⟩⟩
      · exact ⟨k, hk, .inr ⟨by omega, hn.2⟩⟩

end

theorem keyed_stampAll (next : Nat) (ps : List Node) : Keyed (stampAll next ps).1 := by
  intro x hx
  obtain ⟨k, hk, -⟩ := key_stampAll next ps x hx
  simp [hk]

/-! ### Nodes of a stamped tree -/

/-- The nodes of a stamped tree are those of the tree, each of them stamped. -/
theorem exists_of_mem_stamp {t y : Node} {next : Nat} (h : y ∈ (stamp next t).1.preorder) :
    ∃ x ∈ t.preorder, ∃ n, y = (stamp n x).1 := by
  induction t using induction generalizing next with
  | h₀ => exact absurd h not_mem_preorder_absent
  | h m f ps ih =>
    have hparts : ∀ n, y ∈ preorderAll (stampAll n ps).1 →
        ∃ x ∈ (mk m f ps).preorder, ∃ n, y = (stamp n x).1 := by
      intro n hy
      obtain ⟨c, hc, hy⟩ := mem_preorderAll.mp hy
      obtain ⟨p, hp, n', -, rfl⟩ := mem_stampAll hc
      obtain ⟨x, hx, hy⟩ := ih p hp hy
      exact ⟨x, mem_preorder_mk.mpr (.inr ⟨p, hp, hx⟩), hy⟩
    obtain ⟨_ | k, line⟩ := m
    · rw [stamp_mk_none] at h
      rcases List.mem_cons.mp h with rfl | h
      · exact ⟨_, self_mem_preorder rfl, next, rfl⟩
      · exact hparts _ h
    · rw [stamp_mk_some] at h
      rcases List.mem_cons.mp h with rfl | h
      · exact ⟨_, self_mem_preorder rfl, next, rfl⟩
      · exact hparts _ h

theorem map_stampAll {β : Type} {g : Node → β} (hg : ∀ (n : Nat) (t : Node),
    g (stamp n t).1 = g t) (next : Nat) (ps : List Node) :
    (stampAll next ps).1.map g = ps.map g := by
  induction ps generalizing next with
  | nil => rfl
  | cons p ps ih => rw [stampAll_cons, List.map_cons, List.map_cons, hg, ih]

/-- The parts of a stamped node show what the parts of the node show. -/
theorem map_parts_stamp {β : Type} {g : Node → β} (hg : ∀ (n : Nat) (t : Node),
    g (stamp n t).1 = g t) (next : Nat) (t : Node) :
    (stamp next t).1.parts.map g = t.parts.map g := by
  cases t with
  | absent => rfl
  | mk m f ps =>
    obtain ⟨_ | k, line⟩ := m
    · exact map_stampAll hg _ ps
    · exact map_stampAll hg _ ps

theorem isA_stampAll {c : Class} {a : Nat} {new : List Node} (h : ∀ x ∈ new, x.isA c = false) :
    ∀ x ∈ (stampAll a new).1, x.isA c = false := by
  intro x hx
  obtain ⟨y, hy, n, -, rfl⟩ := mem_stampAll hx
  rw [isA, cls?_stamp]
  exact h y hy

/-- A node and the new ones around it, all of which have keys. -/
theorem stampAll_around {x : Node} (hx : Keyed [x]) (a : Nat) (new : List Node) (after : Bool) :
    (stampAll a (if after then x :: new else new ++ [x])).1.Perm (x :: (stampAll a new).1) ∧
      (stampAll a (if after then x :: new else new ++ [x])).2 = (stampAll a new).2 := by
  have hstamp : ∀ b, stamp b x = (x, b) := fun b => stamp_of_keyed b x hx
  cases after with
  | true => simp [stampAll_cons, hstamp]
  | false => simp [stampAll_append, stampAll_singleton, hstamp, List.perm_append_singleton]

end Fieldwise.Node
