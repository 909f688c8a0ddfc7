import Mathlib.Data.List.Forall2
import Fieldwise.Proofs.Document.Frame
import Fieldwise.Proofs.Document.Put

/-!
# Edits that take out links

A rewriting of a use takes out a link and puts new nodes in its place. `Document.Swaps` says what
becomes of the other nodes: the single children of a node stay in their slots unless they are taken
out, all parts stay in order, with rows of new ones where some are taken out, what is attached has
the parent that it had, and new nodes have no old parts but the link itself, while it is in a block
with what comes in its place. A tree in which nothing is taken out is the same. It holds for each
primitive edit (`Document.Stands.swaps_replace`, `Document.Stands.swaps_splice`,
`Document.Stands.swaps_exchange`) and composes (`Document.Swaps.trans`).
-/

namespace Fieldwise

open Node

/-! ### Lists with rows in the place of entries -/

/-- A list in which each entry of another one has given way to a row of entries, in order. -/
inductive Rows {α : Type} (S : α → List α → Prop) : List α → List α → Prop where
  | nil : Rows S [] []
  | cons {a : α} {as row bs : List α} : S a row → Rows S as bs → Rows S (a :: as) (row ++ bs)

namespace Rows

variable {α : Type} {S S' S'' : α → List α → Prop} {a : α} {as as' bs bs' cs : List α}

theorem map {f : α → α} (h : ∀ a ∈ as, S a [f a]) : Rows S as (as.map f) := by
  induction as with
  | nil => exact .nil
  | cons a as ih =>
    exact .cons (h a List.mem_cons_self) (ih fun b hb => h b (List.mem_cons_of_mem _ hb))

theorem refl (h : ∀ a ∈ as, S a [a]) : Rows S as as := by
  simpa using map (f := id) h

theorem single (h : S a bs) : Rows S [a] bs := by simpa using cons h nil

theorem of_single (h : Rows S [a] bs) : S a bs := by
  cases h with
  | cons ha hnil =>
    cases hnil
    simpa using ha

theorem append (h : Rows S as bs) (h' : Rows S as' bs') : Rows S (as ++ as') (bs ++ bs') := by
  induction h with
  | nil => exact h'
  | cons ha _ ih =>
    rw [List.append_assoc]
    exact .cons ha ih

/-- The rows for a list in two parts. -/
theorem exists_append (h : Rows S (as ++ as') cs) :
    ∃ bs bs', cs = bs ++ bs' ∧ Rows S as bs ∧ Rows S as' bs' := by
  induction as generalizing cs with
  | nil => exact ⟨[], cs, rfl, .nil, h⟩
  | cons a as ih =>
    cases h with
    | cons ha h =>
      obtain ⟨bs, bs', rfl, has, has'⟩ := ih h
      exact ⟨_, bs', (List.append_assoc _ _ _).symm, .cons ha has, has'⟩

/-- The rows for a list in three parts. -/
theorem exists_between {us vs : List α} (h : Rows S (us ++ as ++ vs) cs) :
    ∃ us' as' vs', cs = us' ++ as' ++ vs' ∧ Rows S us us' ∧ Rows S as as' ∧ Rows S vs vs' := by
  obtain ⟨ws, vs', rfl, hws, hvs⟩ := h.exists_append
  obtain ⟨us', as', rfl, hus, has⟩ := hws.exists_append
  exact ⟨us', as', vs', rfl, hus, has, hvs⟩

theorem imp (h : Rows S as bs) (hS : ∀ a ∈ as, ∀ row, (∀ b ∈ row, b ∈ bs) → S a row → S' a row) :
    Rows S' as bs := by
  induction h with
  | nil => exact .nil
  | cons ha _ ih =>
    refine .cons (hS _ List.mem_cons_self _ (fun b hb => List.mem_append_left _ hb) ha)
      (ih fun a' ha' row hrow => hS a' (List.mem_cons_of_mem _ ha') row fun b hb =>
        List.mem_append_right _ (hrow b hb))

theorem trans (h : Rows S as bs) (h' : Rows S' bs cs)
    (hS : ∀ a ∈ as, ∀ row row', S a row → Rows S' row row' → S'' a row') : Rows S'' as cs := by
  induction h generalizing cs with
  | nil =>
    cases h'
    exact .nil
  | cons ha _ ih =>
    obtain ⟨row, rest, rfl, hrow, hrest⟩ := h'.exists_append
    exact .cons (hS _ List.mem_cons_self _ _ ha hrow)
      (ih hrest fun a' ha' => hS a' (List.mem_cons_of_mem _ ha'))

theorem exists_of_mem {b : α} (h : Rows S as bs) (hb : b ∈ bs) :
    ∃ a ∈ as, ∃ row, S a row ∧ b ∈ row := by
  induction h with
  | nil => cases hb
  | cons ha _ ih =>
    rcases List.mem_append.mp hb with hb | hb
    · exact ⟨_, List.mem_cons_self, _, ha, hb⟩
    · obtain ⟨a', ha', hrow⟩ := ih hb
      exact ⟨a', List.mem_cons_of_mem _ ha', hrow⟩

/-- Where each entry stays one, the rows are the entries. -/
theorem forall₂ {T : α → α → Prop} (h : Rows S as bs)
    (hS : ∀ a ∈ as, ∀ row, S a row → ∃ b, row = [b] ∧ T a b) : List.Forall₂ T as bs := by
  induction h with
  | nil => exact .nil
  | cons ha _ ih =>
    obtain ⟨b, rfl, hb⟩ := hS _ List.mem_cons_self _ ha
    exact .cons hb (ih fun a' ha' => hS a' (List.mem_cons_of_mem _ ha'))

/-- Where each entry stays one, and what is asked of it stays, the answers are the same. -/
theorem map_eq {β : Type} {f : α → β} (h : Rows S as bs)
    (hS : ∀ a ∈ as, ∀ row, S a row → ∃ b, row = [b] ∧ f b = f a) : bs.map f = as.map f := by
  induction h with
  | nil => rfl
  | cons ha _ ih =>
    obtain ⟨b, rfl, hb⟩ := hS _ List.mem_cons_self _ ha
    rw [List.map_append, List.map_cons, List.map_cons, List.map_nil, hb, List.singleton_append,
      ih fun a' ha' => hS a' (List.mem_cons_of_mem _ ha')]

end Rows

/-- Entries that are related to those of a list in between. -/
theorem forall₂_trans {α : Type} {S S' S'' : α → α → Prop} {as bs cs : List α}
    (h : List.Forall₂ S as bs) (h' : List.Forall₂ S' bs cs)
    (hS : ∀ a ∈ as, ∀ b c, S a b → S' b c → S'' a c) : List.Forall₂ S'' as cs := by
  induction h generalizing cs with
  | nil =>
    cases h'
    exact .nil
  | cons ha _ ih =>
    cases h' with
    | cons hb h' =>
      exact .cons (hS _ List.mem_cons_self _ _ ha hb)
        (ih h' fun a' ha' => hS a' (List.mem_cons_of_mem _ ha'))

namespace Node

variable {n x w : Node} {us vs ws : List Node} {k : Nat}

/-- The parts of a node that stay where they are when its list of children is edited: the single
children, or all parts if it has no such list. -/
def fixed : Node → List Node
  | absent => []
  | mk _ f ps => if f.cls.listSlot.isSome then ps.take f.cls.slots.length else ps

theorem fixed_mk (m : Mark) (f : Form) (ps : List Node) : (mk m f ps).fixed =
    if f.cls.listSlot.isSome then ps.take f.cls.slots.length else ps := rfl

theorem mem_parts_of_fixed {c : Node} (h : c ∈ n.fixed) : c ∈ n.parts := by
  cases n with
  | absent => cases h
  | mk m f ps =>
    rw [fixed_mk] at h
    split at h
    · exact List.mem_of_mem_take h
    · exact h

theorem fixed_map (m : Mark) (f : Form) (ps : List Node) (g : Node → Node) :
    (mk m f (ps.map g)).fixed = (mk m f ps).fixed.map g := by
  rw [fixed_mk, fixed_mk]
  split
  · rw [List.map_take]
  · rfl

/-- A node without a list of children. -/
theorem fixed_of_listSlot {m : Mark} {f : Form} {ps : List Node} (h : f.cls.listSlot = none) :
    (mk m f ps).fixed = ps := by
  rw [fixed_mk, h]
  rfl

/-- An edit of the list of children leaves the single children alone. -/
theorem fixed_withParts_list (hp : us <+: n.parts) {f : Form} (hf : n.form? = some f)
    (hl : f.cls.listSlot.isSome) (hle : f.cls.slots.length ≤ us.length) :
    (n.withParts (us ++ vs)).fixed = n.fixed := by
  cases n with
  | absent => cases hf
  | mk m f' ps =>
    obtain rfl : f' = f := by simpa [form?] using hf
    obtain ⟨vs', rfl⟩ : us <+: ps := hp
    simp only [withParts, fixed_mk, hl, if_true]
    rw [List.take_append_of_le_length hle, List.take_append_of_le_length hle]

/-- Where one part gives way to another, the others stay where they are. -/
theorem fixed_withParts_single {S : Node → Node → Prop} (hself : ∀ c, S c c) (hx : S x w)
    (hs : n.parts = us ++ x :: vs) :
    List.Forall₂ S n.fixed (n.withParts (us ++ [w] ++ vs)).fixed := by
  cases n with
  | absent => simp [parts] at hs
  | mk m f ps =>
    obtain rfl : ps = us ++ x :: vs := hs
    have hall : List.Forall₂ S (us ++ x :: vs) (us ++ [w] ++ vs) := by
      rw [List.append_assoc]
      refine List.rel_append (List.forall₂_same.mpr fun c _ => hself c) ?_
      exact .cons hx (List.forall₂_same.mpr fun c _ => hself c)
    rw [withParts, fixed_mk, fixed_mk]
    split
    · exact List.forall₂_take _ hall
    · exact hall

end Node

namespace Document

variable {d d' d'' : Document} {n x c P : Node} {p : Place} {us vs ws qs new : List Node}
  {R R' R'' : Option Nat → Prop}

/-- What comes in the place of a part: itself, or new nodes if its key is in `R`. They may stand
next to it. -/
def Turns (next : Nat) (R : Option Nat → Prop) (c : Node) (row : List Node) : Prop :=
  (∃ c', row = [c'] ∧ c'.key = c.key ∧ c'.form? = c.form?) ∨
    R c.key ∧ ∀ y ∈ row, y.key = c.key ∨ ¬ IsOld next y

theorem Turns.self {next : Nat} (c : Node) : Turns next R c [c] := .inl ⟨c, rfl, rfl, rfl⟩

theorem Turns.mono {next : Nat} {row : List Node} (h : Turns next R c row)
    (hR : R c.key → R' c.key) : Turns next R' c row := h.imp_right fun h => ⟨hR h.1, h.2⟩

theorem Turns.of_mem {next : Nat} {row : List Node} (h : Turns next R c row) {y : Node}
    (hy : y ∈ row) : y.key = c.key ∨ ¬ IsOld next y := by
  rcases h with ⟨c', rfl, hk, -⟩ | ⟨-, h⟩
  · exact .inl (List.mem_singleton.mp hy ▸ hk)
  · exact h y hy

/-- What has come in the place of a part stays, or gives way to what is yet newer. -/
theorem Turns.trans {next next' : Nat} {row row' : List Node} (h : Turns next R c row)
    (h' : Rows (Turns next' R') row row') (hle : next ≤ next') (hR : R c.key → R'' c.key)
    (hR' : R' c.key → R'' c.key) : Turns next R'' c row' := by
  rcases h with ⟨c', rfl, hk, hf⟩ | ⟨hr, hnew⟩
  · rcases h'.of_single with ⟨c'', rfl, hk', hf'⟩ | ⟨hr', hnew'⟩
    · exact .inl ⟨c'', rfl, hk'.trans hk, hf'.trans hf⟩
    · rw [hk] at hr' hnew'
      exact .inr ⟨hR' hr', fun y hy => (hnew' y hy).imp_right fun hn ho => hn (isOld_mono ho hle)⟩
  · refine .inr ⟨hR hr, fun z hz => ?_⟩
    obtain ⟨y, hy, _, hturns, hz⟩ := h'.exists_of_mem hz
    rcases hturns.of_mem hz with hzk | hzn
    · exact (hnew y hy).imp (fun hyk => hzk.trans hyk) fun hn ho => hn (isOld_of_key ho hzk)
    · exact .inr fun ho => hzn (isOld_mono ho hle)

/-- New nodes come in the place of a node. -/
theorem Turns.stampAll (next : Nat) (x : Node) (hk : Keyless new) :
    Turns next (· = x.key) x (Node.stampAll next new).1 :=
  .inr ⟨rfl, fun _ hy => .inr fun ho => not_isOld_stampAll hk
    (mem_preorderAll_of_mem hy (isPresent_of_isOld ho)) ho⟩

/-- What is known of old keys is known of the keys of parts. -/
theorem Tidy.imp_key_of_part (ht : d.Tidy) (hP : P ∈ d.root.preorder) (hc : c ∈ P.parts)
    (hR : ∀ k, (∃ j, k = some j ∧ j < d.next) → R k → R' k) (hnone : ¬ R none) (h : R c.key) :
    R' c.key := by
  cases c with
  | absent => exact (hnone h).elim
  | mk => exact hR _ (ht.bound _ (mem_trees_of_root (mem_preorder_of_part hP hc rfl))) h

/-- A document after edits that put new nodes in the place of nodes with keys in `R`. -/
structure Swaps (d d' : Document) (R : Option Nat → Prop) : Prop where
  next : d.next ≤ d'.next
  root : d'.root.key = d.root.key
  node : ∀ q' ∈ d'.root.preorder, IsOld d.next q' → ∃ q ∈ d.root.preorder, q.key = q'.key ∧
    q.form? = q'.form? ∧ ∀ c' ∈ q'.parts, IsOld d.next c' → ∃ c ∈ q.parts, c.key = c'.key
  fresh : ∀ q' ∈ d'.root.preorder, ¬ IsOld d.next q' → ∀ c' ∈ q'.parts, IsOld d.next c' → R c'.key
  fixed : ∀ q ∈ d.root.preorder, ∀ q' ∈ d'.root.preorder, q'.key = q.key →
    List.Forall₂ (fun c c' => c'.key = c.key ∨ R c.key) q.fixed q'.fixed
  parts : ∀ q ∈ d.root.preorder, ∀ q' ∈ d'.root.preorder, q'.key = q.key →
    Rows (Turns d.next R) q.parts q'.parts
  same : ∀ q ∈ d.root.preorder, (∀ y ∈ q.preorder, ¬ R y.key) →
    ∀ q' ∈ d'.root.preorder, q'.key = q.key → q' = q

namespace Swaps

theorem refl (ht : d.Tidy) : Swaps d d R where
  next := Nat.le_refl _
  root := rfl
  node q hq _ := ⟨q, hq, rfl, rfl, fun c hc _ => ⟨c, hc, rfl⟩⟩
  fresh q hq hn := absurd (ht.bound q (mem_trees_of_root hq)) hn
  fixed q hq q' hq' hk := by
    rw [ht.eq_of_key (mem_trees_of_root hq') (mem_trees_of_root hq) hk]
    exact List.forall₂_same.mpr fun _ _ => .inl rfl
  parts q hq q' hq' hk := by
    rw [ht.eq_of_key (mem_trees_of_root hq') (mem_trees_of_root hq) hk]
    exact .refl fun c _ => .self c
  same q hq _ q' hq' hk := ht.eq_of_key (mem_trees_of_root hq') (mem_trees_of_root hq) hk

theorem mono (h : Swaps d d' R) (hR : ∀ k, R k → R' k) : Swaps d d' R' where
  next := h.next
  root := h.root
  node := h.node
  fresh q hq hn c hc ho := hR _ (h.fresh q hq hn c hc ho)
  fixed q hq q' hq' hk := (h.fixed q hq q' hq' hk).imp fun _ _ hc => hc.imp_right (hR _)
  parts q hq q' hq' hk := (h.parts q hq q' hq' hk).imp fun _ _ _ _ hc => hc.mono (hR _)
  same q hq hn := h.same q hq fun y hy hr => hn y hy (hR _ hr)

/-- What is there before and after edits was there in between. -/
theorem exists_between (h : Swaps d d' R) (h' : Swaps d' d'' R') (ht : d.Tidy) {q q'' : Node}
    (hq : q ∈ d.root.preorder) (hq'' : q'' ∈ d''.root.preorder) (hk : q''.key = q.key) :
    ∃ q' ∈ d'.root.preorder, q'.key = q.key ∧ q''.key = q'.key := by
  have hold := isOld_of_key (ht.bound q (mem_trees_of_root hq)) hk.symm
  obtain ⟨q', hq', hk', -⟩ := h'.node q'' hq'' (isOld_mono hold h.next)
  exact ⟨q', hq', hk'.trans hk, hk'.symm⟩

/-- Edits after edits. -/
theorem trans (h : Swaps d d' R) (h' : Swaps d' d'' R') (ht : d.Tidy)
    (hR : ∀ k, R k → R'' k) (hR' : ∀ k, (∃ j, k = some j ∧ j < d.next) → R' k → R'' k)
    (hnone : ¬ R' none) : Swaps d d'' R'' where
  next := Nat.le_trans h.next h'.next
  root := h'.root.trans h.root
  node q'' hq'' ho := by
    obtain ⟨q', hq', hk', hf', hp'⟩ := h'.node q'' hq'' (isOld_mono ho h.next)
    obtain ⟨q, hq, hk, hf, hp⟩ := h.node q' hq' (isOld_of_key ho hk'.symm)
    refine ⟨q, hq, hk.trans hk', hf.trans hf', fun c'' hc'' ho => ?_⟩
    obtain ⟨c', hc', hck'⟩ := hp' c'' hc'' (isOld_mono ho h.next)
    obtain ⟨c, hc, hck⟩ := hp c' hc' (isOld_of_key ho hck'.symm)
    exact ⟨c, hc, hck.trans hck'⟩
  fresh q'' hq'' hn c'' hc'' ho := by
    by_cases hq : IsOld d'.next q''
    · -- The new node was there in between, with the old part already.
      obtain ⟨q', hq', hk', -, hp'⟩ := h'.node q'' hq'' hq
      obtain ⟨c', hc', hck⟩ := hp' c'' hc'' (isOld_mono ho h.next)
      have := h.fresh q' hq' (fun ho' => hn (isOld_of_key ho' hk')) c' hc'
        (isOld_of_key ho hck.symm)
      exact hR _ (hck ▸ this)
    · exact hR' _ ho (h'.fresh q'' hq'' hq c'' hc'' (isOld_mono ho h.next))
  fixed q hq q'' hq'' hk := by
    obtain ⟨q', hq', hk, hk'⟩ := h.exists_between h' ht hq hq'' hk
    refine forall₂_trans (h.fixed q hq q' hq' hk) (h'.fixed q' hq' q'' hq'' hk')
      fun c hc c' c'' hc' hc'' => ?_
    rcases hc' with hc' | hc'
    · rw [hc'] at hc''
      exact hc''.imp_right (ht.imp_key_of_part hq (mem_parts_of_fixed hc) hR' hnone)
    · exact .inr (hR _ hc')
  parts q hq q'' hq'' hk := by
    obtain ⟨q', hq', hk, hk'⟩ := h.exists_between h' ht hq hq'' hk
    exact (h.parts q hq q' hq' hk).trans (h'.parts q' hq' q'' hq'' hk')
      fun c hc row row' hrow hrow' => hrow.trans hrow' h.next (hR _)
        (ht.imp_key_of_part hq hc hR' hnone)
  same q hq hn q'' hq'' hk := by
    obtain ⟨q', hq', hk, hk'⟩ := h.exists_between h' ht hq hq'' hk
    obtain rfl := h.same q hq (fun y hy hr => hn y hy (hR _ hr)) q' hq' hk
    exact h'.same q' hq' (fun y hy hr => hn y hy
      (hR' _ (ht.bound y (mem_trees_of_root (mem_preorder_trans hy hq))) hr)) q'' hq'' hk'

/-- What is gone does not come back. -/
theorem not_attached (h : Swaps d d' R) (hn : d.attached n = false)
    (hold : ∀ k, n.key = some k → k < d.next) : d'.attached n = false := by
  refine Bool.eq_false_iff.mpr fun ha => ?_
  obtain ⟨y, hy, hyk, hsome⟩ := attached_iff.mp ha
  obtain ⟨k, hnk⟩ := Option.isSome_iff_exists.mp hsome
  obtain ⟨x, hx, hxk, -⟩ := h.node y hy ⟨k, hyk.trans hnk, hold k hnk⟩
  rw [attached_iff.mpr ⟨x, hx, hxk.trans hyk, hsome⟩] at hn
  cases hn

end Swaps

namespace Puts

/-- What has the key of a node afterwards is what became of the node. -/
theorem eq_grafted (h : Puts d d' P qs) (ht : d.Tidy) {q q' : Node} (hq : q ∈ d.root.preorder)
    (hq' : q' ∈ d'.root.preorder) (hk : q'.key = q.key) : q' = grafted P qs q := by
  rcases h.of_mem_root ht hq' with ⟨q₀, hq₀, rfl⟩ | ⟨-, hn⟩
  · rw [ht.eq_of_key (mem_trees_of_root hq₀) (mem_trees_of_root hq)
      ((h.form?_grafted ht q₀).1.symm.trans hk)]
  · exact absurd (isOld_of_key (ht.bound q (mem_trees_of_root hq)) hk.symm) hn

/-- What an edit of the parts of one node does to the others. -/
theorem swaps (h : Puts d d' P qs) (ht : d.Tidy)
    (hfixed : List.Forall₂ (fun c c' => c'.key = c.key ∨ R c.key) P.fixed (P.withParts qs).fixed)
    (hparts : Rows (Turns d.next R) P.parts qs) (hmark : ∃ x ∈ P.parts, x.isPresent ∧ R x.key)
    (hfresh : ∀ y ∈ preorderAll qs, ¬ IsOld d.next y → ∀ c ∈ y.parts, IsOld d.next c → R c.key) :
    Swaps d d' R where
  next := h.next
  root := by rw [h.root, (h.form?_grafted ht _).1]
  node q' hq' ho := by
    rcases h.of_mem_root ht hq' with ⟨q, hq, rfl⟩ | ⟨-, hn⟩
    · obtain ⟨hk, hf⟩ := h.form?_grafted ht q
      refine ⟨q, hq, hk.symm, hf.symm, fun c' hc' ho' => ?_⟩
      by_cases hne : q = P
      · subst hne
        rw [h.grafted_self ht] at hc'
        exact ⟨c', h.graft.tops c' hc' ho', rfl⟩
      · rw [h.parts_grafted ht (mem_trees_of_root hq) hne] at hc'
        obtain ⟨c, hc, rfl⟩ := List.mem_map.mp hc'
        exact ⟨c, hc, (h.form?_grafted ht c).1.symm⟩
    · exact absurd ho hn
  fresh q' hq' hn c' hc' ho := by
    rcases h.of_mem_root ht hq' with ⟨q, hq, rfl⟩ | ⟨hm, -⟩
    · exact absurd (isOld_of_key (ht.bound q (mem_trees_of_root hq))
        (h.form?_grafted ht q).1.symm) hn
    · exact hfresh q' hm hn c' hc' ho
  fixed q hq q' hq' hk := by
    obtain rfl := h.eq_grafted ht hq hq' hk
    by_cases hne : q = P
    · subst hne
      rw [h.grafted_self ht]
      exact hfixed
    · cases q with
      | absent => cases isPresent_of_mem_preorder hq
      | mk m f ps =>
        rw [h.grafted_mk ht (mem_trees_of_root hq) hne, fixed_map, List.forall₂_map_right_iff]
        exact List.forall₂_same.mpr fun c _ => .inl (h.form?_grafted ht c).1
  parts q hq q' hq' hk := by
    obtain rfl := h.eq_grafted ht hq hq' hk
    by_cases hne : q = P
    · subst hne
      rw [h.grafted_self ht, parts_withParts (isPresent_of_mem_preorder hq)]
      exact hparts
    · rw [h.parts_grafted ht (mem_trees_of_root hq) hne]
      exact .map fun c _ => .inl ⟨_, rfl, h.form?_grafted ht c⟩
  same q hq hn q' hq' hk := by
    obtain rfl := h.eq_grafted ht hq hq' hk
    obtain ⟨x, hx, hxp, hr⟩ := hmark
    exact h.grafted_eq_self ht (fun _ => mem_trees_of_root hq) fun hP =>
      hn x (mem_preorder_of_part hP hx hxp) hr

/-- **A part that is left out is in the program no more**, if it can stand at one place only. -/
theorem gone (h : Puts d d' P qs) (ht : d.Tidy) (hx : x ∈ P.parts) (hs : x.isSole)
    (hq : x ∉ preorderAll qs) : ∀ y ∈ d'.root.preorder, y.key ≠ x.key := by
  obtain ⟨k, extra, hk, hg, -, -⟩ := h.exists_grafting ht
  have hxp := isPresent_of_isSole hs
  have hxm := mem_preorder_of_part h.mem hx hxp
  intro y hy
  rw [h.root, grafted_of_key hk] at hy
  refine hg.key_ne_of_left_out (fun z hz => mem_extra_of_root hz) hx hs ?_ (fun hr => ?_) hy
  · rwa [parts_withParts (isPresent_of_mem_preorder h.mem)]
  · -- The root is below no part of a node.
    have hroot := self_mem_preorder (isPresent_of_preorder hxm)
    have heq := ht.eq_of_key (mem_trees_of_root hxm) (mem_trees_of_root hroot) hr
    exact not_mem_preorderAll_parts (mem_preorderAll_of_mem hx hxp) (heq ▸ h.mem)

end Puts

namespace Stands

variable (hs : d.Stands n p x) (ht : d.Tidy)
include hs ht

omit ht in
/-- A node that is gone is not attached. -/
theorem not_attached (h : ∀ y ∈ d'.root.preorder, y.key ≠ x.key) : d'.attached n = false :=
  Bool.eq_false_iff.mpr fun ha => by
    obtain ⟨y, hy, hyk, -⟩ := attached_iff.mp ha
    exact h y hy (hyk.trans hs.key.symm)

/-- A node is in none of its siblings. -/
theorem not_mem_siblings (hsole : x.isSole) {y : Node}
    (hy : y ∈ p.parent.parts.take p.index ++ p.parent.parts.drop (p.index + 1)) :
    x ∉ y.preorder := by
  intro hxy
  have hknit := ht.woven.parts (mem_trees_of_root hs.parent)
  rcases (mem_preorder_iff (isPresent_of_preorder hxy)).mp hxy with rfl | hxy
  · have htops := hknit.tops
    rw [hs.split, List.pairwise_append, List.pairwise_cons] at htops
    rcases List.mem_append.mp hy with hy | hy
    · exact htops.2.2 x hy x List.mem_cons_self (.inl hsole) rfl
    · exact htops.2.1.1 x hy (.inl hsole) rfl
  · obtain ⟨q, hq, hxq⟩ := exists_parent_of_mem hxy
    exact hknit.top x hs.mem_parts hsole q
      (mem_preorderAll.mpr ⟨y, hs.sublist.subset hy, hq⟩) x hxq rfl

/-- **A node stands at one place**, which tells what is before it and after it. -/
theorem eq_of_split {y Q : Node} (hQ : Q ∈ d.root.preorder) (hparts : Q.parts = us ++ y :: vs)
    (hsole : y.isSole) (hy : y.key = n.key) :
    p.parent = Q ∧ x = y ∧ p.parent.parts.take p.index = us ∧
      p.parent.parts.drop (p.index + 1) = vs := by
  have hyQ : y ∈ Q.parts := by simp [hparts]
  have hQm := mem_trees_of_root hQ
  obtain rfl := ht.eq_of_key hQm (mem_trees_of_root hs.parent) (ht.woven.sole _ hQm _
    (mem_trees_of_root hs.parent) y hyQ x hs.mem_parts hsole (hy.trans hs.key.symm))
  obtain rfl := ht.eq_of_key (mem_trees_of_root hs.mem) (mem_trees_of_root
    (mem_preorder_of_part hQ hyQ (isPresent_of_isSole hsole))) (hs.key.trans hy.symm)
  have hself := self_mem_preorder hs.isPresent
  have hno := fun z hz => hs.not_mem_siblings ht hsole (y := z) hz
  obtain ⟨hus, -, hvs⟩ := (List.append_cons_inj_of_notMem
    (fun hx => hno x (List.mem_append_left _ hx) hself)
    (fun hx => hno x (List.mem_append_right _ hx) hself)).mp (hs.split.symm.trans hparts)
  exact ⟨rfl, rfl, hus, hvs⟩

/-- What takes the place of a node has no old parts. -/
theorem fresh_of_not_isOld (hk : Keyless new) (hsub : (us ++ vs).Sublist p.parent.parts) {a : Nat}
    (ha : d.next ≤ a) {y : Node} (hy : y ∈ preorderAll (us ++ (stampAll a new).1 ++ vs))
    (hn : ¬ IsOld d.next y) : ∀ c ∈ y.parts, ¬ IsOld d.next c := by
  intro c hc ho
  rw [mem_preorderAll_append, mem_preorderAll_append, or_right_comm, ← mem_preorderAll_append] at hy
  have hy := hy.resolve_left fun hy => hn (ht.isOld_of_parts hs.parent hsub hy)
  obtain ⟨t, htm, hyt⟩ := mem_preorderAll.mp hy
  exact not_isOld_stampAll hk (mem_preorderAll.mpr ⟨t, htm, mem_preorder_of_part hyt hc
    (isPresent_of_isOld ho)⟩) (isOld_mono ho ha)

omit ht in
/-- The other parts stay where they are. -/
theorem rows {S : Node → List Node → Prop} (hself : ∀ c, S c [c]) (hx : S x ws) :
    Rows S p.parent.parts
      (p.parent.parts.take p.index ++ ws ++ p.parent.parts.drop (p.index + 1)) := by
  have hall : ∀ cs, Rows S cs cs := fun cs => .refl fun c _ => hself c
  have h := ((hall (p.parent.parts.take p.index)).append (.single hx)).append
    (hall (p.parent.parts.drop (p.index + 1)))
  rwa [← hs.split_list] at h

/-- **A node gives way to new ones**, to exactly one unless it stands in a list. -/
theorem swaps (hsole : x.isSole) (hk : Keyless new) (hl : p.isInList ∨ new.length = 1)
    (hput : Puts d d' p.parent (p.parent.parts.take p.index ++ (stampAll d.next new).1 ++
      p.parent.parts.drop (p.index + 1))) :
    Swaps d d' (· = x.key) ∧ ∀ y ∈ d'.root.preorder, y.key ≠ x.key := by
  have hfresh := fun {y} => hs.fresh_of_not_isOld ht hk hs.sublist (Nat.le_refl _) (y := y)
  refine ⟨hput.swaps ht ?_ (hs.rows .self (.stampAll _ _ hk))
    ⟨x, hs.mem_parts, hs.isPresent, rfl⟩ fun y hy hn c hc ho => absurd ho (hfresh hy hn c hc),
    hput.gone ht hs.mem_parts hsole fun hx => ?_⟩
  · rcases hl with hl | hl
    · obtain ⟨f, hf, hlist, hle⟩ := isInList_iff.mp hl
      rw [List.append_assoc, fixed_withParts_list (List.take_prefix _ _) hf hlist
        (by rw [hs.length_take]; exact hle)]
      exact List.forall₂_same.mpr fun _ _ => .inl rfl
    · obtain ⟨y, rfl⟩ := List.length_eq_one_iff.mp hl
      rw [stampAll_singleton]
      exact fixed_withParts_single (fun _ => .inl rfl) (.inr rfl) hs.split
  · obtain ⟨t, htm, hxt⟩ := mem_preorderAll.mp hx
    simp only [List.mem_append] at htm
    rcases htm with (htm | htm) | htm
    · exact hs.not_mem_siblings ht hsole (List.mem_append_left _ htm) hxt
    · exact not_isOld_stampAll hk (mem_preorderAll.mpr ⟨t, htm, hxt⟩)
        (ht.bound x (mem_trees_of_root hs.mem))
    · exact hs.not_mem_siblings ht hsole (List.mem_append_right _ htm) hxt

/-- Another node is put in the place of one. -/
theorem swaps_replace (hsole : x.isSole) {y : Node} (hk : Keyless [y])
    (hd : d.replace n y = .ok d') :
    Swaps d d' (· = x.key) ∧ ∀ y ∈ d'.root.preorder, y.key ≠ x.key :=
  hs.swaps ht hsole hk (.inr rfl) (hs.puts_replace ht hk hd)

/-- An entry of a list gives way to new ones. -/
theorem swaps_splice (hsole : x.isSole) (hk : Keyless new) (hd : d.splice n new = .ok d') :
    Swaps d d' (· = x.key) ∧ ∀ y ∈ d'.root.preorder, y.key ≠ x.key :=
  have ⟨hl, hput⟩ := hs.puts_splice ht hk hd
  hs.swaps ht hsole hk (.inl hl) hput

/-- A node is taken out. -/
theorem swaps_detach (hsole : x.isSole) (hd : d.detach n = .ok d') :
    Swaps d d' (· = x.key) ∧ ∀ y ∈ d'.root.preorder, y.key ≠ x.key := by
  obtain ⟨left, hleft, hput⟩ := hs.puts_detach ht hd
  rcases hleft with ⟨rfl, hl⟩ | ⟨-, rfl | rfl⟩
  · exact hs.swaps ht hsole (fun y hy => by cases hy) (.inl hl) hput
  · exact hs.swaps ht hsole (keyless_mk rfl fun y hy => by cases hy) (.inr rfl) hput
  · exact hs.swaps ht hsole (fun y hy => by cases hy) (.inr rfl) hput

/-- A declaration that gives way to the bare definition of a type in it is gone. -/
theorem gone_bare {T : Node} (hsole : x.isSole) (hT : T ∈ x.preorder) (hTs : T.isSole = false)
    (hput : Puts d d' p.parent (p.parent.parts.take p.index ++
      [.mk ⟨some d.next, none⟩ (.decl none {}) [T, .absent, .absent]] ++
        p.parent.parts.drop (p.index + 1))) :
    ∀ y ∈ d'.root.preorder, y.key ≠ x.key := by
  refine hput.gone ht hs.mem_parts hsole fun hx => ?_
  rw [mem_preorderAll_append, mem_preorderAll_append, or_right_comm, ← mem_preorderAll_append] at hx
  rcases hx with hx | hx
  · obtain ⟨z, hz, hxz⟩ := mem_preorderAll.mp hx
    exact hs.not_mem_siblings ht hsole hz hxz
  · rcases hs.of_mem_bare ht hT hx with hxb | ⟨hxT, -⟩
    · obtain ⟨k, hk, hlt⟩ := ht.bound x (mem_trees_of_root hs.mem)
      rw [hxb] at hk
      obtain rfl := Option.some.inj hk
      exact Nat.lt_irrefl _ hlt
    · -- The type is in the declaration, and is not the declaration.
      rcases (mem_preorder_iff (isPresent_of_preorder hT)).mp hT with rfl | hT
      · rw [hsole] at hTs
        cases hTs
      · exact not_mem_preorderAll_parts hT hxT

/-- New nodes are put next to a node, in the list that it is in or in a block around it. -/
theorem swaps_insert (hx : x.isA .decl = false) (hk : Keyless new) {after : Bool}
    (hd : d.insert n new after = .ok d') :
    d' = d ∨ ∃ qs, Puts d d' p.parent qs ∧ Swaps d d' (· = x.key) := by
  have hmark : ∃ y ∈ p.parent.parts, y.isPresent ∧ y.key = x.key :=
    ⟨x, hs.mem_parts, hs.isPresent, rfl⟩
  rcases hs.puts_insert ht (.inr hx) hk hd with ⟨rfl, -⟩ | ⟨hl, j, hj, hput⟩ | ⟨-, bs, hbs, hput⟩
  · exact .inl rfl
  · refine .inr ⟨_, hput, hput.swaps ht ?_ ?_ hmark fun y hy hn c hc ho =>
      absurd ho (hs.fresh_of_not_isOld ht hk (by simp) (Nat.le_refl _) hy hn c hc)⟩
    · obtain ⟨f, hf, hlist, hle⟩ := isInList_iff.mp hl
      have hlen : f.cls.slots.length ≤ (p.parent.parts.take j).length := by
        have := (List.getElem?_eq_some_iff.mp hs.part).1
        rw [List.length_take, hj]
        split <;> omega
      rw [List.append_assoc, fixed_withParts_list (List.take_prefix _ _) hf hlist hlen]
      exact List.forall₂_same.mpr fun _ _ => .inl rfl
    · rw [hj, hs.insert_eq]
      refine hs.rows .self (.inr ⟨rfl, fun y hy => ?_⟩)
      have hnew := (Turns.stampAll d.next x hk).of_mem (y := y)
      split at hy
      · exact (List.mem_cons.mp hy).elim (fun hy => .inl (by rw [hy])) hnew
      · exact (List.mem_append.mp hy).elim hnew fun hy => .inl (by rw [List.mem_singleton.mp hy])
  · refine .inr ⟨_, hput, hput.swaps ht
      (fixed_withParts_single (fun _ => .inl rfl) (.inr rfl) hs.split)
      (hs.rows .self (.inr ⟨rfl, fun y hy => .inr ?_⟩)) hmark fun y hy hn c hc ho => ?_⟩
    · rw [List.mem_singleton.mp hy]
      rintro ⟨k, hk, hlt⟩
      obtain rfl := Option.some.inj hk
      exact Nat.lt_irrefl _ hlt
    -- The block has the node and new ones.
    have hnew : ∀ z ∈ preorderAll (stampAll (d.next + 1) new).1, ¬ IsOld d.next z := fun z hz ho =>
      not_isOld_stampAll hk hz (isOld_mono ho (Nat.le_succ _))
    rw [mem_preorderAll_append, mem_preorderAll_append, or_right_comm,
      ← mem_preorderAll_append] at hy
    have hy := hy.resolve_left fun hy => hn (ht.isOld_of_parts hs.parent hs.sublist hy)
    rcases mem_preorder_mk.mp (mem_preorderAll_singleton.mp hy) with rfl | ⟨z, hz, hyz⟩
    · rcases List.mem_cons.mp (hbs.subset hc) with rfl | hc
      · rfl
      · exact absurd ho (hnew c (mem_preorderAll_of_mem hc (isPresent_of_isOld ho)))
    · rcases List.mem_cons.mp (hbs.subset hz) with rfl | hz
      · exact absurd (ht.bound y (mem_trees_of_root (mem_preorder_trans hyz hs.mem))) hn
      · exact absurd ho (hnew c (mem_preorderAll.mpr ⟨z, hz,
          mem_preorder_of_part hyz hc (isPresent_of_isOld ho)⟩))

omit hs ht in
/-- What can be taken out has a place. -/
theorem exists_place_of_detach (hd : d.detach n = .ok d') : ∃ p, d.place n = .ok p := by
  cases hp : d.place n with
  | ok p => exact ⟨p, rfl⟩
  | error f => simp [Document.detach, hp, bind, Except.bind] at hd

/-- A statement gives way to others, which are put next to it before it is taken out. -/
theorem swaps_exchange (hsole : x.isSole) (hx : x.isA .decl = false) (hk : Keyless new)
    (hd : d.insertAfter n new = .ok d') (hd' : d'.detach n = .ok d'') :
    Swaps d d'' (· = x.key) ∧ ∀ y ∈ d''.root.preorder, y.key ≠ x.key := by
  rcases hs.swaps_insert ht hx hk hd with rfl | ⟨qs, hput, hswap⟩
  · exact hs.swaps_detach ht hsole hd'
  · obtain ⟨p', hp⟩ := exists_place_of_detach hd'
    obtain ⟨hswap', hgone⟩ :=
      (hs.of_puts ht hput hp).swaps_detach (hput.tidy ht) hsole hd'
    refine ⟨hswap.trans hswap' ht (fun _ h => h) (fun _ _ h => h) fun hn => ?_, hgone⟩
    obtain ⟨k, hk⟩ := ht.woven.exists_key (mem_trees_of_root hs.mem)
    rw [hk] at hn
    cases hn

end Stands

end Document

end Fieldwise
