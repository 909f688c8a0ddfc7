import Fieldwise.Proofs.Tree.Fragment
import Fieldwise.Tree.Callee

/-!
# Programs with calls of the assignment operator

A function by which the nodes of knit trees are changed one by one keeps the trees knit, if it keeps
their keys and classes and does to the parts of a node what it does to the node (`Node.Knit.map`).
To take the calls of a function for assignments is such a change (`Node.Draft.asOperator`): which
nodes are callees can be told from their keys.
-/

namespace Fieldwise.Node

variable {ts : List Node} {n x : Node} {function : String}

/-! ### Changes node by node -/

/-- A change that is made to each node of some trees. -/
structure Mapping (φ : Node → Node) (ts : List Node) : Prop where
  absent : φ .absent = .absent
  parts : ∀ x ∈ preorderAll ts, (φ x).parts = x.parts.map φ
  key : ∀ x ∈ preorderAll ts, (φ x).key = x.key
  cls : ∀ x ∈ preorderAll ts, (φ x).cls? = x.cls?

namespace Mapping

variable {φ : Node → Node}

/-- What is below the image of a node are the images of what is below it. -/
theorem mem_preorder (h : Mapping φ ts) {t y' : Node} (ht : ∀ x ∈ t.preorder, x ∈ preorderAll ts)
    (hy : y' ∈ (φ t).preorder) : ∃ y ∈ t.preorder, y' = φ y := by
  induction t using induction generalizing y' with
  | h₀ =>
    rw [h.absent] at hy
    exact (not_mem_preorder_absent hy).elim
  | h m f ps ih =>
    have hself := ht _ (self_mem_preorder rfl)
    rcases (mem_preorder_iff (isPresent_of_preorder hy)).mp hy with rfl | hy
    · exact ⟨_, self_mem_preorder rfl, rfl⟩
    · rw [h.parts _ hself] at hy
      obtain ⟨p', hp', hy⟩ := mem_preorderAll.mp hy
      obtain ⟨p, hp, rfl⟩ := List.mem_map.mp hp'
      obtain ⟨y, hym, rfl⟩ := ih p hp
        (fun x hx => ht x (mem_preorder_mk.mpr (.inr ⟨p, hp, hx⟩))) hy
      exact ⟨y, mem_preorder_mk.mpr (.inr ⟨p, hp, hym⟩), rfl⟩

theorem mem_preorderAll (h : Mapping φ ts) {y' : Node} (hy : y' ∈ preorderAll (ts.map φ)) :
    ∃ y ∈ preorderAll ts, y' = φ y := by
  obtain ⟨t', ht', hy⟩ := Node.mem_preorderAll.mp hy
  obtain ⟨t, ht, rfl⟩ := List.mem_map.mp ht'
  obtain ⟨y, hym, rfl⟩ := h.mem_preorder (fun x hx => Node.mem_preorderAll.mpr ⟨t, ht, hx⟩) hy
  exact ⟨y, Node.mem_preorderAll.mpr ⟨t, ht, hym⟩, rfl⟩

theorem key_of_mem (h : Mapping φ ts) (hn : n.isPresent → n ∈ preorderAll ts) :
    (φ n).key = n.key := by
  cases n with
  | absent => rw [h.absent]
  | mk m f ps => exact h.key _ (hn rfl)

theorem isSole_of_mem (h : Mapping φ ts) (hn : n.isPresent → n ∈ preorderAll ts) :
    (φ n).isSole = n.isSole := by
  cases n with
  | absent => rw [h.absent]
  | mk m f ps => rw [isSole, isSole, h.cls _ (hn rfl)]

theorem apart (h : Mapping φ ts) {a b : Node} (ha : a.isPresent → a ∈ preorderAll ts)
    (hb : b.isPresent → b ∈ preorderAll ts) (hab : Apart a b) : Apart (φ a) (φ b) := by
  rw [Apart, h.isSole_of_mem ha, h.isSole_of_mem hb, h.key_of_mem ha, h.key_of_mem hb]
  exact hab

end Mapping

/-- **A change to each node keeps trees knit.** -/
theorem Knit.map {φ : Node → Node} (h : Knit ts) (hφ : Mapping φ ts) : Knit (ts.map φ) := by
  have hpart : ∀ {p c}, p ∈ preorderAll ts → c ∈ p.parts → c.isPresent → c ∈ preorderAll ts :=
    fun hp hc hcp => mem_preorderAll_of_parts (mem_preorderAll_of_mem hc hcp) hp
  have htop : ∀ {t}, t ∈ ts → t.isPresent → t ∈ preorderAll ts := mem_preorderAll_of_mem
  refine ⟨⟨fun y' hy' => ?_, fun x' hx' y' hy' _ hk => ?_, ?_, fun p' hp' => ?_⟩, ?_, ?_⟩
  · obtain ⟨y, hy, rfl⟩ := hφ.mem_preorderAll hy'
    rw [hφ.key y hy]
    exact h.keyed y hy
  · obtain ⟨x, hx, rfl⟩ := hφ.mem_preorderAll hx'
    obtain ⟨y, hy, rfl⟩ := hφ.mem_preorderAll hy'
    rw [hφ.key x hx, hφ.key y hy] at hk
    rw [h.toWoven.eq_of_key hx hy hk]
  · intro p' hp' q' hq' c' hc' e' he' hs hk
    obtain ⟨p, hp, rfl⟩ := hφ.mem_preorderAll hp'
    obtain ⟨q, hq, rfl⟩ := hφ.mem_preorderAll hq'
    rw [hφ.parts p hp] at hc'
    rw [hφ.parts q hq] at he'
    obtain ⟨c, hc, rfl⟩ := List.mem_map.mp hc'
    obtain ⟨e, he, rfl⟩ := List.mem_map.mp he'
    rw [hφ.isSole_of_mem (hpart hp hc)] at hs
    rw [hφ.key_of_mem (hpart hp hc), hφ.key_of_mem (hpart hq he)] at hk
    rw [hφ.key p hp, hφ.key q hq]
    exact h.sole p hp q hq c hc e he hs hk
  · obtain ⟨p, hp, rfl⟩ := hφ.mem_preorderAll hp'
    rw [hφ.parts p hp, List.pairwise_map]
    exact (h.siblings p hp).imp_of_mem fun ha hb => hφ.apart (hpart hp ha) (hpart hp hb)
  · rw [List.pairwise_map]
    exact h.tops.imp_of_mem fun ha hb => hφ.apart (htop ha) (htop hb)
  · intro t' ht' hs p' hp' c' hc'
    obtain ⟨t, ht, rfl⟩ := List.mem_map.mp ht'
    obtain ⟨p, hp, rfl⟩ := hφ.mem_preorderAll hp'
    rw [hφ.parts p hp] at hc'
    obtain ⟨c, hc, rfl⟩ := List.mem_map.mp hc'
    rw [hφ.isSole_of_mem (htop ht)] at hs
    rw [hφ.key_of_mem (hpart hp hc), hφ.key_of_mem (htop ht)]
    exact h.top t ht hs p hp c hc

/-! ### Callees -/

theorem asOperatorAll_eq_map (function : String) (ps : List Node) :
    asOperatorAll function ps = ps.map (asOperator function) := by
  induction ps with
  | nil => rfl
  | cons p ps ih => simp [asOperatorAll, ih]

theorem key_operatorCallee (function : String) (n : Node) :
    (operatorCallee function n).key = n.key := by
  unfold operatorCallee
  split
  · split <;> rfl
  · rfl

theorem parts_operatorCallee (function : String) (n : Node) :
    (operatorCallee function n).parts = n.parts := by
  unfold operatorCallee
  split
  · split <;> rfl
  · rfl

theorem cls?_operatorCallee (function : String) (n : Node) :
    (operatorCallee function n).cls? = n.cls? := by
  unfold operatorCallee
  split
  · split <;> rfl
  · rfl

theorem asOperator_mk (function : String) (m : Mark) (f : Form) (ps : List Node) :
    ∃ qs, asOperator function (mk m f ps) = mk m f qs ∧
      qs = match f, ps with
        | .funcCall, c :: ps =>
          operatorCallee function (asOperator function c) :: ps.map (asOperator function)
        | _, ps => ps.map (asOperator function) := by
  cases f with
  | funcCall =>
    cases ps with
    | nil => exact ⟨_, rfl, by simp [asOperatorAll]⟩
    | cons c ps => exact ⟨_, rfl, by simp [asOperatorAll_eq_map]⟩
  | _ => exact ⟨_, rfl, by simp [asOperatorAll_eq_map]⟩

theorem form?_asOperator (function : String) (n : Node) :
    (asOperator function n).form? = n.form? := by
  cases n with
  | absent => rfl
  | mk m f ps =>
    obtain ⟨qs, h, -⟩ := asOperator_mk function m f ps
    rw [h]
    rfl

theorem key_asOperator (function : String) (n : Node) : (asOperator function n).key = n.key := by
  cases n with
  | absent => rfl
  | mk m f ps =>
    obtain ⟨qs, h, -⟩ := asOperator_mk function m f ps
    rw [h]
    rfl

theorem cls?_asOperator (function : String) (n : Node) :
    (asOperator function n).cls? = n.cls? := by rw [cls?, cls?, form?_asOperator]

/-- Whether a node has the key of one that is called in some trees. -/
def IsCallee (ts : List Node) (x : Node) : Prop :=
  ∃ p ∈ preorderAll ts, p.form? = some .funcCall ∧ ∃ c, p.parts[0]? = some c ∧ c.key = x.key

open Classical in
/-- What a node of some trees becomes if the calls of a function are taken for assignments. -/
noncomputable def renamed (function : String) (ts : List Node) (x : Node) : Node :=
  if IsCallee ts x then operatorCallee function (asOperator function x)
  else asOperator function x

/-- Only names are changed as callees. -/
theorem operatorCallee_of_isA (h : n.isA .ident = false) : operatorCallee function n = n := by
  unfold operatorCallee
  split
  · cases h
  · rfl

/-- A name that is no callee of its parent is none at all. -/
theorem not_isCallee (h : Woven ts) {p : Node} (hp : p ∈ preorderAll ts) (hx : x ∈ p.parts)
    (hs : x.isSole) (hn : p.form? = some .funcCall → ∀ c, p.parts[0]? = some c → c.key ≠ x.key) :
    ¬ IsCallee ts x := by
  rintro ⟨q, hq, hqf, c, hc, hck⟩
  have hkey := h.sole p hp q hq x hx c (List.mem_of_getElem? hc) hs hck.symm
  obtain rfl : p = q := h.eq_of_key hp hq hkey
  exact hn hqf c hc hck

theorem renamed_of_not_isCallee (h : n.isA .ident → ¬ IsCallee ts n) :
    renamed function ts n = asOperator function n := by
  unfold renamed
  split
  · rename_i hc
    refine operatorCallee_of_isA ?_
    rw [isA, cls?_asOperator, ← isA]
    cases hi : n.isA .ident with
    | false => rfl
    | true => exact (h hi hc).elim
  · rfl

/-- What the parts of a node become depends on their keys only. -/
theorem parts_asOperator (h : Woven ts) (hx : x ∈ preorderAll ts) :
    (asOperator function x).parts = x.parts.map (renamed function ts) := by
  cases x with
  | absent => rfl
  | mk m f ps =>
    obtain ⟨qs, hq, hqs⟩ := asOperator_mk function m f ps
    rw [hq]
    show qs = ps.map (renamed function ts)
    rw [hqs]
    have hplain : f ≠ .funcCall → ps.map (asOperator function) = ps.map (renamed function ts) :=
      fun hf => List.map_congr_left fun c hc => (renamed_of_not_isCallee fun hi =>
        not_isCallee h hx hc (isSole_of_isA hi rfl) fun hform => by
          cases hform
          exact (hf rfl).elim).symm
    split
    · rename_i c cs
      rw [List.map_cons]
      congr 1
      · have : IsCallee ts c := ⟨_, hx, rfl, c, rfl, rfl⟩
        rw [renamed, if_pos this]
      · refine List.map_congr_left fun q hq => (renamed_of_not_isCallee fun hi => ?_).symm
        -- The other parts of the call are not the callee.
        refine not_isCallee h hx (List.mem_cons_of_mem _ hq) (isSole_of_isA hi rfl)
          fun _ c' hc' => ?_
        obtain rfl : c = c' := by simpa [Node.parts] using hc'
        exact List.rel_of_pairwise_cons (h.siblings _ hx) hq (.inr (isSole_of_isA hi rfl))
    · rename_i hne
      by_cases hf : f = .funcCall
      · subst hf
        cases ps with
        | nil => rfl
        | cons c ps => exact (hne c ps rfl rfl).elim
      · exact hplain hf

theorem mapping_renamed (h : Woven ts) : Mapping (renamed function ts) ts where
  absent := renamed_of_not_isCallee fun h => nomatch h
  parts x hx := by
    have hp : (renamed function ts x).parts = (asOperator function x).parts := by
      unfold renamed
      split
      · exact parts_operatorCallee _ _
      · rfl
    rw [hp, parts_asOperator h hx]
  key x _ := by
    unfold renamed
    split
    · rw [key_operatorCallee, key_asOperator]
    · exact key_asOperator _ _
  cls x _ := by
    unfold renamed
    split
    · rw [cls?_operatorCallee, cls?_asOperator]
    · exact cls?_asOperator _ _

/-! ### Programs -/

theorem shared_operatorCallee (h : ∀ u ∈ shared n, u.isSole = false) :
    shared (operatorCallee function n) = shared n := by
  unfold operatorCallee
  split
  · rename_i m name ps
    split
    · obtain ⟨_ | k, line⟩ := m
      · rfl
      · exact nomatch h _ List.mem_cons_self
    · rfl
  · rfl

theorem sharedAll_map {g : Node → Node} {ps : List Node}
    (h : ∀ p ∈ ps, shared (g p) = (shared p).map g) :
    sharedAll (ps.map g) = (sharedAll ps).map g := by
  induction ps with
  | nil => rfl
  | cons p ps ih =>
    rw [List.map_cons, sharedAll_cons, sharedAll_cons, List.map_append, h p List.mem_cons_self,
      ih fun q hq => h q (List.mem_cons_of_mem _ hq)]

theorem isSole_asOperator (function : String) (n : Node) :
    (asOperator function n).isSole = n.isSole := by rw [isSole, isSole, cls?_asOperator]

/-- The nodes that have keys already are no callees. -/
theorem shared_asOperator (t : Node) (h : ∀ u ∈ shared t, u.isSole = false) :
    shared (asOperator function t) = (shared t).map (asOperator function) := by
  induction t using induction with
  | h₀ => rfl
  | h m f ps ih =>
    obtain ⟨qs, hq, hqs⟩ := asOperator_mk function m f ps
    obtain ⟨_ | k, line⟩ := m
    · rw [hq, shared_mk_none, shared_mk_none]
      have hsole : ∀ p ∈ ps, ∀ u ∈ shared p, u.isSole = false := fun p hp u hu => h u
        ((sharedAll_sublist (List.singleton_sublist.mpr hp)).subset (by simpa using hu))
      have hall := fun p hp => ih p hp (hsole p hp)
      rw [hqs]
      split
      · rename_i c cs
        rw [sharedAll_cons, sharedAll_cons, List.map_append, shared_operatorCallee,
          hall c List.mem_cons_self, sharedAll_map fun q hq => hall q (List.mem_cons_of_mem _ hq)]
        intro u hu
        rw [hall c List.mem_cons_self] at hu
        obtain ⟨v, hv, rfl⟩ := List.mem_map.mp hu
        rw [isSole_asOperator]
        exact hsole c List.mem_cons_self v hv
      · exact sharedAll_map hall
    · rw [hq, shared_mk_some, shared_mk_some, List.map_singleton, hq]

theorem Placed.operatorCallee (h : Placed [n]) : Placed [operatorCallee function n] := by
  unfold Node.operatorCallee
  split
  · rename_i m name ps
    have hself := isPlaced_mk.mp (h _ (mem_preorderAll_singleton.mpr (self_mem_preorder rfl))).1
    split
    · exact Placed.node h.parts (isPlaced_mk.mpr ⟨fun i c hc hd => (nomatch hself.1 i c hc hd),
        nofun, nofun, nofun, nofun⟩) rfl
    · exact h
  · exact h

theorem Placed.of_forall {ps : List Node} (h : ∀ p ∈ ps, Placed [p]) : Placed ps := fun x hx => by
  obtain ⟨p, hp, hx⟩ := mem_preorderAll.mp hx
  exact h p hp x (mem_preorderAll_singleton.mpr hx)

/-- The parts of a node show what they showed if that is neither the name nor what is below. -/
theorem map_parts_asOperator {β : Type} {g : Node → β}
    (hg : ∀ n : Node, g (Node.operatorCallee function n) = g n)
    (hg' : ∀ n : Node, g (Node.asOperator function n) = g n) (t : Node) :
    (Node.asOperator function t).parts.map g = t.parts.map g := by
  cases t with
  | absent => rfl
  | mk m f ps =>
    obtain ⟨qs, hq, hqs⟩ := asOperator_mk function m f ps
    rw [hq, parts, parts, hqs]
    split <;> simp [hg, hg']

theorem isInitialized_operatorCallee (n : Node) :
    (Node.operatorCallee function n).isInitialized = n.isInitialized := by
  unfold Node.operatorCallee
  split
  · split <;> rfl
  · rfl

theorem isInitialized_asOperator (n : Node) :
    (Node.asOperator function n).isInitialized = n.isInitialized :=
  isInitialized_congr (form?_asOperator function n)
    (map_parts_asOperator (cls?_operatorCallee function) (cls?_asOperator function) n)

theorem IsPlaced.asOperator {t : Node} (h : t.IsPlaced) : (Node.asOperator function t).IsPlaced :=
  h.of_parts (form?_asOperator function t).symm
    (map_parts_asOperator (cls?_operatorCallee function) (cls?_asOperator function) t).symm
    (exists_initialized_of_map
      (map_parts_asOperator isInitialized_operatorCallee isInitialized_asOperator t).symm)

/-- Declarations stand where they can in the parts of a node. -/
theorem exists_placed_asOperator (m : Mark) (f : Form) {ps : List Node}
    (h : ∀ p ∈ ps, Placed [asOperator function p]) :
    ∃ qs, asOperator function (mk m f ps) = mk m f qs ∧ Placed qs := by
  obtain ⟨qs, hq, hqs⟩ := asOperator_mk function m f ps
  refine ⟨qs, hq, ?_⟩
  have hmap : ∀ cs : List Node, (∀ c ∈ cs, c ∈ ps) → Placed (cs.map (asOperator function)) :=
    fun cs hcs => .of_forall fun p hp => by
      obtain ⟨c, hc, rfl⟩ := List.mem_map.mp hp
      exact h c (hcs c hc)
  rw [hqs]
  split
  · rename_i c cs
    exact (h c List.mem_cons_self).operatorCallee.append
      (hmap cs fun q hq => List.mem_cons_of_mem _ hq)
  · exact hmap _ fun _ h => h

theorem Placed.asOperator (t : Node) (h : Placed [t]) : Placed [asOperator function t] := by
  induction t using induction with
  | h₀ => exact h
  | h m f ps ih =>
    obtain ⟨qs, hq, hqs⟩ := exists_placed_asOperator m f fun p hp =>
      ih p hp (h.parts.mono fun q hq => List.mem_singleton.mp hq ▸ hp)
    obtain ⟨hp, hn⟩ := h _ (mem_preorderAll_singleton.mpr (self_mem_preorder rfl))
    exact hq ▸ hqs.node (hq ▸ hp.asOperator) hn

theorem IsItem.asOperator {t : Node} (h : t.IsItem) : (asOperator function t).IsItem := by
  cases t with
  | absent => exact h
  | mk m f ps =>
    have hps : ∀ p ∈ ps, Placed [Node.asOperator function p] := fun p hp =>
      .asOperator p (h.parts.mono fun q hq => List.mem_singleton.mp hq ▸ hp)
    obtain ⟨qs, hq, hqs⟩ := exists_placed_asOperator m f hps
    rw [hq]
    exact ⟨hq ▸ h.placed.asOperator, h.file, hqs⟩

theorem IsProgram.asOperator {t : Node} (h : t.IsProgram) (function : String) :
    (asOperator function t).IsProgram := by
  refine ⟨by rw [isA, cls?_asOperator]; exact h.file, fun p hp hpp => ?_⟩
  cases t with
  | absent => cases h.file
  | mk m f ps =>
    obtain ⟨qs, hq, hqs⟩ := asOperator_mk function m f ps
    have hf : f.cls = .file := by simpa [isA, cls?, form?] using h.file
    rw [hq] at hp
    cases f with
    | file =>
      have hp : p ∈ qs := hp
      rw [hqs] at hp
      obtain ⟨c, hc, rfl⟩ := List.mem_map.mp hp
      refine (h.items c hc ?_).asOperator
      cases c with
      | absent => cases hpp
      | mk => rfl
    | _ => cases hf

/-- **The calls of a function are taken for assignments**, and the program will be knit as well. -/
theorem Draft.asOperator {a b : Nat} {t : Node} (h : Draft a b [t]) (function : String) :
    Draft a b [asOperator function t] := by
  have htypes : ∀ u ∈ shared t, u.isSole = false := fun u hu => h.types u (by simpa using hu)
  have hφ : Mapping (renamed function (sharedAll [t])) (sharedAll [t]) :=
    mapping_renamed h.knit.toWoven
  have hshared : sharedAll [Node.asOperator function t] =
      (sharedAll [t]).map (renamed function (sharedAll [t])) := by
    have heq : sharedAll [Node.asOperator function t] =
        (sharedAll [t]).map (Node.asOperator function) := by
      simpa using shared_asOperator t htypes
    rw [heq]
    refine List.map_congr_left fun u hu => (renamed_of_not_isCallee fun hi => ?_).symm
    have := h.types u hu
    rw [isSole_of_isA hi rfl] at this
    cases this
  refine ⟨h.le, fun k hk => h.keys k ?_, hshared ▸ h.knit.map hφ, fun u hu => ?_⟩
  · obtain ⟨x, hx, hk⟩ := hk
    rw [hshared] at hx
    obtain ⟨y, hy, rfl⟩ := hφ.mem_preorderAll hx
    exact ⟨y, hy, (hφ.key y hy).symm.trans hk⟩
  · rw [hshared] at hu
    obtain ⟨v, hv, rfl⟩ := List.mem_map.mp hu
    rw [hφ.isSole_of_mem fun hp => mem_preorderAll_of_mem hv hp]
    exact h.types v hv

end Fieldwise.Node
