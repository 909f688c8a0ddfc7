import Fieldwise.Proofs.Tree.Draft

/-!
# Where declarations stand

Declarations are entries of lists of declarations, statements or parameters, and a function
definition has one as its head: nowhere else does a node of a program have a declaration as a part
(`Node.IsPlaced`). A case label has a value, a declaration in a list of parameters has none, and the
body of a function is a block.
Functions are defined at the top of a file only (`Node.IsProgram`), and so in no smaller tree
(`Node.Placed`). `Node.Fragment a b ts` is a draft of which this is known as well.
-/

namespace Fieldwise

/-- The places of a form at which declarations can stand. -/
def Form.holdsDecl (f : Form) (i : Nat) : Bool :=
  match f with
  | .compound | .declList | .defaultLabel | .file | .paramList | .structType _ _
  | .unionType _ _ => true
  | .caseLabel => i != 0
  | .funcDef => i != 1
  | _ => false

/-- The forms of nodes that stand below a file and its function definitions. -/
def Form.isNested : Form → Bool
  | .file | .funcDef => false
  | _ => true

/-- The forms of such nodes that are neither declarations nor case labels. -/
def Form.isOrdinary : Form → Bool
  | .decl _ _ | .caseLabel => false
  | f => f.isNested

namespace Node

/-- Whether a node is a declaration with an initializer. -/
def isInitialized (n : Node) : Bool := n.isA .decl && (n.child .init).isPresent

/-- Declarations among the parts of a node stand where they can, a case label has a value, a
function definition begins with a declaration and has a block as its body, and parameters have no
initializers. -/
structure IsPlaced (n : Node) : Prop where
  holds : ∀ f, n.form? = some f → ∀ i c, n.parts[i]? = some c → c.isA .decl → f.holdsDecl i
  value : n.isA .caseLabel → n.parts ≠ []
  head : n.isA .funcDef → ∃ c, n.parts[0]? = some c ∧ c.isA .decl
  params : n.isA .paramList → ∀ c ∈ n.parts, c.isInitialized = false
  body : n.isA .funcDef → ∃ c, n.parts[1]? = some c ∧ c.isA .compound

/-- Declarations stand where they can in trees below a file and its function definitions. -/
def Placed (ts : List Node) : Prop :=
  ∀ x ∈ preorderAll ts, x.IsPlaced ∧ x.form?.all Form.isNested

/-- An item of a file: a function definition or what is placed. -/
structure IsItem (n : Node) : Prop where
  placed : n.IsPlaced
  file : n.isA .file = false
  parts : Placed n.parts

/-- A file of such items. -/
structure IsProgram (n : Node) : Prop where
  file : n.isA .file
  items : ∀ t ∈ n.parts, t.isPresent → t.IsItem

theorem isInitialized_of_isA {n : Node} (h : n.isA .decl = false) : n.isInitialized = false := by
  simp [isInitialized, h]

theorem isPresent_iff {n : Node} : n.isPresent ↔ n.cls?.isSome := by
  cases n with
  | absent => exact iff_of_false nofun nofun
  | mk => exact iff_of_true rfl rfl

/-- Whether a declaration has an initializer depends on its form and the classes of its parts. -/
theorem isInitialized_congr {x y : Node} (hf : x.form? = y.form?)
    (hp : x.parts.map cls? = y.parts.map cls?) : x.isInitialized = y.isInitialized := by
  cases x with
  | absent =>
    cases y with
    | absent => rfl
    | mk => cases hf
  | mk m f ps =>
    cases y with
    | absent => cases hf
    | mk m' f' ps' =>
      obtain rfl : f = f' := by simpa [form?] using hf
      have hi : ((mk m f ps).child .init).cls? = ((mk m' f ps').child .init).cls? := by
        have hi := congrArg (fun l => l[f.cls.slots.idxOf .init]?) hp
        simp only [parts, List.getElem?_map] at hi
        rw [child, child, List.getD_eq_getElem?_getD, List.getD_eq_getElem?_getD]
        cases hx : ps[f.cls.slots.idxOf .init]? <;> cases hy : ps'[f.cls.slots.idxOf .init]? <;>
          simp_all
      rw [isInitialized, isInitialized, Bool.eq_iff_iff, Bool.and_eq_true, Bool.and_eq_true,
        isPresent_iff, isPresent_iff, hi]
      rfl

theorem isInitialized_stamp (next : Nat) (t : Node) :
    (stamp next t).1.isInitialized = t.isInitialized :=
  isInitialized_congr (form?_stamp next t) (map_parts_stamp cls?_stamp next t)

theorem isPlaced_mk {m : Mark} {f : Form} {ps : List Node} :
    (mk m f ps).IsPlaced ↔ (∀ i c, ps[i]? = some c → c.isA .decl → f.holdsDecl i) ∧
      (f.cls = .caseLabel → ps ≠ []) ∧ (f.cls = .funcDef → ∃ c, ps[0]? = some c ∧ c.isA .decl) ∧
        (f.cls = .paramList → ∀ c ∈ ps, c.isInitialized = false) ∧
          (f.cls = .funcDef → ∃ c, ps[1]? = some c ∧ c.isA .compound) := by
  have hcls : ∀ {c : Class}, (mk m f ps).isA c ↔ f.cls = c := by simp [isA, cls?, form?]
  constructor
  · rintro ⟨h, h', h'', hp, hb⟩
    exact ⟨h f rfl, fun hf => h' (hcls.mpr hf), fun hf => h'' (hcls.mpr hf),
      fun hf => hp (hcls.mpr hf), fun hf => hb (hcls.mpr hf)⟩
  · rintro ⟨h, h', h'', hp, hb⟩
    refine ⟨fun f' hf' => ?_, fun hf => h' (hcls.mp hf), fun hf => h'' (hcls.mp hf),
      fun hf => hp (hcls.mp hf), fun hf => hb (hcls.mp hf)⟩
    obtain rfl : f = f' := by simpa [form?] using hf'
    exact h

/-- Parts that are no declarations can stand anywhere but in a function definition. -/
theorem isPlaced_of_forall {m : Mark} {f : Form} {ps : List Node}
    (h : ∀ p ∈ ps, p.isA .decl = false) (hf : f.cls = .caseLabel → ps ≠ [])
    (hd : f.cls ≠ .funcDef) : (mk m f ps).IsPlaced := by
  rw [isPlaced_mk]
  refine ⟨fun i c hc hcd => ?_, hf, fun hf => (hd hf).elim,
    fun _ c hc => isInitialized_of_isA (h c hc), fun hf => (hd hf).elim⟩
  rw [h c (List.mem_of_getElem? hc)] at hcd
  cases hcd

/-- In lists of declarations and statements all parts can be declarations. -/
theorem isPlaced_of_holdsDecl {m : Mark} {f : Form} {ps : List Node} (h : ∀ i, f.holdsDecl i)
    (hp : f.cls = .paramList → ∀ c ∈ ps, c.isInitialized = false) : (mk m f ps).IsPlaced := by
  have hfunc : f.cls ≠ .funcDef := fun hf => by
    have h1 := h 1
    cases f with
    | funcDef => exact absurd h1 (by decide)
    | _ => cases hf
  refine isPlaced_mk.mpr ⟨fun i _ _ _ => h i, fun hf => ?_, fun hf => (hfunc hf).elim, hp,
    fun hf => (hfunc hf).elim⟩
  have h0 := h 0
  cases f with
  | caseLabel => exact absurd h0 (by decide)
  | _ => cases hf

/-- What a node is placed by are its form and the classes of its parts, and whether one of them is
a declaration with an initializer. -/
theorem IsPlaced.of_parts {x y : Node} (h : x.IsPlaced) (hf : x.form? = y.form?)
    (hp : x.parts.map cls? = y.parts.map cls?)
    (hi : ∀ c ∈ y.parts, c.isInitialized → ∃ c' ∈ x.parts, c'.isInitialized) : y.IsPlaced := by
  have hat : ∀ {i : Nat} {c : Node}, y.parts[i]? = some c →
      ∃ c', x.parts[i]? = some c' ∧ c'.cls? = c.cls? := fun {i c} hc => by
    have hi := congrArg (fun l => l[i]?) hp
    simpa only [List.getElem?_map, hc, Option.map_some, Option.map_eq_some_iff] using hi
  refine ⟨fun f hyf i c hc hd => ?_, fun hy hnil => h.value ?_ ?_, fun hy => ?_,
    fun hy c hc => Bool.eq_false_iff.mpr fun hci => ?_, fun hy => ?_⟩
  · obtain ⟨c', hc', hcls⟩ := hat hc
    exact h.holds f (hf.trans hyf) i c' hc' (by simpa [isA, hcls] using hd)
  · simpa [isA, cls?, hf] using hy
  · simpa [hnil] using hp
  · obtain ⟨c, hc, hd⟩ := h.head (by simpa [isA, cls?, hf] using hy)
    have h0 := congrArg (fun l => l[0]?) hp
    simp only [List.getElem?_map, hc, Option.map_some] at h0
    obtain ⟨c', hc', hcls⟩ := Option.map_eq_some_iff.mp h0.symm
    exact ⟨c', hc', by simpa [isA, hcls] using hd⟩
  · obtain ⟨c', hc', hci'⟩ := hi c hc hci
    rw [h.params (by simpa [isA, cls?, hf] using hy) c' hc'] at hci'
    cases hci'
  · obtain ⟨c, hc, hd⟩ := h.body (by simpa [isA, cls?, hf] using hy)
    have h1 := congrArg (fun l => l[1]?) hp
    simp only [List.getElem?_map, hc, Option.map_some] at h1
    obtain ⟨c', hc', hcls⟩ := Option.map_eq_some_iff.mp h1.symm
    exact ⟨c', hc', by simpa [isA, hcls] using hd⟩

/-- The parts of a node show of themselves what those of another one show. -/
theorem exists_initialized_of_map {x y : Node}
    (h : x.parts.map isInitialized = y.parts.map isInitialized) :
    ∀ c ∈ y.parts, c.isInitialized → ∃ c' ∈ x.parts, c'.isInitialized := fun c hc hci => by
  obtain ⟨c', hc', heq⟩ := List.mem_map.mp (h ▸ List.mem_map_of_mem hc)
  exact ⟨c', hc', heq.trans hci⟩

namespace Placed

variable {ts us : List Node}

theorem nil : Placed [] := fun _ hx => nomatch hx

theorem append (h : Placed ts) (h' : Placed us) : Placed (ts ++ us) := fun x hx =>
  (mem_preorderAll_append.mp hx).elim (h x) (h' x)

theorem mono (h : Placed ts) (hs : ∀ t ∈ us, t ∈ ts) : Placed us := fun x hx => by
  obtain ⟨u, hu, hx⟩ := mem_preorderAll.mp hx
  exact h x (mem_preorderAll.mpr ⟨u, hs u hu, hx⟩)

theorem node {m : Mark} {f : Form} (h : Placed ts) (hf : (Node.mk m f ts).IsPlaced)
    (hn : f.isNested) : Placed [Node.mk m f ts] := fun x hx => by
  rcases (mem_preorder_iff rfl).mp (mem_preorderAll_singleton.mp hx) with rfl | hx
  · exact ⟨hf, hn⟩
  · exact h x hx

theorem parts {t : Node} (h : Placed [t]) : Placed t.parts := fun x hx => by
  obtain ⟨p, hp, hx⟩ := mem_preorderAll.mp hx
  exact h x (mem_preorderAll_singleton.mpr (mem_preorder_of_mem_parts hp hx))

theorem stamp {t : Node} (h : Placed [t]) (next : Nat) : Placed [(t.stamp next).1] := by
  intro y hy
  obtain ⟨x, hx, n, rfl⟩ := exists_of_mem_stamp (mem_preorderAll_singleton.mp hy)
  obtain ⟨hp, hn⟩ := h x (mem_preorderAll_singleton.mpr hx)
  refine ⟨hp.of_parts (form?_stamp n x).symm (map_parts_stamp cls?_stamp n x).symm ?_,
    (form?_stamp n x).symm ▸ hn⟩
  exact exists_initialized_of_map (map_parts_stamp isInitialized_stamp n x).symm

theorem absent : Placed [Node.absent] := fun _ hx =>
  (not_mem_preorder_absent (mem_preorderAll_singleton.mp hx)).elim

end Placed

theorem Placed.isItem {t : Node} (h : Placed [t]) (ht : t.isPresent) : t.IsItem := by
  obtain ⟨hp, hn⟩ := h t (mem_preorderAll_of_mem List.mem_cons_self ht)
  refine ⟨hp, ?_, h.parts⟩
  cases t with
  | absent => rfl
  | mk m f ps => cases f <;> first | rfl | cases hn

/-- Trees with keys from `a` on and below `b` that will be knit, and in which declarations stand
where they can. -/
structure Fragment (a b : Nat) (ts : List Node) : Prop extends Draft a b ts where
  placed : Placed ts

namespace Fragment

variable {a b c : Nat} {ts us : List Node}

theorem mono (h : Fragment a b ts) {a' b' : Nat} (ha : a' ≤ a) (hb : b ≤ b') :
    Fragment a' b' ts := ⟨h.toDraft.mono ha hb, h.placed⟩

theorem nil (a : Nat) : Fragment a a [] := ⟨.nil a, .nil⟩

theorem absent (a : Nat) : Fragment a a [Node.absent] := ⟨.absent a, .absent⟩

theorem append (h : Fragment a b ts) (h' : Fragment b c us) : Fragment a c (ts ++ us) :=
  ⟨h.toDraft.append h'.toDraft, h.placed.append h'.placed⟩

/-- The fragment that is made first is put last. -/
theorem append' (h : Fragment a b ts) (h' : Fragment b c us) : Fragment a c (us ++ ts) :=
  ⟨h.toDraft.append' h'.toDraft, h'.placed.append h.placed⟩

/-- Trees among others. -/
theorem sublist (h : Fragment a b ts) (hs : us.Sublist ts) : Fragment a b us :=
  ⟨h.toDraft.sublist hs, h.placed.mono hs.subset⟩

/-- Some trees in a row get a node on top. -/
theorem group {vs : List Node} {line : Option Nat} {f : Form} (h : Fragment a b (us ++ (ts ++ vs)))
    (hf : (Node.mk ⟨none, line⟩ f ts).IsPlaced) (hn : f.isNested) :
    Fragment a b (us ++ Node.mk ⟨none, line⟩ f ts :: vs) := by
  have hp : Placed ts := h.placed.mono (by simp +contextual)
  exact ⟨h.toDraft.regroup (by simp [shared_mk_none]), (h.placed.mono (by simp +contextual)).append
    ((hp.node hf hn).append (h.placed.mono (by simp +contextual)))⟩

theorem node (h : Fragment a b ts) {line : Option Nat} {f : Form}
    (hf : (Node.mk ⟨none, line⟩ f ts).IsPlaced) (hn : f.isNested) :
    Fragment a b [Node.mk ⟨none, line⟩ f ts] := ⟨h.toDraft.node line f, h.placed.node hf hn⟩

/-- A node that is no type with members is taken off its parts. -/
theorem ungroup {vs : List Node} {m : Mark} {f : Form}
    (h : Fragment a b (us ++ Node.mk m f ts :: vs)) (hs : (Node.mk m f ts).isSole) :
    Fragment a b (us ++ (ts ++ vs)) := by
  have hm : m.key = none := (h.toDraft.sublist (by simp)).key_eq_none hs
  obtain ⟨key, line⟩ := m
  obtain rfl : key = none := hm
  have hone : Placed [Node.mk ⟨none, line⟩ f ts] := h.placed.mono (by simp)
  have hp : Placed ts := hone.parts
  exact ⟨h.toDraft.regroup (by simp [shared_mk_none]), (h.placed.mono (by simp +contextual)).append
    (hp.append (h.placed.mono (by simp +contextual)))⟩

end Fragment

end Node

end Fieldwise
