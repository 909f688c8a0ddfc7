import Fieldwise.Proofs.Tree.Fragment
import Fieldwise.Proofs.Tree.Graft
import Fieldwise.Tree.Declarator
import Fieldwise.Tree.Expression

/-!
# Regular programs

A program is `Node.Regular` if declarations stand where they can and, where the `Discipline` is
strict, calls that stand for assignments have two arguments, and what a function definition begins
with declares a function. Where the discipline is sorted, statements stand where they can as well
(`Node.IsSorted`). Copies and trees that get keys stay regular, and so does a program one node of
which is changed with care (`Node.Grafting.regular_map`).
-/

namespace Fieldwise

/-- Whether programs are held to the rules without which a rewriting may break an assertion. What is
shown for every discipline is true of all programs, and of those that keep the rules yet more. -/
class Discipline where
  strict : Prop
  /-- Whether statements are held to their places. -/
  sorted : Prop

/-- Nothing is asked of the programs. -/
def Discipline.IsLax [Discipline] : Prop := ¬ Discipline.strict ∧ ¬ Discipline.sorted

/-- The classes of statements that are no expressions. -/
def Class.isStatement : Class → Bool
  | breakStmt | caseLabel | compound | continueStmt | defaultLabel | doWhile | emptyStatement
  | forLoop | goto | ifStmt | label | returnStmt | switch | whileLoop => true
  | _ => false

/-- The places of a form at which statements stand. -/
def Form.holdsStatement (f : Form) (i : Nat) : Bool :=
  match f with
  | .compound | .defaultLabel | .label _ => true
  | .caseLabel | .ifStmt => i != 0
  | .doWhile | .funcDef | .switch | .whileLoop => i == 1
  | .forLoop => i == 3
  | _ => false

/-- The branches of a conditional expression. Their slots are those of a conditional statement, and
so the rewriting takes them for places of statements. -/
def Form.isBranch (f : Form) (i : Nat) : Bool :=
  match f with
  | .ternaryOp => i != 0
  | _ => false

namespace Node

/-- Whether a node is a statement and no expression. -/
def isStatement (n : Node) : Bool := n.cls?.any Class.isStatement

/-- The statements among the parts of a node stand where statements do, or where they are taken to
do so. -/
def IsSorted (n : Node) : Prop :=
  ∀ f, n.form? = some f → ∀ i c, n.parts[i]? = some c → c.isStatement →
    f.holdsStatement i ∨ f.isBranch i

/-- Whether a node is the declaration of a function. -/
def declaresFunction (n : Node) : Bool := n.isA .decl && (n.child .type).isA .funcDecl

/-- The key and the form of the declaration that a function definition begins with. -/
def head? (n : Node) : Option (Option Nat × Option Form) :=
  if n.isA .funcDef then some ((n.child .decl).key, (n.child .decl).form?) else none

/-- The name in the declaration that a function definition begins with. -/
def headName? (n : Node) : Option String := if n.isA .funcDef then (n.child .decl).name? else none

/-- The number of expressions in a list of them. -/
def exprCount? (n : Node) : Option Nat := if n.isA .exprList then some n.parts.length else none

/-- The name that a node is the use of. -/
def identName? (n : Node) : Option String :=
  match n.form? with
  | some (.ident name) => some name
  | _ => none

theorem child_mk (m : Mark) (f : Form) (ps : List Node) (s : Slot) :
    (mk m f ps).child s = (ps[f.cls.slots.idxOf s]?).getD absent := by
  rw [child, List.getD_eq_getElem?_getD]

/-- Whether a function is declared depends on which parts of the node are function declarators. -/
theorem declaresFunction_congr {m m' : Mark} {f : Form} {ps qs : List Node}
    (h : ps.map (·.isA .funcDecl) = qs.map (·.isA .funcDecl)) :
    (mk m f ps).declaresFunction = (mk m' f qs).declaresFunction := by
  have hi := congrArg (fun l => l[f.cls.slots.idxOf .type]?) h
  simp only [List.getElem?_map] at hi
  have habsent : ((mk m f ps).child .type).isA .funcDecl =
      ((mk m' f qs).child .type).isA .funcDecl := by
    rw [child_mk, child_mk]
    cases hp : ps[f.cls.slots.idxOf .type]? <;> cases hq : qs[f.cls.slots.idxOf .type]? <;>
      simp_all
  rw [declaresFunction, declaresFunction, habsent]
  rfl

theorem declaresFunction_of_isA {n : Node} (h : n.isA .decl = false) :
    n.declaresFunction = false := by
  simp [declaresFunction, h]

theorem name?_congr {x y : Node} (h : x.form? = y.form?) : x.name? = y.name? := by
  cases x with
  | absent =>
    cases y with
    | absent => rfl
    | mk => cases h
  | mk m f ps =>
    cases y with
    | absent => cases h
    | mk m' f' ps' =>
      obtain rfl : f = f' := by simpa [form?] using h
      cases f <;> rfl

/-- What a function definition begins with is its first part. -/
theorem head?_congr {m m' : Mark} {f : Form} {ps qs : List Node}
    (h : f.cls = .funcDef → (ps[0]?.getD absent).key = (qs[0]?.getD absent).key ∧
      (ps[0]?.getD absent).form? = (qs[0]?.getD absent).form?) :
    (mk m f ps).head? = (mk m' f qs).head? := by
  by_cases hf : f.cls = .funcDef
  · have hidx : f.cls.slots.idxOf .decl = 0 := by
      rw [hf]
      rfl
    have hchild : ∀ (m : Mark) (rs : List Node), (mk m f rs).head? =
        some ((rs[0]?.getD absent).key, (rs[0]?.getD absent).form?) := fun m rs => by
      rw [head?, if_pos (by simp [isA, cls?, form?, hf]), child_mk, hidx]
    rw [hchild, hchild, (h hf).1, (h hf).2]
  · simp [head?, isA, cls?, form?, hf]

theorem headName?_congr {x y : Node} (h : x.head? = y.head?) : x.headName? = y.headName? := by
  unfold head? at h
  unfold headName?
  cases hx : x.isA .funcDef <;> cases hy : y.isA .funcDef
  · rfl
  · simp [hx, hy] at h
  · simp [hx, hy] at h
  · simp only [hx, hy, if_true, Option.some.injEq, Prod.mk.injEq] at h ⊢
    exact name?_congr h.2

/-! ### Copies -/

theorem form?_copy (t : Node) : t.copy.form? = t.form? := by cases t <;> rfl

theorem cls?_copy (t : Node) : t.copy.cls? = t.cls? := by cases t <;> rfl

theorem parts_copy (t : Node) : t.copy.parts = t.parts.map copy := by
  cases t with
  | absent => rfl
  | mk m f ps => simp [copy, parts, copyAll_eq_map]

/-- The nodes of a copy are copies. -/
theorem preorder_copy (t : Node) : t.copy.preorder = t.preorder.map copy := by
  induction t using induction with
  | h₀ => rfl
  | h m f ps ih =>
    rw [copy, copyAll_eq_map, preorder, preorder, preorderAll_eq_flatMap, preorderAll_eq_flatMap,
      List.map_cons, List.map_flatMap, List.flatMap_map, List.flatMap_def, List.flatMap_def,
      List.map_congr_left ih, copy, copyAll_eq_map]

theorem exists_of_mem_copy {t y : Node} (h : y ∈ t.copy.preorder) :
    ∃ x ∈ t.preorder, y = x.copy := by
  obtain ⟨x, hx, rfl⟩ := List.mem_map.mp (preorder_copy t ▸ h)
  exact ⟨x, hx, rfl⟩

theorem key_copy (t : Node) : t.copy.key = none := by cases t <;> rfl

theorem keyless_copy (t : Node) : Keyless [t.copy] := by
  intro y hy
  obtain ⟨x, -, rfl⟩ := exists_of_mem_copy (mem_preorderAll_singleton.mp hy)
  exact key_copy x

/-! ### Nodes that look the same -/

theorem identName?_eq_some {n : Node} {name : String} :
    n.identName? = some name ↔ n.form? = some (.ident name) := by
  unfold identName?
  split
  · rename_i name' h
    rw [h]
    simp
  · rename_i h
    simp only [reduceCtorEq, false_iff]
    exact h name

theorem callName?_eq_some {n : Node} {name : String} :
    n.callName? = some name ↔ n.form? = some .funcCall ∧
      ∃ c, n.parts[0]? = some c ∧ c.identName? = some name := by
  simp only [identName?_eq_some]
  constructor
  · intro h
    unfold callName? at h
    split at h
    · cases h
      exact ⟨rfl, _, rfl, rfl⟩
    · cases h
  · rintro ⟨hf, c, hc, hcf⟩
    cases n with
    | absent => cases hf
    | mk m f ps =>
      obtain rfl : f = .funcCall := by simpa [form?] using hf
      cases ps with
      | nil => cases hc
      | cons p ps =>
        obtain rfl : p = c := by simpa [parts] using hc
        cases p with
        | absent => cases hcf
        | mk m' f' ps' =>
          obtain rfl : f' = .ident name := by simpa [form?] using hcf
          rfl

/-- An entry of one of two lists that look the same has its like in the other one. -/
theorem exists_of_map_eq {α β : Type} {g : α → β} {xs ys : List α} (h : xs.map g = ys.map g)
    {i : Nat} {y : α} (hy : ys[i]? = some y) : ∃ x, xs[i]? = some x ∧ g x = g y := by
  have hi := congrArg (fun l => l[i]?) h
  simpa [List.getElem?_map, hy, Option.map_eq_some_iff] using hi

theorem identName?_congr {x y : Node} (h : x.form? = y.form?) : x.identName? = y.identName? := by
  rw [identName?, identName?, h]

theorem cls?_congr {x y : Node} (h : x.form? = y.form?) : x.cls? = y.cls? := by
  rw [cls?, cls?, h]

theorem isStatement_congr {x y : Node} (h : x.cls? = y.cls?) : x.isStatement = y.isStatement := by
  rw [isStatement, isStatement, h]

/-- What may be shared is a type. -/
theorem isStatement_of_not_isSole {x : Node} (h : x.isSole = false) : x.isStatement = false := by
  unfold isSole at h
  unfold isStatement
  cases hc : x.cls? with
  | none => rfl
  | some c =>
    rw [hc] at h
    cases c <;> first | rfl | cases h

theorem isStatement_stampAll {a : Nat} {new : List Node} (h : ∀ x ∈ new, x.isStatement = false) :
    ∀ x ∈ (stampAll a new).1, x.isStatement = false := by
  intro x hx
  obtain ⟨y, hy, n, -, rfl⟩ := mem_stampAll hx
  rw [isStatement_congr (cls?_stamp n y)]
  exact h y hy

theorem exprCount?_congr {x y : Node} (h : x.cls? = y.cls?) (hl : x.parts.length = y.parts.length) :
    x.exprCount? = y.exprCount? := by
  rw [exprCount?, exprCount?, isA, isA, h, hl]

theorem map_isA_congr {c : Class} {ps qs : List Node} (h : ps.map cls? = qs.map cls?) :
    ps.map (·.isA c) = qs.map (·.isA c) := by
  have := congrArg (List.map (· == some c)) h
  rw [List.map_map, List.map_map] at this
  exact this

theorem declaresFunction_copy (t : Node) : t.copy.declaresFunction = t.declaresFunction := by
  cases t with
  | absent => rfl
  | mk m f ps =>
    rw [copy, copyAll_eq_map]
    refine declaresFunction_congr (map_isA_congr ?_)
    rw [List.map_map]
    exact List.map_congr_left fun p _ => cls?_copy p

theorem isInitialized_copy (t : Node) : t.copy.isInitialized = t.isInitialized :=
  isInitialized_congr (form?_copy t) (by
    rw [parts_copy, List.map_map]
    exact List.map_congr_left fun p _ => cls?_copy p)

/-! ### Keys -/

theorem declaresFunction_stamp (next : Nat) (t : Node) :
    (stamp next t).1.declaresFunction = t.declaresFunction := by
  cases t with
  | absent => rfl
  | mk m f ps =>
    obtain ⟨_ | k, line⟩ := m
    · exact declaresFunction_congr (map_isA_congr (map_stampAll cls?_stamp _ ps))
    · exact declaresFunction_congr (map_isA_congr (map_stampAll cls?_stamp _ ps))

theorem length_parts_stamp (next : Nat) (t : Node) :
    (stamp next t).1.parts.length = t.parts.length := by
  simpa using congrArg List.length (map_parts_stamp cls?_stamp next t)

/-! ### Grafts -/

namespace Grafting

variable {k next : Nat} {change : Node → Node} {P x : Node} {ts : List Node}

variable (h : Grafting next k change P ts)
include h

/-- Forms are kept if the changed node keeps its form. -/
theorem form?_modifyAt (hf : (change P).form? = P.form?) (hx : x ∈ preorderAll ts) :
    (modifyAt k change x).form? = x.form? := by
  by_cases hk : x.key = some k
  · rw [modifyAt_of_key hk, h.eq hx hk, hf]
  · rw [modifyAt_of_key_ne hk, form?_withParts]

/-- A node other than the one that is changed declares a function if it did so before. -/
theorem declaresFunction_modifyAt (hx : x ∈ preorderAll ts) :
    x = P ∧ modifyAt k change x = change P ∨
      (modifyAt k change x).declaresFunction = x.declaresFunction := by
  by_cases hk : x.key = some k
  · obtain rfl := h.eq hx hk
    exact .inl ⟨rfl, modifyAt_of_key hk⟩
  · right
    rw [modifyAt_of_key_ne hk]
    cases x with
    | absent => rfl
    | mk m f ps =>
      refine declaresFunction_congr (map_isA_congr ?_)
      rw [Node.parts, List.map_map]
      refine List.map_congr_left fun p hp => ?_
      cases p with
      | absent => rfl
      | mk m' f' ps' => exact h.cls?_modifyAt (mem_of_mem_parts hx hp rfl)

/-- A node other than the one that is changed has an initializer if it did so before. -/
theorem isInitialized_modifyAt (hx : x ∈ preorderAll ts) :
    x = P ∧ modifyAt k change x = change P ∨
      (modifyAt k change x).isInitialized = x.isInitialized := by
  by_cases hk : x.key = some k
  · obtain rfl := h.eq hx hk
    exact .inl ⟨rfl, modifyAt_of_key hk⟩
  · right
    rw [modifyAt_of_key_ne hk]
    refine isInitialized_congr (form?_withParts _ _) ?_
    rw [parts_withParts_map, List.map_map]
    refine List.map_congr_left fun p hp => ?_
    cases p with
    | absent => rfl
    | mk m f ps => exact h.cls?_modifyAt (mem_of_mem_parts hx hp rfl)

/-- A function definition begins with the same declaration if no form is changed. -/
theorem head?_modifyAt (hf : (change P).form? = P.form?) (hx : x ∈ preorderAll ts) :
    x = P ∧ modifyAt k change x = change P ∨ (modifyAt k change x).head? = x.head? := by
  by_cases hk : x.key = some k
  · obtain rfl := h.eq hx hk
    exact .inl ⟨rfl, modifyAt_of_key hk⟩
  · right
    rw [modifyAt_of_key_ne hk]
    cases x with
    | absent => rfl
    | mk m f ps =>
      refine head?_congr fun _ => ?_
      rw [Node.parts, List.getElem?_map]
      cases hp : ps[0]? with
      | none => exact ⟨rfl, rfl⟩
      | some p =>
        have hp := List.mem_of_getElem? hp
        cases p with
        | absent => exact ⟨rfl, rfl⟩
        | mk m' f' ps' =>
          have hm := mem_of_mem_parts hx hp rfl
          exact ⟨h.key_modifyAt hm, h.form?_modifyAt hf hm⟩

end Grafting

/-! ### Regular trees -/

section

variable [Discipline]

/-- Nothing is wrong with a node and its parts. -/
structure IsRegular (n : Node) : Prop where
  placed : n.IsPlaced
  call : Discipline.strict → n.callName? = some "operator=" →
    ∀ a ∈ n.parts, ∀ k, a.exprCount? = some k → k = 2
  head : Discipline.strict → n.isA .funcDef →
    ∀ d, n.parts[0]? = some d → d.declaresFunction
  sorted : Discipline.sorted → n.IsSorted

/-- Nothing is wrong in some trees. -/
def Regular (ts : List Node) : Prop := ∀ x ∈ preorderAll ts, x.IsRegular

namespace Regular

variable {ts us : List Node} {t x : Node}

theorem mono (h : Regular ts) (hs : ∀ x ∈ preorderAll us, x ∈ preorderAll ts) : Regular us :=
  fun x hx => h x (hs x hx)

theorem of_mem (h : Regular ts) (ht : t ∈ ts) : Regular [t] := h.mono fun _ hx =>
  mem_preorderAll.mpr ⟨t, ht, mem_preorderAll_singleton.mp hx⟩

theorem of_forall (h : ∀ t ∈ ts, Regular [t]) : Regular ts := fun x hx => by
  obtain ⟨t, ht, hx⟩ := mem_preorderAll.mp hx
  exact h t ht x (mem_preorderAll_singleton.mpr hx)

theorem of_mem_preorderAll (h : Regular ts) (hx : x ∈ preorderAll ts) : Regular [x] :=
  h.mono fun _ hy => mem_preorderAll_trans (mem_preorderAll_singleton.mp hy) hx

theorem absent : Regular [Node.absent] := fun _ hx =>
  (not_mem_preorder_absent (mem_preorderAll_singleton.mp hx)).elim

theorem node {m : Mark} {f : Form} (h : Regular ts) (hf : (Node.mk m f ts).IsRegular) :
    Regular [Node.mk m f ts] := fun x hx => by
  rcases (mem_preorder_iff rfl).mp (mem_preorderAll_singleton.mp hx) with rfl | hx
  · exact hf
  · exact h x hx

theorem parts (h : Regular [t]) : Regular t.parts := h.mono fun x hx => by
  obtain ⟨p, hp, hx⟩ := mem_preorderAll.mp hx
  exact mem_preorderAll_singleton.mpr (mem_preorder_of_mem_parts hp hx)

theorem child (h : Regular [t]) (s : Slot) : Regular [t.child s] := by
  cases t with
  | absent => exact absent
  | mk m f ps =>
    rw [Node.child, List.getD_eq_getElem?_getD]
    cases hc : ps[f.cls.slots.idxOf s]? with
    | none => exact absent
    | some c => exact h.parts.of_mem (List.mem_of_getElem? hc)

end Regular

/-- Two nodes of one form, whose parts look the same as far as regularity depends on them. -/
structure Alike (x y : Node) : Prop where
  form : x.form? = y.form?
  classes : x.parts.map cls? = y.parts.map cls?
  idents : x.parts.map identName? = y.parts.map identName?
  types : Discipline.strict → x.parts.map declaresFunction = y.parts.map declaresFunction
  counts : x.callName? = some "operator=" → x.parts.map exprCount? = y.parts.map exprCount?
  inits : ∀ c ∈ y.parts, c.isInitialized → ∃ c' ∈ x.parts, c'.isInitialized

theorem Alike.callName? {x y : Node} (ha : Alike x y) {name : String}
    (hn : y.callName? = some name) : x.callName? = some name := by
  obtain ⟨hf, c, hc, hcn⟩ := callName?_eq_some.mp hn
  obtain ⟨c', hc', hcn'⟩ := exists_of_map_eq ha.idents hc
  exact callName?_eq_some.mpr ⟨ha.form.trans hf, c', hc', hcn'.trans hcn⟩

/-- A change to each part that keeps what a node shows of itself. -/
theorem alike_of_map {x y : Node} {g : Node → Node} (hf : x.form? = y.form?)
    (hp : y.parts = x.parts.map g)
    (hg : ∀ p ∈ x.parts, (g p).form? = p.form? ∧ (g p).parts.length = p.parts.length ∧
      (g p).declaresFunction = p.declaresFunction ∧ (g p).isInitialized = p.isInitialized) :
    Alike x y where
  form := hf
  classes := by
    rw [hp, List.map_map]
    exact List.map_congr_left fun p hpx => (cls?_congr (hg p hpx).1).symm
  idents := by
    rw [hp, List.map_map]
    exact List.map_congr_left fun p hpx => (identName?_congr (hg p hpx).1).symm
  types _ := by
    rw [hp, List.map_map]
    exact List.map_congr_left fun p hpx => (hg p hpx).2.2.1.symm
  counts _ := by
    rw [hp, List.map_map]
    exact List.map_congr_left fun p hpx =>
      (exprCount?_congr (cls?_congr (hg p hpx).1) (hg p hpx).2.1).symm
  inits := exists_initialized_of_map (by
    rw [hp, List.map_map]
    exact List.map_congr_left fun p hpx => (hg p hpx).2.2.2.symm)

theorem alike_stamp (next : Nat) (t : Node) : Alike t (stamp next t).1 where
  form := (form?_stamp next t).symm
  classes := (map_parts_stamp cls?_stamp next t).symm
  idents := (map_parts_stamp (fun n t => identName?_congr (form?_stamp n t)) next t).symm
  types _ := (map_parts_stamp declaresFunction_stamp next t).symm
  counts _ := (map_parts_stamp (fun n t =>
    exprCount?_congr (cls?_stamp n t) (length_parts_stamp n t)) next t).symm
  inits := exists_initialized_of_map (map_parts_stamp isInitialized_stamp next t).symm

theorem IsRegular.of_alike {x y : Node} (h : x.IsRegular) (ha : Alike x y) : y.IsRegular := by
  refine ⟨h.placed.of_parts ha.form ha.classes ha.inits, fun hs hn a hay k hk => ?_,
    fun hs hf d hd => ?_, fun hs f hf i c hc hst => ?_⟩
  · have hxn := ha.callName? hn
    obtain ⟨i, hi⟩ := List.getElem?_of_mem hay
    obtain ⟨a', ha', haa⟩ := exists_of_map_eq (ha.counts hxn) hi
    exact h.call hs hxn a' (List.mem_of_getElem? ha') k (haa.trans hk)
  · obtain ⟨d', hd', htypes⟩ := exists_of_map_eq (ha.types hs) hd
    exact htypes.symm.trans (h.head hs (by simpa [isA, cls?, ha.form] using hf) d' hd')
  · obtain ⟨c', hc', hcls⟩ := exists_of_map_eq ha.classes hc
    exact h.sorted hs f (ha.form.trans hf) i c' hc' (isStatement_congr hcls ▸ hst)

theorem Regular.copy {t : Node} (h : Regular [t]) : Regular [t.copy] := by
  intro y hy
  obtain ⟨x, hx, rfl⟩ := exists_of_mem_copy (mem_preorderAll_singleton.mp hy)
  refine (h x (mem_preorderAll_singleton.mpr hx)).of_alike
    (alike_of_map (form?_copy x).symm (parts_copy x) fun p _ => ?_)
  exact ⟨form?_copy p, by simp [parts_copy], declaresFunction_copy p, isInitialized_copy p⟩

theorem Regular.stamp {t : Node} (h : Regular [t]) (next : Nat) :
    Regular [(t.stamp next).1] := by
  intro y hy
  obtain ⟨x, hx, n, rfl⟩ := exists_of_mem_stamp (mem_preorderAll_singleton.mp hy)
  exact (h x (mem_preorderAll_singleton.mpr hx)).of_alike (alike_stamp n x)

theorem Regular.stampAll {ts : List Node} (h : Regular ts) (next : Nat) :
    Regular (Node.stampAll next ts).1 := by
  refine .of_forall fun c hc => ?_
  obtain ⟨p, hp, n, -, rfl⟩ := mem_stampAll hc
  exact (h.of_mem hp).stamp n

/-- A graft that keeps what regularity depends on. -/
structure Tame (next : Nat) (ts : List Node) (P P' : Node) : Prop where
  ident : P'.identName? = P.identName?
  gain : P'.declaresFunction → P.declaresFunction
  types : Discipline.strict → P'.declaresFunction = P.declaresFunction
  head : P'.head? = P.head?
  args : P'.exprCount? = P.exprCount? ∨
    ∀ q ∈ preorderAll ts, P ∈ q.parts → q.callName? ≠ some "operator="
  inits : P'.isInitialized → P.isInitialized
  self : P'.IsRegular
  fresh : ∀ y ∈ preorderAll P'.parts, ¬ IsOld next y → y.IsRegular

variable {k next : Nat} {change : Node → Node} {P : Node} {ts : List Node}

/-- **A graft that keeps what regularity depends on keeps the trees regular.** -/
theorem Grafting.regular_map (h : Grafting next k change P ts) (hr : Regular ts)
    (ht : Tame next ts P (change P)) : Regular (ts.map (modifyAt k change)) := by
  intro y hy
  rcases h.of_mem_preorderAll hy with ⟨x, hx, rfl⟩ | ⟨hy, hyn⟩
  · by_cases hk : x.key = some k
    · rw [modifyAt_of_key hk, h.eq hx hk]
      exact ht.self
    · refine (hr x hx).of_alike ?_
      have hparts : (modifyAt k change x).parts = x.parts.map (modifyAt k change) := by
        rw [modifyAt_of_key_ne hk, parts_withParts_map]
      -- What a part shows of itself is kept.
      have hmap : ∀ {β : Type} {g : Node → β}, (∀ p ∈ preorderAll ts, p ∈ x.parts →
          g (modifyAt k change p) = g p) →
          x.parts.map g = (modifyAt k change x).parts.map g := by
        intro β g hg
        rw [hparts, List.map_map]
        refine List.map_congr_left fun p hp => ?_
        cases p with
        | absent => rfl
        | mk m f ps => exact (hg _ (mem_of_mem_parts hx hp rfl) hp).symm
      refine
        { form := by rw [modifyAt_of_key_ne hk, form?_withParts]
          classes := hmap fun p hp _ => h.cls?_modifyAt hp
          idents := hmap fun p hp _ => ?_
          types := fun hs => hmap fun p hp _ => ?_
          counts := fun hn => hmap fun p hp hpx => ?_
          inits := fun c hc hci => ?_ }
      · by_cases hpk : p.key = some k
        · rw [modifyAt_of_key hpk, h.eq hp hpk, ht.ident]
        · rw [modifyAt_of_key_ne hpk, identName?, form?_withParts, identName?]
      · rcases h.declaresFunction_modifyAt hp with ⟨rfl, hp⟩ | hp
        · rw [hp, ht.types hs]
        · exact hp
      · by_cases hpk : p.key = some k
        · have hpP := h.eq hp hpk
          rw [modifyAt_of_key hpk, hpP]
          exact ht.args.resolve_right fun hq => hq x hx (hpP ▸ hpx) hn
        · rw [modifyAt_of_key_ne hpk]
          refine exprCount?_congr (cls?_withParts _ _) ?_
          rw [parts_withParts_map, List.length_map]
      · obtain ⟨p, hp, rfl⟩ := List.mem_map.mp (hparts ▸ hc)
        refine ⟨p, hp, ?_⟩
        cases p with
        | absent => exact hci
        | mk m f ps =>
          rcases h.isInitialized_modifyAt (mem_of_mem_parts hx hp rfl) with ⟨rfl, hP⟩ | hP
          · exact ht.inits (hP ▸ hci)
          · exact hP ▸ hci
  · exact ht.fresh y hy hyn

end

end Node

end Fieldwise
