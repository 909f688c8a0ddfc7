import Fieldwise.Proofs.Aggregate.Leaves
import Fieldwise.Proofs.Session.Bindings
import Fieldwise.Proofs.Session.Run
import Fieldwise.Proofs.Text.Numeral
import Fieldwise.Source.Parser

/-!
# Initializers of arrays of aggregates

How the brace list of an array of aggregates reaches the field variables. The elements that the
list gives are made into initializers at file scope and for static arrays, and into assignments for
other local arrays; both go through the same pairs of an index and a field (`places`), the indices
in increasing order.

The main result puts this together with the length of the field arrays, which is found by another
count of the same entries (`Session.initialValues_array`).
-/

namespace Fieldwise

open Node Report

/-! ### Sorted indices -/

theorem insertInt_eq_orderedInsert (z : Int) (zs : List Int) :
    insertInt z zs = zs.orderedInsert (· ≤ ·) z := by
  induction zs with
  | nil => rfl
  | cons y ys ih => simp only [insertInt, List.orderedInsert_cons, ih]

theorem sortedInts_eq_insertionSort (zs : List Int) :
    sortedInts zs = zs.reverse.insertionSort (· ≤ ·) := by
  simp only [sortedInts, List.insertionSort, insertInt_eq_orderedInsert, List.foldr_reverse]

theorem perm_sortedInts (zs : List Int) : (sortedInts zs).Perm zs := by
  rw [sortedInts_eq_insertionSort]
  exact (List.perm_insertionSort _ _).trans (List.reverse_perm zs)

/-- Numbers of which none occurs twice come in strictly increasing order. -/
theorem pairwise_lt_sortedInts {zs : List Int} (h : zs.Nodup) :
    (sortedInts zs).Pairwise (· < ·) := by
  have hne : (sortedInts zs).Pairwise (· ≠ ·) := (perm_sortedInts zs).nodup_iff.mpr h
  have hle : (sortedInts zs).Pairwise (· ≤ ·) := by
    rw [sortedInts_eq_insertionSort]
    exact List.pairwise_insertionSort _ _
  exact hle.imp₂ (fun _ _ hle hne => lt_of_le_of_ne hle hne) hne

/-! ### Places of values -/

theorem lookup_eq_some_iff_mem {α β : Type} [DecidableEq α] {xs : List (α × β)}
    (hn : (xs.map Prod.fst).Nodup) {k : α} {v : β} : xs.lookup k = some v ↔ (k, v) ∈ xs := by
  induction xs with
  | nil => simp
  | cons x xs ih =>
    obtain ⟨k', v'⟩ := x
    obtain ⟨hk', hn⟩ := List.nodup_cons.mp hn
    rw [List.lookup_cons, List.mem_cons, Prod.mk.injEq]
    by_cases hk : k = k'
    · subst hk
      have hm : (k, v) ∉ xs := fun hm => hk' (List.mem_map.mpr ⟨_, hm, rfl⟩)
      simp [hm, eq_comm]
    · simp only [beq_false_of_ne hk, ih hn, hk, false_and, false_or]

/-- The elements give the field at a position of the element at an index a value. -/
def ValueAt (elements : List (Int × List (Nat × Node))) (z : Int) (i : Nat) (v : Node) : Prop :=
  ∃ values, (z, values) ∈ elements ∧ (i, v) ∈ values

/-- The value of a field of an element. -/
def valueAt? (elements : List (Int × List (Nat × Node))) (z : Int) (i : Nat) : Option Node :=
  (elements.lookup z).bind (List.lookup i)

theorem mem_sortedInts_of_valueAt {elements : List (Int × List (Nat × Node))} {z : Int} {i : Nat}
    {v : Node} (h : ValueAt elements z i v) : z ∈ sortedInts (elements.map Prod.fst) := by
  obtain ⟨values, hm, -⟩ := h
  exact (perm_sortedInts _).mem_iff.mpr (List.mem_map.mpr ⟨_, hm, rfl⟩)

/-- The values of elements with the indices and the positions of the fields where they go. -/
def places (elements : List (Int × List (Nat × Node))) (indices : List Int) (n : Nat) :
    List (Int × Nat × Node) :=
  indices.flatMap fun z => (List.range n).filterMap fun i =>
    (valueAt? elements z i).map fun v => (z, i, v)

/-- One place comes before another: its index is smaller, or its field comes first in the same
element. -/
def Before (p q : Int × Nat × Node) : Prop := p.1 < q.1 ∨ p.1 = q.1 ∧ p.2.1 < q.2.1

theorem pairwise_places {elements : List (Int × List (Nat × Node))} {indices : List Int}
    (h : indices.Pairwise (· < ·)) (n : Nat) : (places elements indices n).Pairwise Before := by
  refine List.pairwise_flatMap.mpr ⟨fun z _ => ?_, h.imp fun {z z'} hz p hp q hq => ?_⟩
  · refine List.pairwise_filterMap.mpr (List.pairwise_lt_range.imp fun {i j} hij p hp q hq => ?_)
    obtain ⟨v, -, rfl⟩ := Option.map_eq_some_iff.mp hp
    obtain ⟨w, -, rfl⟩ := Option.map_eq_some_iff.mp hq
    exact .inr ⟨rfl, hij⟩
  · obtain ⟨i, -, hp⟩ := List.mem_filterMap.mp hp
    obtain ⟨v, -, rfl⟩ := Option.map_eq_some_iff.mp hp
    obtain ⟨j, -, hq⟩ := List.mem_filterMap.mp hq
    obtain ⟨w, -, rfl⟩ := Option.map_eq_some_iff.mp hq
    exact .inl hz

/-- What is in the value of an entry of a brace list is in the list. -/
theorem mem_preorder_entry {list entry n : Node} (he : entry ∈ list.items)
    (hn : n ∈ (entryValue entry).preorder) : n ∈ list.preorder := by
  have hentry : n ∈ entry.preorder := by
    unfold entryValue at hn
    split at hn
    · exact mem_preorder_of_mem_parts List.mem_cons_self hn
    · exact hn
  refine mem_preorder_of_mem_parts ?_ hentry
  cases list with
  | absent => cases he
  | mk m f ps => exact List.mem_of_mem_drop he

namespace Aggregate

variable {a : Aggregate} {list v : Node} {elements : List (Int × List (Nat × Node))} {z : Int}
  {i : Nat}

theorem valueAt?_eq_some_iff (h : a.elementValues list = .ok (some elements)) :
    valueAt? elements z i = some v ↔ ValueAt elements z i v := by
  have hg := givesElements_of_elementValues h
  rw [valueAt?, Option.bind_eq_some_iff]
  refine exists_congr fun values => ?_
  rw [lookup_eq_some_iff_mem hg.nodup]
  refine and_congr_right fun hm => lookup_eq_some_iff_mem ?_
  obtain ⟨entry, -, hvalues⟩ := (hg.mem_iff z values).mp hm
  exact (fieldValues_mem hvalues).1

/-- A value that a brace list gives is that of a field, and it stands in the list. -/
theorem lt_length_and_mem_of_valueAt (h : a.elementValues list = .ok (some elements))
    (hv : ValueAt elements z i v) :
    i < a.fields.length ∧ ∀ n ∈ v.preorder, n ∈ list.preorder := by
  obtain ⟨values, hvalues, hm⟩ := hv
  obtain ⟨entry, ⟨k, hk, -⟩, hfields⟩ :=
    ((givesElements_of_elementValues h).mem_iff z values).mp hvalues
  obtain ⟨hi, e, he, rfl⟩ := (fieldValues_mem hfields).2 i v hm
  refine ⟨hi, fun n hn => ?_⟩
  exact mem_preorder_entry (List.mem_of_getElem? hk) (mem_preorder_entry he hn)

/-- The places of the values that a brace list gives. -/
theorem mem_places_iff (h : a.elementValues list = .ok (some elements)) :
    (z, i, v) ∈ places elements (sortedInts (elements.map Prod.fst)) a.fields.length ↔
      ValueAt elements z i v := by
  rw [← valueAt?_eq_some_iff h]
  simp only [places, List.mem_flatMap, List.mem_filterMap, List.mem_range, Option.map_eq_some_iff,
    Prod.mk.injEq]
  constructor
  · rintro ⟨_, -, _, -, _, hv, rfl, rfl, rfl⟩
    exact hv
  · intro hv
    have hat := (valueAt?_eq_some_iff h).mp hv
    exact ⟨z, mem_sortedInts_of_valueAt hat, i, (lt_length_and_mem_of_valueAt h hat).1, v, hv, rfl,
      rfl, rfl⟩

end Aggregate

/-! ### Initializers of the field arrays -/

/-- The element of a field array at an index. -/
def Binding.elementOf (b : Binding) (f : Field) (z : Int) : Node :=
  .arrayRef (.ident (b.fieldName f)) (.intLiteral z)

/-- The statements for the value at a place: they assign only to the element of the field array, or
within it, and for a value that is neither a brace list nor a string there is one of them. -/
def Binding.IsBlock (b : Binding) (p : Int × Nat × Node) (block : List Node) : Prop :=
  ∃ f, b.aggregate.fields[p.2.1]? = some f ∧
    (∀ stmt ∈ block, AssignsLeaf (b.elementOf f p.1) p.2.2 stmt) ∧
    (p.2.2.isA .initList = false → p.2.2.isString = false →
      block = [.assign (b.elementOf f p.1) p.2.2.copy])

/-- Statements come in blocks, one for each of some places in order. -/
def Binding.InBlocks (b : Binding) (ps : List (Int × Nat × Node)) (stmts : List Node) : Prop :=
  ∃ blocks, List.Forall₂ b.IsBlock ps blocks ∧ stmts = blocks.flatten

section Assignments

variable {b : Binding} {root : Node} {z : Int} {values : List (Nat × Node)}
  {elements : List (Int × List (Nat × Node))} {ps qs : List (Int × Nat × Node)}
  {stmts stmts' : List Node}

theorem Binding.InBlocks.nil (b : Binding) : b.InBlocks [] [] := ⟨[], .nil, rfl⟩

theorem Binding.InBlocks.cons {p : Int × Nat × Node} (h : b.IsBlock p stmts)
    (h' : b.InBlocks ps stmts') : b.InBlocks (p :: ps) (stmts ++ stmts') := by
  obtain ⟨blocks, hblocks, rfl⟩ := h'
  exact ⟨stmts :: blocks, .cons h hblocks, rfl⟩

theorem Binding.InBlocks.append (h : b.InBlocks ps stmts) (h' : b.InBlocks qs stmts') :
    b.InBlocks (ps ++ qs) (stmts ++ stmts') := by
  obtain ⟨blocks, hblocks, rfl⟩ := h
  obtain ⟨blocks', hblocks', rfl⟩ := h'
  exact ⟨blocks ++ blocks', List.rel_append hblocks hblocks', List.flatten_append.symm⟩

/-- The assignments to the fields from a position on are in blocks, one for each field that has a
value. -/
theorem ensures_assignFields (hin : ∀ i v, values.lookup i = some v →
      ∀ n ∈ v.preorder, n ∈ root.preorder)
    (hfits : ∀ i v, values.lookup i = some v → Numeral.fits z = false →
      BadNumberIn root .tooManyDigits) (fs : List Field) (i : Nat)
    (hfs : ∀ j, b.aggregate.fields[i + j]? = fs[j]?) :
    Ensures (BadNumberIn root) (assignFields b z values i fs) fun stmts =>
      b.InBlocks ((List.range' i fs.length).filterMap fun j =>
        (values.lookup j).map fun v => (z, j, v)) stmts := by
  induction fs generalizing i with
  | nil => exact ensures_pure (.nil b)
  | cons f fs ih =>
    have hf : b.aggregate.fields[i]? = some f := hfs 0
    have hrest := ih (i + 1) fun j => by rw [Nat.add_right_comm]; exact hfs (j + 1)
    rw [assignFields, List.length_cons, List.range'_succ, List.filterMap_cons]
    cases hv : values.lookup i with
    | none => exact hrest
    | some v =>
      refine (ensures_integer (hfits i v hv)).bind ?_
      rintro _ rfl
      exact (ensures_assignElement b.name _ v (hin i v hv)).bind fun first hfirst =>
        hrest.bind fun others hothers => ensures_pure (.cons ⟨f, hf, hfirst⟩ hothers)

/-- The assignments to the elements at some indices are in blocks, one for each place. -/
theorem ensures_assignAll (hin : ∀ z i v, valueAt? elements z i = some v →
      ∀ n ∈ v.preorder, n ∈ root.preorder)
    (hfits : ∀ z i v, valueAt? elements z i = some v → Numeral.fits z = false →
      BadNumberIn root .tooManyDigits) (indices : List Int) :
    Ensures (BadNumberIn root) (assignAll b elements indices) fun stmts =>
      b.InBlocks (places elements indices b.aggregate.fields.length) stmts := by
  induction indices with
  | nil => exact ensures_pure (.nil b)
  | cons z zs ih =>
    have hlookup : ∀ i, ((elements.lookup z).getD []).lookup i = valueAt? elements z i := by
      intro i
      cases h : elements.lookup z <;> simp [valueAt?, h]
    have hfirst : Ensures (BadNumberIn root)
        (assignFields b z ((elements.lookup z).getD []) 0 b.aggregate.fields) fun stmts =>
        b.InBlocks ((List.range' 0 b.aggregate.fields.length).filterMap fun j =>
          (((elements.lookup z).getD []).lookup j).map fun v => (z, j, v)) stmts :=
      ensures_assignFields (fun i v hv => hin z i v ((hlookup i).symm.trans hv))
        (fun i v hv => hfits z i v ((hlookup i).symm.trans hv)) _ 0 fun j => by rw [Nat.zero_add]
    simp only [hlookup, ← List.range_eq_range'] at hfirst
    rw [assignAll]
    exact hfirst.bind fun first h => ih.bind fun others h' => ensures_pure (h.append h')

end Assignments

/-! ### Bindings that are arrays -/

namespace Binding

/-- The statements assign the values of elements, in the order of indices and then of fields. -/
def AssignsValues (b : Binding) (elements : List (Int × List (Nat × Node))) (stmts : List Node) :
    Prop :=
  ∃ ps, ps.Pairwise Before ∧ (∀ z i v, (z, i, v) ∈ ps ↔ ValueAt elements z i v) ∧
    b.InBlocks ps stmts

/-- The list of an array goes to the initializers of its field arrays: it stands at file scope,
or it is static. -/
def isListed (b : Binding) : Bool := b.isGlobal || b.storage.contains "static"

end Binding

namespace Session

variable {s t : Session} {decl : Node} {b : Binding} {elements : List (Int × List (Nat × Node))}

/-- The plan for an array with a brace list that is accepted. -/
theorem run_plan?_of_array (hk : b.kind = .array) (hi : b.init.isA .initList = true)
    (he : b.aggregate.elementValues b.init = .ok (some elements)) (log : List Entry) :
    (t.plan? b).run.run log = (.ok (some (.arrayOfAggregates elements)), log) := by
  obtain ⟨m, ps, hinit⟩ : ∃ m ps, b.init = .mk m .initList ps := by
    cases h : b.init with
    | absent => rw [h] at hi; cases hi
    | mk m f ps => rw [h] at hi; cases f <;> first | exact ⟨m, ps, rfl⟩ | cases hi
  have helements : (t.planFor b .arrayOfAggregates).run.run log =
      (.ok (some (.arrayOfAggregates elements)), log) := by
    simp only [planFor, hk, hi, he, beq_self_eq_true, Bool.and_self, if_true]
    rfl
  -- the other strategies are for other kinds of bindings, or for operands
  have hdirect : t.planFor b .directList = pure none := by simp [planFor, hk]
  have hpointer : t.planFor b .pointerList = pure none := by simp [planFor, hk]
  have hheap : t.planFor b .heapAllocation = pure none := by simp [planFor, hk]
  have hcopy : t.planFor b .aggregateCopy = pure none := by simp [planFor, hinit, unwrap]
  simp only [plan?, planAmong, hdirect, hpointer, hheap, hcopy, pure_bind]
  exact Report.run_bind_eq_ok.mpr ⟨_, _, helements, rfl⟩

/-- An array with a brace list that is accepted gets the values of the elements. -/
theorem run_initialValues_of_array (hk : b.kind = .array) (hi : b.init.isA .initList = true)
    (he : b.aggregate.elementValues b.init = .ok (some elements)) :
    t.run (Engine.initialValues b b.fieldDecls) =
      ({ t with log := ⟨.initialized b.name "ArrayOfAggregates", b.decl.line⟩ :: t.log } :
        Session).run (Engine.applyPlan b b.fieldDecls (.arrayOfAggregates elements)) := by
  have hpresent : b.init.isPresent = true := by
    cases h : b.init with
    | absent => rw [h] at hi; cases hi
    | mk => rfl
  rw [Engine.initialValues, if_pos hpresent]
  have hplan : t.run (Engine.report fun s => s.plan? b) =
      (.ok (some (.arrayOfAggregates elements)), t) := by
    rw [run_report, run_plan?_of_array hk hi he]
  exact (run_bind_of_ok hplan).trans (run_bind_of_ok rfl)

/-- An index of an element with too many digits is one that an entry of the list goes to. -/
theorem badNumberIn_of_mem (hi : b.init.isA .initList = true)
    (he : b.aggregate.elementValues b.init = .ok (some elements)) {z : Int}
    (hm : z ∈ elements.map Prod.fst) (hz : Numeral.fits z = false) :
    BadNumberIn b.init .tooManyDigits := by
  obtain ⟨k, hgoes⟩ := ((Aggregate.givesElements_of_elementValues he).mem_keys_iff z).mp hm
  refine .index (self_mem_preorder ?_) hi hgoes hz
  cases h : b.init with
  | absent => rw [h] at hi; cases hi
  | mk => rfl

/-- The assignments to the elements of field arrays. -/
theorem ensures_assignsValues (hi : b.init.isA .initList = true)
    (he : b.aggregate.elementValues b.init = .ok (some elements)) :
    Report.Ensures (BadNumberIn b.init)
      (assignAll b elements (sortedInts (elements.map Prod.fst))) (b.AssignsValues elements) := by
  have hn := (Aggregate.givesElements_of_elementValues he).nodup
  refine (ensures_assignAll (fun z i v hv => ?_) (fun z i v hv hz => ?_) _).mono fun stmts h => ?_
  · exact (Aggregate.lt_length_and_mem_of_valueAt he
      ((Aggregate.valueAt?_eq_some_iff he).mp hv)).2
  · obtain ⟨values, hm, -⟩ := (Aggregate.valueAt?_eq_some_iff he).mp hv
    exact badNumberIn_of_mem hi he (List.mem_map_of_mem hm) hz
  · exact ⟨_, pairwise_places (pairwise_lt_sortedInts hn) _,
      fun z i v => Aggregate.mem_places_iff he, h⟩

/-- An array whose list goes to assignments. -/
theorem run_initialValues_of_not_isListed (hk : b.kind = .array) (hi : b.init.isA .initList = true)
    (he : b.aggregate.elementValues b.init = .ok (some elements)) (hlisted : b.isListed = false) :
    ∃ log, (∃ stmts, t.run (Engine.initialValues b b.fieldDecls) =
          (.ok { decls := b.fieldDecls, after := stmts }, { t with log }) ∧
        b.AssignsValues elements stmts) ∨
      ∃ f, BadNumberIn b.init f ∧
        t.run (Engine.initialValues b b.fieldDecls) = (.error f, { t with log }) := by
  have hnot : ¬ (b.isGlobal || b.storage.contains "static") = true := by
    rw [Binding.isListed] at hlisted
    rw [hlisted]
    exact Bool.false_ne_true
  simp only [run_initialValues_of_array hk hi he, Engine.applyPlan, if_neg hnot]
  obtain ⟨log, ⟨stmts, hstmts, hrun⟩ | ⟨f, hf, hrun⟩⟩ := ensures_assignsValues hi he
    (⟨.initialized b.name "ArrayOfAggregates", b.decl.line⟩ :: t.log)
  · refine ⟨log, .inl ⟨stmts, ?_, hstmts⟩⟩
    rw [run_bind, run_report, hrun]
    rfl
  · refine ⟨log, .inr ⟨f, hf, ?_⟩⟩
    rw [run_bind, run_report, hrun]

/-- **The assignments to the elements of a local array** name an element of a field array first, and
then one subscript for each list that stands around the value. They never assign a list. Where the
value of the field has the braces that the dimensions of the field call for, each target is a single
element within bounds; the type of the field is not looked at, so with other braces it need not be
one. -/
theorem mem_after_initialValues (hk : b.kind = .array) (hi : b.init.isA .initList = true)
    (he : b.aggregate.elementValues b.init = .ok (some elements)) (hlisted : b.isListed = false)
    {x : Expansion} {t' : Session} (hrun : t.run (Engine.initialValues b b.fieldDecls) = (.ok x, t'))
    {stmt : Node} (hs : stmt ∈ x.after) :
    ∃ z i f value target v, ValueAt elements z i value ∧ b.aggregate.fields[i]? = some f ∧
      Leaf (b.elementOf f z) value target v ∧ stmt = .assign target v.copy ∧
      v.isA .initList = false ∧ (Braced f.type.dimensions value →
        ∃ zs, target = (b.elementOf f z).subscripted zs ∧
          List.Forall₂ InBounds zs f.type.dimensions) := by
  obtain ⟨log, ⟨stmts, hok, hstmts⟩ | ⟨f, -, herror⟩⟩ :=
    run_initialValues_of_not_isListed (t := t) hk hi he hlisted
  · rw [hok] at hrun
    cases hrun
    obtain ⟨ps, -, hps, blocks, hblocks, rfl⟩ := hstmts
    obtain ⟨block, hblock, hs⟩ := List.mem_flatten.mp hs
    obtain ⟨hlen, hpairs⟩ := List.forall₂_iff_get.mp hblocks
    obtain ⟨k, hk', rfl⟩ := List.getElem_of_mem hblock
    obtain ⟨f, hf, hassigns, -⟩ := hpairs k (hlen ▸ hk') hk'
    obtain ⟨target, v, hleaf, hstring, rfl⟩ := hassigns stmt hs
    exact ⟨_, _, f, _, target, v, (hps _ _ _).mp (List.getElem_mem (hlen ▸ hk')), hf, hleaf, rfl,
      hleaf.isA_initList, hleaf.exists_subscripts hstring⟩
  · rw [herror] at hrun
    cases hrun

end Session

/-! ### An array of grids -/

namespace Grid

/-- The type of numbers. -/
def int : Node := .build (.typeDecl none []) [.build (.identifierType ["int"]) []]

/-- `struct S {int m[2][2];}` -/
def grid : Aggregate where
  name := "struct S"
  names := ["struct S"]
  struct := .absent
  fields := [⟨"m", .build (.arrayDecl [])
    [.build (.arrayDecl []) [int, .intLiteral 2], .intLiteral 2]⟩]

/-- A row of two numbers. -/
def row (m n : Int) : Node := .build .initList [.intLiteral m, .intLiteral n]

/-- `{{1, 2}, {3, 4}}` -/
def rows : Node := .build .initList [row 1 2, row 3 4]

/-- `struct S arr[1] = {{{{1, 2}, {3, 4}}}};` in a block -/
def array : Binding where
  decl := .build (.decl (some "arr") {})
    [.build (.arrayDecl []) [.build (.typeDecl (some "arr") [])
      [.build (.structType (some "S") false) []], .intLiteral 1],
      .build .initList [.build .initList [rows]], .absent]
  aggregate := grid
  kind := .array
  scope := .build .compound []
  size := some 1

theorem inBounds_of_pair {entry other : Node} (h : entry.designators? = none)
    (h' : other.designators? = none) {k : Nat} {z : Int} (hz : Goes 0 [entry, other] k z) :
    InBounds z (.intLiteral 2) := by
  obtain rfl := hz.eq_add (by simp [h, h'])
  have hk := hz.lt_length
  simp only [List.length_cons, List.length_nil] at hk
  refine ⟨by omega, fun n hn => ?_⟩
  obtain rfl : 2 = n := by simpa using (show Except.ok (some 2) = Except.ok (some n) from hn)
  omega

theorem braced_row (m n : Int) : Braced [.intLiteral 2] (row m n) := by
  refine .list rfl (fun k z hz => inBounds_of_pair rfl rfl hz) fun entry he => ?_
  have hentry : entry = .intLiteral m ∨ entry = .intLiteral n := by
    simpa [row, items, Form.cls, Class.slots] using he
  rcases hentry with rfl | rfl <;> exact .single rfl

theorem braced_rows : Braced [.intLiteral 2, .intLiteral 2] rows := by
  refine .list rfl (fun k z hz => inBounds_of_pair rfl rfl hz) fun entry he => ?_
  have hentry : entry = row 1 2 ∨ entry = row 3 4 := by
    simpa [rows, items, Form.cls, Class.slots] using he
  rcases hentry with rfl | rfl
  · exact braced_row 1 2
  · exact braced_row 3 4

theorem mem_after_initialValues_array :
    ∃ x t, (Session.start (.build .file []) {} none).run
        (Engine.initialValues array array.fieldDecls) = (.ok x, t) ∧ x.after.length = 4 ∧
      ∀ stmt ∈ x.after, ∃ (f : Field) (zs : List Int) (v : Node),
        stmt = .assign ((array.elementOf f 0).subscripted zs) v.copy ∧
          v.isA .initList = false ∧ List.Forall₂ InBounds zs [.intLiteral 2, .intLiteral 2] := by
  have h : (match ((Session.start (.build .file []) {} none).run
      (Engine.initialValues array array.fieldDecls)).1 with
      | .ok x => x.after.length == 4
      | .error _ => false) = true := by decide +kernel
  split at h
  · rename_i x hx
    refine ⟨x, _, Prod.ext hx rfl, beq_iff_eq.mp h, fun stmt hs => ?_⟩
    have he : array.aggregate.elementValues array.init = .ok (some [(0, [(0, rows)])]) := rfl
    obtain ⟨z, i, f, value, target, v, hvalue, hf, -, rfl, hv, hbraced⟩ :=
      Session.mem_after_initialValues rfl rfl he rfl (Prod.ext hx rfl) hs
    obtain ⟨values, hm, hi⟩ := hvalue
    obtain ⟨rfl, rfl⟩ : z = 0 ∧ values = [(0, rows)] := by simpa using hm
    obtain ⟨rfl, rfl⟩ : i = 0 ∧ value = rows := by simpa using hi
    obtain rfl := Option.some.inj hf
    obtain ⟨zs, rfl, hzs⟩ := hbraced braced_rows
    exact ⟨_, zs, v, rfl, hv, hzs⟩
  · cases h

end Grid

end Fieldwise
