import Fieldwise.Proofs.Aggregate.Elements
import Fieldwise.Proofs.Session.Meaning
import Fieldwise.Proofs.Tree.Knit

/-!
# Values inside of brace lists

What `assignElement` writes a value of an array field out as. A `Leaf` is a value that is no brace
list, with the target where it stands: each list around it adds one subscript, the index that its
entry goes to. All statements assign leaves to their targets (`ensures_assignElement`).

So a target has as many subscripts as there are braces around the value, whatever the type of the
field is. Where a value is braced as the dimensions of its field say (`Braced`), each target is a
single element within bounds (`Leaf.exists_subscripts`); where braces are left out or added it is
not.

A report can fail, but only on a number in the list: a constant that has no value, or an index that
has no text (`BadNumberIn`).
-/

namespace Fieldwise

open Node

/-- A value that is no brace list stands at a target, inside of the brace lists that another target
is to be given. -/
inductive Leaf : Node → Node → Node → Node → Prop where
  | here {target value : Node} (h : value.isA .initList = false) : Leaf target value target value
  | inside {target value entry t v : Node} {k : Nat} {z : Int}
      (hl : value.isA .initList = true) (he : value.items[k]? = some entry)
      (hz : Goes 0 value.items k z)
      (h : Leaf (.arrayRef target (.intLiteral z)) (entryValue entry) t v) : Leaf target value t v

/-- A statement assigns a leaf of a value to its target. -/
def AssignsLeaf (target value stmt : Node) : Prop :=
  ∃ t v, Leaf target value t v ∧ v.isString = false ∧ stmt = .assign t v.copy

/-- A statement assigns a leaf of the value of an entry within the element of a target that the entry
goes to, where the first entry would go to `cursor`. -/
def AssignsEntry (target : Node) (cursor : Int) (entries : List Node) (stmt : Node) : Prop :=
  ∃ k entry z, entries[k]? = some entry ∧ Goes cursor entries k z ∧
    AssignsLeaf (.arrayRef target (.intLiteral z)) (entryValue entry) stmt

/-- The element of an array, or of an array in it, with some subscripts. -/
def Node.subscripted (target : Node) (zs : List Int) : Node :=
  zs.foldl (fun t z => .arrayRef t (.intLiteral z)) target

/-- The dimensions of an array, outermost first. -/
def Node.dimensions : Node → List Node
  | .mk _ (.arrayDecl _) [type, dim] => dim :: type.dimensions
  | _ => []

/-- An index is within a dimension, as far as that is a constant. -/
def InBounds (z : Int) (dim : Node) : Prop := 0 ≤ z ∧ ∀ n, dim.intValue = .ok (some n) → z < n

/-- A value has the braces that an array with some dimensions calls for: a list for each dimension
and no more, with indices within bounds. A string stands for a list. -/
inductive Braced : List Node → Node → Prop where
  | single {value : Node} (h : value.isA .initList = false) : Braced [] value
  | string {dims : List Node} {value : Node} (h : value.isString = true) : Braced dims value
  | list {dim : Node} {dims : List Node} {value : Node} (hl : value.isA .initList = true)
      (hz : ∀ k z, Goes 0 value.items k z → InBounds z dim)
      (h : ∀ entry ∈ value.items, Braced dims (entryValue entry)) : Braced (dim :: dims) value

section Leaf

variable {target value t v : Node}

theorem Leaf.isA_initList (h : Leaf target value t v) : v.isA .initList = false := by
  induction h with
  | here h => exact h
  | inside _ _ _ _ ih => exact ih

theorem isA_initList_of_isString (h : value.isString = true) : value.isA .initList = false := by
  unfold isString at h
  split at h
  · rfl
  · cases h

/-- In a value with the braces that the dimensions call for, a leaf stands at an element with one
subscript for each dimension, within bounds. -/
theorem Leaf.exists_subscripts {dims : List Node} (h : Leaf target value t v)
    (hs : v.isString = false) (hb : Braced dims value) :
    ∃ zs, t = target.subscripted zs ∧ List.Forall₂ InBounds zs dims := by
  induction h generalizing dims with
  | here h =>
    cases hb with
    | single => exact ⟨[], rfl, .nil⟩
    | string h => exact absurd h (by simp [hs])
    | list hl => exact absurd hl (by simp [h])
  | inside hl he hz _ ih =>
    cases hb with
    | single h => exact absurd hl (by simp [h])
    | string h => exact absurd hl (by simp [isA_initList_of_isString h])
    | list _ hin h =>
      obtain ⟨zs, rfl, hzs⟩ := ih hs (h _ (List.mem_of_getElem? he))
      exact ⟨_ :: zs, rfl, .cons (hin _ _ hz) hzs⟩

end Leaf

/-! ### What a report ends with -/

/-- A report ends with a result for which `P` holds, or with a failure for which `F` holds. -/
def Report.Ensures {α : Type} (F : Failure → Prop) (r : Report α) (P : α → Prop) : Prop :=
  ∀ log, ∃ log', (∃ x, P x ∧ r.run.run log = (.ok x, log')) ∨
    ∃ f, F f ∧ r.run.run log = (.error f, log')

namespace Report

variable {α β : Type} {F : Failure → Prop} {r : Report α} {P P' : α → Prop} {Q : β → Prop}

theorem ensures_pure {x : α} (h : P x) : Ensures F (pure x) P :=
  fun log => ⟨log, .inl ⟨x, h, rfl⟩⟩

theorem ensures_of {result : Except Failure α} (hok : ∀ x, result = .ok x → P x)
    (herror : ∀ f, result = .error f → F f) : Ensures F (of result) P := fun log => by
  cases result with
  | ok x => exact ⟨log, .inl ⟨x, hok x rfl, rfl⟩⟩
  | error f => exact ⟨log, .inr ⟨f, herror f rfl, rfl⟩⟩

theorem Ensures.bind {f : α → Report β} (hr : Ensures F r P)
    (hf : ∀ x, P x → Ensures F (f x) Q) : Ensures F (r >>= f) Q := by
  intro log
  have hrun : (r >>= f).run.run log = match r.run.run log with
      | (.ok x, mid) => (f x).run.run mid
      | (.error x, mid) => (.error x, mid) := by
    simp only [ExceptT.run_bind, StateT.run_bind]
    rcases StateT.run (ExceptT.run r) log with ⟨_ | _, mid⟩ <;> rfl
  obtain ⟨mid, ⟨x, hx, h⟩ | ⟨failure, hv, h⟩⟩ := hr log
  · obtain ⟨log', h'⟩ := hf x hx mid
    exact ⟨log', by rwa [hrun, h]⟩
  · exact ⟨mid, .inr ⟨failure, hv, by rw [hrun, h]⟩⟩

theorem ensures_note (notice : Notice) (line : Option Nat) :
    Ensures F (note notice line) fun _ => True :=
  fun log => ⟨{ notice, line } :: log, .inl ⟨(), trivial, rfl⟩⟩

theorem Ensures.mono (h : Ensures F r P) (hP : ∀ x, P x → P' x) : Ensures F r P' := fun log => by
  obtain ⟨log', ⟨x, hx, h⟩ | h⟩ := h log
  · exact ⟨log', .inl ⟨x, hP x hx, h⟩⟩
  · exact ⟨log', .inr h⟩

end Report

/-! ### Assignments of the values in a list -/

open Report

/-- What the numbers in the brace lists of a tree can fail with: a constant has no value, or an
entry goes to an index with too many digits. -/
inductive BadNumberIn (root : Node) : Failure → Prop where
  | constant {n : Node} {f : Failure} (hn : n ∈ root.preorder) (h : n.intValue = .error f) :
      BadNumberIn root f
  | index {list : Node} {k : Nat} {z : Int} (hm : list ∈ root.preorder)
      (hl : list.isA .initList = true) (hz : Goes 0 list.items k z)
      (h : Numeral.fits z = false) : BadNumberIn root .tooManyDigits

/-- The index of an entry is found, if there is one, unless its designator has no value. -/
theorem ensures_entryIndex (cursor : Int) {entry root : Node}
    (h : ∀ n ∈ entry.preorder, n ∈ root.preorder) :
    Ensures (BadNumberIn root) (Report.of (entryIndex cursor entry)) fun index =>
      entryIndex cursor entry = .ok index := by
  refine ensures_of (fun _ hindex => hindex) fun f hindex => ?_
  unfold entryIndex at hindex
  split at hindex
  · rename_i m value name
    have hname : name.isPresent := by
      cases name with
      | absent => cases hindex
      | mk => rfl
    have hm := h name (List.mem_cons_of_mem _ (mem_preorderAll_of_mem (by simp) hname))
    exact .constant hm hindex
  · cases hindex
  · cases hindex

/-- The subscript for an index is the number, unless it has too many digits. -/
theorem ensures_integer {root : Node} {z : Int}
    (h : Numeral.fits z = false → BadNumberIn root .tooManyDigits) :
    Ensures (BadNumberIn root) (Report.of (Node.integer z)) fun subscript =>
      subscript = .intLiteral z := by
  cases hz : Numeral.fits z with
  | true =>
    rw [Node.integer, if_pos hz]
    exact ensures_pure rfl
  | false =>
    rw [Node.integer, if_neg (Bool.eq_false_iff.mp hz)]
    exact fun log => ⟨log, .inr ⟨_, h hz, rfl⟩⟩

theorem entryValue_of_undesignated {entry : Node} (h : entry.designators? = none) :
    entryValue entry = entry := by
  unfold entryValue
  split
  · cases h
  · rfl

theorem assignElements_of_undesignated {name : String} {target entry : Node} {cursor : Int}
    {rest : List Node} (h : entry.designators? = none) :
    assignElements name target cursor (entry :: rest) = do
      let subscript ← Report.of (Node.integer cursor)
      let first ← assignElement name (.arrayRef target subscript) entry
      return first ++ (← assignElements name target (cursor + 1) rest) := by
  rw [assignElements]
  rintro m value names rfl
  cases h

/-- The statements for the first entry of a list, and then those for the others. -/
theorem ensures_cons {root target entry : Node} {cursor i : Int} {rest : List Node}
    {r : Node → Report (List Node)} {r' : Report (List Node)}
    (hi : Goes cursor (entry :: rest) 0 i)
    (hfits : Numeral.fits i = false → BadNumberIn root .tooManyDigits)
    (h : Ensures (BadNumberIn root) (r (.intLiteral i)) fun stmts => ∀ stmt ∈ stmts,
      AssignsLeaf (.arrayRef target (.intLiteral i)) (entryValue entry) stmt)
    (h' : Ensures (BadNumberIn root) r' fun stmts =>
      ∀ stmt ∈ stmts, AssignsEntry target (i + 1) rest stmt) :
    Ensures (BadNumberIn root)
      (do let subscript ← Report.of (Node.integer i)
          let first ← r subscript
          return first ++ (← r')) fun stmts =>
      ∀ stmt ∈ stmts, AssignsEntry target cursor (entry :: rest) stmt := by
  refine (ensures_integer hfits).bind ?_
  rintro _ rfl
  refine h.bind fun first hfirst => h'.bind fun others hothers => ensures_pure fun stmt hs => ?_
  rcases List.mem_append.mp hs with hs | hs
  · exact ⟨0, entry, i, rfl, hi, hfirst stmt hs⟩
  · obtain ⟨k, e, z, he, hz, hassigns⟩ := hothers stmt hs
    exact ⟨k + 1, e, z, he, (goes_succ_iff hi).mpr hz, hassigns⟩

mutual

/-- Every statement for a value assigns one of its leaves to the target where it stands. A value
that is no list has one statement, and a string has none. -/
theorem ensures_assignElement (name : String) (target : Node) {root : Node} : ∀ value : Node,
    (∀ n ∈ value.preorder, n ∈ root.preorder) →
    Ensures (BadNumberIn root) (assignElement name target value) fun stmts =>
      (∀ stmt ∈ stmts, AssignsLeaf target value stmt) ∧
        (value.isA .initList = false → value.isString = false →
          stmts = [.assign target value.copy])
  | .absent, _ => by
    rw [assignElement]
    · refine ensures_pure ⟨fun stmt hs => ?_, fun _ _ => rfl⟩
      exact ⟨target, .absent, .here rfl, rfl, by simpa using hs⟩
    · rintro m items ⟨⟩
  | .mk m f items, hsub => by
    by_cases hf : f = .initList
    · subst hf
      have hitems : ∀ n ∈ preorderAll items, n ∈ root.preorder := fun n hn =>
        hsub n (List.mem_cons_of_mem _ hn)
      rw [assignElement]
      refine (ensures_assignElements name target 0 items hitems fun k z hz => ?_).mono
        fun stmts h => ⟨fun stmt hs => ?_, fun hl => (nomatch hl)⟩
      · exact .index (hsub _ List.mem_cons_self) rfl hz
      obtain ⟨k, entry, z, he, hz, t, v, hleaf, hv⟩ := h stmt hs
      exact ⟨t, v, .inside rfl he hz hleaf, hv⟩
    · have hlist : (Node.mk m f items).isA .initList = false := by
        cases f <;> first | rfl | exact absurd rfl hf
      rw [assignElement]
      · split
        · rename_i hs
          exact (ensures_note _ _).bind fun _ _ =>
            ensures_pure ⟨by simp, fun _ hs' => absurd hs (by simp [hs'])⟩
        · rename_i hs
          refine ensures_pure ⟨fun stmt hm => ?_, fun _ _ => rfl⟩
          exact ⟨target, _, .here hlist, by simpa using hs, by simpa using hm⟩
      · rintro m' items' ⟨⟩
        exact hf rfl

/-- Every statement for the entries of a list assigns a leaf of the value of one of them. -/
theorem ensures_assignElements (name : String) (target : Node) {root : Node} (cursor : Int) :
    ∀ entries : List Node, (∀ n ∈ preorderAll entries, n ∈ root.preorder) →
      (∀ k z, Goes cursor entries k z → Numeral.fits z = false → BadNumberIn root .tooManyDigits) →
    Ensures (BadNumberIn root) (assignElements name target cursor entries) fun stmts =>
      ∀ stmt ∈ stmts, AssignsEntry target cursor entries stmt
  | [], _, _ => by
    rw [assignElements]
    exact ensures_pure (by simp)
  | entry :: rest, hsub, hfits => by
    have hentry : ∀ n ∈ entry.preorder, n ∈ root.preorder := fun n hn =>
      hsub n (List.mem_append_left _ hn)
    have hrest : ∀ n ∈ preorderAll rest, n ∈ root.preorder := fun n hn =>
      hsub n (List.mem_append_right _ hn)
    have hafter : ∀ {i}, Goes cursor (entry :: rest) 0 i → ∀ k z, Goes (i + 1) rest k z →
        Numeral.fits z = false → BadNumberIn root .tooManyDigits := fun hi k z hz =>
      hfits (k + 1) z ((goes_succ_iff hi).mpr hz)
    cases hd : entry.designators? with
    | none =>
      have hi : Goes cursor (entry :: rest) 0 cursor := .first rfl hd
      rw [assignElements_of_undesignated hd]
      refine ensures_cons hi (hfits 0 _ hi) ?_
        (ensures_assignElements name target _ rest hrest (hafter hi))
      rw [entryValue_of_undesignated hd]
      exact (ensures_assignElement name _ entry hentry).mono fun stmts h => h.1
    | some names =>
      match entry, hd with
      | .mk m .namedInitializer (value :: _), rfl =>
        rw [assignElements]
        refine (ensures_entryIndex cursor hentry).bind fun index hindex => ?_
        cases index with
        | none => exact (ensures_note _ _).bind fun _ _ => ensures_pure (by simp)
        | some i =>
          have hi : Goes cursor (.mk m .namedInitializer (value :: _) :: rest) 0 i :=
            goes_zero_of_entryIndex hindex
          refine ensures_cons hi (hfits 0 i hi) ?_
            (ensures_assignElements name target _ rest hrest (hafter hi))
          exact (ensures_assignElement name _ value fun n hn =>
            hentry n (List.mem_cons_of_mem _ (List.mem_append_left _ hn))).mono fun stmts h => h.1

end

end Fieldwise
