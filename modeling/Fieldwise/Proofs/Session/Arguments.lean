import Fieldwise.Proofs.Document.Items
import Fieldwise.Proofs.Session.Outcome
import Fieldwise.Proofs.Session.Sides
import Fieldwise.Proofs.Session.Stepwise

/-!
# Arguments

An operand of a binding that is an argument of a call gives way to its expressions for all fields,
in their order and at its place, where it stands for something; and otherwise it is left alone with
a warning (`Session.Working.argument_gives_fields`). When all uses of the binding were rewritten
these expressions are in the list still (`Session.Visited.arguments_in_the_end`). A parameter gives
way to parameters for the fields, which are in its list in the same order and at the same place when
its uses were rewritten (`Session.Reached.parameters_in_the_end`), so the two lists agree.

That is so for operands only. An argument that is none, like a null pointer or the result of a call,
has no use of a binding in it that would be rewritten or warned about, and the call keeps it
(`Session.decomposeAll_keeps_null_argument`).
-/

namespace Fieldwise

open Node

namespace Session

variable {s t v w : Session} {b b' c : Binding} {e list call : Node} {o : Operand}

/-- An operand of the binding is an argument of a call, and the function neither stands for the
assignment nor releases memory. -/
structure IsArgument (s : Session) (b : Binding) (call list e : Node) : Prop where
  mem : call ∈ s.document.root.preorder
  shape : ∃ m callee, call = .mk m .funcCall [callee, list]
  isList : list.isA .exprList
  arg : e ∈ list.parts
  operand : s.IsOperand b e
  assigns : call.callName? ≠ some "operator="
  releases : ∀ name, call.callName? = some name → name ∉ s.options.deallocators

namespace IsArgument

variable (h : s.IsArgument b call list e)
include h

theorem isCall : call.isA .funcCall := by
  obtain ⟨m, callee, rfl⟩ := h.shape
  rfl

theorem part : list ∈ call.parts := by
  obtain ⟨m, callee, rfl⟩ := h.shape
  exact List.mem_cons_of_mem _ List.mem_cons_self

theorem callArgs?_eq : call.callArgs? = some list.items := by
  obtain ⟨m, callee, rfl⟩ := h.shape
  obtain ⟨m', args, rfl⟩ := exists_of_isA_exprList h.isList
  rfl

theorem list_mem : list ∈ s.document.root.preorder :=
  mem_preorder_of_part h.mem h.part (isPresent_of_isA h.isList)

theorem symbol_mem : e.unwrap.symbol ∈ s.document.root.preorder := by
  have he := mem_preorder_of_part h.list_mem h.arg (isPresent_of_isSole h.operand.isSole)
  exact mem_preorder_trans (mem_preorder_of_wraps (wraps_symbol e)
    (isPresent_of_isA h.operand.isA_symbol)) he

/-- An argument is rewritten as what the call does with it. -/
theorem run_call : s.run (Engine.call c call list.items e o) =
    if o.denotes.isSome then
      s.run (Engine.edit fun d => d.splice e (c.aggregate.fields.map o.expression))
    else s.run (Engine.warn c e .argument) := by
  have hfilter : call.callName?.filter s.options.deallocators.contains = none := by
    refine Option.filter_eq_none_iff.mpr fun name hname hc => h.releases name hname ?_
    simpa using hc
  unfold Engine.call
  rw [run_bind_of_ok run_get]
  dsimp only
  split
  case h_1 hname => exact absurd hname h.assigns
  case h_2 =>
    rw [hfilter]
    dsimp only
    split <;> rfl

variable [Discipline] (hs : s.Sound)
include hs

theorem knows : s.document.Knows b := by
  obtain ⟨m, name, ps, hsym, hb⟩ := h.operand.exists_symbol
  have hrun : s.run (Engine.report fun s => s.lookup e.unwrap.symbol name) = (.ok (some b), s) := by
    rw [run_report, run_lookup_of_meaning? hb]
  exact ((settles_report (hs.settles_lookup e.unwrap.symbol name)).of_ok hrun).2 b rfl

/-- The use in an argument gives way to its expressions for the fields, or there is a warning. -/
theorem run_rewriteOccurrence : s.run (Engine.rewriteOccurrence c e.unwrap.symbol) =
    if (c.operandIn e).denotes.isSome then
      s.run (Engine.edit fun d =>
        d.splice e (c.aggregate.fields.map (c.operandIn e).expression))
    else s.run (Engine.warn c e .argument) := by
  rw [hs.run_rewriteOccurrence h.list_mem h.arg (.inr h.isList) (wraps_symbol e)
    h.operand.isA_symbol, ← h.run_call]
  have hparent := hs.run_parentOf h.list_mem h.arg h.operand.isSole
  have habove := hs.run_parentOf h.mem h.part
    (isSole_of_isA h.isList rfl)
  have hcond : (list.isA .exprList && call.isA .funcCall) = true := by
    rw [h.isList, h.isCall]
    rfl
  obtain ⟨m, args, rfl⟩ := exists_of_isA_exprList h.isList
  unfold Engine.operandUse
  rw [run_bind_of_ok hparent, run_bind_of_ok habove]
  dsimp only
  rw [if_pos hcond, h.callArgs?_eq]
  rfl

variable (hc : s.document.Knows c)
include hc

/-- What is new for the fields is made of terms. -/
theorem isNewTerm_expression : ∀ y ∈ c.aggregate.fields.map (c.operandIn e).expression,
    y.IsNewTerm := by
  have he := mem_preorder_of_part h.list_mem h.arg (isPresent_of_isSole h.operand.isSole)
  have hw := wraps_symbol e
  have hsub : e.unwrap.subscript.IsTerm := by
    generalize e.unwrap.symbol = n, e.unwrap.wrap = wrap, e.unwrap.subscript = subscript at hw
    cases hw with
    | bare | deref | address => exact isTerm_absent
    | element m =>
      exact isTerm_of_mem_parts hs he (fun f hf => by cases hf; exact fun _ => rfl)
        (by simp [parts])
    | elementAddress m m' =>
      have hm' := mem_preorder_of_part he (c := .mk m' .arrayRef _) List.mem_cons_self rfl
      exact isTerm_of_mem_parts hs hm' (fun f hf => by cases hf; exact fun _ => rfl)
        (by simp [parts])
  intro y hy
  obtain ⟨f, hf, rfl⟩ := List.mem_map.mp hy
  have huses := uses_operand hc e.unwrap.wrap hsub
  exact Operand.isNewTerm_expression huses.subscript (hc.isTerm_field hf)

/-- The expressions for the fields stand at the place of the argument, and all their nodes are
new. -/
theorem run_splice : ∃ t before new after,
    s.run (Engine.edit fun d => d.splice e (c.aggregate.fields.map (c.operandIn e).expression)) =
      (.ok (), t) ∧ list.parts = before ++ e :: after ∧
      list.withParts (before ++ new ++ after) ∈ t.document.root.preorder ∧
      new.map copy = (c.aggregate.fields.map fun f => ((c.operandIn e).expression f).copy) ∧
      ∀ y ∈ preorderAll new, ¬ IsOld s.document.next y := by
  have hlm := h.list_mem
  have he := mem_preorder_of_part hlm h.arg (isPresent_of_isSole h.operand.isSole)
  have hroot : e.key ≠ s.document.root.key := fun hk => by
    have hfile := hs.document.file
    rw [← hs.document.eq_of_key he hs.document.root_mem hk] at hfile
    rw [(isBlock_of_isLink (isLink_of_symbol h.operand.isA_symbol)).2.2.2] at hfile
    cases hfile
  obtain ⟨p, hstands⟩ := hs.document.exists_stands he rfl hroot
  obtain rfl : p.parent = list := Option.some.inj
    (hstands.parent?.symm.trans (hs.document.parent?_eq hlm h.arg h.operand.isSole))
  have hinlist : p.isInList := by
    obtain ⟨m, args, hlist⟩ := exists_of_isA_exprList h.isList
    exact Document.isInList_iff.mpr ⟨.exprList, by rw [hlist]; rfl, rfl, Nat.zero_le _⟩
  have hargs : ∀ q ∈ preorderAll s.document.trees, p.parent ∈ q.parts →
      q.callName? ≠ some "operator=" := fun q hq hqc => by
    have hcm := Document.mem_trees_of_root h.mem
    have hqk := hs.document.woven.sole q hq call hcm _ hqc _ h.part (isSole_of_isA h.isList rfl) rfl
    rw [hs.document.woven.eq_of_key hq hcm hqk]
    exact h.assigns
  have hnew := h.isNewTerm_expression hs hc
  have hkeyless := keyless_of_forall fun y hy => (hnew y hy).toIsNew
  obtain ⟨d, hd, -⟩ := hs.document.splice_ok hstands (fun c hc => (hnew c hc).toIsNew)
    ⟨hinlist, .inl fun c hc => (hnew c hc).decl, .inr hargs⟩
  have ht := hs.document.tidy
  obtain ⟨-, hputs⟩ := hstands.puts_splice ht hkeyless hd
  refine ⟨{ s with document := d }, p.parent.parts.take p.index,
    (stampAll s.document.next (c.aggregate.fields.map (c.operandIn e).expression)).1,
    p.parent.parts.drop (p.index + 1), by rw [run_edit, hd], hstands.split, ?_, ?_,
    fun y hy => not_isOld_stampAll hkeyless hy⟩
  · rw [← hputs.grafted_self ht]
    refine (hputs.mem_root ht (r := e) (fun c hc hcp => ?_) hlm).resolve_right fun hle =>
      not_mem_preorderAll_parts (mem_preorderAll.mpr ⟨e, h.arg, hle⟩)
        (self_mem_preorder (isPresent_of_isA h.isList))
    refine (hstands.mem_or_eq hc).imp_left fun hc => mem_preorderAll_of_mem ?_ hcp
    rw [List.append_assoc]
    exact (List.mem_append.mp hc).elim (List.mem_append_left _)
      fun hc => List.mem_append_right _ (List.mem_append_right _ hc)
  · rw [map_copy_stampAll, List.map_map]
    rfl

end IsArgument

/-- **An argument gives way to its expressions for the fields**, in their order and at its place, if
it stands for an object or an address. Otherwise nothing is changed, and there is a warning. -/
theorem Working.argument_gives_fields (hw : Working s) (h : s.IsArgument b call list e) :
    ∃ t, s.run (Engine.rewriteOccurrence b e.unwrap.symbol) = (.ok (), t) ∧
      (((b.operandIn e).denotes.isSome ∧ ∃ before new after,
        list.parts = before ++ e :: after ∧
        list.withParts (before ++ new ++ after) ∈ t.document.root.preorder ∧
        new.map copy = b.aggregate.fields.map fun f => ((b.operandIn e).expression f).copy) ∨
      ((b.operandIn e).denotes = none ∧ t.document = s.document ∧
        t.log = { notice := .unsupported .argument b.name, line := e.line } :: s.log)) := by
  let _ : Discipline := ⟨False, False⟩
  have hs := hw.sound ⟨id, id⟩
  rw [h.run_rewriteOccurrence hs]
  cases hd : (b.operandIn e).denotes with
  | some d =>
    obtain ⟨t, before, new, after, hrun, hparts, hlist, hcopy, -⟩ := h.run_splice hs (h.knows hs)
    exact ⟨t, hrun, .inl ⟨rfl, before, new, after, hparts, hlist, hcopy⟩⟩
  | none => exact ⟨_, rfl, .inr ⟨rfl, rfl, rfl⟩⟩

/-- **The expressions for the fields are arguments in the end.** When the turn of the use in an
argument comes and it stands for an object or an address, its expressions for the fields are in the
list still when all uses of the binding were rewritten, next to each other and in their order. What
became of the arguments before it is before them, and of those after it after them. -/
theorem Visited.arguments_in_the_end (hs : Visited s) (hb : s.Bound b) {earlier later : List Node}
    (hn : s.occurrences b = earlier ++ e.unwrap.symbol :: later)
    (hh : s.Handles (b.refresh s.document) earlier e.unwrap.symbol later v w t)
    (hc : (b.refresh s.document).refresh v.document = c) (h : v.IsArgument b' call list e)
    (hd : (c.operandIn e).denotes.isSome)
    {list' : Node} (hl : list' ∈ t.document.root.preorder) (hk : list'.key = list.key) :
    ∃ before after before' new after', list.parts = before ++ e :: after ∧
      list'.parts = before' ++ new ++ after' ∧
      new.map copy = (c.aggregate.fields.map fun f => ((c.operandIn e).expression f).copy) ∧
      Rows (Document.Turns w.document.next (Document.Lost w.document t.document)) before before' ∧
      Rows (Document.Turns w.document.next (Document.Lost w.document t.document)) after after' := by
  let _ : Discipline := ⟨False, False⟩
  have hlax : Discipline.IsLax := ⟨id, id⟩
  have hsound := hs.sound hlax
  obtain ⟨hv, ⟨hw, -⟩, ht, hwt⟩ := hh.keeps hlax hsound hb hn
  have hknows : v.document.Knows c := hc ▸ (((hsound.knows_of_bound hb).refresh
    hsound.document).continues hv.continues hv.sound.document).refresh hv.sound.document
  -- The use is rewritten in its turn, and is an argument then.
  have hturn := run_rewriteOccurrence_of_attached (hv.sound.attached_of_mem h.symbol_mem) hh.turn
  rw [hc, h.run_rewriteOccurrence hv.sound, if_pos hd] at hturn
  obtain ⟨w', before, new, after, hrun, hparts, hlist, hcopy, hnew⟩ := h.run_splice hv.sound hknows
  obtain rfl : w' = w := congrArg Prod.snd (hrun.symm.trans hturn)
  -- What is new has none of the uses in it that are left.
  have hlater : ∀ y ∈ new, ∀ m ∈ later, m.occursIn y = false := fun y hy m hm => by
    refine Bool.eq_false_iff.mpr fun hocc => ?_
    obtain ⟨z, hz, hzk⟩ := List.any_eq_true.mp hocc
    have hmt := (hsound.of_mem_occurrences hb
      (hn ▸ List.mem_append_right _ (List.mem_cons_of_mem _ hm))).1
    refine hnew z (mem_preorderAll.mpr ⟨y, hy, hz⟩) (isOld_of_key (isOld_mono
      (hsound.document.bound m hmt) hv.continues.next) (beq_iff_eq.mp hzk).symm)
  obtain ⟨before', after', hparts', hbefore, hafter⟩ := hwt.parts_between hw.sound.document.tidy
    hlist (parts_withParts (isPresent_of_isA h.isList) _) hlater hl
    (hk.trans (key_withParts _ _).symm)
  exact ⟨before, after, before', new, after', hparts, hparts', hcopy, hbefore, hafter⟩

/-- **The parameters for the fields are there in the end**, under their names and in the order of
the fields. After a parameter was replaced and its uses were rewritten, they are in its list next to
each other, where it was. What became of the parameters before it is before them, and of those after
it after them. -/
theorem Reached.parameters_in_the_end {bs : List Binding} (hs : Reached s bs) (hb : b ∈ bs)
    (hp : b.isParam) (ha : s.document.attached b.decl)
    (hw : s.run (Engine.declareParam b) = (.ok c, w))
    (hr : w.run (Engine.rewrite c) = (.ok (), t)) :
    ∃ list before D after, list ∈ s.document.root.preorder ∧ list.parts = before ++ D :: after ∧
      D.key = b.decl.key ∧ ∀ list' ∈ t.document.root.preorder, list'.key = list.key →
        ∃ before' new after', list'.parts = before' ++ new ++ after' ∧
          new.map name? = (c.aggregate.fields.map fun f => some (c.fieldName f)) ∧
          Rows (Document.Turns w.document.next (Document.Lost w.document t.document))
            before before' ∧
          Rows (Document.Turns w.document.next (Document.Lost w.document t.document))
            after after' := by
  let _ : Discipline := ⟨False, False⟩
  have hlax : Discipline.IsLax := ⟨id, id⟩
  have hready := hs.ready hlax
  have h := hready.within
  have hknows := hready.knows b hb
  have hu := hready.covers hb
  obtain ⟨p, D, hdecl, -, hput⟩ := h.puts_declareParam hknows ha hw
  obtain ⟨hsw, rfl, -, -⟩ := (h.settles_declareParam hknows hu ha hp).of_ok hw
  have hkw := hsw.knows (hknows.refresh h.sound.document)
  have hwt := (hsw.rewrites_rewrite hlax hkw (hu.refresh hknows) fun hn => by
    rw [hknows.isParam_refresh, hp] at hn
    cases hn).of_ok hr
  have hstamp := map_stampAll form?_stamp s.document.next (b.refresh s.document).fieldDecls
  have hdecls := isA_of_map_form? (c := .decl) hstamp fun y hy => by
    obtain ⟨f, -, rfl⟩ := List.mem_map.mp hy
    rfl
  refine ⟨p.parent, _, D, _, hdecl.stands.parent, hdecl.stands.split,
    hdecl.stands.key.trans (Document.key_current _ _), fun list' hl hk => ?_⟩
  obtain ⟨L, hL, hLk, -, hLparts⟩ := hdecl.stands.exists_puts h.sound.document.tidy hput
  obtain ⟨before', new, after', hparts, hforms, hbefore, hafter⟩ :=
    hwt.forms_between hsw.sound.document.tidy hL hLparts (fun y hy =>
      ⟨isPresent_of_isA (hdecls y hy), Bool.eq_false_iff.mpr fun hl => by
        have hdecl := hdecls y hy
        rw [(isLoose_of_isLink hl).decl] at hdecl
        cases hdecl⟩) hl
        (hk.trans hLk.symm)
  refine ⟨before', new, after', hparts, ?_, hbefore, hafter⟩
  rw [map_name?_of_map_form? (hforms.trans hstamp), Binding.name?_fieldDecls, Binding.fieldNames,
    List.map_map]
  rfl

/-- A function is called with the address of an object. -/
def passing : String :=
  "struct S \x7bint a; int b;\x7d; void f(int n, struct S *p) \x7b p->a = n; \x7d " ++
    "void g(void) \x7b struct S x; f(1, &x); \x7d"

/-- The call has as many arguments as the function has parameters, in the end. -/
example : (finished passing).any (fun r =>
    (r.2.document.root.ofClass .funcCall).any (fun n => n.callArgs?.map List.length == some 3) &&
    (r.2.document.root.ofClass .funcDef).any (fun n =>
      ((((n.child .decl).child .type).child .args).items).length == 3)) = true := by
  decide +kernel

/-- The last argument of the first call, if it is an operand. -/
def firstArgument? (s : Session) : Option (Node × Node × Node × Binding) := do
  let call ← (s.document.root.ofClass .funcCall).head?
  let e ← (call.child .args).items.getLast?
  return (call, call.child .args, e, ← s.bindingIn? e)

theorem argument_gives_fields_passing : ∃ (s t : Session) (b : Binding) (call list e : Node)
    (before new after : List Node), firstArgument? s = some (call, list, e, b) ∧ Working s ∧
      s.run (Engine.rewriteOccurrence b e.unwrap.symbol) = (.ok (), t) ∧
      list.parts = before ++ e :: after ∧
      list.withParts (before ++ new ++ after) ∈ t.document.root.preorder ∧ new.length = 2 := by
  have h : (firstSearch passing).any (fun r => (firstArgument? r.1).any fun q =>
      q.1.callArgs?.isSome && q.1.callName? == some "f" &&
      !r.1.options.deallocators.contains "f" && (q.2.2.2.operandIn q.2.2.1).denotes.isSome &&
      q.2.2.2.aggregate.fields.length == 2) = true := by decide +kernel
  obtain ⟨⟨s, b₀⟩, hsearch, h⟩ := (Option.any_eq_true _ _).mp h
  obtain ⟨⟨call, list, e, b⟩, hfirst, h⟩ := (Option.any_eq_true _ _).mp h
  simp only [Bool.and_eq_true, beq_iff_eq, Bool.not_eq_true'] at h
  obtain ⟨⟨⟨⟨hargs, hname⟩, hfree⟩, hdenotes⟩, hlen⟩ := h
  have hfound := hfirst
  obtain ⟨call', hcall, hfound⟩ := Option.bind_eq_some_iff.mp hfound
  obtain ⟨e', he, hfound⟩ := Option.bind_eq_some_iff.mp hfound
  obtain ⟨b', hb, hfound⟩ := Option.bind_eq_some_iff.mp hfound
  obtain ⟨rfl, rfl, rfl, rfl⟩ : call' = call ∧ _ = list ∧ e' = e ∧ b' = b := by
    simpa using hfound
  have hmem := (List.mem_filter.mp (List.mem_of_head? hcall)).1
  obtain ⟨args, hargs⟩ := Option.isSome_iff_exists.mp hargs
  obtain ⟨m, callee, m', hshape⟩ := exists_of_callArgs? hargs
  have harg : IsArgument s b' call' (call'.child .args) e' :=
    { mem := hmem
      shape := ⟨m, callee, by rw [hshape]; rfl⟩
      isList := by rw [hshape]; rfl
      arg := mem_parts_of_mem_items (List.mem_of_getLast? he)
      operand := hb
      assigns := fun hn => by simp [hname] at hn
      releases := fun name hn => by
        obtain rfl : "f" = name := Option.some.inj (hname.symm.trans hn)
        simpa using hfree }
  have hw : Working s := .visited (firstSearch_spec hsearch).1
  obtain ⟨t, hrun, ⟨-, before, new, after, hparts, hnew, hcopy⟩ | ⟨hnone, -⟩⟩ :=
    hw.argument_gives_fields harg
  · refine ⟨s, t, b', call', _, e', before, new, after, hfirst, hw, hrun, hparts, hnew, ?_⟩
    simpa [hlen] using congrArg List.length hcopy
  · rw [hnone] at hdenotes
    cases hdenotes

/-- A function with a parameter for an aggregate is called with a null pointer. -/
def nullArgument : String :=
  "struct S \x7bint a; int b;\x7d; void f(struct S *p) \x7b p->a = 1; \x7d " ++
    "void g(void) \x7b f(0); \x7d"

/-- The function has two parameters in the end, the call has one argument, and there is no
warning. -/
theorem decomposeAll_keeps_null_argument : ∃ s t, finished nullArgument = some (s, t) ∧
    (∃ n ∈ t.document.root.ofClass .funcCall, n.callName? = some "f" ∧
      n.callArgs?.map List.length = some 1) ∧
    (∃ n ∈ t.document.root.ofClass .funcDef, (n.child .decl).name? = some "f" ∧
      ((((n.child .decl).child .type).child .args).items).length = 2) ∧
    ∀ entry ∈ t.log, entry.notice.level ≠ .warning := by
  obtain ⟨s, t, hst, h⟩ := exists_finished nullArgument (fun _ t =>
    (t.document.root.ofClass .funcCall).any (fun n =>
      n.callName? == some "f" && n.callArgs?.map List.length == some 1) &&
    (t.document.root.ofClass .funcDef).any (fun n => (n.child .decl).name? == some "f" &&
      ((((n.child .decl).child .type).child .args).items).length == 2) &&
    t.log.all (·.notice.level != .warning)) (by decide +kernel)
  simp only [Bool.and_eq_true, List.any_eq_true, List.all_eq_true, beq_iff_eq, bne_iff_ne] at h
  exact ⟨s, t, hst, h.1.1, h.1.2, h.2⟩

end Session

end Fieldwise
