import Fieldwise.Proofs.Session.Deferring
import Fieldwise.Proofs.Session.Finding
import Fieldwise.Proofs.Session.Redrawing

/-!
# What becomes of a use

When the rewriting of the uses of a binding comes to one of them, it takes the use out or leaves the
program as it is and logs a warning that names the binding (`Session.Accounts`), or it leaves the
use to the decomposition of another binding (`Session.DefersTo`). Every way of rewriting a use is of
this kind (`Session.Keeps.accounts_rewriteOccurrence`).
-/

namespace Fieldwise

open Node

variable {b : Binding} {u : Subject} {d : Document} {S : Node}

namespace Session

variable {s t v : Session} {e n y P target value statement : Node} {o : Operand}

/-- The use `e` was dealt with: it was taken out, or the last thing that was logged is a warning
that names the binding. -/
inductive Accounts (b : Binding) (e : Node) (s t : Session) : Prop where
  | gone : Document.RewritesAt s.document t.document [e] → t.document.attached e = false →
    Accounts b e s t
  | warned {usage : Usage} {line : Option Nat} {rest : List Entry} : t.document = s.document →
    t.log = ⟨.unsupported usage b.name, line⟩ :: rest → s.log <:+ rest → Accounts b e s t

/-- Before that nothing was changed. -/
theorem Accounts.of_same (h : Accounts b e t v) (hs : s.Same t) (hg : s.Grows t) :
    Accounts b e s v := by
  cases h with
  | gone hr ha => exact .gone (hs.document ▸ hr) ha
  | warned hd hl hrest => exact .warned (hd.trans hs.document) hl (hg.log.trans hrest)

/-- An expression is the initializer of the variable of a binding of the same aggregate. -/
def Initializes (s : Session) (b : Binding) (e : Node) (c : Binding) : Prop :=
  ∃ D ∈ s.document.root.preorder, D.isA .decl ∧ (D.child .init).same e ∧
    s.verdictOn D = .ok (.binding c) ∧ c.aggregate.same b.aggregate

/-- A use is left to the decomposition of a binding of the same aggregate. -/
structure DefersTo (s : Session) (b : Binding) (n : Node) (c : Binding) : Prop where
  verdict : s.verdictOn c.decl = .ok (.binding c)
  same : c.aggregate.same b.aggregate
  defers : s.Defers n c

theorem Initializes.defersTo {c : Binding} (h : s.Initializes b e c) (hn : n.key.isSome)
    (hsymbol : ∀ e' ∈ s.document.root.preorder, e'.key = e.key →
      e'.unwrap.symbol.isA .ident ∧ e'.unwrap.symbol.key = n.key) : s.DefersTo b n c := by
  obtain ⟨D, hD, hdecl, hinit, hv, hsame⟩ := h
  obtain rfl := (verdictOn_spec hv).declares
  obtain ⟨hkeyed, hik⟩ := same_iff.mp hinit
  obtain ⟨k, hk⟩ := Option.isSome_iff_exists.mp hkeyed
  have him := mem_preorder_trans (child_mem_preorder (isPresent_of_key hk)) hD
  obtain ⟨hident, hsk⟩ := hsymbol _ him hik
  have hself : c.aggregate.same c.aggregate := same_iff.mpr ⟨(same_iff.mp hsame).1, rfl⟩
  exact ⟨hv, hsame, c.decl, hD, rfl, hdecl, hident, same_iff.mpr ⟨hsk ▸ hn, hsk⟩, c, hv, hself⟩

/-- An edit that takes out the node of a use. -/
theorem Accounts.of_renews {p : Place} {x : Node} {d' : Document} (hs : s.document.Stands e p x)
    (hlink : x.isLink) (h : s.document.Renews d' (· = x.key))
    (hgone : ∀ y ∈ d'.root.preorder, y.key ≠ x.key) :
    Accounts b e s { s with document := d' } :=
  .gone (.of_renews h hs.mem hlink List.mem_cons_self hs.key hgone) (hs.not_attached hgone)

/-- What a declaration is depends on the document and the aggregates. -/
theorem Same.verdictOn (h : s.Same t) (D : Node) : t.verdictOn D = s.verdictOn D := by
  unfold Session.verdictOn aggregateOf? scopeOf? definitionOf?
  rw [h.document, h.aggregates]

variable [Discipline]

theorem Settles.grows {α : Type} {x : Engine α} (hl : Discipline.IsLax) (hx : x.Grows) :
    s.Settles x fun _ t => s.Grows t := by
  unfold Settles
  have hv := hx s
  generalize s.run x = p at hv ⊢
  obtain ⟨_ | x, v⟩ := p
  · exact fun hs => absurd hs hl.1
  · exact hv

namespace Keeps

variable (h : Keeps u d S s)

/-! ### Edits -/

theorem accounts_warn (s : Session) (b : Binding) (e n : Node) (usage : Usage) :
    s.Settles (Engine.warn b n usage) fun _ t => Accounts b e s t := by
  unfold Settles
  exact .warned rfl rfl (List.suffix_refl _)

include h

/-- What was below a node that is gone is gone with it. -/
theorem accounts_parent (he : s.IsAt u S e) (hp : s.document.parent? e = some P)
    (ha : Accounts b P s t) : Accounts b e s t := by
  cases ha with
  | warned hd hlog hrest => exact .warned hd hlog hrest
  | gone hr hgone =>
    obtain ⟨hPm, c, hc, hck, -⟩ := Document.of_parent? hp
    obtain ⟨p, x, hs, hlink, -⟩ := h.stands he
    obtain ⟨k, hxk⟩ := h.sound.document.exists_key hs.mem
    have hxc : c.key = x.key := hck.trans hs.key.symm
    have hcp := isPresent_of_key (hxc.trans hxk)
    obtain rfl := h.sound.document.eq_of_key (mem_preorder_of_part hPm hc hcp) hs.mem hxc
    refine .gone (hr.part h.sound.document.tidy hPm hc hcp hck)
      (Bool.eq_false_iff.mpr fun ha => ?_)
    obtain ⟨y, hy, hyk, hek⟩ := Document.attached_iff.mp ha
    obtain ⟨Q, hQ, -, hQk, -⟩ := hr.rewrites.exists_parent h.sound.document.tidy hPm hc
      (isSole_of_isLink hlink) hy (hyk.trans hck.symm)
    obtain ⟨k, hPk⟩ := h.sound.document.exists_key hPm
    rw [Document.attached_iff.mpr ⟨Q, hQ, hQk, by simp [hPk]⟩] at hgone
    cases hgone

variable (hl : Discipline.IsLax)
include hl

/-- Something else is put in the place of a use: where that is an item of a block, an expression. -/
theorem accounts_replace (he : s.IsAt u S e) (hy : y.IsNewTerm)
    (hproduct : ∀ P, s.document.parent? e = some P → P.isBlock → y.isProduct) :
    s.Settles (Engine.replace e y) fun _ t => Accounts b e s t := by
  obtain ⟨p, x, hs, hlink, -⟩ := h.stands he
  have hsole := isSole_of_isLink hlink
  exact .edit_of_lax hl fun d' hd => .of_renews hs hlink
    (hs.renews_replace h.sound.document.tidy hsole hy.keyless (hproduct _ hs.parent?) hd)
    (hs.swaps_replace h.sound.document.tidy hsole hy.keyless hd).2

/-- Any number of arguments is put in the place of one. -/
theorem accounts_splice (he : s.IsAt u S e) {list : Node}
    (hlist : s.document.parent? e = some list) (hlink : list.isLink) {new : List Node}
    (hnew : ∀ c ∈ new, c.IsNewTerm) :
    s.Settles (Engine.edit fun d => d.splice e new) fun _ t => Accounts b e s t := by
  obtain ⟨p, x, hs, hxl, -⟩ := h.stands he
  obtain rfl : p.parent = list := by simpa [hs.parent?] using hlist
  have hkeyless := keyless_of_forall fun c hc => (hnew c hc).toIsNew
  have hsole := isSole_of_isLink hxl
  exact .edit_of_lax hl fun d' hd => .of_renews hs hxl
    (hs.renews_splice h.sound.document.tidy hsole hkeyless (isBlock_of_isLink hlink).1 hd)
    (hs.swaps_splice h.sound.document.tidy hsole hkeyless hd).2

/-- Statements are put in the place of one. -/
theorem accounts_replaceStatement (he : s.IsAt u S e)
    (hst : s.document.isStatement e = .ok true) {new : List Node} (hne : new ≠ [])
    (hnew : ∀ c ∈ new, c.IsNewTerm ∧ c.isProduct) :
    s.Settles (Engine.replaceStatement e new) fun _ t => Accounts b e s t := by
  obtain ⟨p, x, hs, hlink, -⟩ := h.stands he
  have hsole := isSole_of_isLink hlink
  have hloose := (isLoose_of_isLink hlink).decl
  have hkeyless := keyless_of_forall fun c hc => (hnew c hc).1.toIsNew
  have hp : p.isStatement := Except.ok.inj (hs.isStatement_eq.symm.trans hst)
  unfold Engine.replaceStatement
  refine (Settles.edit_of_lax (Q := fun _ v => ∃ d', s.document.insertAfter e new = .ok d' ∧
    v = { s with document := d' }) hl fun d' hd => ⟨d', hd, rfl⟩).bind ?_
  rintro _ _ ⟨d', hd, rfl⟩
  exact .edit_of_lax hl fun d'' hd' => .of_renews hs hlink
    (hs.renews_exchange h.sound.document.tidy hsole hloose
      (Document.Stands.isInList_of_isStatement hp) hkeyless hne (fun c hc => (hnew c hc).2) hd hd')
    (hs.swaps_exchange h.sound.document.tidy hsole hloose hkeyless hd hd').2

/-! ### Selections of members -/

/-- The selection of a member is gone, or left with a warning. -/
theorem accounts_member {ref : Node} (hr : s.IsAt u S ref) {o : Option Operand}
    (ho : ∀ o', o = some o' → s.Uses b o') :
    s.Settles (Engine.member b ref o) fun _ t => Accounts b ref s t := by
  unfold Engine.member
  split
  case h_2 => exact accounts_warn s b ref ref _
  rename_i o f hfield
  have ho := ho o rfl
  obtain ⟨name, -, hfield⟩ := Option.bind_eq_some_iff.mp hfield
  have hft : f.type.IsTerm :=
    (ho.of ▸ ho.binding).isTerm_field (List.mem_of_find?_eq_some hfield)
  have hreplace := h.accounts_replace (b := b) hl hr (o.isNewTerm_object ho.subscript hft)
    fun _ _ _ => o.isProduct_object f
  split
  case isFalse => exact accounts_warn s b ref ref _
  refine (settles_parentOf s ref).bind ?_
  rintro holder _ ⟨rfl, hholder⟩
  split
  · rename_i operand hunary
    -- The size of a type is taken, and that is no block.
    obtain ⟨m, rfl⟩ := unary?_eq_some hunary
    have hparent := (parent?_eq hholder rfl).1
    split
    · refine h.accounts_replace hl hr hft.typenameOf fun P hP hblock => ?_
      obtain rfl := Option.some.inj (hparent.symm.trans hP)
      cases hblock
    · exact hreplace
  · rename_i operand pointer hunary hpointer
    -- The operator in front of the selection goes with it.
    obtain ⟨m, rfl⟩ := unary?_eq_some hunary
    obtain ⟨hparent, -⟩ := parent?_eq hholder rfl
    have hat := h.parent hr hparent (isLink_mk rfl)
    rw [o.unary?_object f hpointer]
    exact (h.accounts_replace hl hat (isNewTerm_ident _) fun _ _ _ => rfl).mono fun _ _ ht =>
      h.accounts_parent hr hparent ht
  · exact hreplace

/-! ### Assignments -/

/-- The statements that an assignment becomes, if there are any, take its place. -/
theorem accounts_putStatements (b : Binding) (hs : s.IsAt u S statement)
    (hst : s.document.isStatement statement = .ok true) {stmts : Option (List Node)}
    (hnew : AllNew stmts) :
    s.Settles (match stmts with
      | some stmts => Engine.replaceStatement statement stmts
      | none => Engine.warn b statement .assignment) fun _ t => Accounts b statement s t := by
  cases stmts with
  | none => exact accounts_warn s b statement statement _
  | some stmts =>
    exact h.accounts_replaceStatement hl hs hst (hnew stmts rfl).1 (hnew stmts rfl).2

/-- Unless a pointer gets a new value, one of the operands is assigned to the other. -/
theorem accounts_putAssignment (ho : s.Uses b o) (hs : s.IsAt u S statement)
    (hst : s.document.isStatement statement = .ok true) (isTarget : Bool) (he : e.IsTerm)
    {byPointer : Option (List Node)} (hnew : AllNew byPointer) :
    s.Settles (match byPointer with
      | some stmts => do
        let stmts ← pure (some stmts)
        match stmts with
        | some stmts => Engine.replaceStatement statement stmts
        | none => Engine.warn b statement .assignment
      | none => do
        let stmts ← Engine.aggregateAssignment b o isTarget e
        match stmts with
        | some stmts => Engine.replaceStatement statement stmts
        | none => Engine.warn b statement .assignment) fun _ t => Accounts b statement s t := by
  cases byPointer with
  | some stmts => exact h.accounts_putStatements hl b hs hst hnew
  | none =>
    refine ((h.settles_aggregateAssignment ho isTarget he).and
      (.grows hl (.aggregateAssignment b o isTarget e))).bind fun stmts t ht => ?_
    obtain ⟨⟨hsame, hnew⟩, hg⟩ := ht
    exact ((h.same hsame).accounts_putStatements hl b (hs.same hsame) (hsame.document ▸ hst)
      hnew).mono fun _ _ hv => hv.of_same hsame hg

/-- An assignment is gone, or left with a warning. -/
theorem accounts_assignment (ho : s.Uses b o) (hs : s.IsAt u S statement) (ht : target.IsTerm)
    (hv : value.IsTerm) : s.Settles (Engine.assignment b statement target value e o) fun _ t =>
      Accounts b statement s t := by
  unfold Engine.assignment
  refine ((h.settles_isStatement hs).and (.grows hl (.report fun _ => .of _))).bind
    fun x t hx => ?_
  obtain ⟨⟨hst, hx⟩, hg⟩ := hx
  cases x with
  | false => exact (accounts_warn t b statement statement _).mono fun _ _ hv => hv.of_same hst hg
  | true =>
    have hother : (if e.same target then value else target).IsTerm := by
      split
      · exact hv
      · exact ht
    rw [if_pos rfl]
    dsimp only
    split
    · refine (((h.same hst).settles_pointerAssignment (hst.document ▸ ho.of ▸ ho.binding) hv).and
        (.grows hl (.pointerAssignment b value))).bind fun byPointer v hv => ?_
      obtain ⟨⟨htv, hnew⟩, hg'⟩ := hv
      have hsv := hst.trans htv
      exact ((h.same hsv).accounts_putAssignment hl (ho.same hsv) (hs.same hsv)
        (htv.document ▸ hx) _ hother hnew).mono fun _ _ hw => hw.of_same hsv (hg.trans hg')
    · exact ((h.same hst).accounts_putAssignment hl (ho.same hst) (hs.same hst) hx _ hother
        allNew_none).mono fun _ _ hw => hw.of_same hst hg

/-! ### Calls -/

/-- An argument is gone, with the call or without it, or left with a warning. -/
theorem accounts_call (ho : s.Uses b o) (he : s.IsAt u S e) {list call : Node}
    (hp : s.document.parent? e = some list) (hlist : list.isA .exprList)
    (hc : s.document.parent? list = some call) (hcall : call.isA .funcCall) {args : List Node}
    (hargs : call.callArgs? = some args) :
    s.Settles (Engine.call b call args e o) fun _ t => Accounts b e s t := by
  have hla := h.parent he hp (isLink_of_isA hlist rfl)
  have hca := h.parent hla hc (isLink_of_isA hcall rfl)
  have hup : ∀ {t}, Accounts b call s t → Accounts b e s t := fun ht =>
    h.accounts_parent he hp (h.accounts_parent hla hc ht)
  obtain ⟨m, hslot⟩ := exists_mem_parts_of_callArgs? hargs
  have hitems : ∀ a ∈ args, a.IsTerm := fun a ha =>
    isTerm_of_mem_parts h.sound (mem_preorder_of_part (Document.of_parent? hc).1 hslot rfl)
      (fun f hf => by cases hf; exact fun _ => rfl) ha
  unfold Engine.call
  refine .get_bind ?_
  dsimp only
  split
  · split
    · rename_i target value
      exact (h.accounts_assignment hl ho hca (hitems target (by simp))
        (hitems value (by simp))).mono fun _ _ ht => hup ht
    · exact fun hs => (hl.1 hs).elim
  · rename_i hname
    split
    · rename_i name hfilter _
      have hcn : call.callName? = some name := (Option.filter_eq_some_iff.mp hfilter).1
      refine ((h.settles_isStatement hca).and (.grows hl (.report fun _ => .of _))).bind
        fun alone t ht => ?_
      obtain ⟨⟨hst, halone⟩, hg⟩ := ht
      split
      · rename_i hcond
        rw [Bool.and_eq_true] at hcond
        have hnonempty : b.fieldNames ≠ [] := by
          simpa [Binding.fieldNames] using (ho.of ▸ ho.binding : s.document.Knows b).nonempty
        refine ((h.same hst).accounts_replaceStatement hl (hca.same hst) (hcond.2 ▸ halone)
          (by simpa using hnonempty) fun c hc => ?_).mono fun _ _ hv => hup (hv.of_same hst hg)
        obtain ⟨v, -, rfl⟩ := List.mem_map.mp hc
        refine ⟨isNewTerm_call (fun _ hn => hname ?_) (by simpa using isNewTerm_ident v), rfl⟩
        rw [hcn, hn]
      · exact (accounts_warn t b call call _).mono fun _ _ hv => hup (hv.of_same hst hg)
    · split
      · refine h.accounts_splice hl he hp (isLink_of_isA hlist rfl) fun c hc => ?_
        obtain ⟨f, hf, rfl⟩ := List.mem_map.mp hc
        exact o.isNewTerm_expression ho.subscript
          ((ho.of ▸ ho.binding : s.document.Knows b).isTerm_field hf)
      · exact accounts_warn s b e e _

/-! ### Operands -/

/-- An operand is gone, or left with a warning, or it is the initializer of a variable of the same
aggregate. -/
theorem accounts_operandUse (ho : s.Uses b o) (he : s.IsAt u S e) :
    s.Settles (Engine.operandUse b e o) fun _ t => Accounts b e s t ∨
      t.document = s.document ∧ ∃ c, s.Initializes b e c := by
  unfold Engine.operandUse
  refine (settles_parentOf s e).bind ?_
  rintro context _ ⟨rfl, hcontext⟩
  refine (settles_parentOf _ context).bind ?_
  rintro above _ ⟨rfl, habove⟩
  split
  · rename_i m op target value
    obtain ⟨hparent, hm⟩ := parent?_eq hcontext rfl
    have hterm : ∀ n ∈ [target, value], n.IsTerm := fun n hn =>
      isTerm_of_mem_parts h.sound hm (fun f hf => by cases hf; exact fun _ => rfl) hn
    split
    · exact (h.accounts_assignment hl ho (h.parent he hparent (isLink_mk rfl)) (hterm _ (by simp))
        (hterm _ (by simp))).mono fun _ _ ht => .inl (h.accounts_parent he hparent ht)
    · exact (accounts_warn _ b e _ _).mono fun _ _ ht => .inl ht
  · split
    · rename_i hlist
      obtain ⟨hlist, hcall⟩ : context.isA .exprList = true ∧ above.isA .funcCall = true := by
        simpa using hlist
      have hp := (parent?_eq hcontext (isPresent_of_isA hlist)).1
      have hc := (parent?_eq habove (isPresent_of_isA hcall)).1
      split
      · rename_i args hargs
        exact (h.accounts_call hl ho he hp hlist hc hcall hargs).mono fun _ _ ht => .inl ht
      · exact .throw (by decide)
    · refine ((h.settles_testsPointer he context).and (.grows hl (.testsPointer e context o))).bind
        fun x t ht => ?_
      obtain ⟨hst, hg⟩ := ht
      split
      · exact ((h.same hst).accounts_replace hl (he.same hst) (isNewTerm_ident _)
          fun _ _ _ => rfl).mono fun _ _ hv => .inl (hv.of_same hst hg)
      · split
        · rename_i hdecl
          obtain ⟨hdecl, hinit⟩ : context.isA .decl = true ∧
            (context.child .init).same e = true := by simpa using hdecl
          obtain ⟨hp, hm⟩ := parent?_eq hcontext (isPresent_of_isA hdecl)
          refine ((settles_report (settles_classify_iff t context true)).and
            (.grows hl (.report fun _ => .classify _ _ _))).bind fun r v hv => ?_
          obtain ⟨⟨htv, hr⟩, hg'⟩ := hv
          have hwarn := (accounts_warn v b e e .plain).mono fun _ _ hw =>
            hw.of_same (hst.trans htv) (hg.trans hg')
          cases r with
          | none => exact hwarn.mono fun _ _ hw => .inl hw
          | some target =>
            dsimp only
            split
            · rename_i hsame
              refine (settles_note _ _).mono fun _ w hw => .inr ⟨?_, target, context, hm, ?_⟩
              · rw [hw.document, htv.document, hst.document]
              · rw [← hst.verdictOn]
                exact ⟨hdecl, hinit, (hr target).mp rfl, hsame⟩
            · exact hwarn.mono fun _ _ hw => .inl hw
        · exact (accounts_warn t b e e _).mono fun _ _ hv => .inl (hv.of_same hst hg)

omit hl in
/-- The operand around an occurrence has it as its symbol, and what becomes of the operand becomes
of the occurrence. -/
theorem accounts_occurrenceOperand (hn : s.IsAt u S n)
    (hident : ∀ x ∈ s.document.root.preorder, x.key = n.key → x.isA .ident) :
    s.Settles (Engine.occurrenceOperand b n) fun r _ =>
      (∀ t, Accounts b r.1 s t → Accounts b n s t) ∧
        ∀ e ∈ s.document.root.preorder, e.key = r.1.key → e.unwrap.symbol.isA .ident ∧
          e.unwrap.symbol.key = n.key := by
  have hself : ∀ e ∈ s.document.root.preorder, e.key = n.key → e.unwrap.symbol.isA .ident ∧
      e.unwrap.symbol.key = n.key := fun e he hk => by
    obtain ⟨name, hf⟩ := exists_of_isA_ident (hident e he hk)
    rw [symbol_unwrap_ident hf]
    exact ⟨hident e he hk, hk⟩
  have hpart : ∀ {Q x : Node}, Q ∈ s.document.root.preorder → x ∈ Q.parts → x.key = n.key →
      x ∈ s.document.root.preorder := fun hQ hx hk => by
    obtain ⟨y, hy, hyk, -⟩ := hn.attached
    obtain ⟨k, hyk'⟩ := h.sound.document.exists_key hy
    exact mem_preorder_of_part hQ hx (isPresent_of_key (hk.trans (hyk.symm.trans hyk')))
  -- What is an operand of a part of it is one wherever it is found.
  have hwrap : ∀ {P Q x : Node}, P ∈ s.document.root.preorder → Q ∈ s.document.root.preorder →
      x ∈ Q.parts → x.key = n.key → P.unwrap.symbol = x →
        ∀ e ∈ s.document.root.preorder, e.key = P.key →
          e.unwrap.symbol.isA .ident ∧ e.unwrap.symbol.key = n.key :=
    fun hP hQ hx hk hs e he hek => by
      rw [h.sound.document.eq_of_key he hP hek, hs]
      exact ⟨hident _ (hpart hQ hx hk) hk, hk⟩
  unfold Engine.occurrenceOperand
  refine (settles_parentOf s n).bind ?_
  rintro parent _ ⟨rfl, hparent⟩
  split
  · rename_i m x
    obtain ⟨hp, hm⟩ := parent?_eq hparent rfl
    obtain ⟨-, c, hc, hck, -⟩ := Document.of_parent? hp
    obtain rfl : c = x := by simpa [parts] using hc
    exact .pure ⟨fun _ ht => h.accounts_parent hn hp ht, hwrap hm hm hc hck rfl⟩
  · rename_i m x
    obtain ⟨hp, hm⟩ := parent?_eq hparent rfl
    obtain ⟨-, c, hc, hck, -⟩ := Document.of_parent? hp
    obtain rfl : c = x := by simpa [parts] using hc
    obtain ⟨name, hf⟩ := exists_of_isA_ident (hident c (hpart hm hc hck) hck)
    exact .pure ⟨fun _ ht => h.accounts_parent hn hp ht,
      hwrap hm hm hc hck (symbol_unwrap_address hf)⟩
  · rename_i m array subscript
    obtain ⟨hp, hm⟩ := parent?_eq hparent rfl
    have hat := h.parent hn hp (isLink_mk rfl)
    have harray : array ∈ (Node.mk m .arrayRef [array, subscript]).parts := List.mem_cons_self
    split
    · rename_i hsame
      have hak := (same_iff.mp hsame).2
      refine (settles_parentOf _ _).bind ?_
      rintro above _ ⟨rfl, habove⟩
      split
      · rename_i operand hunary
        obtain ⟨m', rfl⟩ := unary?_eq_some hunary
        obtain ⟨hp', hm'⟩ := parent?_eq habove rfl
        obtain ⟨-, c, hc, hck, -⟩ := Document.of_parent? hp'
        obtain rfl : c = operand := by simpa [parts] using hc
        obtain ⟨k, hmk⟩ := h.sound.document.exists_key hm
        obtain rfl := h.sound.document.eq_of_key
          (mem_preorder_of_part hm' hc (isPresent_of_key (hck.trans hmk))) hm hck
        exact .pure ⟨fun _ ht => h.accounts_parent hn hp (h.accounts_parent hat hp' ht),
          hwrap hm' hm harray hak rfl⟩
      · exact .pure ⟨fun _ ht => h.accounts_parent hn hp ht, hwrap hm hm harray hak rfl⟩
    · exact .pure ⟨fun _ ht => ht, hself⟩
  · exact .pure ⟨fun _ ht => ht, hself⟩

/-! ### Occurrences -/

/-- **An occurrence is gone, or left with a warning, or deferred.** -/
theorem accounts_rewriteOccurrence (hb : s.document.Knows b) (hn : s.IsAt u S n)
    (hident : ∀ x ∈ s.document.root.preorder, x.key = n.key → x.isA .ident) :
    s.Settles (Engine.rewriteOccurrence b n) fun _ t => Accounts b n s t ∨
      t.document = s.document ∧ ∃ c, s.DefersTo b n c := by
  have hkey : n.key.isSome := by
    obtain ⟨y, hy, hyk, -⟩ := hn.attached
    obtain ⟨k, hk⟩ := h.sound.document.exists_key hy
    simp [← hyk, hk]
  have hbare : s.Settles (Engine.operandUse b n b.bare) fun _ t => Accounts b n s t ∨
      t.document = s.document ∧ ∃ c, s.DefersTo b n c :=
    (h.accounts_operandUse hl (uses_bare hb) hn).mono fun _ _ ht => ht.imp_right fun ht => by
      obtain ⟨hd, c, hc⟩ := ht
      refine ⟨hd, c, hc.defersTo hkey fun e he hk => ?_⟩
      obtain ⟨name, hf⟩ := exists_of_isA_ident (hident e he hk)
      rw [symbol_unwrap_ident hf]
      exact ⟨hident e he hk, hk⟩
  unfold Engine.rewriteOccurrence
  refine (settles_parentOf s n).bind ?_
  rintro parent _ ⟨rfl, hparent⟩
  refine (settles_parentOf _ parent).bind ?_
  rintro above _ ⟨rfl, habove⟩
  dsimp only
  split
  · split
    · obtain ⟨hp, -⟩ := parent?_eq hparent rfl
      exact (h.accounts_member hl (h.parent hn hp (isLink_mk rfl))
        fun o ho => uses_accessed hb ho).mono fun _ _ ht => .inl (h.accounts_parent hn hp ht)
    · exact hbare
  · rename_i hselected
    split at hselected
    case h_2 => cases hselected
    obtain ⟨hp, -⟩ := parent?_eq hparent rfl
    obtain ⟨hp', -⟩ := parent?_eq habove rfl
    have hat := h.parent hn hp (isLink_mk rfl)
    have hat' := h.parent hat hp' (isLink_mk rfl)
    have hup := fun t ht =>
      h.accounts_parent (t := t) hn hp (h.accounts_parent (b := b) hat hp' ht)
    split
    · exact (h.accounts_member hl hat' fun o ho => uses_accessed hb ho).mono fun _ _ ht =>
        .inl (hup _ ht)
    · exact (h.accounts_member hl hat' fun o ho => uses_accessed hb ho).mono fun _ _ ht =>
        .inl (hup _ ht)
    · exact (accounts_warn _ b _ _ _).mono fun _ _ ht => .inl (hup _ ht)
  · rename_i m array subscript hselected
    split at hselected
    case h_2 => cases hselected
    obtain ⟨hp, hm⟩ := parent?_eq hparent rfl
    obtain ⟨hp', -⟩ := parent?_eq habove rfl
    have hat := h.parent hn hp (isLink_mk rfl)
    have hat' := h.parent hat hp' (isLink_mk rfl)
    have hsub : subscript.IsTerm := isTerm_of_mem_parts h.sound hm
      (fun f hf => by cases hf; exact fun _ => rfl) (List.mem_cons_of_mem _ List.mem_cons_self)
    split
    · refine (h.accounts_member hl hat' fun o ho => ?_).mono fun _ _ ht =>
        .inl (h.accounts_parent hn hp (h.accounts_parent hat hp' ht))
      cases ho
      exact uses_operand hb _ hsub
    · exact hbare
  · refine ((h.settles_occurrenceOperand hb hn).and (h.accounts_occurrenceOperand hn hident)).bind
      ?_
    rintro r _ ⟨⟨rfl, he, ho⟩, hup, hsymbol⟩
    refine (h.accounts_operandUse hl ho he).mono fun _ _ ht => ht.imp (hup _) fun ht => ?_
    obtain ⟨hd, c, hc⟩ := ht
    exact ⟨hd, c, hc.defersTo hkey hsymbol⟩

end Keeps

end Session

end Fieldwise
