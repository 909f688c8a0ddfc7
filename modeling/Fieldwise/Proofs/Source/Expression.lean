import Fieldwise.Proofs.Source.Reads

/-!
# What the readers of expressions yield

One statement for each rule of the expression grammar: it yields what `Parser.Reads` says, if the
rules for what is nested do.
-/

namespace Fieldwise.Parser

open Node

variable {g : Rules} {n : Nat}

/-! ### Tokens -/

theorem quiet_integerType (text : String) : Quiet (liftM (integerType text) : Parser String) := by
  intro n s x s' hs hr
  unfold integerType at hr
  dsimp only at hr
  split at hr
  · cases hr
  · cases hr
    exact hs

theorem quiet_stringTail (wide : Bool) (text : String) : Quiet (stringTail wide text) := by
  refine .loop (fun text => .bind .peek fun t => ?_) text
  split
  · exact .ite (.bind .advance fun _ => .pure _) (.pure _)
  · exact .pure _

theorem quiet_atParenthesizedType : Quiet atParenthesizedType :=
  .bind (.at? _) fun _ => .ite (.bind .get fun _ => .bind .peekSecond fun _ => .pure _) (.pure _)

theorem quiet_atStatementExpression : Quiet atStatementExpression :=
  .bind (.at? _) fun _ => .ite (.bind .peekSecond fun _ => .pure _) (.pure _)

theorem quiet_peekBinary : Quiet peekBinary := by
  refine .bind .peek fun t => ?_
  split
  · exact .pure _
  · exact .pure _

theorem quiet_peekAssign : Quiet peekAssign := by
  refine .bind .peek fun t => ?_
  split
  · exact .pure _
  · exact .pure _

/-! ### Operands -/

theorem yields_offsetDesignator (hg : g.Sound) : Yields n (offsetDesignator g) (Reads n) := by
  refine .skip .plainName fun r => .loop (fun b x hx => ?_) (.leaf rfl)
  refine .skip (.accept _) fun _ => .ite (fun _ => ?_) fun _ => .skip (.accept _) fun _ =>
    .ite (fun _ => ?_) fun _ => .pure hx
  · exact .skip .plainName fun r => .pure (hx.binary (.leaf rfl) rfl)
  · refine (hg.expression b).bind fun c e he => .skip (.expect _) fun _ => .pure ?_
    exact hx.binary he rfl

theorem yields_primary (hg : g.Sound) : Yields n (primary g) (Reads n) := by
  refine .skip .peekLine fun line => .skip .peek fun t => ?_
  split
  · exact .skip .plainName fun _ => .pure (.leaf rfl)
  · exact .skip (quiet_integerType _) fun _ => .skip .advance fun _ => .pure (.leaf rfl)
  · exact .skip .advance fun _ => .pure (.leaf rfl)
  · exact .skip .advance fun _ => .pure (.leaf rfl)
  · exact .skip .advance fun _ => .skip (quiet_stringTail _ _) fun _ => .pure (.leaf rfl)
  · refine .skip .advance fun _ => .skip (.expect _) fun _ => (hg.typeName n).bind fun b t ht =>
      .skip (.expect _) fun _ => (yields_offsetDesignator hg).bind fun c f hf =>
        .skip (.expect _) fun _ => .pure ?_
    exact (Reads.leaf rfl).binary (ht.binary hf rfl) rfl
  · exact .skip .advance fun _ => (hg.expression n).bind fun b e he =>
      .skip (.expect _) fun _ => .pure he
  · exact .fail

/-- One or more items keep what each of them keeps. -/
theorem yields_separated {α : Type} {item : Parser α} {I : Nat → List α → Prop} (h₀ : I n [])
    (h : ∀ b xs, I b xs → Yields b item fun c x => I c (xs ++ [x])) :
    Yields n (separated item) I := by
  refine (h n [] h₀).bind fun b x hx => .loop (fun c xs hxs => ?_) hx
  refine .skip (.accept _) fun _ => .ite (fun _ => ?_) fun _ => .pure hxs
  exact (h c xs hxs).bind fun d y hy => .pure hy

theorem yields_arguments (hg : g.Sound) : Yields n (arguments g) (Reads n) := by
  refine .skip (.accept _) fun _ => .ite (fun _ => .pure .absent) fun _ => ?_
  have hargs : Yields n (separated g.assignment) (ReadsAll n) :=
    yields_separated (.nil n) fun b xs hxs => (hg.assignment b).mono fun c x hx =>
      hxs.append hx
  exact hargs.bind fun b xs hxs => .skip (.expect _) fun _ => .pure (hxs.node rfl)

theorem yields_memberName : Yields n memberName (Reads n) := by
  refine .skip .peekLine fun _ => .skip .advance fun l => ?_
  split
  · exact .pure (.leaf rfl)
  · exact .fail

theorem yields_postfixTail (hg : g.Sound) {a : Nat} {x : Node} (hx : Reads a n x) :
    Yields n (postfixTail g x) (Reads a) := by
  refine .loop (fun b x hx => ?_) hx
  refine .skip (.accept _) fun _ => .ite (fun _ => ?_) fun _ => .skip (.accept _) fun _ =>
    .ite (fun _ => ?_) fun _ => .skip (.accept _) fun _ =>
    .ite (fun _ => ?_) fun _ => .skip (.accept _) fun _ =>
    .ite (fun _ => ?_) fun _ => .skip (.accept _) fun _ =>
    .ite (fun _ => ?_) fun _ => .skip (.accept _) fun _ =>
    .ite (fun _ => ?_) fun _ => .pure hx
  · refine (hg.expression b).bind fun c e he => .skip (.expect _) fun _ => .pure ?_
    exact hx.binary he rfl
  · exact (yields_arguments hg).bind fun c e he => .pure (hx.binary he rfl)
  · exact yields_memberName.bind fun c e he => .pure (hx.binary he rfl)
  · exact yields_memberName.bind fun c e he => .pure (hx.binary he rfl)
  · exact .pure (hx.unary rfl)
  · exact .pure (hx.unary rfl)

/-! ### Brace lists -/

theorem yields_designation (hg : g.Sound) : Yields n (designation g) (ReadsAll n) := by
  refine .loop (fun b xs hxs => ?_) (.nil n)
  refine .skip (.accept _) fun _ => .ite (fun _ => ?_) fun _ => .skip (.accept _) fun _ =>
    .ite (fun _ => ?_) fun _ => .pure hxs
  · refine (hg.conditional b).bind fun c e he => .skip (.expect _) fun _ => .pure ?_
    exact hxs.append he
  · exact .skip .plainName fun _ => .pure (hxs.append (Reads.leaf rfl))

theorem yields_listEntry (hg : g.Sound) : Yields n (listEntry g) fun b r => Reads n b r.1 := by
  refine (yields_designation hg).bind fun b names hnames => ?_
  split
  · exact (hg.initializer b).bind fun c x hx => .pure
      (ReadsAll.mono hx hnames.le (Nat.le_refl _))
  · refine .skip (.expect _) fun _ => (hg.initializer b).bind fun c x hx => .pure ?_
    exact (hnames.append' hx).node rfl

theorem yields_moreEntries (hg : g.Sound) {a : Nat} {x : Node} (hx : Reads a n x) :
    Yields n (moreEntries g x) (ReadsAll a) := by
  refine .seqLeft (.loop (fun b xs hxs => ?_) hx) (.expect _)
  refine .skip (.accept _) fun _ => .ite (fun _ => .skip (.at? _) fun _ =>
    .ite (fun _ => .pure hxs) fun _ => ?_) fun _ => .pure hxs
  exact (yields_listEntry hg).bind fun c r hr => .pure (hxs.append hr)

theorem yields_nonemptyList (hg : g.Sound) : Yields n (nonemptyList g) (Reads n) :=
  (yields_listEntry hg).bind fun _ _ hr => (yields_moreEntries hg hr).bind fun _ _ hxs =>
    .pure (hxs.node rfl)

theorem yields_braceList (hg : g.Sound) : Yields n (braceList g) (Reads n) :=
  .skip .peekLine fun _ => .skip (.expect _) fun _ => .skip (.accept _) fun _ =>
    .ite (fun _ => .pure (.leaf rfl)) fun _ => yields_nonemptyList hg

theorem yields_literalTail (hg : g.Sound) {a : Nat} {type : Node} (ht : Reads a n type) :
    Yields n (literalTail g type) (Reads a) :=
  .skip (.expect _) fun _ => (yields_nonemptyList hg).bind fun _ _ hx =>
    yields_postfixTail hg (ht.binary hx rfl)

/-! ### Operators -/

theorem yields_uncastOperand (hg : g.Sound) : Yields n (uncastOperand g) (Reads n) :=
  (hg.operand n).bind fun _ _ hx => .ite (fun _ => .pure hx) fun _ => .fail

theorem yields_sizeOperand (hg : g.Sound) : Yields n (sizeOperand g) (Reads n) := by
  refine .skip quiet_atParenthesizedType fun _ => .ite (fun _ => ?_) fun _ =>
    yields_uncastOperand hg
  refine .skip (.expect _) fun _ => (hg.typeName n).bind fun b t ht => .skip (.expect _) fun _ =>
    .skip (.at? _) fun _ => .ite (fun _ => yields_literalTail hg ht) fun _ => .pure ht

theorem yields_unaryExpression (hg : g.Sound) : Yields n (unaryExpression g) (Reads n) := by
  have hprimary : Yields n (do postfixTail g (← primary g)) (Reads n) :=
    (yields_primary hg).bind fun b x hx => yields_postfixTail hg hx
  refine .skip .peekLine fun _ => .skip .peek fun t => ?_
  split
  · exact .skip .advance fun _ => (yields_sizeOperand hg).bind fun b x hx => .pure (hx.unary rfl)
  · exact .skip .advance fun _ => .skip (.expect _) fun _ => (hg.typeName n).bind fun b t ht =>
      .skip (.expect _) fun _ => .pure (ht.unary rfl)
  · split
    · refine .skip .advance fun _ => .ite (fun _ => ?_) fun _ => ?_
      · exact (yields_uncastOperand hg).bind fun b x hx => .pure (hx.unary rfl)
      · refine Yields.bind (P := Reads n) ?_ fun b x hx => .pure (hx.unary rfl)
        exact (hg.operand n).bind fun b r hr => .pure hr
    · exact hprimary
  · exact hprimary

theorem yields_castExpression (hg : g.Sound) :
    Yields n (castExpression g) fun b r => Reads n b r.1 := by
  refine .skip .peekLine fun _ => .skip quiet_atParenthesizedType fun _ =>
    .ite (fun _ => ?_) fun _ => (yields_unaryExpression hg).bind fun b x hx => .pure hx
  refine .skip (.expect _) fun _ => (hg.typeName n).bind fun b t ht => .skip (.expect _) fun _ =>
    .skip (.at? _) fun _ => .ite (fun _ => ?_) fun _ => ?_
  · exact (yields_literalTail hg ht).bind fun c x hx => .pure hx
  · exact (hg.operand b).bind fun c r hr => .pure (ht.binary hr rfl)

/-- Grouping the operators of one precedence keeps the order of operands. -/
theorem readsAll_groupLevel (level : Nat) {a b : Nat} {us : List Node} {left : Node}
    {rest : List (BinaryOp × Node)} (h : ReadsAll a b (us ++ left :: rest.map Prod.snd)) :
    ReadsAll a b (us ++ (groupLevel level left rest).1 ::
      (groupLevel level left rest).2.map Prod.snd) := by
  induction rest generalizing us left with
  | nil => exact h
  | cons r rest ih =>
    obtain ⟨op, right⟩ := r
    rw [groupLevel]
    split
    · have h' : ReadsAll a b (us ++ ([left, right] ++ rest.map Prod.snd)) := by simpa using h
      exact ih (h'.group rfl)
    · have h' : ReadsAll a b (us ++ [left] ++ right :: rest.map Prod.snd) := by simpa using h
      simpa using ih h'

theorem reads_groupChain {a b : Nat} {first : Node} {rest : List (BinaryOp × Node)}
    (h : ReadsAll a b (first :: rest.map Prod.snd)) : Reads a b (groupChain first rest) := by
  suffices ∀ levels : List Nat, ReadsAll a b
      ((levels.foldr (fun level p => groupLevel level p.1 p.2) (first, rest)).1 ::
        (levels.foldr (fun level p => groupLevel level p.1 p.2) (first, rest)).2.map Prod.snd) by
    exact (this (List.range 10)).head
  intro levels
  induction levels with
  | nil => exact h
  | cons level levels ih => exact readsAll_groupLevel level (show ReadsAll a b ([] ++ _) from ih)

theorem yields_binaryTail (hg : g.Sound) {a : Nat} {x : Node} (hx : Reads a n x) :
    Yields n (binaryTail g x) (Reads a) := by
  refine Yields.bind (P := fun b found => ReadsAll a b (x :: found.map Prod.snd))
    (.loop (fun b found hf => .skip quiet_peekBinary fun o => ?_) (show ReadsAll a n [x] from hx))
    fun b rest hr => ?_
  · split
    · refine .skip .advance fun _ => (yields_castExpression hg).bind fun c r hr => .pure ?_
      simpa using hf.append hr
    · exact .pure hf
  · exact .pure (reads_groupChain hr)

theorem yields_conditionalTail (hg : g.Sound) {a : Nat} {x : Node} (hx : Reads a n x) :
    Yields n (conditionalTail g x) (Reads a) := by
  refine (yields_binaryTail hg hx).bind fun b cond hc => .skip (.accept _) fun _ =>
    .ite (fun _ => ?_) fun _ => .pure hc
  refine (hg.expression b).bind fun c yes hy => .skip (.expect _) fun _ =>
    (hg.conditional c).bind fun d no hn => .pure (hc.ternary hy hn rfl)

theorem yields_conditionalExpression (hg : g.Sound) :
    Yields n (conditionalExpression g) (Reads n) :=
  (yields_castExpression hg).bind fun _ _ hr => yields_conditionalTail hg hr

/-! ### Assignments and the comma -/

theorem yields_assignmentExpression (hg : g.Sound) :
    Yields n (assignmentExpression g) (Reads n) := by
  refine .skip quiet_atStatementExpression fun _ => .ite (fun _ => ?_) fun _ => ?_
  · exact .skip (.expect _) fun _ => (hg.compound n).bind fun b x hx =>
      .skip (.expect _) fun _ => .pure hx.1
  · refine (yields_castExpression hg).bind fun b r hr => .skip quiet_peekAssign fun o => ?_
    obtain ⟨first, uncast⟩ := r
    dsimp only
    split
    · refine .ite (fun _ => ?_) fun _ => .fail
      exact .skip .advance fun _ => (hg.assignment b).bind fun c x hx => .pure (hr.binary hx rfl)
    · exact yields_conditionalTail hg hr

/-- One more expression in a list. A list on the left is taken apart for it. -/
theorem reads_appendExpression {a b c : Nat} {left right : Node} (hl : Reads a b left)
    (hr : Reads b c right) : Reads a c (appendExpression left right) := by
  unfold appendExpression
  split
  · rename_i m es
    have hes : ReadsAll a b es := hl.parts rfl fun _ => rfl
    have hkey : m.key = none := hl.fragment.toDraft.key_eq_none rfl
    obtain ⟨key, line⟩ := m
    obtain rfl : key = none := hkey
    exact (hes.append hr).node rfl
  · exact hl.binary hr rfl

theorem yields_fullExpression (hg : g.Sound) : Yields n (fullExpression g) (Reads n) := by
  refine (yields_assignmentExpression hg).bind fun b x hx => .loop (fun c left hl => ?_) hx
  refine .skip (.accept _) fun _ => .ite (fun _ => ?_) fun _ => .pure hl
  exact (yields_assignmentExpression hg).bind fun d x hx => .pure (reads_appendExpression hl hx)

theorem yields_initialValue (hg : g.Sound) : Yields n (initialValue g) (Reads n) :=
  .skip (.at? _) fun _ => .ite (fun _ => yields_braceList hg) fun _ =>
    yields_assignmentExpression hg

end Fieldwise.Parser
