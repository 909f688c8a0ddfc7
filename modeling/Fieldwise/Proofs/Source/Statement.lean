import Fieldwise.Proofs.Source.Declaration

/-!
# What the readers of statements yield

One statement for each rule of the grammar of statements. Regrouping the cases of a `switch` keeps
what is known of the block (`reads_gatherCases`).
-/

namespace Fieldwise.Parser

open Node

variable {g : Rules} {a b c n : Nat}

theorem yields_staticAssert (hg : g.Sound) : Yields n (staticAssert g) (Reads n) := by
  refine .skip .peekLine fun line => .skip .advance fun _ => .skip (.expect _) fun _ =>
    (hg.conditional n).bind fun b cond hc =>
      .skip (.accept _) fun _ => .ite (fun _ => ?_) fun _ => ?_
  · refine .skip .peek fun t => ?_
    split
    · exact (yields_primary hg).bind fun c x hx => .skip (.expect _) fun _ =>
        .pure (hc.binary hx rfl)
    · exact .fail
  · exact Yields.bind (P := Reads b) (.pure .absent) fun c x hx => .skip (.expect _) fun _ =>
      .pure (hc.binary hx rfl)

/-! ### Cases -/

/-- Labels that stand one in the other are put beside each other. -/
theorem fragment_flattenCase (x : Node) {us vs : List Node} (h : Fragment a b (us ++ x :: vs)) :
    Fragment a b (us ++ (flattenCase x ++ vs)) := by
  induction x using flattenCase.induct generalizing us with
  | case1 m expr stmt hl ih =>
    rw [flattenCase, if_pos hl]
    have hp : (Node.mk m .caseLabel [expr, stmt]).IsPlaced :=
      (h.placed _ (mem_preorderAll_of_mem (t := Node.mk m _ _) (by simp) rfl)).1
    have hvalue : (Node.mk m .caseLabel [expr]).IsPlaced := by
      refine isPlaced_mk.mpr ⟨fun i x hx hd => (isPlaced_mk.mp hp).1 i x ?_ hd, nofun, nofun,
        nofun, nofun⟩
      cases i <;> simp_all
    have hdraft : Draft a b [Node.mk m .caseLabel [expr, stmt]] := h.toDraft.sublist (by simp)
    have hm : m.key = none := hdraft.key_eq_none rfl
    obtain ⟨key, line⟩ := m
    obtain rfl : key = none := hm
    have h' : Fragment a b (us ++ ([expr] ++ (stmt :: vs))) := h.ungroup rfl
    have h'' : Fragment a b (us ++ [Node.mk ⟨none, line⟩ .caseLabel [expr]] ++ stmt :: vs) := by
      simpa using h'.group hvalue rfl
    simpa using ih h''
  | case2 m expr stmt hl => rwa [flattenCase, if_neg hl]
  | case3 m stmt hl ih =>
    rw [flattenCase, if_pos hl]
    have hdraft : Draft a b [Node.mk m .defaultLabel [stmt]] := h.toDraft.sublist (by simp)
    have hm : m.key = none := hdraft.key_eq_none rfl
    obtain ⟨key, line⟩ := m
    obtain rfl : key = none := hm
    have h' : Fragment a b (us ++ ([] ++ (stmt :: vs))) := h.ungroup rfl
    have h'' : Fragment a b (us ++ [Node.mk ⟨none, line⟩ .defaultLabel []] ++ stmt :: vs) := by
      simpa using h'.group (isPlaced_of_holdsDecl (fun _ => rfl) nofun) rfl
    simpa using ih h''
  | case4 m stmt hl => rwa [flattenCase, if_neg hl]
  | case5 x h₁ h₂ => simpa [flattenCase] using h

/-- A case label with one more statement. -/
theorem isPlaced_snoc {m : Mark} {f : Form} {ps : List Node} {x : Node}
    (h : (Node.mk m f ps).IsPlaced) (hf : f.cls = .caseLabel ∨ f.cls = .defaultLabel) :
    (Node.mk m f (ps ++ [x])).IsPlaced := by
  rcases hf with hf | hf
  · have hne := (isPlaced_mk.mp h).2.1 hf
    refine isPlaced_mk.mpr ⟨fun i c hc hd => ?_, fun _ => by simp, fun hf' => ?_, fun hf' => ?_,
      fun hf' => ?_⟩
    rotate_left
    · cases hf.symm.trans hf'
    · cases hf.symm.trans hf'
    · cases hf.symm.trans hf'
    cases i with
    | zero =>
      obtain ⟨p, ps, rfl⟩ := List.exists_cons_of_ne_nil hne
      exact (isPlaced_mk.mp h).1 0 c (by simpa using hc) hd
    | succ i => cases f <;> first | rfl | cases hf
  · exact isPlaced_of_holdsDecl (fun i => by cases f <;> first | rfl | cases hf) fun hf' => by
      rw [hf] at hf'
      cases hf'

theorem fragment_addToCases {found vs : List Node} {stmt : Node}
    (h : Fragment a b (found ++ stmt :: vs)) : Fragment a b (addToCases found stmt ++ vs) := by
  unfold addToCases
  split
  · rw [List.append_assoc]
    exact fragment_flattenCase stmt h
  · split
    · rename_i last hlast
      split
      · rename_i hl
        obtain ⟨init, rfl⟩ := List.getLast?_eq_some_iff.mp hlast
        cases last with
        | absent => cases hl
        | mk m f ps =>
          have hf : f.cls = .caseLabel ∨ f.cls = .defaultLabel := by
            simpa [isA, cls?, form?] using hl
          have hs : (Node.mk m f ps).isSole := by
            rcases hf with hf | hf <;> simp [isSole, cls?, form?, hf]
          obtain ⟨hp, hn⟩ : (Node.mk m f ps).IsPlaced ∧ f.isNested :=
            h.placed _ (mem_preorderAll_of_mem (by simp) rfl)
          have hdraft : Draft a b [Node.mk m f ps] := h.toDraft.sublist (by simp)
          have hm : m.key = none := hdraft.key_eq_none hs
          obtain ⟨key, line⟩ := m
          obtain rfl : key = none := hm
          have h' : Fragment a b (init ++ (ps ++ stmt :: vs)) :=
            Fragment.ungroup (by simpa using h) hs
          rw [List.dropLast_concat, List.append_assoc]
          have h'' : Fragment a b (init ++ (ps ++ [stmt] ++ vs)) := by simpa using h'
          exact h''.group (isPlaced_snoc hp hf) hn
      · simpa using h
    · rename_i hlast
      rw [List.getLast?_eq_none_iff] at hlast
      simpa [hlast] using h

theorem fragment_foldl_addToCases {found stmts : List Node} (h : Fragment a b (found ++ stmts)) :
    Fragment a b (stmts.foldl addToCases found) := by
  induction stmts generalizing found with
  | nil => simpa using h
  | cons stmt stmts ih => exact ih (fragment_addToCases h)

/-- Regrouping the cases of a block. -/
theorem reads_gatherCases {x : Node} (h : Reads a b x) : Reads a b (gatherCases x) := by
  unfold gatherCases
  split
  · rename_i m stmts
    have hm : m.key = none := h.fragment.toDraft.key_eq_none rfl
    obtain ⟨key, line⟩ := m
    obtain rfl : key = none := hm
    have hblock : Fragment a b ([] ++ Node.mk ⟨none, line⟩ .compound stmts :: []) := h.fragment
    have hstmts : Fragment a b ([] ++ stmts) := by simpa using hblock.ungroup rfl
    exact .list (fragment_foldl_addToCases hstmts) (fun _ => rfl) rfl nofun
  · exact h

/-! ### Statements -/

theorem yields_pragmas : Yields n pragmas (ReadsAll n) := by
  refine .loop (fun b found hf => .skip .peekLine fun line => .skip .peek fun t => ?_) (.nil n)
  split
  · exact .skip .advance fun _ => .pure (hf.append (Reads.leaf rfl))
  · exact .pure hf

theorem yields_body (hg : g.Sound) : Yields n (body g) (Reads n) := by
  refine .skip .peekLine fun line => yields_pragmas.bind fun b ps hps => ?_
  split
  · exact (hg.statement b).mono fun c x hx => ReadsAll.mono hx hps.le (Nat.le_refl _)
  · exact (hg.statement b).bind fun c x hx => .pure ((hps.append hx).node rfl)

theorem quiet_atLabelEnd : Quiet atLabelEnd :=
  .bind (.at? _) fun _ => .bind .get fun _ => .bind .peek fun _ => .pure _

theorem quiet_atLabel : Quiet atLabel := by
  refine .bind .peek fun t => ?_
  split
  · exact .bind .peekSecond fun _ => .pure _
  · exact .pure _

theorem yields_labelled (hg : g.Sound) (line : Option Nat) :
    Yields n (labelled g line) (Reads n) :=
  .skip quiet_atLabelEnd fun _ => .ite (fun _ => .pure (.leaf rfl)) fun _ => yields_body hg

theorem yields_optionalExpression (hg : g.Sound) (close : String) :
    Yields n (optionalExpression g close) (Reads n) :=
  .skip (.accept _) fun _ => .ite (fun _ => .pure .absent) fun _ =>
    (hg.expression n).bind fun _ _ hx => .skip (.expect _) fun _ => .pure hx

theorem yields_condition (hg : g.Sound) : Yields n (condition g) (Reads n) :=
  .skip (.expect _) fun _ => (hg.expression n).bind fun _ _ hx => .skip (.expect _) fun _ =>
    .pure hx

theorem yields_blockItem (hg : g.Sound) : Yields n (blockItem g) (Fragment n) := by
  refine .skip .get fun _ => .skip .peek fun _ => .ite (fun _ => yields_declaration hg) fun _ => ?_
  exact (hg.statement n).bind fun b x hx => .pure hx.fragment

theorem yields_compoundStatement (hg : g.Sound) :
    Yields n (compoundStatement g) fun b x => Reads n b x ∧ x.isA .compound :=
  .skip .peekLine fun _ => .skip (.expect _) fun _ =>
    (yields_itemsUntil _ fun _ => yields_blockItem hg).bind fun _ _ hxs =>
      .pure ⟨.list hxs (fun _ => rfl) rfl nofun, rfl⟩

theorem yields_forStatement (hg : g.Sound) (line : Option Nat) :
    Yields n (forStatement g line) (Reads n) := by
  have htail : ∀ b start, Reads n b start → Yields b (do
      let cond ← optionalExpression g ";"
      let next ← optionalExpression g ")"
      return nodeAt line .forLoop [start, cond, next, ← body g]) (Reads n) := by
    intro b start hs
    refine (yields_optionalExpression hg _).bind fun c cond hc =>
      (yields_optionalExpression hg _).bind fun d next hn => (yields_body hg).bind fun e x hx =>
        .pure ?_
    exact (ReadsAll.append hs (ReadsAll.append hc (ReadsAll.append hn hx))).node rfl
  refine .skip (.expect _) fun _ => .skip .get fun _ => .skip .peek fun _ => .ite (fun _ => ?_)
    fun _ => (yields_optionalExpression hg _).bind htail
  exact (yields_declaration hg).bind fun b xs hxs => htail b _
    (.list hxs (fun _ => rfl) rfl nofun)

theorem yields_keywordStatement (hg : g.Sound) (line : Option Nat) (word : String) :
    Yields n (keywordStatement g line word) (Reads n) := by
  refine .ite (fun _ => yields_staticAssert hg) fun _ => .ite (fun _ =>
    yields_optionalExpression hg _) fun _ => .skip .advance fun _ => ?_
  split
  · refine (hg.conditional n).bind fun b value hv => .skip (.expect _) fun _ =>
      (yields_labelled hg line).bind fun c x hx => .pure ?_
    have hparts : ReadsAll n c [value, x] := ReadsAll.append hv hx
    exact ⟨hparts.fragment.node (isPlaced_of_forall hparts.isA_decl nofun nofun) rfl, by
      simp [nodeAt, isA, cls?, form?, Form.cls]⟩
  · exact .skip (.expect _) fun _ => (yields_labelled hg line).bind fun b x hx =>
      .pure (hx.unary rfl)
  · refine (yields_condition hg).bind fun b cond hc => (yields_body hg).bind fun c yes hy =>
      .skip (.acceptKeyword _) fun _ => .ite (fun _ => ?_) fun _ => ?_
    · exact (yields_body hg).bind fun d no hn => .pure (hc.ternary hy hn rfl)
    · exact Yields.bind (P := Reads c) (.pure .absent) fun d no hn =>
        .pure (hc.ternary hy hn rfl)
  · exact (yields_condition hg).bind fun b cond hc => (yields_body hg).bind fun c x hx =>
      .pure (hc.binary (reads_gatherCases hx) rfl)
  · exact (yields_condition hg).bind fun b cond hc => (yields_body hg).bind fun c x hx =>
      .pure (hc.binary hx rfl)
  · refine (yields_body hg).bind fun b x hx => .skip (.acceptKeyword _) fun _ =>
      .ite (fun _ => ?_) fun _ => .fail
    exact (yields_condition hg).bind fun c cond hc => .skip (.expect _) fun _ =>
      .pure ((ReadsAll.append' hx hc).node rfl)
  · exact yields_forStatement hg line
  · exact .skip .plainName fun _ => .skip (.expect _) fun _ => .pure (.leaf rfl)
  · exact .skip (.expect _) fun _ => .pure (.leaf rfl)
  · exact .skip (.expect _) fun _ => .pure (.leaf rfl)
  · exact (yields_optionalExpression hg _).bind fun b x hx => .pure (hx.unary rfl)
  · exact .fail

theorem yields_statement (hg : g.Sound) : Yields n (statement g) (Reads n) := by
  refine .skip .peekLine fun line => .skip quiet_atLabel fun _ => .ite (fun _ => ?_)
    fun _ => .skip .peek fun t => ?_
  · exact .skip .plainName fun _ => .skip (.expect _) fun _ => (yields_labelled hg line).bind
      fun b x hx => .pure (hx.unary rfl)
  · split
    · exact .skip .advance fun _ => .pure (.leaf rfl)
    · exact yields_keywordStatement hg line _
    · exact (yields_compoundStatement hg).mono fun b x hx => hx.1
    · exact .skip (.expect _) fun _ => .pure (.leaf rfl)
    · exact yields_optionalExpression hg _

end Fieldwise.Parser
