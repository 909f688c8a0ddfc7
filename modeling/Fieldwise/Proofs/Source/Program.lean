import Fieldwise.Proofs.Source.Statement

/-!
# What is known of a program that was read

`parse` yields a file whose nodes will be knit once all of them have keys, and in which declarations
and function definitions stand where they can (`isSource_of_parse`).
-/

namespace Fieldwise

namespace Parser

open Node

variable {g : Rules} {a b c n : Nat}

theorem sound_step (hg : g.Sound) : (Rules.step g).Sound where
  expression _ := yields_fullExpression hg
  assignment _ := yields_assignmentExpression hg
  conditional _ := yields_conditionalExpression hg
  operand _ := yields_castExpression hg
  typeName _ := yields_typeNameRule hg
  initializer _ := yields_initialValue hg
  specifiers storage _ := yields_specifiers hg storage
  declarator naming _ := yields_fullDeclarator hg naming
  compound _ := yields_compoundStatement hg
  statement _ := yields_statement hg

/-- The rules for any number of nested levels yield what their names say. -/
theorem sound_rules (depth : Nat) : (rules depth).Sound := by
  induction depth with
  | zero => exact .none
  | succ depth ih => exact sound_step ih

theorem yields_parameterDeclarations (hg : g.Sound) :
    Yields n (parameterDeclarations g) (Fragment n) := by
  refine .loop (fun b found hf => ?_) (.nil n)
  refine .skip .get fun _ => .skip .peek fun _ => .ite (fun _ => ?_) fun _ => .pure hf
  exact (yields_declaration hg).bind fun c xs hxs => .pure (hf.append hxs)

/-- Items of a file that are read between two unused keys. -/
structure ReadsItems (a b : Nat) (ts : List Node) : Prop where
  draft : Draft a b ts
  items : ∀ t ∈ ts, t.isPresent → t.IsItem

theorem ReadsItems.append {ts us : List Node} (h : ReadsItems a b ts) (h' : ReadsItems b c us) :
    ReadsItems a c (ts ++ us) :=
  ⟨h.draft.append h'.draft, fun t ht => (List.mem_append.mp ht).elim (h.items t) (h'.items t)⟩

theorem readsItems_of_fragment {ts : List Node} (h : Fragment a b ts) : ReadsItems a b ts :=
  ⟨h.toDraft, fun _ ht htp => (h.placed.mono fun _ hu => List.mem_singleton.mp hu ▸ ht).isItem htp⟩

theorem yields_functionDefinition (hg : g.Sound) {s : TypeSpecifiers} {d : Declarator}
    (hs : s.Reads a b) (hd : Layers b n d.layers) :
    Yields n (functionDefinition g s d) (ReadsItems a) := by
  refine .ite (fun _ => .fail) fun hcond =>
    (yields_parameterDeclarations hg).bind fun e params hp =>
    (yields_compoundStatement hg).bind fun k body hb => (yields_declare_alone hs hd).bind
      fun m decl hdecl => .skip (quiet_declareAll s _) fun _ => .pure ?_
  obtain ⟨rfl, hdecl, hhead, -⟩ := hdecl
  obtain ⟨hb, hcomp⟩ := hb
  have htypedef : TypeSpecifiers.isTypedef s = false := by
    simp only [Bool.or_eq_true, not_or, Bool.not_eq_true] at hcond
    exact hcond.2
  have hall : Fragment a m ([decl] ++ ([body] ++ params)) :=
    hdecl.append (hp.append' hb.fragment)
  refine ⟨hall.toDraft.node _ _, fun t ht _ => ?_⟩
  obtain rfl := List.mem_singleton.mp ht
  refine ⟨isPlaced_mk.mpr ⟨fun i x hx hd => ?_, nofun, fun _ => ⟨decl, rfl, hhead htypedef⟩,
    nofun, fun _ => ⟨body, rfl, hcomp⟩⟩, rfl, hall.placed⟩
  -- The body is no declaration.
  match i with
  | 0 => rfl
  | 1 =>
    obtain rfl : body = x := by simpa using hx
    have := hb.isA_decl
    rw [hd] at this
    cases this
  | i + 2 => rfl

theorem yields_moreDeclarations (hg : g.Sound) {s : TypeSpecifiers} {first : Node}
    (hs : ∀ t ∈ s.types, t.isA .decl = false) (h : Fragment a n (s.types ++ [first])) :
    Yields n (moreDeclarations g s first) (Fragment a) := by
  refine Yields.bind (P := fun b found => Fragment a b (s.types ++ found))
    (.loop (fun b found hf => ?_) h) fun b decls hd => ?_
  · refine .skip (.accept _) fun _ => .ite (fun _ => ?_) fun _ => .pure hf
    exact (yields_initDeclarator hg hs hf).bind fun c x hx => .pure hx
  · exact .skip (.expect _) fun _ => .skip (quiet_declareAll s decls) fun _ =>
      .pure (hd.sublist (List.sublist_append_right _ _))

theorem yields_externalDeclaration (hg : g.Sound) :
    Yields n (externalDeclaration g) (ReadsItems n) := by
  have hitems : ∀ {a m} {p : Parser (List Node)},
      Yields m p (Fragment a) → Yields m p (ReadsItems a) :=
    fun h => h.mono fun _ _ => readsItems_of_fragment
  refine .skip .peekLine fun line => .skip .peek fun t => ?_
  split
  · exact .skip .advance fun _ => .pure (readsItems_of_fragment (Reads.leaf rfl).fragment)
  · exact (yields_staticAssert hg).bind fun b x hx => .pure (readsItems_of_fragment hx.fragment)
  · refine .skip (.accept _) fun _ =>
      .ite (fun _ => .pure (readsItems_of_fragment (.nil n))) fun _ =>
      (yields_specifiers hg _).bind fun b s hs => .ite (fun _ => ?_) fun _ =>
      .skip (.accept _) fun _ => .ite (fun _ => hitems (yields_declaredTypeOnly hs)) fun _ =>
      (yields_fullDeclarator hg _).bind fun c d hd => .skip (.accept _) fun _ =>
      .ite (fun _ => ?_) fun _ => .skip (.at? _) fun _ => .skip (.at? _) fun _ =>
      .ite (fun _ => ?_) fun _ => yields_functionDefinition hg hs hd
    · refine (yields_fullDeclarator hg _).bind fun c d hd => ?_
      have hint : ReadsAll n b [nodeAt line (.identifierType ["int"]) []] :=
        ReadsAll.mono (Reads.leaf rfl) (ReadsAll.le hs) (Nat.le_refl b)
      exact yields_functionDefinition hg hint hd
    · exact (yields_initialValue hg).bind fun e init hi =>
        (yields_declare_last hs.isA_decl hs.fragment_nil hd
          (ReadsAll.append hi Reads.absent)).bind fun k x hx =>
          hitems (yields_moreDeclarations hg hs.isA_decl hx)
    · exact (yields_declare_last hs.isA_decl hs.fragment_nil hd
        (Reads.absent.append Reads.absent)).bind fun k x hx =>
          hitems (yields_moreDeclarations hg hs.isA_decl hx)

theorem yields_file (hg : g.Sound) :
    Yields n (file g) fun b x => Draft n b [x] ∧ x.IsProgram := by
  refine Yields.bind (P := ReadsItems n) (.loop (fun b found hf => .skip .peek fun t => ?_)
    (readsItems_of_fragment (.nil n))) fun b items hi => .pure ⟨hi.draft.node _ _, rfl, hi.items⟩
  split
  · exact .pure hf
  · exact (yields_externalDeclaration hg).bind fun c xs hxs => .pure (hf.append hxs)

end Parser

/-- What is known of the tree of a program: its nodes can be told apart by their keys, except in
types that declarations share, and declarations and function definitions stand where they can. -/
structure Node.IsSource (root : Node) : Prop where
  draft : ∃ next, Node.Draft 1 next [root]
  program : root.IsProgram

/-- **A program that was read will be knit, and its declarations and function definitions stand
where they can.** -/
theorem isSource_of_parse {source : String} {program : Node} (h : parse source = .ok program) :
    program.IsSource := by
  unfold parse at h
  split at h
  · cases h
  · rename_i input _
    cases hr : (Parser.file (Parser.rules (input.length + 1))).run { input } with
    | error e =>
      rw [hr] at h
      cases h
    | ok r =>
      rw [hr] at h
      obtain ⟨root, s⟩ := r
      obtain rfl : root = program := by
        cases h
        rfl
      obtain ⟨hd, hprogram⟩ := Parser.yields_file (Parser.sound_rules _) { input } root s rfl hr
      exact ⟨⟨_, hd⟩, hprogram⟩

end Fieldwise
