import Fieldwise.Proofs.Source.Expression

/-!
# What the readers of declarations yield

One statement for each rule of the grammar of declarations. All declarations that share their
specifiers are read after the words of the type, which each of them uses once more
(`yields_declare`).
-/

namespace Fieldwise.Parser

open Node

variable {g : Rules} {a b c n : Nat}

/-! ### Lists -/

/-- Items up to a closing punctuator are put together. -/
theorem yields_itemsUntil {item : Parser (List Node)} (close : String)
    (h : ∀ b, Yields b item (Fragment b)) : Yields n (itemsUntil close item) (Fragment n) := by
  refine .seqLeft (.loop (fun b found hf => ?_) (.nil n)) (.expect _)
  refine .skip (.at? _) fun _ => .ite (fun _ => .pure hf) fun _ => ?_
  exact (h b).bind fun c xs hxs => .pure (hf.append hxs)

theorem quiet_qualifiers : Quiet qualifiers := by
  refine .loop (fun found => .bind .peek fun t => ?_) []
  split
  · exact .ite (.bind .advance fun _ => .pure _) (.pure _)
  · exact .pure _

theorem quiet_forM {α : Type} {f : α → Parser PUnit} (h : ∀ x, Quiet (f x)) (xs : List α) :
    Quiet (xs.forM f) := by
  induction xs with
  | nil => exact .pure _
  | cons x xs ih => exact .bind (h x) fun _ => ih

theorem quiet_mapM {α β : Type} {f : α → Parser β} (h : ∀ x, Quiet (f x)) (xs : List α) :
    Quiet (xs.mapM f) := by
  induction xs with
  | nil => exact .pure _
  | cons x xs ih =>
    rw [List.mapM_cons]
    exact .bind (h x) fun _ => .bind ih fun _ => .pure _

/-! ### Layers -/

namespace Spins

variable {ts us : List Node} {layers more : List (Node → Node)}

theorem nil (a : Nat) : Spins a a [] [] where
  fragment := .nil a
  shared _ := .refl _
  placed _ h _ := h
  isA_decl _ h := h

theorem append (h : Spins a b ts layers) (h' : Spins b c us more) :
    Spins a c (ts ++ us) (layers ++ more) where
  fragment := h.fragment.append h'.fragment
  shared t := by
    rw [applyLayers, List.foldr_append, sharedAll_append, List.append_assoc]
    exact (h.shared _).trans ((h'.shared t).append_left _)
  placed t ht hd := by
    rw [applyLayers, List.foldr_append]
    exact h.placed _ (h'.placed t ht hd) (h'.isA_decl t hd)
  isA_decl t hd := by
    rw [applyLayers, List.foldr_append]
    exact h.isA_decl _ (h'.isA_decl t hd)

/-- One layer, with other parts before and after what it is put around. -/
theorem layer {line : Option Nat} {f : Form} (h : ReadsAll a b (ts ++ us))
    (hf : f.isOrdinary) :
    Spins a b (ts ++ us) [fun inner => nodeAt line f (ts ++ inner :: us)] where
  fragment := h.fragment
  shared t := by
    simpa [applyLayers, nodeAt, shared_mk_none] using
      (List.perm_append_comm_assoc t.shared (sharedAll us) []).append_left (sharedAll ts)
  placed t ht hd := by
    have hts : Placed (ts ++ t :: us) := by
      have hp := h.fragment.placed
      have hus : Placed us := hp.mono (by simp +contextual)
      exact (hp.mono (by simp +contextual)).append (ht.append hus)
    refine hts.node (isPlaced_of_isOrdinary (fun x hx => ?_) hf) (isNested_of_isOrdinary hf)
    rcases List.mem_append.mp hx with hx | hx
    · exact h.isA_decl x (by simp [hx])
    · rcases List.mem_cons.mp hx with rfl | hx
      · exact hd
      · exact h.isA_decl x (by simp [hx])
  isA_decl _ _ := isA_decl_mk hf

end Spins

theorem Layers.nil (a : Nat) : Layers a a [] := ⟨[], .nil a⟩

theorem Layers.append {layers more : List (Node → Node)} (h : Layers a b layers)
    (h' : Layers b c more) : Layers a c (layers ++ more) := by
  obtain ⟨ts, h⟩ := h
  obtain ⟨us, h'⟩ := h'
  exact ⟨ts ++ us, h.append h'⟩

/-- A declarator with one more layer next to its base type. -/
theorem Layers.extend {d : Declarator} {line : Option Nat} {layer : Option Nat → Node → Node}
    (h : Layers a b d.layers) (hl : ∀ l, Layers b c [layer l]) :
    Layers a c (Declarator.extend d line layer).layers := by
  unfold Declarator.extend
  split
  · rename_i hd
    have hnil : d.layers = [] := by simpa using (Bool.and_eq_true_iff.mp hd).1
    simpa [hnil] using h.append (hl line)
  · exact h.append (hl d.line)

/-! ### Declarations from their pieces -/

/-- The base type uses what is shared among the words of the type. -/
theorem yields_baseType {types : List Node} (hp : Placed types)
    (hd : ∀ t ∈ types, t.isA .decl = false) :
    Yields n (baseType types) fun c B => c = n ∧ (∀ u ∈ B.shared, u ∈ sharedAll types) ∧
      Placed [B] ∧ B.isA .decl = false := by
  unfold baseType
  split
  · exact .fail
  · rename_i type
    exact .pure ⟨rfl, by simp, hp, hd type List.mem_cons_self⟩
  · refine .skip (quiet_mapM (fun t => ?_) _) fun names => .pure ⟨rfl, ?_, ?_, rfl⟩
    · split
      · exact .pure _
      · exact .fail
    · exact fun u hu => nomatch hu
    · exact Placed.nil.node (isPlaced_of_isOrdinary (fun _ h => nomatch h) rfl) rfl

/-- A declared type joins the trees that it shares its base type with. -/
theorem yields_declaredType {s : TypeSpecifiers} {d : Declarator} {e : Nat} {us vs : List Node}
    (hs : ∀ t ∈ s.types, t.isA .decl = false) (hus : Fragment a b (s.types ++ us))
    (hd : Layers b c d.layers) (hvs : Fragment c e vs) :
    Yields n (declaredType s d) fun m T => m = n ∧ Fragment a e (s.types ++ us ++ T :: vs) ∧
      T.isA .decl = false := by
  obtain ⟨ts, hd⟩ := hd
  have hall : Fragment a e (s.types ++ us ++ (ts ++ vs)) := hus.append (hd.fragment.append hvs)
  -- Any base type that has nothing new to share will do.
  have hwrap : ∀ B : Node, (∀ u ∈ B.shared, u ∈ sharedAll s.types) → Placed [B] →
      B.isA .decl = false →
      Fragment a e (s.types ++ us ++ applyLayers d.layers
        (nodeAt d.nameLine (.typeDecl d.name s.spec.quals) [B]) :: vs) ∧
      (applyLayers d.layers (nodeAt d.nameLine (.typeDecl d.name s.spec.quals) [B])).isA .decl =
        false := by
    intro B hB hp hB'
    have hT : Placed [nodeAt d.nameLine (.typeDecl d.name s.spec.quals) [B]] :=
      hp.node (isPlaced_of_isOrdinary (by simpa using hB') rfl) rfl
    refine ⟨⟨?_, ?_⟩, hd.isA_decl _ (isA_decl_mk rfl)⟩
    · refine (hall.toDraft.reuse fun u (hu : u ∈ sharedAll [B]) => ?_).regroup ?_
      · have := hB u (by simpa using hu)
        simp [this]
      · rw [List.append_assoc (s.types ++ us), sharedAll_append, sharedAll_append _ (_ :: vs)]
        refine List.Perm.append_left _ (List.Perm.trans ?_ ((hd.shared _).symm.append_right _))
        simp only [nodeAt, shared_mk_none, sharedAll_append, sharedAll_cons, sharedAll_nil,
          List.append_nil, List.append_assoc]
        exact List.perm_append_comm.append_left _
    · exact hus.placed.append ((hd.placed _ hT (isA_decl_mk rfl)).append hvs.placed)
  unfold declaredType
  refine .ite (fun _ => .ite (fun _ => .pure ⟨rfl, ?_⟩) fun _ => .fail) fun _ => ?_
  · exact hwrap _ (fun u hu => absurd hu List.not_mem_nil)
      (Placed.nil.node (isPlaced_of_isOrdinary (by simp) rfl) rfl) rfl
  · refine (yields_baseType (hus.placed.mono (by simp +contextual)) hs).bind fun m B hB => ?_
    obtain ⟨rfl, hsh, hp, hB⟩ := hB
    exact .pure ⟨rfl, hwrap B hsh hp hB⟩

/-- A declaration joins those that share its specifiers. -/
theorem yields_declare {s : TypeSpecifiers} {d : Declarator} {init bitsize : Node} {e : Nat}
    {us : List Node} (hs : ∀ t ∈ s.types, t.isA .decl = false)
    (hus : Fragment a b (s.types ++ us)) (hd : Layers b c d.layers)
    (hv : ReadsAll c e [init, bitsize]) :
    Yields n (declare s d init bitsize) fun m x =>
      m = n ∧ Fragment a e (s.types ++ (us ++ [x])) ∧
        (TypeSpecifiers.isTypedef s = false → x.isA .decl) ∧
          (init = .absent → x.isInitialized = false) := by
  refine (yields_declaredType hs hus hd hv.fragment).bind fun m T hT => ?_
  obtain ⟨rfl, hf, hT⟩ := hT
  have hparts : ∀ x ∈ [T, init, bitsize], x.isA .decl = false := by
    intro x hx
    rcases List.mem_cons.mp hx with rfl | hx
    · exact hT
    · exact hv.isA_decl x hx
  refine .ite (fun ht => .pure ⟨rfl, ?_, fun hn => ?_, fun _ => rfl⟩) fun _ =>
    .pure ⟨rfl, ?_, fun _ => rfl, fun hi => ?_⟩
  · rw [← List.append_assoc]
    have hf' : Fragment a e (s.types ++ us ++ ([T] ++ [])) := hf.sublist (by simp)
    exact hf'.group (isPlaced_of_isOrdinary (by simpa using hT) rfl) rfl
  · rw [ht] at hn
    cases hn
  · rw [← List.append_assoc]
    have hf' : Fragment a e (s.types ++ us ++ ([T, init, bitsize] ++ [])) := by simpa using hf
    exact hf'.group (isPlaced_of_forall hparts nofun nofun) rfl
  · subst hi
    rfl

/-- A declaration with the pieces that were read last. -/
theorem yields_declare_last {s : TypeSpecifiers} {d : Declarator} {init bitsize : Node}
    {us : List Node} (hs : ∀ t ∈ s.types, t.isA .decl = false)
    (hus : Fragment a b (s.types ++ us)) (hd : Layers b c d.layers)
    (hv : ReadsAll c n [init, bitsize]) :
    Yields n (declare s d init bitsize) fun m x => Fragment a m (s.types ++ (us ++ [x])) :=
  (yields_declare hs hus hd hv).mono fun _ _ hx => hx.1 ▸ hx.2.1

/-- A declaration on its own. -/
theorem yields_declare_alone {s : TypeSpecifiers} {d : Declarator} (hs : s.Reads a b)
    (hd : Layers b c d.layers) :
    Yields n (declare s d .absent .absent) fun m x =>
      m = n ∧ Fragment a c [x] ∧ (TypeSpecifiers.isTypedef s = false → x.isA .decl) ∧
        x.isInitialized = false :=
  (yields_declare hs.isA_decl hs.fragment_nil hd (Reads.absent.append Reads.absent)).mono
    fun _ _ hx => ⟨hx.1, hx.2.1.sublist (by simp), hx.2.2.1, hx.2.2.2 rfl⟩

theorem quiet_declareAll (s : TypeSpecifiers) (decls : List Node) : Quiet (declareAll s decls) := by
  refine quiet_forM (fun d => ?_) decls
  split
  · exact .declareName _ _
  · exact .pure _

theorem fragment_bareDeclaration {s : TypeSpecifiers} {type : Node} (h : Fragment a b [type])
    (hd : type.isA .decl = false) : Fragment a b [bareDeclaration s type] := by
  have habsent := Fragment.absent b
  refine (h.append (habsent.append habsent)).node (isPlaced_of_forall ?_ nofun nofun) rfl
  intro x hx
  simp only [List.cons_append, List.nil_append, List.mem_cons, List.not_mem_nil, or_false] at hx
  rcases hx with rfl | rfl | rfl
  · exact hd
  · rfl
  · rfl

/-! ### Declarators -/

theorem yields_pointers :
    Yields n pointers fun b ptrs => b = n ∧ ∀ k, Layers k k (ptrs.map Prod.snd) := by
  refine .loop (fun b found hf => ?_) ⟨rfl, .nil⟩
  refine .skip .peekLine fun line => .skip (.accept _) fun _ => .ite (fun _ => ?_) fun _ =>
    .pure hf
  refine .skip quiet_qualifiers fun quals => .pure ⟨hf.1, fun k => ?_⟩
  have hlayer : Layers k k [fun inner => nodeAt line (.ptrDecl quals) [inner]] :=
    ⟨[], Spins.layer (show ReadsAll k k ([] ++ []) from .nil k) rfl⟩
  exact hlayer.append (hf.2 k)

theorem quiet_atStarDimension : Quiet atStarDimension :=
  .bind (.at? _) fun _ => .ite (.bind .peekSecond fun _ => .pure _) (.pure _)

theorem yields_dimension (hg : g.Sound) :
    Yields n (dimension g) fun b r => Reads n b r.2 := by
  refine .skip (.acceptKeyword _) fun _ => .ite (fun _ => ?_) fun _ => ?_
  · exact .skip quiet_qualifiers fun _ => (yields_assignmentExpression hg).bind fun b x hx =>
      .skip (.expect _) fun _ => .pure hx
  · refine .skip quiet_qualifiers fun quals => .skip (.atKeyword? _) fun _ =>
      .ite (fun _ => ?_) fun _ => .skip (.accept _) fun _ => .ite (fun _ => .pure .absent) fun _ =>
      .skip .peekLine fun _ => .skip quiet_atStarDimension fun _ => .ite (fun _ => ?_) fun _ => ?_
    · exact .skip .advance fun _ => (yields_assignmentExpression hg).bind fun b x hx =>
        .skip (.expect _) fun _ => .pure hx
    · exact .skip (.expect _) fun _ => .skip (.expect _) fun _ => .pure (.leaf rfl)
    · exact (yields_assignmentExpression hg).bind fun b x hx => .skip (.expect _) fun _ => .pure hx

theorem yields_parameter (hg : g.Sound) :
    Yields n (parameter g) fun b x => Fragment n b [x] ∧ x.isInitialized = false := by
  refine (hg.specifiers true n).bind fun b s hs => .ite (fun _ => .fail) fun _ => ?_
  refine (hg.declarator .either b).bind fun c d hd => ?_
  split
  · exact (yields_declare_alone hs hd).mono fun _ _ hx => ⟨hx.1 ▸ hx.2.1, hx.2.2.2⟩
  · refine (yields_declaredType hs.isA_decl hs.fragment_nil hd
      (.nil c)).bind fun m T hT => .pure ?_
    obtain ⟨rfl, hf, hT⟩ := hT
    exact ⟨(hf.sublist (by simp)).node (isPlaced_of_isOrdinary (by simpa using hT) rfl) rfl, rfl⟩

/-- The parameters of a list have no initializers. -/
theorem yields_moreParameters (hg : g.Sound) {first : Node} (h : Fragment a n [first])
    (hi : first.isInitialized = false) : Yields n (moreParameters g first) (Reads a) := by
  refine Yields.bind
    (P := fun b found => Fragment a b found ∧ ∀ c ∈ found, c.isInitialized = false)
    (.loop (fun b found hf => ?_) ⟨h, by simpa using hi⟩) fun b params hp => ?_
  · split
    · exact .pure hf
    · refine .skip (.accept _) fun _ => .ite (fun _ => ?_) fun _ => .pure hf
      refine .skip .peekLine fun line => .skip (.accept _) fun _ => .ite (fun _ => ?_) fun _ => ?_
      · refine .pure ⟨hf.1.append (Reads.leaf rfl).fragment, fun c hc => ?_⟩
        rcases List.mem_append.mp hc with hc | hc
        · exact hf.2 c hc
        · rw [List.mem_singleton.mp hc]
          rfl
      · refine (yields_parameter hg).bind fun c x hx => .pure ⟨hf.1.append hx.1, fun c hc => ?_⟩
        rcases List.mem_append.mp hc with hc | hc
        · exact hf.2 c hc
        · rw [List.mem_singleton.mp hc]
          exact hx.2
  · exact .skip (.expect _) fun _ => .pure (.list hp.1 (fun _ => rfl) rfl fun _ => hp.2)

theorem yields_parameterNames : Yields n parameterNames (Reads n) := by
  unfold parameterNames
  refine Yields.bind (P := ReadsAll n)
    (yields_separated (.nil n) fun b xs hxs => .skip .plainName fun p => ?_)
    fun b xs hxs => .skip (.expect _) fun _ => .pure (hxs.node rfl)
  obtain ⟨text, line⟩ := p
  exact .pure (hxs.append (Reads.leaf rfl))

theorem yields_parameters (hg : g.Sound) (named : Bool) :
    Yields n (parameters g named) (Reads n) := by
  have hmore : Yields n (do moreParameters g (← parameter g)) (Reads n) :=
    (yields_parameter hg).bind fun _ _ hx => yields_moreParameters hg hx.1 hx.2
  refine .skip (.accept _) fun _ => .ite (fun _ => .pure .absent) fun _ => .skip .peek fun t => ?_
  split
  · exact .skip .get fun _ => .ite (fun _ => yields_parameterNames) fun _ => hmore
  · exact hmore

theorem quiet_enterBody (params : Node) : Quiet (enterBody params) := by
  refine .bind (.at? _) fun _ => .ite (.bind .pushScope fun _ => .bind ?_ fun _ => ?_) (.pure _)
  · refine quiet_forM (fun p => ?_) _
    split
    · exact .declareName _ _
    · exact .pure _
  · intro n s x s' hs hr
    cases hr
    exact hs

theorem yields_declaratorTail (hg : g.Sound) {d : Declarator} (h : Layers a n d.layers) :
    Yields n (declaratorTail g d) fun b d => Layers a b d.layers := by
  refine .loop (I := fun b (d : Declarator) => Layers a b d.layers) (fun b d hd => ?_) h
  refine .skip .peekLine fun line => .skip (.accept _) fun _ => .ite (fun _ => ?_) fun _ =>
    .skip (.accept _) fun _ => .ite (fun _ => ?_) fun _ => .pure hd
  · refine (yields_dimension hg).bind fun c r hr => .pure (hd.extend fun l => ?_)
    exact ⟨[r.2], Spins.layer (show ReadsAll _ _ ([] ++ [r.2]) from hr) rfl⟩
  · refine (yields_parameters hg _).bind fun c params hp => ?_
    have hnew : Layers a c (Declarator.extend d line fun l inner =>
        nodeAt l .funcDecl [params, inner]).layers :=
      hd.extend fun l => ⟨[params], Spins.layer (show ReadsAll _ _ ([params] ++ []) from hp) rfl⟩
    exact .ite (fun _ => .skip (quiet_enterBody params) fun _ => .pure hnew) fun _ => .pure hnew

theorem quiet_atParenthesizedDeclarator (naming : Naming) :
    Quiet (atParenthesizedDeclarator naming) := by
  refine .bind (.at? _) fun _ => .ite ?_ (.pure _)
  split
  · exact .pure _
  · exact .bind .peekSecond fun _ => .bind .get fun _ => .pure _

theorem yields_directDeclarator (hg : g.Sound) (naming : Naming) :
    Yields n (directDeclarator g naming) fun b d => Layers n b d.layers := by
  refine .skip (quiet_atParenthesizedDeclarator _) fun _ => .ite (fun _ => ?_) fun _ => ?_
  · exact .skip (.expect _) fun _ => (hg.declarator naming n).bind fun b d hd =>
      .skip (.expect _) fun _ => yields_declaratorTail hg hd
  · refine .skip .peekLine fun line => .skip .peek fun t => ?_
    split
    · exact .skip .advance fun _ => yields_declaratorTail hg (.nil n)
    · exact .skip .advance fun _ => yields_declaratorTail hg (.nil n)
    · exact .fail
    · exact yields_declaratorTail hg (.nil n)

theorem yields_fullDeclarator (hg : g.Sound) (naming : Naming) :
    Yields n (fullDeclarator g naming) fun b d => Layers n b d.layers := by
  refine yields_pointers.bind fun m ptrs hp => ?_
  obtain ⟨rfl, hp⟩ := hp
  refine (yields_directDeclarator hg naming).bind fun b d hd => .pure ?_
  exact hd.append (hp b)

/-! ### Types with members -/

theorem quiet_optionalTag : Quiet optionalTag := by
  refine .bind .peek fun t => ?_
  split
  · exact .bind .advance fun _ => .pure _
  · exact .pure _

/-- One or more declarations that share their specifiers. -/
theorem yields_separated_declarations {s : TypeSpecifiers} {item : Parser Node}
    (hs : s.Reads a n) (h : ∀ b us, Fragment a b (s.types ++ us) →
      Yields b item fun c x => Fragment a c (s.types ++ (us ++ [x]))) :
    Yields n (separated item) (Fragment a) := by
  refine (yields_separated (I := fun b us => Fragment a b (s.types ++ us))
    (by simpa using hs.fragment) h).mono fun b decls hd => hd.sublist ?_
  exact List.sublist_append_right _ _

theorem yields_memberDeclarator (hg : g.Sound) {s : TypeSpecifiers} {us : List Node}
    (hs : ∀ t ∈ s.types, t.isA .decl = false) (hus : Fragment a n (s.types ++ us)) :
    Yields n (memberDeclarator g s) fun b x => Fragment a b (s.types ++ (us ++ [x])) := by
  refine .skip (.accept _) fun _ => .ite (fun _ => ?_) fun _ => ?_
  · exact (yields_conditionalExpression hg).bind fun b x hx =>
      yields_declare_last hs hus (.nil n) (Reads.absent.append hx)
  · refine (hg.declarator .named n).bind fun b d hd => .skip (.accept _) fun _ =>
      .ite (fun _ => ?_) fun _ => ?_
    · exact (yields_conditionalExpression hg).bind fun c x hx =>
        yields_declare_last hs hus hd (Reads.absent.append hx)
    · exact yields_declare_last hs hus hd (Reads.absent.append Reads.absent)

theorem yields_memberDeclaration (hg : g.Sound) :
    Yields n (memberDeclaration g) (Fragment n) := by
  refine .skip .peekLine fun line => .skip .peek fun t => ?_
  split
  · exact .skip .advance fun _ => .pure (Reads.leaf rfl).fragment
  · refine .skip (.accept _) fun _ => .ite (fun _ => .pure (.nil n)) fun _ => ?_
    refine (hg.specifiers false n).bind fun b s hs => .ite (fun _ => .fail) fun _ =>
      .skip (.accept _) fun _ => .ite (fun _ => ?_) fun _ => ?_
    · split
      · rename_i type htypes
        have hs : ReadsAll n b [type] := htypes ▸ hs
        exact .pure (fragment_bareDeclaration hs.fragment (hs.isA_decl type List.mem_cons_self))
      · exact .fail
    · refine (yields_separated_declarations hs fun c us hus =>
        yields_memberDeclarator hg hs.isA_decl hus).bind fun c decls hd => ?_
      exact .skip (.expect _) fun _ => .pure hd

/-- A type with members before its nodes get keys. -/
theorem yields_structure? (hg : g.Sound) {form : Option String → Bool → Form}
    (hl : ∀ tag c i, (form tag c).holdsDecl i) (hd : ∀ tag c, (form tag c).isOrdinary)
    (hs : ∀ tag c ps line, (nodeAt line (form tag c) ps).isSole = false) :
    Yields n (structure? g form) fun b x => Reads n b x ∧ x.isSole = false := by
  refine .skip .peekLine fun line => .skip quiet_optionalTag fun tag => .skip (.accept _) fun _ =>
    .ite (fun _ => ?_) fun _ => .ite (fun _ => ?_) fun _ => .fail
  · refine (yields_itemsUntil _ fun b => yields_memberDeclaration hg).bind fun b xs hxs =>
      .pure ⟨.list hxs (hl tag true) (hd tag true) fun hp => ?_, hs tag true xs line⟩
    -- A type with members is no list of parameters.
    have := isA_of_not_isSole (c := .paramList) (hs tag true xs line) rfl
    simp [nodeAt, isA, cls?, form?, hp] at this
  · exact .pure ⟨.leaf (hd tag false), hs tag false [] line⟩

theorem yields_enumerator (hg : g.Sound) : Yields n (enumerator g) (Reads n) := by
  refine .skip .peekLine fun line => .skip .plainName fun r => .skip (.accept _) fun _ =>
    .ite (fun _ => ?_) fun _ => .pure (Reads.absent.unary rfl)
  exact (yields_conditionalExpression hg).bind fun b x hx => .pure (hx.unary rfl)

theorem yields_enumerators (hg : g.Sound) : Yields n (enumerators g) (Reads n) := by
  unfold enumerators
  refine .skip .peekLine fun line => ?_
  extract_lets entry
  have hentry : ∀ k, Yields k entry (Reads k) := by
    intro k
    refine (yields_enumerator hg).bind fun b e he => ?_
    split
    · exact .skip (.at? _) fun _ => .ite (fun _ => .pure he) fun _ =>
        .skip (.declareName _ _) fun _ => .pure he
    · exact .pure he
  refine (hentry n).bind fun b first hf => ?_
  refine Yields.bind (P := ReadsAll n) (.loop (fun c found hfound => ?_) hf) fun c all hall => ?_
  · refine .skip (.accept _) fun _ => .ite (fun _ => .skip (.at? _) fun _ => .skip (.at? _) fun _ =>
      .ite (fun _ => .pure hfound) fun _ => ?_) fun _ => .pure hfound
    exact (hentry c).bind fun d x hx => .pure (hfound.append hx)
  · refine .skip (.expect _) fun _ => ?_
    dsimp only
    split
    · exact .skip (.declareName _ _) fun _ => .pure (hall.node rfl)
    · exact .pure (hall.node rfl)

theorem yields_enumeration (hg : g.Sound) (line : Option Nat) :
    Yields n (enumeration g line) fun b x => Reads n b x ∧ x.isSole = false := by
  refine .skip quiet_optionalTag fun tag => .skip (.accept _) fun _ => .ite (fun _ => ?_) fun _ =>
    .ite (fun _ => .pure ⟨Reads.absent.unary rfl, rfl⟩) fun _ => .fail
  exact (yields_enumerators hg).bind fun b x hx => .pure ⟨hx.unary rfl, rfl⟩

/-! ### Specifiers -/

/-- A type with members whose nodes have got keys. -/
theorem yields_identify {x : Node} (h : Reads a n x) (hs : x.isSole = false) :
    Yields n (identify x) (Reads a) := by
  refine .get_bind fun s hs' => .set_bind (.pure ?_)
  subst hs'
  exact ⟨⟨h.fragment.toDraft.stamp hs, h.fragment.placed.stamp _⟩, by
    simpa [isA, cls?_stamp] using h.isA_decl⟩

theorem yields_alignment (hg : g.Sound) : Yields n (alignment g) fun b _ => n ≤ b := by
  refine .skip quiet_atParenthesizedType fun _ => .ite (fun _ => ?_) fun _ => ?_
  · exact .skip (.expect _) fun _ => (hg.typeName n).bind fun b x hx =>
      .skip (.expect _) fun _ => .pure hx.le
  · exact .skip (.expect _) fun _ => (hg.conditional n).bind fun b x hx =>
      .skip (.expect _) fun _ => .pure hx.le

theorem readsAll_addType {s : TypeSpecifiers} {type : Node} (h : s.Reads a b)
    (ht : Reads b c type) : TypeSpecifiers.Reads a c (TypeSpecifiers.addType s type) :=
  ReadsAll.append h ht

theorem yields_specifier (hg : g.Sound) (storage : Bool) {s : TypeSpecifiers}
    (h : s.Reads a n) : Yields n (specifier g storage s) fun b o =>
      match o with
      | some s => s.Reads a b
      | none => s.Reads a b := by
  refine .skip .peekLine fun line => .skip .peek fun t => ?_
  split
  · refine .ite (fun _ => .skip .advance fun _ => .pure h) fun _ => .ite (fun _ =>
      .skip .advance fun _ => .pure h) fun _ => .ite (fun _ => .skip .advance fun _ => .pure h)
      fun _ => .ite (fun _ => ?_) fun _ => .ite (fun _ => ?_) fun _ => .ite (fun _ => .pure h)
      fun _ => .ite (fun _ => ?_) fun _ => .ite (fun _ => ?_) fun _ => .ite (fun _ => ?_)
      fun _ => .pure h
    · exact .skip .advance fun _ => (yields_alignment hg).bind fun b _ hb =>
        .pure (ReadsAll.mono h (Nat.le_refl _) hb)
    · exact .skip .advance fun _ => .pure (readsAll_addType h (.leaf rfl))
    · exact .skip .advance fun _ => (yields_structure? hg (fun _ _ _ => rfl) (fun _ _ => rfl)
        fun _ _ _ _ => rfl).bind fun b x hx => (yields_identify hx.1 hx.2).bind fun c y hy =>
        .pure (readsAll_addType h hy)
    · exact .skip .advance fun _ => (yields_structure? hg (fun _ _ _ => rfl) (fun _ _ => rfl)
        fun _ _ _ _ => rfl).bind fun b x hx => (yields_identify hx.1 hx.2).bind fun c y hy =>
        .pure (readsAll_addType h hy)
    · exact .skip .advance fun _ => (yields_enumeration hg line).bind fun b x hx =>
        (yields_identify hx.1 hx.2).bind fun c y hy => .pure (readsAll_addType h hy)
  · exact .skip .get fun _ => .ite (fun _ => .skip .advance fun _ =>
      .pure (readsAll_addType h (.leaf rfl))) fun _ => .pure h
  · exact .pure h

theorem yields_specifiers (hg : g.Sound) (storage : Bool) :
    Yields n (specifiers g storage) (TypeSpecifiers.Reads n) := by
  have hstart : TypeSpecifiers.Reads n n {} := ReadsAll.nil n
  unfold specifiers
  refine Yields.loop (fun b s hs => ?_) hstart
  refine (yields_specifier hg storage hs).mono fun c o ho => ?_
  cases o with
  | none => exact ho
  | some t => exact ho

theorem yields_typeNameRule (hg : g.Sound) : Yields n (typeNameRule g) (Reads n) := by
  refine (yields_specifiers hg _).bind fun b s hs => .ite (fun _ => .fail) fun _ =>
    (yields_fullDeclarator hg _).bind fun c d hd => ?_
  refine (yields_declaredType hs.isA_decl hs.fragment_nil hd
    (.nil c)).bind fun m T hT => .pure ?_
  obtain ⟨rfl, hf, hT⟩ := hT
  have hT : Reads n m T := ⟨hf.sublist (by simp), by simpa using hT⟩
  exact hT.unary rfl

/-! ### Declarations -/

theorem yields_initDeclarator (hg : g.Sound) {s : TypeSpecifiers} {us : List Node}
    (hs : ∀ t ∈ s.types, t.isA .decl = false) (hus : Fragment a n (s.types ++ us)) :
    Yields n (initDeclarator g s) fun b x => Fragment a b (s.types ++ (us ++ [x])) := by
  refine (yields_fullDeclarator hg _).bind fun b d hd => .skip (.accept _) fun _ =>
    .ite (fun _ => ?_) fun _ =>
      yields_declare_last hs hus hd (Reads.absent.append Reads.absent)
  exact (yields_initialValue hg).bind fun c x hx =>
    yields_declare_last hs hus hd (ReadsAll.append hx Reads.absent)

theorem yields_declaredTypeOnly {s : TypeSpecifiers} (hs : s.Reads a n) :
    Yields n (declaredTypeOnly s) (Fragment a) := by
  unfold declaredTypeOnly
  split
  · rename_i type htypes
    have hs : ReadsAll a n [type] := htypes ▸ hs
    exact .ite (fun _ => .pure (fragment_bareDeclaration hs.fragment
      (hs.isA_decl type List.mem_cons_self))) fun _ => .fail
  · exact .fail

theorem yields_declaration (hg : g.Sound) : Yields n (declaration g) (Fragment n) := by
  refine (yields_specifiers hg _).bind fun b s hs => .skip (.accept _) fun _ =>
    .ite (fun _ => yields_declaredTypeOnly hs) fun _ => ?_
  refine (yields_separated_declarations hs fun c us hus =>
    yields_initDeclarator hg hs.isA_decl hus).bind fun c decls hd => ?_
  exact .skip (.expect _) fun _ => .skip (quiet_declareAll s decls) fun _ => .pure hd

end Fieldwise.Parser
