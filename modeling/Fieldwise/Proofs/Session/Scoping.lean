import Fieldwise.Proofs.Session.Outcome
import Fieldwise.Proofs.Session.Worklist

/-!
# What the occurrences of a name mean

The declaration that a name denotes at a node is the innermost one that is in force there: one in
the header of a loop or a function that the node is in, or one of a block that does not come after
the item that the node is in (`Session.Denotes`). What is found by the search for the occurrences of
a binding denotes the declaration of the binding, or comes before it in its block
(`Session.Visited.occurrences_sound`). The latter are found because the search looks at the whole
block of the binding (`Session.decomposeAll_captures`). The declarations are those of variables and
of parameters of functions that are defined, as an enumerator or a type name hides nothing from the
search, and the statements of a case are a block of their own.
-/

namespace Fieldwise

open Node

namespace Session

variable {s : Session} {b : Binding} {name : String} {r p c d item n : Node}
variable {items us vs : List Node}

/-! ### Scopes of declarations -/

/-- A declaration among the items of `p` is in force in a part of `p`: in all of them if it is in
the header of a loop or a function, and in the items of a block that do not come before it. -/
def InForce (p c d : Node) : Prop :=
  ∃ us vs, itemsOf p = us ++ d :: vs ∧ (p.isBlock → c ∈ itemsOf p ∧ c ∉ us)

/-- A part of a block that is no item of it or comes before a declaration. -/
def ComesBefore (p c d : Node) : Prop :=
  p.isBlock ∧ ∃ us vs, itemsOf p = us ++ d :: vs ∧ (c ∈ itemsOf p → c ∈ us)

/-- A block, a loop or a function in which a variable or a parameter of a name was decomposed. -/
def HadBinding (s : Session) (name : String) (c : Node) : Prop :=
  (c.isA .compound ∨ c.isA .forLoop ∨ c.isA .funcDef) ∧ s.isDecomposedIn c name

/-- The part `c` of a node hides what a name means around the node: a declaration of the name is in
force there, or one was in it that is decomposed now. -/
def Hidden (s : Session) (name : String) (p c : Node) : Prop :=
  (∃ d, declares name d ∧ InForce p c d) ∨ s.HadBinding name c

/-- A name means at a node what it means at `item`: from there down nothing hides it. -/
inductive Inherits (s : Session) (name : String) (item : Node) : Node → Prop where
  | here : Inherits s name item item
  | part {p c : Node} : Inherits s name item p → c ∈ p.parts → ¬ s.Hidden name p c →
    Inherits s name item c

/-- A declaration is the innermost one of its name that is in force at a node below `r`. -/
def Denotes (s : Session) (r : Node) (name : String) (d n : Node) : Prop :=
  ∃ p ∈ r.preorder, ∃ item ∈ p.parts, declares name d ∧ InForce p item d ∧ s.Inherits name item n

theorem inForce_or_comesBefore (c : Node) (hd : d ∈ itemsOf p) :
    InForce p c d ∨ ComesBefore p c d := by
  obtain ⟨us, vs, hitems⟩ := List.append_of_mem hd
  by_cases hc : p.isBlock → c ∈ itemsOf p ∧ c ∉ us
  · exact .inl ⟨us, vs, hitems, hc⟩
  · obtain ⟨hblock, hc⟩ := Classical.not_imp.mp hc
    exact .inr ⟨hblock, us, vs, hitems, fun hci => not_not.mp fun hcu => hc ⟨hci, hcu⟩⟩

/-! ### What the search leaves out -/

/-- Once a name is hidden it stays so up to a later item. -/
theorem hiddenAt_true (hc : c ∈ items) (hk : c.key.isSome) : hiddenAt name c true items := by
  induction items with
  | nil => cases hc
  | cons item rest ih =>
    unfold hiddenAt
    rw [Bool.true_or]
    split
    · rfl
    · rename_i hs
      refine ih ((List.mem_cons.mp hc).resolve_left ?_)
      rintro rfl
      exact hs (by simp [Node.same, hk])

/-- A name is hidden at an item that does not come before a declaration of it. -/
theorem hiddenAt_of_declares (hd : declares name d) (hk : c.key.isSome) (hc : c ∈ d :: vs)
    (hu : ∀ i ∈ us, i.same c = false) (hidden : Bool) :
    hiddenAt name c hidden (us ++ d :: vs) := by
  induction us generalizing hidden with
  | nil =>
    rw [List.nil_append]
    unfold hiddenAt
    rw [hd, Bool.or_true]
    split
    · rfl
    · rename_i hs
      refine hiddenAt_true ((List.mem_cons.mp hc).resolve_left ?_) hk
      rintro rfl
      exact hs (by simp [Node.same, hk])
  | cons u us ih =>
    rw [List.cons_append]
    unfold hiddenAt
    rw [hu u List.mem_cons_self]
    exact ih (fun i hi => hu i (List.mem_cons_of_mem _ hi)) _

/-- What the search goes into is not hidden: no binding of the name was decomposed in it, its header
does not declare the name, and no item of a block does up to it. -/
structure Enters (s : Session) (b : Binding) (p c : Node) : Prop where
  recorded : ¬ s.HadBinding b.name c
  header : c.isA .forLoop ∨ c.isA .funcDef → ∀ d ∈ itemsOf c, declares b.name d = false
  block : p.same b.scope = false → p.isBlock → hiddenAt b.name c false (itemsOf p) = false

theorem enters_of_hides (h : s.hides b p c = false) (hs : c.same b.scope = false) :
    s.Enters b p c := by
  unfold hides at h
  rw [if_neg (by simp [hs])] at h
  split at h
  · cases h
  rename_i hrecorded
  split at h
  · cases h
  rename_i hheader
  refine ⟨fun ⟨hc, hr⟩ => ?_, fun hc d hd => ?_, fun hp hblock => ?_⟩
  · exact hrecorded (by simpa [hr, or_assoc] using hc)
  · refine Bool.eq_false_iff.mpr fun hdecl => hheader ?_
    rw [Bool.and_eq_true, Bool.or_eq_true]
    exact ⟨hc, List.any_eq_true.mpr ⟨d, hd, hdecl⟩⟩
  · rwa [if_neg (by simp [hp, hblock])] at h

section

variable [Discipline]

/-- **What the search goes into is not hidden**, below the scope of the binding. -/
theorem Sound.not_hidden (h : s.Sound) (hp : p ∈ preorderAll s.document.trees)
    (hc : c ∈ p.parts) (hcp : c.isPresent) (hscope : p.same b.scope = false)
    (hheader : p.isA .forLoop ∨ p.isA .funcDef → ∀ d ∈ itemsOf p, declares b.name d = false)
    (henters : s.Enters b p c) : ¬ s.Hidden b.name p c := by
  rintro (⟨d, hd, us, vs, hitems, hforce⟩ | hrecorded)
  · have hdm : d ∈ itemsOf p := hitems ▸ by simp
    rcases itemsOf_spec hdm with ⟨hblock, -⟩ | ⟨q, rest, -, hq⟩
    · obtain ⟨hci, hcu⟩ := hforce hblock
      have hcm := mem_preorderAll_of_parts (mem_preorderAll_of_mem hc hcp) hp
      obtain ⟨k, hk⟩ := h.document.woven.exists_key hcm
      have hhidden := henters.block hscope hblock
      rw [hitems, hiddenAt_of_declares hd (by simp [hk]) ?_ fun i hi => ?_] at hhidden
      · cases hhidden
      · exact (List.mem_append.mp (hitems ▸ hci)).resolve_left hcu
      · refine Bool.eq_false_iff.mpr fun hsame => hcu ?_
        simp only [Node.same, Bool.and_eq_true, beq_iff_eq] at hsame
        obtain ⟨j, hj⟩ := Option.isSome_iff_exists.mp hsame.1
        have him := mem_preorderAll_trans
          (mem_preorder_of_itemsOf (hitems ▸ List.mem_append_left _ hi) (isPresent_of_key hj)) hp
        rwa [← h.document.woven.eq_of_key him hcm hsame.2]
    · have := hheader (hq.imp And.left And.left) d hdm
      rw [hd] at this
      cases this
  · exact henters.recorded hrecorded

/-- The body of a function is a block. -/
theorem Sound.isA_body (h : s.Sound) (hp : p ∈ preorderAll s.document.trees) (hf : p.isA .funcDef) :
    p.child .body ∈ p.parts ∧ (p.child .body).isA .compound := by
  obtain ⟨c, hc, hcomp⟩ := (h.document.regular p hp).placed.body hf
  have hbody : p.child .body = c := by
    cases p with
    | absent => cases hf
    | mk m f ps =>
      have hcls : f.cls = .funcDef := by simpa [isA, cls?, form?] using hf
      have hidx : Class.funcDef.slots.idxOf .body = 1 := by decide
      have hc : ps[1]? = some c := hc
      rw [child_mk, hcls, hidx, hc, Option.getD_some]
  rw [hbody]
  exact ⟨List.mem_of_getElem? hc, hcomp⟩

/-- The search starts at no name. -/
theorem Sound.not_isA_searched (h : s.Sound) (hb : s.Bound b) :
    (searched b).isA .ident = false := by
  unfold searched
  cases hparam : b.isParam with
  | true => exact isA_of_ne (h.isA_body (h.scope_mem_trees hb) hparam).2 (by decide)
  | false =>
    have hblock : b.scope.isBlock :=
      (h.knows_of_bound hb).block.resolve_left (by simpa [Binding.isParam] using hparam)
    cases hi : b.scope.isA .ident with
    | false => simpa using hi
    | true =>
      rw [isBlock_of_isA hi] at hblock
      cases hblock

/-- **At what the search comes to the name means what it means** at a part of the scope of the
binding. -/
theorem Sound.inherits_of_mem_search (h : s.Sound) (hb : s.Bound b)
    (hn : n ∈ (searched b).search fun parent n => n.same b.decl || s.hides b parent n) :
    n = searched b ∨ ∃ item ∈ b.scope.parts,
      (item = searched b ∨ ¬ s.HadBinding b.name item) ∧ s.Inherits b.name item n := by
  have hscope := h.scope_mem_trees hb
  have hother : ∀ {x : Node}, x ∈ preorderAll b.scope.parts → x.same b.scope = false := by
    intro x hx
    refine Bool.eq_false_iff.mpr fun hs => ?_
    simp only [Node.same, Bool.and_eq_true, beq_iff_eq] at hs
    obtain ⟨k, hk⟩ := Option.isSome_iff_exists.mp hs.1
    obtain rfl := h.document.woven.eq_of_key (mem_preorderAll_of_parts hx hscope) hscope hs.2
    exact not_mem_preorderAll_parts hx (self_mem_preorder (isPresent_of_key hk))
  suffices hall : ∀ x ∈ (searched b).search fun parent n => n.same b.decl || s.hides b parent n,
      x = searched b ∨ (∃ item ∈ b.scope.parts,
        (item = searched b ∨ ¬ s.HadBinding b.name item) ∧ s.Inherits b.name item x) ∧
        x ∈ preorderAll b.scope.parts ∧
        (x.isA .forLoop ∨ x.isA .funcDef → ∀ d ∈ itemsOf x, declares b.name d = false) from
    (hall n hn).imp_right And.left
  refine search_induction (.inl rfl) fun p hp hpath c hc hcp hprune => .inr ?_
  obtain ⟨-, hhides⟩ := Bool.or_eq_false_iff.mp hprune
  have hps : p ∈ b.scope.preorder := by
    have hpr := mem_preorder_of_mem_search hp
    exact mem_preorder_trans hpr (searched_mem (isPresent_of_preorder hpr))
  have hpt := mem_preorderAll_trans hps hscope
  have hcs : c ∈ preorderAll b.scope.parts := by
    rcases (mem_preorder_iff (isPresent_of_preorder hps)).mp hps with rfl | hps
    · exact mem_preorderAll_of_mem hc hcp
    · exact mem_preorderAll_of_parts (mem_preorderAll_of_mem hc hcp) hps
  have henters := enters_of_hides hhides (hother hcs)
  refine ⟨?_, hcs, henters.header⟩
  rcases hpath with rfl | ⟨⟨item, hitem, hhad, hinherits⟩, hbelow, hheader⟩
  · -- The search starts at the scope, or at the body of the function whose parameter it is.
    cases hparam : b.isParam with
    | false =>
      have hs : searched b = b.scope := by simp [searched, hparam]
      exact ⟨c, hs ▸ hc, .inr henters.recorded, .here⟩
    | true =>
      have hs : searched b = b.scope.child .body := by simp [searched, hparam]
      obtain ⟨hbody, hblock⟩ := h.isA_body hscope hparam
      rw [← hs] at hbody hblock
      refine ⟨searched b, hbody, .inl rfl, .part .here hc (h.not_hidden hpt hc hcp
        (hother (mem_preorderAll_of_mem hbody (isPresent_of_isA hblock))) (fun hcls => ?_) henters)⟩
      rcases hcls with hcls | hcls
      · rw [isA_of_ne hblock (by decide)] at hcls
        cases hcls
      · rw [isA_of_ne hblock (by decide)] at hcls
        cases hcls
  · exact ⟨item, hitem, hhad, .part hinherits hc
      (h.not_hidden hpt hc hcp (hother hbelow) hheader henters)⟩

end

/-- **An occurrence of a binding denotes its declaration or comes before it.** In every session that
decompositions of a program go through, nothing hides the name of a binding between an occurrence
and the part of the scope that it is in. So what declares the name in the scope is what the
occurrence denotes, unless it comes after that part. -/
theorem Visited.occurrences_sound (hv : Visited s) (hb : s.Bound b) (hn : n ∈ s.occurrences b) :
    n.form? = some (.ident b.name) ∧ s.document.isLabel n = false ∧
    ∃ item ∈ b.scope.parts, (item = searched b ∨ ¬ s.HadBinding b.name item) ∧
      s.Inherits b.name item n ∧
      ∀ d ∈ itemsOf b.scope, declares b.name d →
        s.Denotes b.scope b.name d n ∨ ComesBefore b.scope item d := by
  let _ : Discipline := ⟨False, False⟩
  have hs := hv.sound ⟨id, id⟩
  obtain ⟨hsearch, hform⟩ := List.mem_filter.mp hn
  simp only [Bool.and_eq_true, beq_iff_eq, Bool.not_eq_eq_eq_not, Bool.not_true] at hform
  refine ⟨hform.1, hform.2, ?_⟩
  rcases hs.inherits_of_mem_search hb hsearch with rfl | ⟨item, hitem, hhad, hinherits⟩
  · have := hs.not_isA_searched hb
    simp [isA, cls?, hform.1, Form.cls] at this
  · refine ⟨item, hitem, hhad, hinherits, fun d hd hdecl => ?_⟩
    refine (inForce_or_comesBefore item hd).imp_left fun hforce => ?_
    exact ⟨b.scope, self_mem_preorder (isPresent_of_mem_parts hitem), item, hitem, hdecl, hforce,
      hinherits⟩

/-- A variable that has another meaning in an inner block. -/
def redeclared : String :=
  "struct S \x7bint v;\x7d; " ++
    "void f(int c) \x7b struct S x; \x7b int x; x = c; \x7d while (c) x.v = 1; \x7d"

theorem Visited.occurrences_sound_redeclared : ∃ s b n, firstSearch redeclared = some (s, b) ∧
    s.occurrences b = [n] ∧
    ∃ item ∈ b.scope.parts, (item = searched b ∨ ¬ s.HadBinding b.name item) ∧
      s.Inherits b.name item n ∧
      ∀ d ∈ itemsOf b.scope, declares b.name d →
        s.Denotes b.scope b.name d n ∨ ComesBefore b.scope item d := by
  have h : (firstSearch redeclared).any (fun r => (r.1.occurrences r.2).length == 1) = true := by
    decide +kernel
  obtain ⟨⟨s, b⟩, hf, h⟩ := (Option.any_eq_true _ _).mp h
  obtain ⟨n, hn⟩ := List.length_eq_one_iff.mp (beq_iff_eq.mp h)
  obtain ⟨hs, hb⟩ := firstSearch_spec hf
  exact ⟨s, b, n, hf, hn, (hs.occurrences_sound hb (hn ▸ List.mem_cons_self)).2.2⟩

/-- A use of a variable in a block that declares another one of its name afterwards. -/
def captured : String :=
  "struct S \x7bint a;\x7d; union U \x7bint a;\x7d x; " ++
    "void f(void) \x7b x.a = 1; struct S x; x.a = 2; \x7d"

/-- The use before the declaration is rewritten as well, although the variable that it denotes is
still declared. -/
theorem decomposeAll_captures : ∃ s t, finished captured = some (s, t) ∧
    (∃ body ∈ s.document.root.preorder, body.isA .compound ∧
      body.parts[0]?.any (fun use => use.preorder.any (·.form? == some (.ident "x"))) ∧
      body.parts[1]?.any (declares "x")) ∧
    (∃ d ∈ itemsOf t.document.root, declares "x" d) ∧
    ∀ n ∈ t.document.root.preorder, n.form? ≠ some (.ident "x") := by
  obtain ⟨s, t, hst, h⟩ := exists_finished captured (fun s t =>
    (s.document.root.preorder.any fun body => body.isA .compound &&
      (body.parts[0]?.any (fun use => use.preorder.any (·.form? == some (.ident "x"))) &&
      body.parts[1]?.any (declares "x"))) &&
    ((itemsOf t.document.root).any (declares "x") &&
      t.document.root.preorder.all fun n => n.form? != some (.ident "x"))) (by decide +kernel)
  simp only [Bool.and_eq_true, List.any_eq_true, List.all_eq_true, bne_iff_ne] at h
  exact ⟨s, t, hst, by simpa using h.1, h.2⟩

end Session

end Fieldwise
