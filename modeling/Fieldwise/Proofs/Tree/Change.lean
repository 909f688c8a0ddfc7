import Fieldwise.Proofs.Tree.Regular

/-!
# Kinds of changes

What the parts of a node are replaced by in an edit: some of them are left out and new nodes are put
in (`Node.graft_fresh`), one of them is put into a block with new nodes (`Node.graft_wrap`), or a
type is kept of a declaration that is left out (`Node.graft_bare`).

`Node.Calm` adds that a new node has an old one as a part only in the last two cases.
-/

namespace Fieldwise.Node

variable {next : Nat} {P : Node} {ts us vs new : List Node}

/-- New nodes have no old parts, but for blocks around statements and declarations of types. -/
def Calm (next : Nat) (P' : Node) : Prop :=
  ∀ y ∈ preorderAll P'.parts, ¬ IsOld next y → ∀ c ∈ y.parts, IsOld next c →
    (y.isA .compound ∨ y.isA .decl) ∧ c.isA .decl = false

/-- Nodes that get keys have new ones. -/
theorem not_isOld_stampAll (hn : Keyless new) {y : Node}
    (hy : y ∈ preorderAll (stampAll next new).1) : ¬ IsOld next y := by
  rintro ⟨j, hj, hlt⟩
  rcases occurs_stampAll ⟨y, hy, hj⟩ with h | h
  · rw [sharedAll_of_keyless hn] at h
    exact not_occurs_nil h
  · omega

theorem knit_stampAll_keyless (next : Nat) (hn : Keyless new) : Knit (stampAll next new).1 := by
  have hs : sharedAll new ++ [] = [] := by rw [sharedAll_of_keyless hn, List.append_nil]
  have hknit : Knit (sharedAll new ++ []) := by rw [hs]; exact .nil
  have hb : ∀ k, Occurs k (sharedAll new ++ []) → k < next := by
    rw [hs]
    exact fun k hk => (not_occurs_nil hk).elim
  have := hknit.stampAll hb
  rwa [List.append_nil] at this

/-- Knit trees with new nodes among them. -/
theorem Knit.insert_stampAll (h : Knit (us ++ vs)) (hb : ∀ x ∈ preorderAll (us ++ vs), IsOld next x)
    (hn : Keyless new) : Knit (us ++ (Node.stampAll next new).1 ++ vs) := by
  refine ((h.append (knit_stampAll_keyless next hn) ?_).perm ?_)
  · rintro k ⟨x, hx, hk⟩ ⟨y, hy, hk'⟩
    obtain ⟨j, hj, hlt⟩ := hb x hx
    exact not_isOld_stampAll hn hy ⟨k, hk', by simp_all⟩
  · rw [List.append_assoc, List.append_assoc]
    exact List.perm_append_comm.append_left us

section

variable (hw : Woven ts) (hb : ∀ x ∈ preorderAll ts, IsOld next x) (hP : P ∈ preorderAll ts)
include hw hb hP

omit hw in
theorem isOld_of_mem_parts {x : Node} (hx : x ∈ preorderAll P.parts) : IsOld next x :=
  hb x (mem_preorderAll_of_parts hx hP)

/-- Some parts are left out, and new nodes are put in. -/
theorem graft_fresh (hs : (us ++ vs).Sublist P.parts) (hn : Keyless new) :
    Graft next P (P.withParts (us ++ (stampAll next new).1 ++ vs)) ∧
      Calm next (P.withParts (us ++ (stampAll next new).1 ++ vs)) := by
  have hpres : P.isPresent := by
    obtain ⟨j, hj⟩ := hw.exists_key hP
    exact isPresent_of_key hj
  have hparts := parts_withParts hpres (us ++ (stampAll next new).1 ++ vs)
  have hold : ∀ x ∈ preorderAll (us ++ vs), IsOld next x := fun x hx => by
    obtain ⟨t, ht, hx⟩ := mem_preorderAll.mp hx
    exact isOld_of_mem_parts hb hP (mem_preorderAll.mpr ⟨t, hs.subset ht, hx⟩)
  -- A node among the new parts is new, or it was below an old one.
  have hsplit : ∀ y ∈ preorderAll (us ++ (stampAll next new).1 ++ vs),
      y ∈ preorderAll (stampAll next new).1 ∨ ∃ t ∈ us ++ vs, y ∈ t.preorder := by
    intro y hy
    obtain ⟨t, ht, hy⟩ := mem_preorderAll.mp hy
    simp only [List.mem_append] at ht ⊢
    rcases ht with (ht | ht) | ht
    · exact .inr ⟨t, .inl ht, hy⟩
    · exact .inl (mem_preorderAll.mpr ⟨t, ht, hy⟩)
    · exact .inr ⟨t, .inr ht, hy⟩
  have hnew : ∀ y ∈ preorderAll (us ++ (stampAll next new).1 ++ vs), ¬ IsOld next y →
      ∀ c ∈ y.parts, ¬ IsOld next c := by
    intro y hy hyn c hc ho
    rcases hsplit y hy with hy | ⟨t, ht, hy⟩
    · refine not_isOld_stampAll hn (mem_preorderAll_trans ?_ hy) ho
      obtain ⟨j, hj, -⟩ := ho
      exact mem_preorder_of_mem_parts hc (self_mem_preorder (isPresent_of_key hj))
    · exact hyn (hold y (mem_preorderAll.mpr ⟨t, ht, hy⟩))
  refine ⟨⟨key_withParts _ _, cls?_withParts _ _, ?_, ?_, ?_, ?_⟩, ?_⟩
  · rw [hparts]
    exact ((hw.parts hP).mono hs).insert_stampAll hold hn
  · rw [hparts]
    intro y hy ho
    rcases hsplit y hy with hy | ⟨t, ht, hy⟩
    · exact (not_isOld_stampAll hn hy ho).elim
    · exact mem_preorderAll.mpr ⟨t, hs.subset ht, hy⟩
  · rw [hparts]
    intro c hc ho
    simp only [List.mem_append] at hc
    rcases hc with (hc | hc) | hc
    · exact hs.subset (List.mem_append_left _ hc)
    · obtain ⟨j, hj, -⟩ := id ho
      exact (not_isOld_stampAll hn (mem_preorderAll_of_mem hc (isPresent_of_key hj)) ho).elim
    · exact hs.subset (List.mem_append_right _ hc)
  · rw [hparts]
    exact fun y hy hyn c hc ho _ => (hnew y hy hyn c hc ho).elim
  · rw [Calm, hparts]
    exact fun y hy hyn c hc ho => (hnew y hy hyn c hc ho).elim

/-- Some parts are left out, and a new node is put in that may have old parts. -/
theorem graft_node {bs : List Node} {f : Form} (hs : (us ++ vs).Sublist P.parts)
    (hf : f.cls = .compound ∨ f.cls = .decl) (hknit : Knit (bs ++ (us ++ vs)))
    (hbs : ∀ y ∈ preorderAll bs, y ∈ preorderAll P.parts ∨
      ¬ IsOld (next + 1) y ∧ ∀ c ∈ y.parts, ¬ IsOld next c)
    (htop : ∀ c ∈ bs, IsOld next c → c.isA .decl = false ∧ (c.isSole → c ∈ P.parts)) :
    Graft next P (P.withParts (us ++ [.mk ⟨some next, none⟩ f bs] ++ vs)) ∧
      Calm next (P.withParts (us ++ [.mk ⟨some next, none⟩ f bs] ++ vs)) := by
  have hpres : P.isPresent := by
    obtain ⟨j, hj⟩ := hw.exists_key hP
    exact isPresent_of_key hj
  have hparts := parts_withParts hpres (us ++ [.mk ⟨some next, none⟩ f bs] ++ vs)
  have hself : ¬ IsOld next (.mk ⟨some next, none⟩ f bs) := by
    rintro ⟨j, hj, hlt⟩
    obtain rfl : next = j := by simpa [key, mark] using hj
    omega
  have hold : ∀ t ∈ us ++ vs, ∀ y ∈ t.preorder, y ∈ preorderAll P.parts := fun t ht y hy =>
    mem_preorderAll.mpr ⟨t, hs.subset ht, hy⟩
  -- A node among the new parts is the new node, below it, or it was below an old part.
  have hsplit : ∀ y ∈ preorderAll (us ++ [.mk ⟨some next, none⟩ f bs] ++ vs),
      y = .mk ⟨some next, none⟩ f bs ∨ y ∈ preorderAll bs ∨ y ∈ preorderAll P.parts := by
    intro y hy
    obtain ⟨t, ht, hy⟩ := mem_preorderAll.mp hy
    simp only [List.mem_append, List.mem_singleton] at ht
    rcases ht with (ht | rfl) | ht
    · exact .inr (.inr (hold t (List.mem_append_left _ ht) y hy))
    · rcases (mem_preorder_iff rfl).mp hy with rfl | hy
      · exact .inl rfl
      · exact .inr (.inl hy)
    · exact .inr (.inr (hold t (List.mem_append_right _ ht) y hy))
  refine ⟨⟨key_withParts _ _, cls?_withParts _ _, ?_, ?_, ?_, ?_⟩, ?_⟩
  · rw [hparts]
    refine (hknit.node fun hk => ?_).perm (by simpa using List.perm_middle.symm)
    obtain ⟨x, hx, hxk⟩ := hk
    rcases mem_preorderAll_append.mp hx with hx | hx
    · rcases hbs x hx with hx | ⟨hx, -⟩
      · obtain ⟨j, hj, hlt⟩ := isOld_of_mem_parts hb hP hx
        obtain rfl : next = j := by simpa [hxk] using hj
        omega
      · exact hx ⟨next, hxk, Nat.lt_succ_self _⟩
    · obtain ⟨t, ht, hx⟩ := mem_preorderAll.mp hx
      obtain ⟨j, hj, hlt⟩ := isOld_of_mem_parts hb hP (hold t ht x hx)
      obtain rfl : next = j := by simpa [hxk] using hj
      omega
  · rw [hparts]
    intro y hy ho
    rcases hsplit y hy with rfl | hy | hy
    · exact (hself ho).elim
    · refine (hbs y hy).resolve_right fun hyn => hyn.1 ?_
      obtain ⟨j, hj, hlt⟩ := ho
      exact ⟨j, hj, Nat.lt_succ_of_lt hlt⟩
    · exact hy
  · rw [hparts]
    intro c hc ho
    simp only [List.mem_append, List.mem_singleton] at hc
    rcases hc with (hc | rfl) | hc
    · exact hs.subset (List.mem_append_left _ hc)
    · exact (hself ho).elim
    · exact hs.subset (List.mem_append_right _ hc)
  · rw [hparts]
    intro y hy hyn c hc ho hsole
    rcases hsplit y hy with rfl | hy | hy
    · exact (htop c hc ho).2 hsole
    · rcases hbs y hy with hy | hy
      · exact (hyn (isOld_of_mem_parts hb hP hy)).elim
      · exact (hy.2 c hc ho).elim
    · exact (hyn (isOld_of_mem_parts hb hP hy)).elim
  · rw [Calm, hparts]
    intro y hy hyn c hc ho
    rcases hsplit y hy with rfl | hy | hy
    · exact ⟨hf.imp (fun h => by simp [isA, cls?, form?, h]) fun h => by simp [isA, cls?, form?, h],
        (htop c hc ho).1⟩
    · rcases hbs y hy with hy | hy
      · exact (hyn (isOld_of_mem_parts hb hP hy)).elim
      · exact (hy.2 c hc ho).elim
    · exact (hyn (isOld_of_mem_parts hb hP hy)).elim

/-- A part is put into a block with new nodes around it. -/
theorem graft_wrap {n : Node} {bs : List Node} (hs : P.parts = us ++ n :: vs)
    (hd : n.isA .decl = false) (hn : Keyless new)
    (hbs : bs.Perm (n :: (stampAll (next + 1) new).1)) :
    Graft next P (P.withParts (us ++ [.mk ⟨some next, none⟩ .compound bs] ++ vs)) ∧
      Calm next (P.withParts (us ++ [.mk ⟨some next, none⟩ .compound bs] ++ vs)) := by
  have hmem : ∀ c ∈ bs, c = n ∨ c ∈ (stampAll (next + 1) new).1 := fun c hc =>
    List.mem_cons.mp (hbs.subset hc)
  have hfresh : ∀ y ∈ preorderAll (stampAll (next + 1) new).1, ¬ IsOld next y := fun y hy ho => by
    obtain ⟨j, hj, hlt⟩ := ho
    exact not_isOld_stampAll hn hy ⟨j, hj, Nat.lt_succ_of_lt hlt⟩
  refine graft_node hw hb hP ?_ (.inl rfl) ?_ (fun y hy => ?_) fun c hc ho => ?_
  · rw [hs]
    exact List.Sublist.append_left (List.sublist_cons_self _ _) _
  · have hold : ∀ x ∈ preorderAll (us ++ n :: vs), IsOld (next + 1) x := fun x hx => by
      obtain ⟨j, hj, hlt⟩ := isOld_of_mem_parts hb hP (hs ▸ hx)
      exact ⟨j, hj, Nat.lt_succ_of_lt hlt⟩
    have hk : Knit (us ++ n :: vs) := hs ▸ hw.parts hP
    refine (hk.insert_stampAll hold hn).perm (List.perm_middle.trans ?_)
    refine List.Perm.trans (.cons n ?_) (hbs.symm.append_right _)
    rw [List.append_assoc]
    exact List.perm_append_comm_assoc _ _ _
  · obtain ⟨c, hc, hy⟩ := mem_preorderAll.mp hy
    rcases hmem c hc with rfl | hc
    · exact .inl (mem_preorderAll.mpr ⟨c, by rw [hs]; simp, hy⟩)
    · have hy : y ∈ preorderAll (stampAll (next + 1) new).1 := mem_preorderAll.mpr ⟨c, hc, hy⟩
      refine .inr ⟨not_isOld_stampAll hn hy, fun c' hc' ho => hfresh c' ?_ ho⟩
      obtain ⟨j, hj, -⟩ := ho
      exact mem_preorderAll_trans
        (mem_preorder_of_mem_parts hc' (self_mem_preorder (isPresent_of_key hj))) hy
  · rcases hmem c hc with rfl | hc
    · exact ⟨hd, fun _ => by rw [hs]; simp⟩
    · obtain ⟨j, hj, -⟩ := id ho
      exact (hfresh c (mem_preorderAll_of_mem hc (isPresent_of_key hj)) ho).elim

/-- A type with members is kept of a declaration that is left out. -/
theorem graft_bare {n T : Node} {f : Form} (hs : P.parts = us ++ n :: vs) (hf : f.cls = .decl)
    (hT : T ∈ n.preorder) (hTs : T.isSole = false) :
    Graft next P (P.withParts (us ++ [.mk ⟨some next, none⟩ f [T, .absent, .absent]] ++ vs)) ∧
      Calm next (P.withParts
        (us ++ [.mk ⟨some next, none⟩ f [T, .absent, .absent]] ++ vs)) := by
  have hTP : T ∈ preorderAll P.parts := mem_preorderAll.mpr ⟨n, by rw [hs]; simp, hT⟩
  have hsub : (us ++ vs).Sublist P.parts := by
    rw [hs]
    exact List.Sublist.append_left (List.sublist_cons_self _ _) _
  have hmem : ∀ y ∈ preorderAll [T, .absent, .absent], y ∈ T.preorder := by
    intro y hy
    obtain ⟨t, ht, hyt⟩ := mem_preorderAll.mp hy
    simp only [List.mem_cons, List.not_mem_nil, or_false] at ht
    rcases ht with rfl | rfl | rfl
    · exact hyt
    · exact (not_mem_preorder_absent hyt).elim
    · exact (not_mem_preorder_absent hyt).elim
  refine graft_node hw hb hP hsub (.inr hf) ?_ (fun y hy => ?_) fun c hc ho => ?_
  · have hk := (hw.knit_cons hP hsub hTP hTs).absent.absent
    show Knit (T :: .absent :: .absent :: (us ++ vs))
    exact hk.perm (List.Perm.trans (.cons _ (.swap _ _ _)) (.swap _ _ _))
  · exact .inl (mem_preorderAll_trans (hmem y hy) hTP)
  · simp only [List.mem_cons, List.not_mem_nil, or_false] at hc
    rcases hc with rfl | rfl | rfl
    · refine ⟨isA_of_not_isSole hTs rfl, fun hs => ?_⟩
      rw [hTs] at hs
      cases hs
    · exact ⟨rfl, fun hs => by cases hs⟩
    · exact ⟨rfl, fun hs => by cases hs⟩

end

/-! ### What regularity depends on -/

/-- What can be left out anywhere: no declaration, no function declarator and no block. -/
structure IsLoose (n : Node) : Prop where
  decl : n.isA .decl = false
  func : n.isA .funcDecl = false
  block : n.isA .compound = false

/-- What can be put in the place of such a node without harm: no declaration, no function
declarator, no list of arguments and no name of the assignment operator. -/
structure IsInner (n : Node) : Prop where
  decl : n.isA .decl = false
  func : n.isA .funcDecl = false
  exprs : n.isA .exprList = false
  ident : n.identName? ≠ some "operator="

/-- A node that looks like another one but for its keys can stand where it can. -/
theorem isInner_stamp {n : Node} (h : n.IsInner) (a : Nat) : (n.stamp a).1.IsInner where
  decl := by rw [isA, cls?_stamp]; exact h.decl
  exprs := by rw [isA, cls?_stamp]; exact h.exprs
  ident := by rw [identName?_congr (form?_stamp a n)]; exact h.ident
  func := by rw [isA, cls?_stamp]; exact h.func

theorem exprCount?_of_isA {n : Node} (h : n.isA .exprList = false) : n.exprCount? = none := by
  simp [exprCount?, h]

/-- In a list that holds declarations, all places hold them. -/
theorem holdsDecl_of_le {f : Form} {i j : Nat} (h : f.holdsDecl i)
    (hi : f.cls.slots.length ≤ i) (hj : f.cls.slots.length ≤ j) : f.holdsDecl j := by
  cases f with
  | caseLabel =>
    have hj : 1 ≤ j := hj
    simp only [Form.holdsDecl, bne_iff_ne]
    omega
  | funcDef =>
    have hj : 2 ≤ j := hj
    simp only [Form.holdsDecl, bne_iff_ne]
    omega
  | compound | declList | defaultLabel | file | paramList | structType _ _ | unionType _ _ => rfl
  | _ => cases h

/-- In a list that statements stand in, they stand at all places. -/
theorem holdsStatement_of_le {f : Form} {i j : Nat} (h : f.holdsStatement i ∨ f.isBranch i)
    (hl : f.cls.listSlot.isSome) (hi : f.cls.slots.length ≤ i) (hj : f.cls.slots.length ≤ j) :
    f.holdsStatement j ∨ f.isBranch j := by
  cases f with
  | caseLabel =>
    have hj : 1 ≤ j := hj
    simp only [Form.holdsStatement, bne_iff_ne]
    omega
  | funcDef =>
    have hi : 2 ≤ i := hi
    simp only [Form.holdsStatement, Form.isBranch, beq_iff_eq, Bool.false_eq_true, or_false] at h
    omega
  | compound | defaultLabel => exact .inl rfl
  | _ => first | (cases hl; done) | exact (h.elim nofun nofun : False).elim

/-- When a part gave way to another one, any part is the new one or was at its place before. -/
theorem getElem?_of_set {n x c : Node} {i : Nat} (hc : (us ++ [n] ++ vs)[i]? = some c) :
    i = us.length ∧ c = n ∨ (us ++ x :: vs)[i]? = some c := by
  rcases Nat.lt_trichotomy i us.length with hi | rfl | hi
  · right
    rw [List.append_assoc, List.getElem?_append_left hi] at hc
    rwa [List.getElem?_append_left hi]
  · exact .inl ⟨rfl, by simpa using hc.symm⟩
  · right
    obtain ⟨j, rfl⟩ := Nat.exists_eq_add_of_lt hi
    rw [List.append_assoc, List.getElem?_append_right (by omega)] at hc
    rw [List.getElem?_append_right (by omega)]
    simpa [show us.length + j + 1 - us.length = j + 1 by omega] using hc

/-- A declaration that has an initializer after that had one before. -/
theorem isInitialized_of_set {n x : Node} {m : Mark} {f : Form} (hx : x.isPresent)
    (h : (mk m f (us ++ [n] ++ vs)).isInitialized) : (mk m f (us ++ x :: vs)).isInitialized := by
  rw [isInitialized, Bool.and_eq_true, child_mk] at h ⊢
  refine ⟨h.1, ?_⟩
  cases hc : (us ++ [n] ++ vs)[f.cls.slots.idxOf .init]? with
  | none =>
    rw [hc] at h
    cases h.2
  | some c =>
    rcases getElem?_of_set (x := x) hc with ⟨hlen, -⟩ | hold
    · rw [hlen]
      simpa using hx
    · rw [hold, ← hc]
      exact h.2

section

variable [Discipline]

/-- A single child gives way to another one, which is no statement or stands where one can. -/
theorem tame_set {x n : Node} (hP : P.IsRegular) (hs : P.parts = us ++ x :: vs)
    (hx : x.IsLoose) (hxp : x.isPresent) (hn : n.IsInner)
    (hst : Discipline.sorted → n.isStatement → ∀ f, P.form? = some f →
      f.holdsStatement us.length ∨ f.isBranch us.length)
    (hfresh : ∀ y ∈ preorderAll (us ++ [n] ++ vs), ¬ IsOld next y → y.IsRegular) :
    Tame next ts P (P.withParts (us ++ [n] ++ vs)) := by
  cases P with
  | absent => simp [Node.parts] at hs
  | mk m f ps =>
    obtain rfl : ps = us ++ x :: vs := hs
    have hfunc : (us ++ [n] ++ vs).map (·.isA .funcDecl) =
        (us ++ x :: vs).map (·.isA .funcDecl) := by
      simp [hx.func, hn.func]
    have hat : ∀ (i : Nat) (c : Node), (us ++ [n] ++ vs)[i]? = some c →
        i = us.length ∧ c = n ∨ (us ++ x :: vs)[i]? = some c := fun _ _ => getElem?_of_set
    have hkept : ∀ (i : Nat) (c : Node), (us ++ x :: vs)[i]? = some c →
        c = x ∨ (us ++ [n] ++ vs)[i]? = some c := fun i c hc => by
      have hold : (us ++ [x] ++ vs)[i]? = some c := by simpa using hc
      simpa using (getElem?_of_set (x := n) hold).imp_left And.right
    -- The declaration that a function definition begins with is not what was left out.
    have hhead : f.cls = .funcDef → ∃ c, (us ++ [n] ++ vs)[0]? = some c ∧
        (us ++ x :: vs)[0]? = some c ∧ c.isA .decl := fun hf => by
      obtain ⟨c, hc, hd⟩ := (isPlaced_mk.mp hP.placed).2.2.1 hf
      rcases hkept 0 c hc with rfl | hc'
      · rw [hx.decl] at hd
        cases hd
      · exact ⟨c, hc', hc, hd⟩
    have htypes : ((mk m f (us ++ x :: vs)).withParts (us ++ [n] ++ vs)).declaresFunction =
        (mk m f (us ++ x :: vs)).declaresFunction := declaresFunction_congr hfunc
    refine ⟨rfl, fun h => htypes ▸ h, fun _ => htypes, head?_congr fun hf => ?_, .inl ?_,
      isInitialized_of_set hxp, ?_, hfresh⟩
    · obtain ⟨c, hc, hc', -⟩ := hhead hf
      rw [hc, hc']
      exact ⟨rfl, rfl⟩
    · exact exprCount?_congr rfl (by simp [withParts, Node.parts])
    · refine ⟨isPlaced_mk.mpr ⟨fun i c hc hd => ?_, fun _ => by simp, fun hf => ?_,
        fun hf c hc => ?_, fun hf => ?_⟩, fun hs hcall a ha k hk => ?_, fun hs hf d hd => ?_,
        fun hs f' hf' i c hc hcs => ?_⟩
      · rcases hat i c hc with ⟨-, rfl⟩ | hc
        · rw [hn.decl] at hd
          cases hd
        · exact (isPlaced_mk.mp hP.placed).1 i c hc hd
      · obtain ⟨c, hc, -, hd⟩ := hhead hf
        exact ⟨c, hc, hd⟩
      · obtain ⟨i, hi⟩ := List.getElem?_of_mem hc
        rcases hat i c hi with ⟨-, rfl⟩ | hi
        · exact isInitialized_of_isA hn.decl
        · exact (isPlaced_mk.mp hP.placed).2.2.2.1 hf c (List.mem_of_getElem? hi)
      · obtain ⟨c, hc, hd⟩ := (isPlaced_mk.mp hP.placed).2.2.2.2 hf
        rcases hkept 1 c hc with rfl | hc'
        · rw [hx.block] at hd
          cases hd
        · exact ⟨c, hc', hd⟩
      · rcases List.getElem?_of_mem ha with ⟨i, hi⟩
        rcases hat i a hi with ⟨-, rfl⟩ | hi
        · rw [exprCount?_of_isA hn.exprs] at hk
          cases hk
        · refine hP.call hs ?_ a (List.mem_of_getElem? hi) k hk
          obtain ⟨hff, c, hc, hcn⟩ := callName?_eq_some.mp hcall
          rcases hat 0 c hc with ⟨-, rfl⟩ | hc
          · exact (hn.ident hcn).elim
          · exact callName?_eq_some.mpr ⟨hff, c, hc, hcn⟩
      · obtain ⟨c, hc, hc', -⟩ := hhead (by simpa [withParts, isA, cls?, form?] using hf)
        have hcd : c = d := Option.some.inj (hc.symm.trans hd)
        exact hP.head hs hf d (hcd ▸ hc')
      · rcases hat i c hc with ⟨rfl, rfl⟩ | hc
        · exact hst hs hcs f' hf'
        · exact hP.sorted hs f' hf' i c hc hcs

/-- Entries of a list give way to others. -/
theorem tame_list {ws : List Node} (hP : P.IsRegular) (hs : P.parts = us ++ ws ++ vs)
    (hl : ∀ f, P.form? = some f → f.cls.listSlot.isSome ∧ f.cls.slots.length ≤ us.length)
    (hd : (∀ c ∈ new, c.isA .decl = false) ∨ (∀ f, P.form? = some f → f.holdsDecl us.length) ∧
      (P.isA .paramList → ∀ c ∈ new, c.isInitialized = false))
    (hargs : P.isA .exprList = false ∨
      ∀ q ∈ preorderAll ts, P ∈ q.parts → q.callName? ≠ some "operator=")
    (hst : Discipline.sorted → ∀ c ∈ new, c.isStatement = false)
    (hfresh : ∀ y ∈ preorderAll (us ++ new ++ vs), ¬ IsOld next y → y.IsRegular) :
    Tame next ts P (P.withParts (us ++ new ++ vs)) := by
  cases P with
  | absent =>
    refine ⟨rfl, id, fun _ => rfl, rfl, .inl rfl, id, hP, fun y hy => nomatch hy⟩
  | mk m f ps =>
    obtain rfl : ps = us ++ ws ++ vs := hs
    obtain ⟨hlist, hlen⟩ := hl f rfl
    have hcls : ∀ c : Class, c.listSlot = none → (mk m f (us ++ ws ++ vs)).isA c = false := by
      intro c hc
      cases hf : (mk m f (us ++ ws ++ vs)).isA c with
      | false => rfl
      | true =>
        have : f.cls = c := by simpa [isA, cls?, form?] using hf
        rw [this, hc] at hlist
        cases hlist
    have hnd : ∀ qs : List Node, (mk m f qs).isA .decl = false := fun qs => by
      simpa [isA, cls?, form?] using hcls .decl rfl
    have hdecl : ∀ qs : List Node, (mk m f qs).declaresFunction = false := fun qs =>
      declaresFunction_of_isA (hnd qs)
    have hhead : ∀ {qs rs : List Node} {i : Nat} {c : Node}, i < us.length →
        (us ++ qs ++ rs)[i]? = some c → us[i]? = some c := by
      intro qs rs i c hi hc
      rwa [List.append_assoc, List.getElem?_append_left hi] at hc
    -- What is among the parts now was at the same place before, or is new, or was in the list.
    have hat : ∀ {i : Nat} {c : Node}, (us ++ new ++ vs)[i]? = some c →
        (us ++ ws ++ vs)[i]? = some c ∨
          us.length ≤ i ∧ (c ∈ new ∨ ∃ j, us.length ≤ j ∧ (us ++ ws ++ vs)[j]? = some c) := by
      intro i c hc
      by_cases hi : i < us.length
      · refine .inl ?_
        rw [List.append_assoc, List.getElem?_append_left hi]
        exact hhead hi hc
      · refine .inr ⟨by omega, ?_⟩
        rw [List.append_assoc, List.getElem?_append_right (by omega)] at hc
        rcases List.mem_append.mp (List.mem_of_getElem? hc) with hc | hc
        · exact .inl hc
        · obtain ⟨j, hj⟩ := List.getElem?_of_mem hc
          refine .inr ⟨us.length + (ws.length + j), by omega, ?_⟩
          rw [List.append_assoc, List.getElem?_append_right (by omega),
            List.getElem?_append_right (by omega)]
          simpa [show us.length + (ws.length + j) - us.length - ws.length = j by omega] using hj
    -- The declaration that a function definition begins with and the body come before its list.
    have hfirst : ∀ {qs qs' : List Node} {i : Nat} {c : Node}, f.cls = .funcDef → i < 2 →
        (us ++ qs ++ vs)[i]? = some c → (us ++ qs' ++ vs)[i]? = some c := by
      intro qs qs' i c hf hi hc
      have h2 : 2 ≤ us.length := by
        rw [hf] at hlen
        exact hlen
      rw [List.append_assoc, List.getElem?_append_left (by omega)]
      exact hhead (by omega) hc
    have htypes : ((mk m f (us ++ ws ++ vs)).withParts (us ++ new ++ vs)).declaresFunction =
        (mk m f (us ++ ws ++ vs)).declaresFunction := (hdecl _).trans (hdecl _).symm
    refine ⟨rfl, fun h => htypes ▸ h, fun _ => htypes, head?_congr fun hf => ?_,
      hargs.imp_left fun h => ?_, fun hi => ?_, ?_, hfresh⟩
    · obtain ⟨c, hc, -⟩ := (isPlaced_mk.mp hP.placed).2.2.1 hf
      rw [hc, hfirst hf (by decide) hc]
      exact ⟨rfl, rfl⟩
    · rw [exprCount?_of_isA h, exprCount?_of_isA (by simpa [withParts, isA, cls?, form?] using h)]
    · have hi : (mk m f (us ++ new ++ vs)).isInitialized := hi
      rw [isInitialized_of_isA (hnd _)] at hi
      cases hi
    · refine ⟨isPlaced_mk.mpr ⟨fun i c hc hcd => ?_, fun hcase hnil => ?_, fun hf => ?_,
        fun hf c hc => ?_, fun hf => ?_⟩, fun _ hcall => ?_, fun hs hf d hd => ?_,
        fun hs f' hf' i c hc hcs => ?_⟩
      · have hplaced := (isPlaced_mk.mp hP.placed).1
        rcases hat hc with hc | ⟨hi, hmem⟩
        · exact hplaced i c hc hcd
        · -- A declaration in the list shows that the list holds declarations.
          have hholds : ∃ j, us.length ≤ j ∧ f.holdsDecl j := by
            rcases hmem with hc | ⟨j, hj, hc⟩
            · rcases hd with hd | hd
              · rw [hd c hc] at hcd
                cases hcd
              · exact ⟨us.length, Nat.le_refl _, hd.1 f rfl⟩
            · exact ⟨j, hj, hplaced j c hc hcd⟩
          obtain ⟨j, hj, hholds⟩ := hholds
          exact holdsDecl_of_le hholds (by omega) (by omega)
      · -- The value of a case label comes before its list.
        have hne : us ≠ [] := by
          rintro rfl
          rw [hcase] at hlen
          exact absurd hlen (by decide)
        simp_all
      · obtain ⟨c, hc, hd⟩ := (isPlaced_mk.mp hP.placed).2.2.1 hf
        exact ⟨c, hfirst hf (by decide) hc, hd⟩
      · have hold := (isPlaced_mk.mp hP.placed).2.2.2.1 hf
        simp only [List.mem_append] at hc hold
        rcases hc with (hc | hc) | hc
        · exact hold c (.inl (.inl hc))
        · exact hd.elim (fun hd => isInitialized_of_isA (hd c hc)) fun hd =>
            hd.2 (by simp [isA, cls?, form?, hf]) c hc
        · exact hold c (.inr hc)
      · obtain ⟨c, hc, hd⟩ := (isPlaced_mk.mp hP.placed).2.2.2.2 hf
        exact ⟨c, hfirst hf (by decide) hc, hd⟩
      · have hff := (callName?_eq_some.mp hcall).1
        have hff : f = .funcCall := by simpa [withParts, form?] using hff
        subst hff
        cases hlist
      · have hff : f.cls = .funcDef := by simpa [withParts, isA, cls?, form?] using hf
        exact hP.head hs hf d (hfirst hff (by decide) hd)
      · obtain rfl : f = f' := by simpa [withParts, form?] using hf'
        rcases hat hc with hc | ⟨hi, hc | ⟨j, hj, hc⟩⟩
        · exact hP.sorted hs f rfl i c hc hcs
        · rw [hst hs c hc] at hcs
          cases hcs
        · exact holdsStatement_of_le (hP.sorted hs f rfl j c hc hcs) hlist (by omega) (by omega)

end

end Fieldwise.Node
