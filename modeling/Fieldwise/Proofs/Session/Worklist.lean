import Fieldwise.Proofs.Session.Accounting

/-!
# The list of uses that is worked through

The uses of a binding are listed before the first of them is rewritten, and the program changes
while the list is worked through (`Session.Handles`). Each use on it is accounted for
(`Session.Visited.uses_accounted`): after all uses were rewritten it is gone, or there is a warning
that was logged in its turn, or it still initializes a variable of the same aggregate that is
declared. What is gone does not come back meanwhile, as only links are taken out and what is put in
is new (`Session.Keeps.rewrites_rewriteAll`).
-/

namespace Fieldwise

open Node

namespace Engine

/-- A list of uses is worked through in two parts. -/
theorem rewriteAll_append (b : Binding) (ms ns : List Node) : rewriteAll b (ms ++ ns) = (do
    rewriteAll b ms
    rewriteAll b ns) := by
  induction ms with
  | nil => simp [rewriteAll]
  | cons m ms ih =>
    simp only [List.cons_append, rewriteAll, ih, bind_assoc]
    congr 1
    funext s
    split <;> simp

theorem Grows.declare (b : Binding) : Grows (Engine.declare b) :=
  .ite ((refresh b).bind fun _ => (synthesize _).bind fun _ => (edit _).bind fun _ =>
      (record _).bind fun _ => (note _ _).bind fun _ => pure _)
    ((refresh b).bind fun _ => (synthesize _).bind fun _ => (initialValues _ _).bind fun _ =>
      (edit _).bind fun _ => (edit _).bind fun _ => (record _).bind fun _ => pure _)

end Engine

/-- A struct with members is no link, as links hold no declarations. -/
theorem Aggregate.IsOf.isLink_struct [Discipline] {d : Document} {a : Aggregate}
    {known : List String} (ha : a.IsOf known d.root) (h : d.Sound) : a.struct.isLink = false := by
  obtain ⟨f, hf⟩ := List.exists_mem_of_ne_nil _ ha.nonempty
  obtain ⟨m, spec, rest, hm⟩ := (ha.fields f hf).member
  refine Bool.eq_false_iff.mpr fun hl => ?_
  have hpart : Node.mk m (.decl (some f.name) spec) (f.type :: rest) ∈ a.struct.parts := by
    cases hs : a.struct with
    | absent =>
      rw [hs] at hm
      cases hm
    | mk =>
      rw [hs] at hm
      exact List.mem_of_mem_drop hm
  have hplaced := (h.regular _ (Document.mem_trees_of_root ha.struct)).placed
  have := isA_decl_of_isLink hl hplaced hpart
  cases this

namespace Session

variable {s t v w : Session} {a : Aggregate} {b c : Binding} {n : Node}

/-! ### The structs of the aggregates -/

section

variable [Discipline]

/-- The structs of the aggregates are nodes of the document, and no links. -/
def HasStructs (s : Session) : Prop :=
  ∀ a ∈ s.aggregates, s.document.Tracks a.struct ∧ a.struct.isLink = false

theorem HasStructs.based (h : s.HasStructs) : s.Based := fun a ha x hx hk => by
  rw [isLink_congr ((h a ha).1.cls (Document.mem_trees_of_root hx) hk)]
  exact (h a ha).2

theorem HasStructs.continues (h : s.HasStructs)
    (hc : Document.Continues s.document t.document) (ht : t.document.Sound) (hg : s.Grows t) :
    t.HasStructs := fun a ha => by
  rw [hg.aggregates] at ha
  exact ⟨(h a ha).1.continues hc ht, (h a ha).2⟩

theorem Reachable.hasStructs (hd : Discipline.IsLax) (h : Reachable s) : s.HasStructs := by
  induction h with
  | start options taken hroot =>
    have hs := ((Reachable.start options taken hroot).sound hd).document
    obtain ⟨known, haggs⟩ := isOf_start _ options taken
    exact fun a ha => ⟨.of_mem hs (Document.mem_trees_of_root (haggs a ha).struct),
      (haggs a ha).isLink_struct hs⟩
  | @decompose s t a names h hr ih =>
    have hp := ((h.sound hd).settles_decompose a).of_ok hr
    exact ih.continues hp.continues hp.sound.document ((Engine.Grows.decompose a).of_run hr)

theorem Visited.hasStructs (hd : Discipline.IsLax) (h : Visited s) : s.HasStructs := by
  cases h with
  | between h => exact h.hasStructs hd
  | @searching s t v w a earlier later b b' names h hfound hearlier ha hw =>
    have hst := ((h.sound hd).settles_findBindings a).of_ok hfound |>.1
    have hv := h.proceeds hd hfound hearlier
    have hw' := h.declares hd hfound hearlier ha hw
    refine HasStructs.continues (fun a ha => ?_) hw'.continues hw'.sound.document
      ((Engine.Grows.declare b).of_run hw)
    rw [((Engine.Grows.decomposeAttached earlier).of_run hearlier).aggregates, hst.aggregates] at ha
    obtain ⟨htracks, hlink⟩ := h.hasStructs hd a ha
    exact ⟨htracks.continues hv.continues hv.sound.document, hlink⟩

end

/-! ### Bindings of a session -/

section

variable [Discipline]

/-- A binding that is taken from the document is the same when it is taken again. -/
theorem Sound.occurrences_refresh (h : s.Sound) (hb : s.Bound b) :
    s.occurrences (b.refresh s.document) = s.occurrences b := by
  have hdecl : s.document.current b.decl = b.decl := by
    cases hb with
    | declared hm hd hv =>
      rw [(verdictOn_spec hv).declares]
      exact h.document.current_eq (Document.mem_trees_of_root hm) rfl
    | recorded => exact h.document.current_current _
  have hscope := h.document.current_eq (h.scope_mem_trees hb) rfl
  have : b.refresh s.document = { b with aggregate := b.aggregate.refresh s.document } := by
    rw [Binding.refresh, hdecl, hscope]
  rw [this]
  rfl

theorem Sound.knows_of_bound (h : s.Sound) (hb : s.Bound b) : s.document.Knows b := by
  cases hb with
  | declared hm hd hv => exact h.knows_of_isBinding (verdictOn_spec hv) hm hd
  | recorded he => exact (h.decomposed _ he).knows.refresh h.document

/-- An occurrence of a binding is a name of it in the document. -/
theorem Sound.mem_trees_of_occurrences (h : s.Sound) (hb : s.Bound b) (hn : n ∈ s.occurrences b) :
    n ∈ preorderAll s.document.trees ∧ n.form? = some (.ident b.name) := by
  obtain ⟨hn, hf⟩ := Session.mem_occurrences hn
  refine ⟨mem_preorderAll_trans ?_ (h.scope_mem_trees hb), hf⟩
  split at hn
  · exact mem_preorder_trans hn (child_mem_preorder (isPresent_of_preorder hn))
  · exact hn

end

/-! ### Runs over a list -/

/-- A use that is there when its turn comes is rewritten. -/
theorem run_rewriteOccurrence_of_attached (ha : s.document.attached n)
    (hr : s.run (Engine.rewriteAll b [n]) = (.ok (), t)) :
    s.run (Engine.rewriteOccurrence (b.refresh s.document) n) = (.ok (), t) := by
  unfold Engine.rewriteAll at hr
  obtain ⟨_, _, hget, hr⟩ := run_bind_eq_ok.mp hr
  cases hget
  rw [if_pos ha] at hr
  obtain ⟨_, _, hget, hr⟩ := run_bind_eq_ok.mp hr
  cases hget
  obtain ⟨⟨⟩, _, hr, hnil⟩ := run_bind_eq_ok.mp hr
  cases hnil
  exact hr

/-- A warning was logged that a use of the binding is left as it is. -/
def Warns (s t : Session) (b : Binding) : Prop :=
  ∃ new, t.log = new ++ s.log ∧ ∃ e ∈ new, e.notice.level = .warning ∧
    ∃ usage, e.notice = .unsupported usage b.name

section

variable {ns : List Node}

theorem Accounts.rewritesAt (h : Accounts b n s t) (ht : s.document.Tidy) :
    Document.RewritesAt s.document t.document [n] := by
  cases h with
  | gone hr ha => exact hr
  | warned hd hl hrest =>
    rw [hd]
    exact .refl ht

variable [Discipline] {u : Subject} {d : Document} {S : Node} {name : String}

namespace Keeps

variable (h : Keeps u d S s) (hl : Discipline.IsLax) (hb : d.Knows b) (hu : name ∈ u.names)
include h hl hb hu

/-- **One of the uses is accounted for** when its turn comes, if it is there. -/
theorem accounts_turn (hn : n ∈ preorderAll d.trees ∧ n.form? = some (.ident name) ∧
      (n ∈ d.root.preorder → n ∈ preorderAll S.parts)) (ha : s.document.attached n) :
    s.Settles (Engine.rewriteOccurrence (b.refresh s.document) n) fun _ t => Keeps u d S t ∧
      (Accounts b n s t ∨ t.document = s.document ∧ ∃ c, s.DefersTo b n c) := by
  obtain ⟨hnm, hnf, hni⟩ := hn
  have hat := h.isAt hnm hnf hu hni ha
  have hknows := hb.continues h.continues h.sound.document
  have hident : ∀ x ∈ s.document.root.preorder, x.key = n.key → x.isA .ident := fun x hx hk => by
    obtain ⟨x₀, hx₀, hk₀, hf, -⟩ := h.continues.forms x (Document.mem_trees_of_root hx)
      (isOld_of_key (h.start.bound n hnm) hk.symm)
    obtain rfl := h.start.woven.eq_of_key hx₀ hnm (hk₀.trans hk)
    rw [isA, cls?_congr hf.symm, cls?, hnf]
    rfl
  have hrefresh := hknows.refresh h.sound.document
  refine ((h.settles_rewriteOccurrence hrefresh hat).and
    (h.accounts_rewriteOccurrence hl hrefresh hat hident)).mono fun _ t ht => ⟨ht.1, ?_⟩
  refine ht.2.imp (fun hacc => ?_) fun hdef => ?_
  · cases hacc with
    | gone hr hg => exact .gone hr hg
    | warned hd hlog hrest => exact .warned hd (hknows.name_refresh ▸ hlog) hrest
  · obtain ⟨hd, c, hv, hsame, hdefers⟩ := hdef
    exact ⟨hd, c, hv, hsame, hdefers⟩

/-- While uses are rewritten, nothing is taken out but links in which they are. -/
theorem rewrites_rewriteAll (hn : ∀ n ∈ ns, n ∈ preorderAll d.trees ∧
      n.form? = some (.ident name) ∧ (n ∈ d.root.preorder → n ∈ preorderAll S.parts)) :
    s.Settles (Engine.rewriteAll b ns) fun _ t =>
      Keeps u d S t ∧ Document.RewritesAt s.document t.document ns := by
  induction ns generalizing s with
  | nil => exact .pure ⟨h, .refl h.sound.document.tidy⟩
  | cons n ns ih =>
    have hns := fun m hm => hn m (List.mem_cons_of_mem _ hm)
    unfold Engine.rewriteAll
    refine .get_bind ?_
    split
    · rename_i ha
      refine .get_bind ((h.accounts_turn hl hb hu (hn n List.mem_cons_self) ha).bind
        fun _ t ht => ?_)
      obtain ⟨ht, hacc⟩ := ht
      have hst : Document.RewritesAt s.document t.document [n] := by
        rcases hacc with hacc | ⟨hd, -⟩
        · exact hacc.rewritesAt h.sound.document.tidy
        · rw [hd]
          exact .refl h.sound.document.tidy
      exact (ih ht hns).mono fun _ v hv => ⟨hv.1, hst.trans hv.2 h.sound.document.tidy
        ht.sound.document.tidy fun m hm =>
          isOld_mono (h.start.bound m (hns m hm).1) h.continues.next⟩
    · exact (ih h hns).mono fun _ _ hv => ⟨hv.1, hv.2.mono fun _ => List.mem_cons_of_mem _⟩

/-- What becomes of a use when its turn comes, and what is left of it at the end of the list. -/
theorem accounts_rest (hbased : s.Based) (hn : ∀ m ∈ n :: ns, m ∈ preorderAll d.trees ∧
      m.form? = some (.ident name) ∧ (m ∈ d.root.preorder → m ∈ preorderAll S.parts))
    (hturn : s.run (Engine.rewriteAll b [n]) = (.ok (), t))
    (hrest : t.run (Engine.rewriteAll b ns) = (.ok (), v)) :
    v.document.attached n = false ∨ s.Warns t b ∨ ∃ c, s.DefersTo b n c ∧ v.Defers n c := by
  have hnow := hn n List.mem_cons_self
  have hns := fun m hm => hn m (List.mem_cons_of_mem _ hm)
  have hone : ∀ m ∈ [n], _ := fun m hm => hn m (List.mem_cons.mpr (.inl (List.mem_singleton.mp hm)))
  obtain ⟨ht, hst⟩ := (h.rewrites_rewriteAll hl hb hu hone).of_ok hturn
  obtain ⟨hv, htv⟩ := (ht.rewrites_rewriteAll hl hb hu hns).of_ok hrest
  have hold : ∀ {e : Session}, Keeps u d S e → ∀ k, n.key = some k → k < e.document.next :=
    fun he => ((Document.Tracks.of_mem h.start hnow.1).continues he.continues he.sound.document).old
  cases ha : s.document.attached n with
  | false => exact .inl (htv.not_attached (hst.not_attached ha (hold h)) (hold ht))
  | true =>
    obtain ⟨-, hacc | ⟨-, c, hc⟩⟩ := (h.accounts_turn hl hb hu hnow ha).of_ok
      (run_rewriteOccurrence_of_attached ha hturn)
    · cases hacc with
      | gone _ hgone => exact .inl (htv.not_attached hgone (hold ht))
      | warned _ hlog hsuffix =>
        obtain ⟨new, rfl⟩ := hsuffix
        exact .inr (.inl ⟨_ :: new, hlog, _, List.mem_cons_self, rfl, _, rfl⟩)
    · cases hav : v.document.attached n with
      | false => exact .inl rfl
      | true =>
        have hg := ((Engine.Grows.rewriteAll b [n]).of_run hturn).trans
          ((Engine.Grows.rewriteAll b ns).of_run hrest)
        exact .inr (.inr ⟨c, hc, hc.defers.rewritten
          ⟨hst.rewrites.trans htv.rewrites h.sound.document.tidy ht.sound.document.tidy,
            hg.aggregates, h.sound.document, hv.sound.document, hbased⟩ hav⟩)

end Keeps

end

/-- The uses of a binding are worked through from the session `s` to `t`, and the turn of the use
`n` is from `v` to `w`. -/
structure Handles (s : Session) (b : Binding) (earlier : List Node) (n : Node) (later : List Node)
    (v w t : Session) : Prop where
  before : s.run (do
    Engine.note (.occurrences (s.occurrences b).length b.name) b.decl.line
    Engine.rewriteAll b earlier) = (.ok (), v)
  turn : v.run (Engine.rewriteAll b [n]) = (.ok (), w)
  after : w.run (Engine.rewriteAll b later) = (.ok (), t)

/-- The uses of a binding are worked through when they are rewritten. -/
theorem Sound.exists_handles [Discipline] (h : s.Sound) (hb : s.Bound b)
    (hr : s.run (Engine.rewrite b) = (.ok (), t)) {earlier later : List Node}
    (hn : s.occurrences b = earlier ++ n :: later) :
    ∃ v w, s.Handles (b.refresh s.document) earlier n later v w t := by
  unfold Engine.rewrite at hr
  obtain ⟨_, s', hrefresh, hr⟩ := run_bind_eq_ok.mp hr
  obtain ⟨hs', rfl⟩ := (settles_refresh s b).of_ok hrefresh
  rw [hs'] at hr
  obtain ⟨_, _, hget, hr⟩ := run_bind_eq_ok.mp hr
  cases hget
  obtain ⟨⟨⟩, s₁, hnote, hr⟩ := run_bind_eq_ok.mp hr
  rw [h.occurrences_refresh hb, hn, ← List.singleton_append, Engine.rewriteAll_append] at hr
  obtain ⟨⟨⟩, v, hv, hr⟩ := run_bind_eq_ok.mp hr
  rw [Engine.rewriteAll_append] at hr
  obtain ⟨⟨⟩, w, hw, ht⟩ := run_bind_eq_ok.mp hr
  exact ⟨v, w, run_bind_eq_ok.mpr ⟨(), s₁, hnote, hv⟩, hw, ht⟩

/-- The uses of a binding are names of it, in the trees at the start. -/
theorem Sound.of_mem_occurrences [Discipline] (h : s.Sound) (hb : s.Bound b)
    (hn : n ∈ s.occurrences b) : n ∈ preorderAll s.document.trees ∧ n.form? = some (.ident b.name) ∧
      (n ∈ s.document.root.preorder → n ∈ preorderAll s.document.root.parts) := by
  obtain ⟨hnt, hnf⟩ := h.mem_trees_of_occurrences hb hn
  exact ⟨hnt, hnf, fun hnr => h.mem_below_root hnr
    (isLink_of_isA (c := .ident) (by simp [isA, cls?, hnf, Form.cls]) rfl)⟩

/-- What is known while the uses of a binding are worked through. -/
theorem Handles.keeps [Discipline] (hl : Discipline.IsLax) (h : s.Sound) (hb : s.Bound b)
    {earlier later : List Node} (hn : s.occurrences b = earlier ++ n :: later)
    (hrun : s.Handles (b.refresh s.document) earlier n later v w t) :
    Keeps (s.subject [b.refresh s.document]) s.document s.document.root v ∧
      (Keeps (s.subject [b.refresh s.document]) s.document s.document.root w ∧
        Document.RewritesAt v.document w.document [n]) ∧
      Keeps (s.subject [b.refresh s.document]) s.document s.document.root t ∧
        Document.RewritesAt w.document t.document later := by
  have hknows := (h.knows_of_bound hb).refresh h.document
  obtain ⟨⟨⟩, s₁, hnote, hv⟩ := run_bind_eq_ok.mp hrun.before
  have hstart : Within (s.subject [b.refresh s.document]) s := ⟨h, .refl h.document⟩
  have hkeeps := hstart.keeps_root.same ((settles_note _ _).of_ok hnote)
  have hu : b.name ∈ (s.subject [b.refresh s.document]).names := by
    simp [subject, (h.knows_of_bound hb).name_refresh]
  have hocc := fun m (hm : m ∈ earlier ++ n :: later) => h.of_mem_occurrences hb (hn ▸ hm)
  obtain ⟨hv', -⟩ := (hkeeps.rewrites_rewriteAll hl hknows hu fun m hm =>
    hocc m (List.mem_append_left _ hm)).of_ok hv
  have hrest := fun m hm => hocc m (List.mem_append_right earlier hm)
  obtain ⟨hw', hvw⟩ := (hv'.rewrites_rewriteAll hl hknows hu fun m hm =>
    hrest m (List.mem_cons.mpr (.inl (List.mem_singleton.mp hm)))).of_ok hrun.turn
  exact ⟨hv', ⟨hw', hvw⟩, (hw'.rewrites_rewriteAll hl hknows hu fun m hm =>
    hrest m (List.mem_cons_of_mem _ hm)).of_ok hrun.after⟩

/-- A session that decompositions go through, also between the uses of a binding that are
rewritten. -/
inductive Working : Session → Prop where
  | visited {s : Session} : Visited s → Working s
  | rewriting {s v : Session} {b : Binding} {earlier later : List Node} : Visited s → s.Bound b →
    s.occurrences b = earlier ++ later →
    s.run (do
      Engine.note (.occurrences (s.occurrences b).length b.name) b.decl.line
      Engine.rewriteAll (b.refresh s.document) earlier) = (.ok (), v) → Working v

theorem Working.sound [Discipline] (hd : Discipline.IsLax) (h : Working s) : s.Sound := by
  cases h with
  | visited h => exact h.sound hd
  | @rewriting s v b earlier later hs hb hocc hr =>
    have h := hs.sound hd
    obtain ⟨⟨⟩, t, hnote, hr⟩ := run_bind_eq_ok.mp hr
    have hstart : Within (s.subject [b.refresh s.document]) s := ⟨h, .refl h.document⟩
    have hkeeps := hstart.keeps_root.same ((settles_note _ _).of_ok hnote)
    have hknows := h.knows_of_bound hb
    have hu : b.name ∈ (s.subject [b.refresh s.document]).names := by
      simp [subject, hknows.name_refresh]
    exact ((hkeeps.settles_rewriteAll (hknows.refresh h.document) hu fun n hn =>
      h.of_mem_occurrences hb (hocc ▸ List.mem_append_left _ hn)).of_ok hr).sound

/-- **Every use is accounted for** when the uses of a binding are rewritten, in any session that
decompositions go through. At the end it is gone, or a warning that names the binding was logged in
its turn, or it is the operand that initializes a variable of the same aggregate that is still
declared. What is gone when the turn of a use comes is gone after it and at the end. -/
theorem Visited.uses_accounted (hs : Visited s) (hb : s.Bound b)
    (hr : s.run (Engine.rewrite b) = (.ok (), t)) {earlier later : List Node}
    (hn : s.occurrences b = earlier ++ n :: later) :
    ∃ v w, s.Handles (b.refresh s.document) earlier n later v w t ∧
      (t.document.attached n = false ∨ v.Warns w b ∨ ∃ c, v.DefersTo b n c ∧ t.Defers n c) ∧
      ∀ m ∈ s.occurrences b, v.document.attached m = false →
        w.document.attached m = false ∧ t.document.attached m = false := by
  let _ : Discipline := ⟨False, False⟩
  have hl : Discipline.IsLax := ⟨id, id⟩
  have h := hs.sound hl
  have hknows := (h.knows_of_bound hb).refresh h.document
  have hname := (h.knows_of_bound hb).name_refresh
  obtain ⟨v, w, hrun⟩ := h.exists_handles hb hr hn
  obtain ⟨hv', ⟨hw', hvw⟩, -, hwt⟩ := hrun.keeps hl h hb hn
  obtain ⟨⟨⟩, s₁, hnote, hv⟩ := run_bind_eq_ok.mp hrun.before
  have hu : b.name ∈ (s.subject [b.refresh s.document]).names := by simp [subject, hname]
  have hocc := fun m (hm : m ∈ s.occurrences b) => h.of_mem_occurrences hb hm
  have hrest := fun m hm => hocc m (hn ▸ List.mem_append_right earlier hm)
  have hbased : v.Based := ((hs.hasStructs hl).continues hv'.continues hv'.sound.document
    (((Engine.Grows.note _ _).of_run hnote).trans
      ((Engine.Grows.rewriteAll _ _).of_run hv))).based
  refine ⟨v, w, hrun, ?_, fun m hm hgone => ?_⟩
  · rcases hv'.accounts_rest hl hknows hu hbased hrest hrun.turn hrun.after with
      hgone | hwarns | ⟨c, hc, ht⟩
    · exact .inl hgone
    · refine .inr (.inl ?_)
      rwa [Warns, hname] at hwarns
    · exact .inr (.inr ⟨c, ⟨hc.verdict, hc.same, hc.defers⟩, ht⟩)
  · have hm := Document.Tracks.of_mem h.document (hocc m hm).1
    have hgone := hvw.not_attached hgone (hm.continues hv'.continues hv'.sound.document).old
    exact ⟨hgone, hwt.not_attached hgone (hm.continues hw'.continues hw'.sound.document).old⟩

/-- The session in which the uses of the first binding of a program are looked for, and the binding,
if the program can be read and has one. -/
def firstSearch (source : String) : Option (Session × Binding) :=
  match parse source with
  | .error _ => none
  | .ok program =>
    match (Session.start program {} none).aggregates with
    | [] => none
    | a :: _ =>
      match (Session.start program {} none).run (Engine.findBindings a) with
      | (.ok (b :: _), t) =>
        if t.document.attached b.decl then
          match t.run (Engine.declare b) with
          | (.ok b', w) => some (w, b'.refresh w.document)
          | (.error _, _) => none
        else none
      | _ => none

theorem firstSearch_spec {source : String} (h : firstSearch source = some (s, b)) :
    Visited s ∧ s.Bound b := by
  unfold firstSearch at h
  cases hp : parse source with
  | error e => simp [hp] at h
  | ok program =>
    simp only [hp] at h
    have hstart : Reachable (Session.start program {} none) := 
      .start {} none (isSource_of_parse hp)
    generalize Session.start program {} none = s' at h hstart
    split at h
    case h_1 => cases h
    split at h
    case h_2 => cases h
    rename_i first rest _ hfound
    rw [← List.nil_append (first :: rest)] at hfound
    split at h
    case isFalse => cases h
    rename_i ha
    split at h
    case h_2 => cases h
    rename_i hw
    obtain ⟨rfl, rfl⟩ : _ = s ∧ _ = b := by simpa using h
    let _ : Discipline := ⟨False, False⟩
    exact ⟨.searching hstart hfound rfl ha hw, (hstart.declares ⟨id, id⟩ hfound rfl ha hw).bound⟩

/-- A variable that initializes another one, and is assigned to and left alone afterwards. -/
def initializing : String :=
  "struct S \x7bint v;\x7d; void f(void) \x7b struct S x; struct S *q = &x; x.v = 1; x; \x7d"

theorem Visited.uses_accounted_initializing : ∃ s b t n later,
    firstSearch initializing = some (s, b) ∧ s.run (Engine.rewrite b) = (.ok (), t) ∧
      s.occurrences b = [] ++ n :: later ∧ t.document.attached n ∧
      ∃ v w, s.Handles (b.refresh s.document) [] n later v w t ∧
        (t.document.attached n = false ∨ v.Warns w b ∨ ∃ c, v.DefersTo b n c ∧ t.Defers n c) ∧
        ∀ m ∈ s.occurrences b, v.document.attached m = false →
          w.document.attached m = false ∧ t.document.attached m = false := by
  have h : (firstSearch initializing).any (fun r => (r.1.run (Engine.rewrite r.2)).1.isOk &&
      (r.1.occurrences r.2).head?.any (r.1.run (Engine.rewrite r.2)).2.document.attached) =
        true := by decide +kernel
  obtain ⟨⟨s, b⟩, hf, h⟩ := (Option.any_eq_true _ _).mp h
  obtain ⟨hs, hb⟩ := firstSearch_spec hf
  obtain ⟨r, t, hr⟩ : ∃ r t, s.run (Engine.rewrite b) = (r, t) := ⟨_, _, rfl⟩
  rw [hr, Bool.and_eq_true, Option.any_eq_true] at h
  obtain ⟨hok, n, hn, ha⟩ := h
  obtain ⟨later, hn⟩ := List.head?_eq_some_iff.mp hn
  cases r with
  | error f => cases hok
  | ok => exact ⟨s, b, t, n, later, hf, hr, hn, ha, hs.uses_accounted hb hr hn⟩

end Session

end Fieldwise
